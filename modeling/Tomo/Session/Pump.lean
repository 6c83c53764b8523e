import Tomo.Lib.Resolution
import Tomo.Session.Inbound

namespace Tomo
set_option autoImplicit true

/-- Whether a message carries file content, as opposed to handshake or control. -/
def isContentFrame : Message → Bool
  | .change .. | .changeManifest .. | .chunkRequest _ | .chunkData .. => true
  | _ => false

/-- One item of a burst: whether the link is found broken from it on, and what the batch clock
reads after it. -/
structure Arrival where
  item : Incoming
  linkBreaks : Bool
  elapsedMs : Nat
deriving DecidableEq

/-- The path a queued watch signal is about. -/
def Incoming.watched : Incoming → Option RelPath
  | .watch (.pending rel _) => some rel
  | _ => none

/-- Drop every watch signal that a later one of the same burst for its path replaces. -/
def coalesceBurst : List Arrival → List Arrival
  | [] => []
  | a :: rest =>
    match a.item.watched with
    | some p => if rest.any fun b => decide (b.item.watched = some p) then coalesceBurst rest
      else a :: coalesceBurst rest
    | none => a :: coalesceBurst rest

section
variable [Platform]

/-- What a watch signal says of the disk; a gone path is trusted without a look. -/
def resolve (t : Tree) (root : List Name) (rel : RelPath) : PendingKind → Except Errno ChangeKind
  | .gone => .ok .removed
  | .dirty => do
    match ← snapshot t root rel with
    | some sig => pure (.modified sig)
    | none => pure .removed

/-- The repo-relative path of what a walk finds, canonical where the file system normalizes. -/
def relativize (fs : FsSemantics) (comps : List Name) : Except PathError RelPath :=
  let joined := ['/'].intercalate comps
  RelPath.new (if fs.normalizesUnicode then Platform.nfc joined else joined)

/-- The regular files a full walk visits, with their signatures, in path order. Directories the
rules ignore are not entered, nor are links. -/
def walkTree (s : Session) : Except CliError (Std.ExtTreeMap RelPath ContentSig) :=
  match s.tree.canonicalize s.root with
  | .error e => .error (.scan s.root e)
  | .ok base =>
    let entered (comps : List Name) : Bool :=
      (List.range comps.length).all fun k =>
        match relativize s.fs (comps.take (k + 1)) with
        | .ok rel => decide ((s.config.classify rel).cls ≠ .ignored)
        | .error _ => false
    s.tree.nodes.toList.foldlM (fun out e =>
      let comps := e.1.drop base.length
      if base <+: e.1 ∧ s.tree.isFile e.1 ∧ entered comps then
        match relativize s.fs comps with
        | .error _ => .ok out
        | .ok rel =>
          match snapshot s.tree s.root rel with
          | .ok (some sig) => .ok (out.insert rel sig)
          | .ok none => .ok out
          | .error errno => .error (.scan (join s.root rel) errno)
      else .ok out) ∅

/-- Whether the disk shows another version than the index at a path. -/
def diskDiffers (index : Index) (p : RelPath) (sig : ContentSig) : Bool :=
  match (index.get p).map fun e : Entry => e.winner.state with
  | some (.present prev) => !prev.eq sig
  | some .tombstone | none => true

/-- The local changes that bring the index in line with the disk, in path order. -/
def scanDiff (s : Session) : Except CliError (List LocalChange) := do
  let onDisk ← walkTree s
  let modified := onDisk.toList.foldl (fun m (e : RelPath × ContentSig) =>
    if diskDiffers s.engine.index e.1 e.2 then m.insert e.1 (ChangeKind.modified e.2) else m)
    (∅ : Std.ExtTreeMap RelPath ChangeKind)
  let changes := s.engine.index.iter.foldl (fun m (e : RelPath × Entry) =>
    match e.2.winner.state with
    | .present _ =>
      if onDisk[e.1]?.isNone ∧ (s.config.classify e.1).cls ≠ .ignored then m.insert e.1 .removed
      else m
    | .tombstone => m) modified
  pure (changes.toList.map fun e => ⟨e.1, e.2⟩)

end

namespace Session

/-- Ship our index, so that the peer ships every head we do not cover. -/
def resyncIndices : SessionM Unit := do
  let s ← get
  if s.transport.isSome then send (.indexExchange s.engine.index) else pure ()

def enterPause : SessionM Unit := do
  modify suspendTransfers
  send .pause

def exitPause : SessionM Unit := do
  send .resume
  resyncIndices

/-- Act on the shared pause flag, once per edge. -/
def reconcilePauseState : SessionM Unit := do
  let s ← get
  if s.paused = s.pausedActed then pure ()
  else
    set { s with pausedActed := s.paused }
    if s.paused then enterPause else exitPause

def onPeerPause : SessionM Unit :=
  modify fun s => if s.peerPaused then s else { s with peerPaused := true }.suspendTransfers

def onPeerResume : SessionM Unit := do
  modify fun s => { s with peerPaused := false }
  resyncIndices

/-- A transport has come up, at first or again; the peer is greeted. -/
def onConnected : SessionM Unit := do
  modify fun s => { s with transport := some ⟨false⟩ }
  let s ← get
  send (.hello protocolVersion s.binaryVersion s.engine.replica)

/-- The handshake; a version skew over SSH asks for a new push, elsewhere it is fatal. -/
def onHello (protocol : Nat) (binaryVersion : List Char) (replica : ReplicaId) :
    SessionM Unit := do
  let s ← get
  if protocol ≠ protocolVersion then throw (.protocolMismatch protocol)
  else if binaryVersion ≠ s.binaryVersion then
    if s.overSsh then set { s with repushRequested := true }
    else throw (.versionMismatch binaryVersion)
  else
    set { s with helloReceived := true, connected := true, peerReplica := some replica }
    send (.indexExchange s.engine.index)
    let s ← get
    if s.paused then send .pause else pure ()

section
variable [Platform]

def onMessage (msg : Message) : SessionM Unit := do
  let s ← get
  if s.paused && isContentFrame msg then pure ()
  else match msg with
    | .hello protocol binaryVersion replica => onHello protocol binaryVersion replica
    | .indexExchange peer => modify fun s => s.reconcile peer
    | .change change bytes => onChange change bytes
    | .changeManifest change totalSize manifest => onChangeManifest change totalSize manifest
    | .chunkRequest hashes => onChunkRequest hashes
    | .chunkData hash bytes => onChunkData hash bytes
    | .ping nonce => send (.pong nonce)
    | .pong _ => pure ()
    | .pause => onPeerPause
    | .resume => onPeerResume

def winnerIsNonempty (s : Session) (p : RelPath) : Bool :=
  match (s.engine.index.get p).map fun e : Entry => e.winner.state with
  | some (.present sig) => decide (0 < sig.size)
  | _ => false

/-- The change a watch signal becomes: a stale removal is read again from disk, and so is an
empty file where the winner is not empty. -/
def observe (s : Session) (rel : RelPath) (kind : ChangeKind) : ChangeKind :=
  let again (kind : ChangeKind) := match snapshot s.tree s.root rel with
    | .ok (some sig) => .modified sig
    | _ => kind
  let kind := match kind with
    | .removed => again kind
    | .modified _ => kind
  match kind with
  | .modified sig => if sig.size = 0 ∧ s.winnerIsNonempty rel then again kind else kind
  | .removed => kind

/-- Feed one local change to the engine and carry out what follows. -/
def absorbLocal (change : LocalChange) : SessionM Unit := do
  let actions ← handleEvent (.local change)
  if actions = [] then pure () else markDirty
  execute actions none none

def onWatch (signal : WatchSignal) : SessionM Unit := do
  match signal with
  | .needsRescan => modify fun s => { s with rescanPending := true }
  | .pending rel kind => do
    flushPendingInstallFor rel
    let s ← get
    match resolve s.tree s.root rel kind with
    | .error _ => set { s with rescanPending := true }
    | .ok kind => absorbLocal ⟨rel, s.observe rel kind⟩

/-- Diff the tree against the index and absorb the differences. -/
def rescan : SessionM Unit := do
  let s ← get
  match scanDiff s with
  | .error e => throw e
  | .ok changes => changes.forM absorbLocal

/-- Catch up with the edits made while the program was not running. -/
def startupScan : SessionM Unit := do
  let s ← get
  match scanDiff s with
  | .error e => throw e
  | .ok changes => changes.forM fun change => do
    let actions ← handleEvent (.local change)
    execute actions none none

/-- The deferred rescan, once the session is quiet. -/
def maybeRescan : SessionM Unit := do
  let s ← get
  if !s.rescanPending ∨ s.nowMs - s.lastActivity < rescanQuiescentMs then pure ()
  else
    set { s with rescanPending := false }
    rescan

/-- While stalled on a full disk, ask again for what we lack by sending our index. -/
def maybeRetryStall : SessionM Unit := do
  let s ← get
  if !s.diskStalled ∨ s.transport.isNone ∨ !s.helloReceived ∨
      s.nowMs - s.lastStallRetry < stallRetryMs then pure ()
  else
    set { s with lastStallRetry := s.nowMs, diskStalled := false }
    send (.indexExchange s.engine.index)

/-- Process one item; `true` asks the pump to leave. -/
def processIncoming (item : Incoming) : SessionM Bool := do
  match item with
  | .watch signal => do
    modify fun s => { s with lastActivity := s.nowMs }
    onWatch signal
    pure false
  | .message msg => do
    modify fun s => { s with
      lastActivity := s.nowMs, pendingRelease := s.pendingRelease + inflightCost msg }
    onMessage msg
    pure false
  | .peerEof => do
    let s ← get
    if s.reconnecting then
      set s.goOffline
      pure false
    else pure true
  | .protoError => do
    let s ← get
    if s.reconnecting then
      set s.goOffline
      pure false
    else throw .transport
  | .shutdown => pure true
  | .pause | .resume => do
    reconcilePauseState
    pure false

/-- Whether the staged batch has reached its byte, file or wall bound. -/
def installBatchFull (s : Session) (elapsedMs : Nat) : Bool :=
  decide (installBatchBytes ≤ s.pendingRelease) ||
    decide (installBatchFiles ≤ s.pendingInstalls.length) ||
    (!s.pendingInstalls.isEmpty && decide (installBatchMaxMs ≤ elapsedMs))

/-- The loop of `process_burst` over the coalesced items. -/
def processItems : List Arrival → SessionM Bool
  | [] => pure false
  | a :: rest => do
    if a.linkBreaks then modify fun s => { s with transport := s.transport.map fun _ => ⟨true⟩ }
    if ← processIncoming a.item then pure true
    else
      let s ← get
      if s.repushRequested then pure true
      else
        if s.installBatchFull a.elapsedMs then flushInstalls
        processItems rest

/-- Process a burst, then install whatever is staged, also after an error. -/
def processBurst (batch : List Arrival) : SessionM Bool := do
  let leave ← try Except.ok <$> processItems (coalesceBurst batch) catch e => pure (.error e)
  let flush ← try Except.ok <$> flushInstalls catch e => pure (.error e)
  match leave, flush with
  | .error e, _ => throw e
  | .ok _, .error e => throw e
  | .ok leave, .ok _ => pure leave

end

end Session

end Tomo
