import Tomo.Session.Outbound

namespace Tomo
set_option autoImplicit true

inductive ByteSource where
  | frame
  | diskSkip
  | cas
  | unavailable
deriving DecidableEq

/-- Where the bytes of an apply come from, in strict preference order. -/
def byteSource (frameMatches diskMatches casAvailable : Bool) : ByteSource :=
  if frameMatches then .frame
  else if diskMatches then .diskSkip
  else if casAvailable then .cas
  else .unavailable

/-- Whether disk holds an unobserved local edit. -/
def needsLocalReconcile (disk prior : Expectation) (diskIsEcho : Bool) : Bool :=
  !disk.eq prior && !diskIsEcho

/-- Rename staged files into place in order, up to the first failure. -/
def installAll (t : Tree) : List PendingInstall →
    Tree × List PendingInstall × Option (List Name × Errno)
  | [] => (t, [], none)
  | i :: rest =>
    match i.temp with
    | none => (t, i :: rest, some (i.finalPath, .noent))
    | some staged =>
      match t.install i.finalPath staged.node with
      | .error e => (t, i :: rest, some (i.finalPath, e))
      | .ok u =>
        let (v, done, err) := installAll u rest
        (v, { i with temp := none } :: done, err)

/-- The content hash of a message that carries file content over the link. -/
def inflightCost : Message → Nat
  | .change _ (some bytes) | .chunkData _ bytes => bytes.length
  | _ => 0

namespace Session

/-- Install every staged apply behind one barrier and release the batch. -/
def flushInstalls : SessionM Unit := do
  let s ← get
  match installAll s.tree s.pendingInstalls with
  | (tree, pendingInstalls, some (path, e)) => do
    set { s with tree, pendingInstalls }
    throw (.io .renameIntoPlace path e)
  | (tree, _, none) =>
    let createdDirs := if s.pendingInstalls = [] then s.createdDirs else []
    set { s with tree, pendingInstalls := [], createdDirs, pendingRelease := 0 }

/-- Whether a file is staged for a path. -/
def stagedFor (s : Session) (p : RelPath) : Bool :=
  s.pendingInstalls.any fun i => decide (i.path = p)

def flushPendingInstallFor (p : RelPath) : SessionM Unit := do
  let s ← get
  if s.stagedFor p then flushInstalls else pure ()

/-- Note a refusal and schedule a reconciling rescan. -/
def noteApplyRefusal : SessionM Unit := modify fun s => { s with rescanPending := true }

def noteDiskFull : SessionM Unit :=
  modify fun s => { s with diskStalled := true, lastStallRetry := s.nowMs }

/-- Apply a deletion, never removing a directory. -/
def applyAbsentGuarded (p : RelPath) : SessionM Unit := do
  flushPendingInstallFor p
  modify fun s => { s with createdDirs := [] }
  let s ← get
  if pathIsDir s.tree (join s.root p) then set { s with rescanPending := true }
  else match applyAbsent s.tree s.root p with
    | .ok tree => set { s with tree }
    | .error (.refused ..) => noteApplyRefusal
    | .error e => throw e

section
variable [Platform]

/-- Stage one present file into the batch. -/
def writePresent (p : RelPath) (sig : ContentSig) (bytes : Bytes) : SessionM Unit := do
  flushPendingInstallFor p
  let s ← get
  let staged := stagePresent s.tree s.root s.diskFull s.wallMs s.createdDirs p sig bytes
  set { s with tree := staged.tree, createdDirs := staged.createdDirs }
  match staged.result with
  | .ok temp =>
    modify fun s => { s with
      pendingInstalls := s.pendingInstalls ++ [⟨some temp, join s.root p, p, sig⟩] }
  | .error (.refused ..) => noteApplyRefusal
  | .error (.io _ _ .nospc) => noteDiskFull
  | .error e => throw e

/-- Resolve a file/directory collision before writing; `false` where the apply is skipped. -/
def preparePresentTarget (p : RelPath) (sig : ContentSig) (remoteBytes : Option Bytes) :
    SessionM Bool := do
  let s ← get
  match typeCollision s.tree s.root p.components with
  | none => pure true
  | some .targetIsDir => do
    preserveIncomingFile p sig remoteBytes
    modify fun s => { s with rescanPending := true }
    pure false
  | some (.parentIsFile ancestor) => do
    let cleared ← preserveAndClearObstructingFile ancestor
    modify fun s => { s with rescanPending := true }
    pure cleared

/-- Materialize `sig` at `p` from the frame, the disk or the history, in that order. -/
def materialize (p : RelPath) (sig : ContentSig) (remoteBytes : Option Bytes) :
    SessionM Unit := do
  let s ← get
  let frame := remoteBytes.filter fun b => matchesSig b sig
  let diskMatches := frame.isNone && (readVerified s.tree s.root p sig).isSome
  let cas ← liftHistory (if frame.isSome || diskMatches then .ok none
    else s.history.contentByHash sig.hash)
  match byteSource frame.isSome diskMatches cas.isSome with
  | .frame => writePresent p sig (frame.getD [])
  | .diskSkip =>
    match setExecMode s.tree s.root p sig.exec with
    | .ok tree => modify fun s => { s with tree }
    | .error e => throw e
  | .cas => writePresent p sig (cas.getD [])
  | .unavailable => modify fun s => { s with rescanPending := true }

def applyPresentBySig (p : RelPath) (sig : ContentSig) (remoteBytes : Option Bytes) :
    SessionM Unit := do
  if ← preparePresentTarget p sig remoteBytes then materialize p sig remoteBytes

def doApply (p : RelPath) (target : Expectation) (remoteBytes : Option Bytes) : SessionM Unit :=
  match target with
  | .present sig => applyPresentBySig p sig remoteBytes
  | .absent => applyAbsentGuarded p

/-- Pass 1 of `execute`: the bytes of every conflict, while the tree still holds the losers. -/
def conflictCaptures (s : Session) (remoteBytes : Option Bytes)
    (remoteVersion : Option VectorClock) (actions : List Action) : List ConflictCapture :=
  actions.filterMap fun
    | .conflictResolved path winner winnerVersion loser loserVersion adopted => some {
        path, winner, winnerVersion, loser, loserVersion, adopted
        winnerIsLocal := !decide (remoteVersion = some winnerVersion)
        winnerBytes := s.captureConflictBytes path winner remoteBytes
        loserIsLocal := !decide (remoteVersion = some loserVersion)
        loserBytes := s.captureConflictBytes path loser remoteBytes }
    | _ => none

/-- Pass 2 of `execute`: every action in order; each conflict takes the next capture. -/
def executeActions (remoteBytes : Option Bytes) (remoteVersion : Option VectorClock)
    (nowMs : Nat) (conflictVersions : List (RelPath × VectorClock)) :
    List Action → List ConflictCapture → SessionM Unit
  | [], _ => pure ()
  | .send change :: rest, captures => do
    doSend change
    executeActions remoteBytes remoteVersion nowMs conflictVersions rest captures
  | .apply path target :: rest, captures => do
    doApply path target remoteBytes
    executeActions remoteBytes remoteVersion nowMs conflictVersions rest captures
  | .recordVersion path state version :: rest, captures => do
    if (path, version) ∈ conflictVersions then pure ()
    else noteVersion path state version (!decide (remoteVersion = some version)) nowMs
    executeActions remoteBytes remoteVersion nowMs conflictVersions rest captures
  | .conflictResolved .. :: rest, [] =>
    executeActions remoteBytes remoteVersion nowMs conflictVersions rest []
  | .conflictResolved .. :: rest, capture :: captures => do
    discard (recordConflictCapture capture)
    executeActions remoteBytes remoteVersion nowMs conflictVersions rest captures

/-- Execute the engine's actions in two passes. -/
def execute (actions : List Action) (remoteBytes : Option Bytes)
    (remoteVersion : Option VectorClock) : SessionM Unit := do
  let s ← get
  let captures := s.conflictCaptures remoteBytes remoteVersion actions
  let conflictVersions := captures.flatMap fun c =>
    [(c.path, c.winnerVersion), (c.path, c.loserVersion)]
  executeActions remoteBytes remoteVersion s.nowMs conflictVersions actions captures

/-- Feed one event to the engine and keep what it asks for. -/
def handleEvent (ev : Event) : SessionM (List Action) := do
  let s ← get
  let (engine, actions) := s.engine.handle ev
  set { s with engine }
  pure actions

def markDirty : SessionM Unit := modify fun s => { s with indexDirty := true }

/-- What disk holds at `p`; a stat error is fatal. -/
def diskExpectation (s : Session) (p : RelPath) : Except CliError Expectation :=
  match snapshot s.tree s.root p with
  | .ok (some sig) => .ok (.present sig)
  | .ok none => .ok .absent
  | .error e => .error (.snapshot p e)

def priorExpectation (s : Session) (p : RelPath) : Expectation :=
  match s.engine.index.get p with
  | some e => expectationFromState e.winner.state
  | none => .absent

/-- The change that was observed where the disk holds `disk`. -/
def observedKind : Expectation → ChangeKind
  | .present sig => .modified sig
  | .absent => .removed

/-- Feed an unobserved local edit of `p` to the engine before a remote change is absorbed. -/
def reconcileUnobservedLocal (p : RelPath) : SessionM Unit := do
  let s ← get
  match s.diskExpectation p with
  | .error e => throw e
  | .ok disk =>
    if needsLocalReconcile disk (s.priorExpectation p) (s.engine.isExpectedEcho p disk) then
      let actions ← handleEvent (.local ⟨p, observedKind disk⟩)
      markDirty
      execute actions none none
    else pure ()

/-- Keep a refused collision's incoming version in history. -/
def preserveCollidedIncoming (p : RelPath) (sig : ContentSig) (version : VectorClock)
    (remoteBytes : Option Bytes) : SessionM Unit := do
  let s ← get
  if (s.history.log p).any fun m =>
      decide (m.clock = version) && sameState m.state (.present sig) then pure ()
  else
    match ← incomingBytes sig remoteBytes with
    | some bytes => discard (storeVersion p (.present sig) version false (some bytes))
    | none => pure ()

/-- Whether two different paths are one file on a case-insensitive file system. -/
def collides (incoming existing : RelPath) : Bool :=
  decide (incoming.raw ≠ existing.raw) &&
    decide (Platform.lowercase incoming.raw = Platform.lowercase existing.raw)

/-- Whether a file would overwrite another indexed one under case folding. -/
def collidesWithExisting (s : Session) (p : RelPath) : Bool :=
  s.fs.caseInsensitive && s.engine.index.iter.any fun e => match e.2.winner.state with
    | .present _ => collides p e.1
    | .tombstone => false

/-- Refuse an incoming file that would overwrite another one under case folding. -/
def caseCollisionRefused (change : RemoteChange) (remoteBytes : Option Bytes) : SessionM Bool := do
  let s ← get
  match change.kind with
  | .removed => pure false
  | .modified sig =>
    if s.collidesWithExisting change.path then do
      preserveCollidedIncoming change.path sig change.version remoteBytes
      pure true
    else pure false

/-- Absorb a remote change and carry out what follows from it. -/
def absorbAndExecute (change : RemoteChange) (bytes : Option Bytes) : SessionM Unit := do
  let actions ← handleEvent (.remote change)
  markDirty
  execute actions bytes (some change.version)

/-- An inline change frame. -/
def onChange (change : RemoteChange) (bytes : Option Bytes) : SessionM Unit := do
  let s ← get
  if s.allowCrossing change.path .inbound then
    if ← caseCollisionRefused change bytes then pure ()
    else
      flushQueuedSend change.path
      flushPendingInstallFor change.path
      modify fun s => s.abandonSuperseded change.path
      reconcileUnobservedLocal change.path
      absorbAndExecute change bytes
  else pure ()

/-- Ask for the next chunks of an assembly. -/
def requestNextBatch (p : RelPath) : SessionM Unit := do
  let s ← get
  match s.assemblies[p]? with
  | none => pure ()
  | some a =>
    let batch := nextRequestBatch a.manifest a.received a.requested
    if batch = [] then pure ()
    else
      set { s with assemblies := s.assemblies.insert p { a with requested := a.requested ++ batch } }
      send (.chunkRequest batch)

/-- The chunk files of a manifest, one after the other. -/
def assembleChunks (files : Std.ExtTreeMap ContentHash Bytes) : List ContentHash → Option Bytes
  | [] => some []
  | h :: rest =>
    match files[h]? with
    | none => none
    | some chunk =>
      if Platform.blake3 chunk = h then (assembleChunks files rest).map (chunk ++ ·) else none

/-- Reassemble, verify, then absorb and apply like an inline frame. -/
def completeAssembly (p : RelPath) : SessionM Unit := do
  let s ← get
  match s.assemblies[p]? with
  | none => pure ()
  | some a =>
    let bytes := (assembleChunks s.chunkFiles a.manifest).filter fun b => matchesSig b a.sig
    set ({ s with assemblies := s.assemblies.erase p }.cleanAssemblyChunks a)
    match bytes with
    | none => modify fun s => { s with rescanPending := true }
    | some bytes => do
      flushPendingInstallFor a.change.path
      if ← caseCollisionRefused a.change (some bytes) then pure ()
      else
        reconcileUnobservedLocal a.change.path
        absorbAndExecute a.change (some bytes)

/-- Complete an assembly that has every chunk, or ask for more. -/
def advanceAssembly (p : RelPath) : SessionM Unit := do
  let s ← get
  match s.assemblies[p]? with
  | some a => if isComplete a.manifest a.received then completeAssembly p else requestNextBatch p
  | none => requestNextBatch p

/-- A manifest frame: start an assembly, replacing any for the same path. -/
def onChangeManifest (change : RemoteChange) (totalSize : Nat) (manifest : List ContentHash) :
    SessionM Unit := do
  let s ← get
  if s.allowCrossing change.path .inbound then
    flushQueuedSend change.path
    match change.kind with
    | .removed => pure ()
    | .modified sig =>
      modify fun s => s.abandonSuperseded change.path
      modify fun s => { s with
        assemblies := s.assemblies.insert change.path ⟨change, sig, manifest, [], [], totalSize⟩ }
      advanceAssembly change.path
  else pure ()

/-- A chunk file whose writing ran out of space: what it held is gone. -/
def tornChunk (s : Session) (hash : ContentHash) : Session :=
  { s with chunkFiles := s.chunkFiles.insert hash [] }

/-- The assembly a chunk goes to: the first that lacks it. -/
def chunkTaker (order : List (RelPath × Assembly)) (hash : ContentHash) :
    Option (RelPath × Assembly) :=
  order.find? fun e => decide (hash ∉ e.2.received) && decide (hash ∈ e.2.manifest)

/-- One chunk, the assemblies standing in some order: verify it, keep it, and go on. -/
def takeChunk (order : List (RelPath × Assembly)) (hash : ContentHash) (bytes : Bytes) :
    SessionM Unit := do
  let s ← get
  match chunkTaker order hash with
  | none => pure ()
  | some (p, a) =>
    if Platform.blake3 bytes ≠ hash then
      let a := { a with requested := a.requested.filter fun h => h ≠ hash }
      set { s with assemblies := s.assemblies.insert p a }
      requestNextBatch p
    else if s.diskFull then
      set ((s.tornChunk hash).abandonAssembly p)
      noteDiskFull
    else
      set { s with
        chunkFiles := s.chunkFiles.insert hash bytes
        assemblies := s.assemblies.insert p { a with received := hash :: a.received } }
      advanceAssembly p

def onChunkData (hash : ContentHash) (bytes : Bytes) : SessionM Unit := do
  let s ← get
  takeChunk s.assemblies.toList hash bytes

/-- Serve the chunks a peer asks for from the files as they are now. -/
def onChunkRequest (hashes : List ContentHash) : SessionM Unit := do
  let s ← get
  let serve (r : List ContentHash × List Message) (e : RelPath × List (ContentHash × (Nat × Nat))) :=
    match s.tree.read (join s.root e.1) with
    | .error _ => r
    | .ok bytes => e.2.foldl (fun (want, out) (hash, range) =>
        if hash ∈ want ∧ range.1 + range.2 ≤ bytes.length ∧
            Platform.blake3 (slice bytes range) = hash then
          (want.filter fun h => h ≠ hash, out ++ [.chunkData hash (slice bytes range)])
        else (want, out)) r
  let (_, out) := s.outboundManifests.toList.foldl serve (hashes, [])
  set { s with pendingChunks := s.pendingChunks ++ out }

/-- A chunk of a file that the peer was sent a manifest of. -/
def Hands (s : Session) (m : Message) : Prop :=
  ∃ p chunks content hash range, s.outboundManifests[p]? = some chunks ∧
    s.tree.read (join s.root p) = .ok content ∧ m = .chunkData hash (slice content range)

theorem onChunkRequest_exec (hashes : List ContentHash) (s : Session) :
    ∃ out, (onChunkRequest hashes).exec s =
      (.ok ⟨⟩, { s with pendingChunks := s.pendingChunks ++ out }) ∧ ∀ m ∈ out, s.Hands m := by
  refine ⟨_, rfl, ?_⟩
  have hslices (content : Bytes) (hc : ∀ hash range, s.Hands (.chunkData hash (slice content range)))
      (l : List (ContentHash × (Nat × Nat))) (r : List ContentHash × List Message)
      (hr : ∀ m ∈ r.2, s.Hands m) :
      ∀ m ∈ (l.foldl (fun (want, out) (hash, range) =>
        if hash ∈ want ∧ range.1 + range.2 ≤ content.length ∧
            Platform.blake3 (slice content range) = hash then
          (want.filter fun h => h ≠ hash, out ++ [.chunkData hash (slice content range)])
        else (want, out)) r).2, s.Hands m := by
    induction l generalizing r with
    | nil => exact hr
    | cons e l ih =>
      rw [List.foldl_cons]
      apply ih
      dsimp only
      split
      · intro m hm
        rcases List.mem_append.1 hm with hm | hm
        · exact hr m hm
        · cases List.mem_singleton.1 hm
          exact hc e.1 e.2
      · exact hr
  have hfiles (l : List (RelPath × List (ContentHash × (Nat × Nat))))
      (hl : ∀ e ∈ l, s.outboundManifests[e.1]? = some e.2) (r : List ContentHash × List Message)
      (hr : ∀ m ∈ r.2, s.Hands m) :
      ∀ m ∈ (l.foldl (fun r e => match s.tree.read (join s.root e.1) with
        | .error _ => r
        | .ok bytes => e.2.foldl (fun (want, out) (hash, range) =>
            if hash ∈ want ∧ range.1 + range.2 ≤ bytes.length ∧
                Platform.blake3 (slice bytes range) = hash then
              (want.filter fun h => h ≠ hash, out ++ [.chunkData hash (slice bytes range)])
            else (want, out)) r) r).2, s.Hands m := by
    induction l generalizing r with
    | nil => exact hr
    | cons e l ih =>
      rw [List.foldl_cons]
      apply ih fun e' he' => hl e' (List.mem_cons_of_mem e he')
      cases hread : s.tree.read (join s.root e.1) with
      | error _ => exact hr
      | ok content =>
        apply hslices content _ e.2 r hr
        intro hash range
        exact ⟨e.1, e.2, content, hash, range, hl e List.mem_cons_self, hread, rfl⟩
  apply hfiles s.outboundManifests.toList _ (hashes, [])
  · intro m hm
    cases hm
  · intro e he
    exact Std.ExtTreeMap.mem_toList_iff_getElem?_eq_some.1 he

end

end Session

end Tomo
