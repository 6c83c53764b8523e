import Tomo.Session.Capture

namespace Tomo
set_option autoImplicit true

inductive Flow where
  | inbound
  | outbound
deriving DecidableEq

inductive Crossing where
  | ship
  | apply
  | drop
deriving DecidableEq

/-- Whether a change may cross the sync boundary, by class, direction and flow. -/
def decideCrossing (cls : PathClass) (direction : Direction) (flow : Flow) : Crossing :=
  if cls = .ignored then .drop
  else match flow, direction with
    | .outbound, .both | .outbound, .push => .ship
    | .outbound, .pull => .drop
    | .inbound, .both | .inbound, .pull => .apply
    | .inbound, .push => .drop

/-- The chunks of a large content as `(hash, range)` pairs. -/
def chunkBytes [Platform] (bytes : Bytes) : List (ContentHash × (Nat × Nat)) :=
  (Platform.fastcdc bytes).map fun range => (Platform.blake3 (slice bytes range), range)

/-- The manifest hashes not held yet, in order, each once. -/
def missingChunks (manifest received : List ContentHash) : List ContentHash :=
  manifest.foldl (fun out h => if h ∈ received ∨ h ∈ out then out else out ++ [h]) []

def nextRequestBatch (manifest received requested : List ContentHash) : List ContentHash :=
  ((missingChunks manifest received).filter fun h => h ∉ requested).take requestBatch

def isComplete (manifest received : List ContentHash) : Bool :=
  manifest.all fun h => decide (h ∈ received)

def supersedes (assemblyPath incomingPath : RelPath) : Bool := decide (assemblyPath = incomingPath)

namespace Session

def allowCrossing (s : Session) (p : RelPath) (flow : Flow) : Bool :=
  let c := s.config.classify p
  match decideCrossing c.cls c.direction flow with
  | .ship | .apply => true
  | .drop => false

/-- Whether the session chases a dropped peer. -/
def reconnecting (s : Session) : Bool :=
  match s.reconnectPlan with
  | .localPeer | .ssh => true
  | .none => false

def outboundSuspended (s : Session) : Bool := s.paused || s.peerPaused

/-- Forget the chunk files of an assembly that no other assembly needs. -/
def cleanAssemblyChunks (s : Session) (a : Assembly) : Session :=
  let stale := a.received.filter fun h => !s.assemblies.toList.any fun e => decide (h ∈ e.2.manifest)
  { s with chunkFiles := stale.foldl (fun m h => m.erase h) s.chunkFiles }

/-- Drop the assembly of one path with its chunk files. -/
def abandonAssembly (s : Session) (p : RelPath) : Session :=
  match s.assemblies[p]? with
  | some a => { s with assemblies := s.assemblies.erase p }.cleanAssemblyChunks a
  | none => s

/-- Drop every assembly that a change for `incoming` supersedes. -/
def abandonSuperseded (s : Session) (incoming : RelPath) : Session :=
  (s.assemblies.keys.filter fun p => supersedes p incoming).foldl abandonAssembly s

def abandonAllAssemblies (s : Session) : Session :=
  let all := s.assemblies.toList
  all.foldl (fun s e => s.cleanAssemblyChunks e.2) { s with assemblies := ∅ }

/-- Discard staged applies without renaming them into place. -/
def abandonPendingInstalls (s : Session) : Session :=
  { s with pendingInstalls := [], createdDirs := [], pendingRelease := 0 }

/-- Abandon every in-flight transfer in both directions. -/
def suspendTransfers (s : Session) : Session :=
  { s.abandonAllAssemblies with
    pendingChunks := []
    pendingSends := []
    outboundManifests := ∅ }.abandonPendingInstalls

/-- Retire the transport; a fresh reconcile rebuilds the transfers after a reconnect. -/
def goOffline (s : Session) : Session :=
  match s.transport with
  | none => s
  | some _ => { s with transport := none, connected := false, helloReceived := false }.suspendTransfers

/-- Write frames to the peer: what a broken link does to them depends on the mode. -/
def ship (msgs : List Message) : SessionM Unit := do
  let s ← get
  match s.transport with
  | none => pure ()
  | some t =>
    if t.broken then
      if s.reconnecting then set s.goOffline else throw .transport
    else set { s with sent := s.sent ++ msgs }

def send (msg : Message) : SessionM Unit := ship [msg]

section
variable [Platform]

/-- Remember the chunk ranges of a large content and announce its manifest. -/
def buildManifest (change : RemoteChange) (bytes : Bytes) : SessionM Message := do
  let chunks := chunkBytes bytes
  modify fun s => { s with outboundManifests := s.outboundManifests.insert change.path chunks }
  pure (.changeManifest change bytes.length (chunks.map Prod.fst))

/-- Turn a change into the frame to ship, or drop it. -/
def prepareSend (change : RemoteChange) : SessionM (Option Message) := do
  let s ← get
  if s.transport.isNone ∨ s.outboundSuspended ∨ !s.allowCrossing change.path .outbound then
    pure none
  else match change.kind with
    | .removed => pure (some (.change change none))
    | .modified sig =>
      let current := (s.tree.read (join s.root change.path)).toOption
      if shouldSend current sig then
        let bytes := current.getD []
        if inlineThreshold ≤ bytes.length then some <$> buildManifest change bytes
        else pure (some (.change change (some bytes)))
      else pure none

/-- Ship a live change at once. -/
def doSend (change : RemoteChange) : SessionM Unit := do
  match ← prepareSend change with
  | some msg => send msg
  | none => pure ()

/-- Queue a bulk change unless its path is queued already. -/
def enqueueBulkSend (s : Session) (change : RemoteChange) : Session :=
  if s.pendingSends.any fun c => decide (c.path = change.path) then s
  else { s with pendingSends := s.pendingSends ++ [change] }

/-- The heads of our index that no head of the peer's covers, in index order. -/
def uncoveredHeads (index peer : Index) : List RemoteChange :=
  index.iter.flatMap fun (p, entry) =>
    (entry.heads.filter fun h => match peer.get p with
      | some peerEntry => !Engine.covered h.version peerEntry.heads
      | none => true).map fun h => ⟨p, kindFromState h.state, h.version⟩

/-- Queue every head the peer does not cover. -/
def reconcile (s : Session) (peer : Index) : Session :=
  (uncoveredHeads s.engine.index peer).foldl enqueueBulkSend s

/-- Ship a queued bulk change of `p` before an inbound change of `p` is applied. -/
def flushQueuedSend (p : RelPath) : SessionM Unit := do
  let s ← get
  match s.pendingSends.find? fun c => decide (c.path = p) with
  | none => pure ()
  | some change => do
    set { s with pendingSends := s.pendingSends.eraseP fun c => decide (c.path = p) }
    doSend change

/-- Gather one bulk sub-batch: queued chunks first, then queued changes. Every pass takes one
item off a queue, so the queues' length bounds the passes. -/
def gatherBulk : Nat → List Message → SessionM (List Message)
  | 0, batch => pure batch
  | n + 1, batch => do
    let s ← get
    if sendBatchFrames ≤ batch.length then pure batch
    else match s.pendingChunks, s.pendingSends with
      | msg :: rest, _ => do
        set { s with pendingChunks := rest }
        gatherBulk n (batch ++ [msg])
      | [], change :: rest => do
        set { s with pendingSends := rest }
        match ← prepareSend change with
        | some msg => gatherBulk n (batch ++ [msg])
        | none => gatherBulk n batch
      | [], [] => pure batch

/-- Ship one sub-batch of the outbound bulk queues as one write. -/
def shipBulkSubbatch : SessionM Unit := do
  let s ← get
  let batch ← gatherBulk (s.pendingChunks.length + s.pendingSends.length) []
  if batch = [] then pure () else ship batch

end

end Session

end Tomo
