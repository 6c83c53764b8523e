import Tomo.Session.Pump

namespace Tomo
set_option autoImplicit true

/-- Whether a frame may bring a change, or the last piece of one. -/
def Message.bringsChange : Message → Bool
  | .change .. | .changeManifest .. | .chunkData .. => true
  | _ => false

namespace Session
open Eff
variable [Platform]

/-- A change that is about to be absorbed, with its bytes. -/
abbrev Arrived := Option (RemoteChange × Option Bytes)

def absorbArrived : Arrived → SessionM Unit
  | some (c, bytes) => absorbAndExecute c bytes
  | none => pure ()

/-- What an inline change frame leads to before it is absorbed. -/
def arriveChange (change : RemoteChange) (bytes : Option Bytes) : SessionM Arrived := do
  let s ← get
  if s.allowCrossing change.path .inbound then
    if ← caseCollisionRefused change bytes then pure none
    else
      flushQueuedSend change.path
      flushPendingInstallFor change.path
      modify fun s => s.abandonSuperseded change.path
      reconcileUnobservedLocal change.path
      pure (some (change, bytes))
  else pure none

theorem onChange_arrives (change : RemoteChange) (bytes : Option Bytes) :
    onChange change bytes = arriveChange change bytes >>= absorbArrived := by
  simp only [onChange, arriveChange, bind_assoc]
  refine bind_congr fun s => ?_
  split
  · rw [bind_assoc]
    refine bind_congr fun r => ?_
    cases r with
    | true => rfl
    | false => simp [bind_assoc, absorbArrived]
  · rfl

/-- What a complete assembly leads to before its change is absorbed. -/
def arriveAssembled (p : RelPath) : SessionM Arrived := do
  let s ← get
  match s.assemblies[p]? with
  | none => pure none
  | some a =>
    let bytes := (assembleChunks s.chunkFiles a.manifest).filter fun b => matchesSig b a.sig
    set ({ s with assemblies := s.assemblies.erase p }.cleanAssemblyChunks a)
    match bytes with
    | none => do
      modify fun s => { s with rescanPending := true }
      pure none
    | some bytes => do
      flushPendingInstallFor a.change.path
      if ← caseCollisionRefused a.change (some bytes) then pure none
      else
        reconcileUnobservedLocal a.change.path
        pure (some (a.change, some bytes))

theorem completeAssembly_arrives (p : RelPath) :
    completeAssembly p = arriveAssembled p >>= absorbArrived := by
  simp only [completeAssembly, arriveAssembled, bind_assoc]
  refine bind_congr fun s => ?_
  cases s.assemblies[p]? with
  | none => rfl
  | some a =>
    simp only [bind_assoc]
    refine bind_congr fun _ => ?_
    cases (assembleChunks s.chunkFiles a.manifest).filter fun b => matchesSig b a.sig with
    | none => rfl
    | some bytes =>
      simp only [bind_assoc]
      refine bind_congr fun _ => bind_congr fun r => ?_
      cases r with
      | true => rfl
      | false => simp [absorbArrived]

def arriveAdvanced (p : RelPath) : SessionM Arrived := do
  let s ← get
  match s.assemblies[p]? with
  | some a =>
    if isComplete a.manifest a.received then arriveAssembled p
    else do
      requestNextBatch p
      pure none
  | none => do
    requestNextBatch p
    pure none

theorem advanceAssembly_arrives (p : RelPath) :
    advanceAssembly p = arriveAdvanced p >>= absorbArrived := by
  simp only [advanceAssembly, arriveAdvanced, bind_assoc]
  refine bind_congr fun s => ?_
  cases s.assemblies[p]? with
  | none => simp [absorbArrived]
  | some a =>
    dsimp only
    split
    · exact completeAssembly_arrives p
    · simp [absorbArrived]

def arriveManifest (change : RemoteChange) (totalSize : Nat) (manifest : List ContentHash) :
    SessionM Arrived := do
  let s ← get
  if s.allowCrossing change.path .inbound then
    flushQueuedSend change.path
    match change.kind with
    | .removed => pure none
    | .modified sig =>
      modify fun s => s.abandonSuperseded change.path
      modify fun s => { s with
        assemblies := s.assemblies.insert change.path ⟨change, sig, manifest, [], [], totalSize⟩ }
      arriveAdvanced change.path
  else pure none

theorem onChangeManifest_arrives (change : RemoteChange) (totalSize : Nat)
    (manifest : List ContentHash) : onChangeManifest change totalSize manifest =
      arriveManifest change totalSize manifest >>= absorbArrived := by
  simp only [onChangeManifest, arriveManifest, bind_assoc]
  refine bind_congr fun s => ?_
  split
  · rw [bind_assoc]
    refine bind_congr fun _ => ?_
    cases change.kind with
    | removed => rfl
    | modified sig => simp only [bind_assoc, advanceAssembly_arrives]
  · rfl

def arriveChunk (order : List (RelPath × Assembly)) (hash : ContentHash) (bytes : Bytes) :
    SessionM Arrived := do
  let s ← get
  match chunkTaker order hash with
  | none => pure none
  | some (p, a) =>
    if Platform.blake3 bytes ≠ hash then do
      let a := { a with requested := a.requested.filter fun h => h ≠ hash }
      set { s with assemblies := s.assemblies.insert p a }
      requestNextBatch p
      pure none
    else if s.diskFull then do
      set ((s.tornChunk hash).abandonAssembly p)
      noteDiskFull
      pure none
    else
      set { s with
        chunkFiles := s.chunkFiles.insert hash bytes
        assemblies := s.assemblies.insert p { a with received := hash :: a.received } }
      arriveAdvanced p

theorem takeChunk_arrives (order : List (RelPath × Assembly)) (hash : ContentHash)
    (bytes : Bytes) : takeChunk order hash bytes =
      arriveChunk order hash bytes >>= absorbArrived := by
  simp only [takeChunk, arriveChunk, bind_assoc]
  refine bind_congr fun s => ?_
  cases chunkTaker order hash with
  | none => rfl
  | some e =>
    dsimp only
    split
    · simp [absorbArrived]
    · split
      · simp [absorbArrived]
      · simp only [bind_assoc, advanceAssembly_arrives]

/-- What a frame leads to before the change that it completes is absorbed. -/
def arrive (msg : Message) : SessionM Arrived := do
  let s ← get
  match s.paused, msg with
  | false, .change change bytes => arriveChange change bytes
  | false, .changeManifest change totalSize manifest => arriveManifest change totalSize manifest
  | false, .chunkData hash bytes => arriveChunk s.assemblies.toList hash bytes
  | _, msg => do
    onMessage msg
    pure none

/-- A frame is absorbed last. -/
theorem onMessage_arrives (msg : Message) (s : Session) :
    (onMessage msg).exec s = (arrive msg >>= absorbArrived).exec s := by
  have hrest : (onMessage msg).exec s = Eff.exec (do
      onMessage msg
      absorbArrived none) s := by
    rw [exec_bind]
    rcases (onMessage msg).exec s with ⟨r, s'⟩
    cases r <;> rfl
  simp only [arrive, bind_assoc, exec_get_bind]
  cases hp : s.paused with
  | true =>
    simp only [bind_assoc, pure_bind]
    exact hrest
  | false =>
    cases msg with
    | change c bytes => 
      simp only [onMessage, exec_get_bind, hp, Bool.false_and, Bool.false_eq_true, ↓reduceIte]
      rw [onChange_arrives]
    | changeManifest c total manifest =>
      simp only [onMessage, exec_get_bind, hp, Bool.false_and, Bool.false_eq_true, ↓reduceIte]
      rw [onChangeManifest_arrives]
    | chunkData hash bytes =>
      simp only [onMessage, exec_get_bind, hp, Bool.false_and, Bool.false_eq_true, ↓reduceIte]
      simp only [onChunkData, exec_get_bind, takeChunk_arrives]
    | hello | indexExchange | chunkRequest | ping | pong | pause | resume =>
      simp only [bind_assoc, pure_bind]
      exact hrest

end Session

end Tomo
