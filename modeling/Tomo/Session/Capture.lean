import Tomo.Session.Apply

namespace Tomo
set_option autoImplicit true

/-- Whether two states are one stored version: hash and size of present ones, not the mode. -/
def sameState : EntryState → EntryState → Bool
  | .present x, .present y => decide (x.hash = y.hash) && decide (x.size = y.size)
  | .tombstone, .tombstone => true
  | _, _ => false

/-- The bytes captured for one head of a conflict before any apply can overwrite it. -/
inductive Captured where
  | present (bytes : Bytes)
  | tombstone
  | unobtainable
deriving DecidableEq

/-- What one resolved conflict needs to be recorded. -/
structure ConflictCapture where
  path : RelPath
  winner : EntryState
  winnerVersion : VectorClock
  winnerIsLocal : Bool
  winnerBytes : Captured
  loser : EntryState
  loserVersion : VectorClock
  loserIsLocal : Bool
  loserBytes : Captured
  adopted : Bool

namespace Session
variable [Platform]

def liftHistory (r : Except HistoryError α) : SessionM α :=
  match r with
  | .ok a => pure a
  | .error e => throw (.history e)

/-- Where a version of the given locality comes from, and who wrote it. -/
def attribution (s : Session) (originIsLocal : Bool) : Origin × ReplicaId :=
  if originIsLocal then (.local, s.engine.replica)
  else (.remote, s.peerReplica.getD s.engine.replica)

/-- Record one version in the store and return its id. -/
def storeVersion (p : RelPath) (state : EntryState) (version : VectorClock) (originIsLocal : Bool)
    (bytes : Option Bytes) : SessionM Nat := do
  let s ← get
  let (origin, replica) := s.attribution originIsLocal
  let (history, id) ← liftHistory
    (s.history.recordVersion p state version replica origin s.wallMs bytes)
  modify fun s => { s with history }
  pure id

/-- Record one version with the bytes on disk now; a superseded capture is skipped. -/
def recordVersion (p : RelPath) (state : EntryState) (version : VectorClock)
    (originIsLocal : Bool) : SessionM Unit := do
  let s ← get
  match state with
  | .present sig =>
    match readVerified s.tree s.root p sig with
    | some bytes => discard (storeVersion p state version originIsLocal (some bytes))
    | none => pure ()
  | .tombstone => discard (storeVersion p state version originIsLocal none)

/-- Route one version through the pressure controller. -/
def noteVersion (p : RelPath) (state : EntryState) (version : VectorClock)
    (originIsLocal : Bool) (nowMs : Nat) : SessionM Unit := do
  let s ← get
  let sizeHint := match state with
    | .present sig => sig.size
    | .tombstone => 0
  let (pressure, decision) := s.pressure.note p ⟨state, version, originIsLocal, sizeHint⟩ nowMs
  set { s with pressure }
  match decision with
  | .immediate => recordVersion p state version originIsLocal
  | .deferred _ | .dropped => pure ()

/-- The bytes of one conflict head: the frame's where they match, else the disk's. -/
def captureConflictBytes (s : Session) (p : RelPath) (state : EntryState)
    (remoteBytes : Option Bytes) : Captured :=
  match state with
  | .tombstone => .tombstone
  | .present sig =>
    match remoteBytes.filter fun b => matchesSig b sig with
    | some bytes => .present bytes
    | none =>
      match readVerified s.tree s.root p sig with
      | some bytes => .present bytes
      | none => .unobtainable

/-- The id of a stored version, recorded now if it is new and its bytes are known. -/
def findOrRecord (p : RelPath) (state : EntryState) (version : VectorClock) (captured : Captured)
    (originIsLocal : Bool) : SessionM (Option Nat) := do
  let s ← get
  match (s.history.log p).find? fun m => decide (m.clock = version) && sameState m.state state with
  | some m => pure (some m.id)
  | none =>
    match state, captured with
    | .tombstone, _ => some <$> storeVersion p state version originIsLocal none
    | .present _, .present bytes => some <$> storeVersion p state version originIsLocal (some bytes)
    | .present _, _ => pure none

/-- Record both heads of a conflict, the loser first, and the conflict itself. -/
def recordConflictCapture (c : ConflictCapture) : SessionM (Option Nat) := do
  let loserId ← findOrRecord c.path c.loser c.loserVersion c.loserBytes c.loserIsLocal
  let winnerId ← findOrRecord c.path c.winner c.winnerVersion c.winnerBytes c.winnerIsLocal
  match winnerId, loserId with
  | some winner, some loser => do
    let s ← get
    let (history, id) := s.history.recordConflict c.path winner loser s.wallMs
    set { s with history }
    pure (some id)
  | _, _ => pure none

/-- Whether history has a present version of a path at a clock. -/
def presentAt (h : HistoryStore) (p : RelPath) (clock : VectorClock) : Bool :=
  (h.log p).any fun m => decide (m.clock = clock) && match m.state with
    | .present _ => true
    | .tombstone => false

/-- Record a present version at `clock` unless history has a present version there. -/
def recordPresentIfAbsent (p : RelPath) (sig : ContentSig) (clock : VectorClock) (bytes : Bytes)
    (originLocal : Bool) : SessionM Unit := do
  let s ← get
  if presentAt s.history p clock then pure ()
  else discard (storeVersion p (.present sig) clock originLocal (some bytes))

/-- The clock of the head whose state is exactly `sig`. -/
def headClockFor (s : Session) (p : RelPath) (sig : ContentSig) : Option VectorClock :=
  match s.engine.index.get p with
  | none => none
  | some entry => (entry.heads.find? fun h => h.state.eq (.present sig)).map Head.version

/-- An absolute path as the repo-relative one it is. -/
def relUnderRoot (s : Session) (full : List Name) : Option RelPath :=
  if s.root <+: full then
    match RelPath.new (['/'].intercalate (full.drop s.root.length)) with
    | .ok rel => some rel
    | .error _ => none
  else none

/-- The bytes of an incoming file: the frame's where they match, else history's. -/
def incomingBytes (sig : ContentSig) (remoteBytes : Option Bytes) : SessionM (Option Bytes) := do
  let s ← get
  match remoteBytes.filter fun b => matchesSig b sig with
  | some bytes => pure (some bytes)
  | none => liftHistory (s.history.contentByHash sig.hash)

/-- Keep the losing file of a collision with a directory, where its bytes and clock are known. -/
def preserveIncomingFile (p : RelPath) (sig : ContentSig) (remoteBytes : Option Bytes) :
    SessionM Unit := do
  let s ← get
  match ← incomingBytes sig remoteBytes, s.headClockFor p sig with
  | some bytes, some clock => recordPresentIfAbsent p sig clock bytes false
  | _, _ => pure ()

/-- Record a file that stands where a directory is needed, then remove it; `false` where it
cannot be versioned. -/
def preserveAndClearObstructingFile (ancestor : List Name) : SessionM Bool := do
  let s ← get
  match s.relUnderRoot ancestor with
  | none => pure false
  | some rel =>
    match snapshot s.tree s.root rel with
    | .ok none => pure true
    | .error _ => pure false
    | .ok (some sig) =>
      match (s.tree.read ancestor).toOption.filter fun b => matchesSig b sig with
      | none => pure false
      | some bytes =>
        match (s.headClockFor rel sig).or
            ((s.engine.index.get rel).map fun e => e.winner.version) with
        | none => pure false
        | some clock => do
          recordPresentIfAbsent rel sig clock bytes true
          match s.tree.unlink ancestor with
          | .ok tree => do
            modify fun s => { s with tree }
            pure true
          | .error e => throw (.io .removeObstructing ancestor e)

end Session

end Tomo
