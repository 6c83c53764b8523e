import Tomo.Platform

namespace Tomo
set_option autoImplicit true

inductive Origin where
  | local
  | remote
deriving DecidableEq

inductive HistoryError where
  | missingContent (path : RelPath)
  | sigMismatch (path : RelPath) (declared actual : ContentHash)
  | noSuchVersion (id : Nat)
  | notPresent (id : Nat)
  | missingChunk (version : Nat) (hash : ContentHash)
  | corruptChunk (hash : ContentHash)
  | contentMismatch (version : Nat) (expected actual : ContentHash)
deriving DecidableEq

/-- The content columns of a present version. -/
structure StoredContent where
  hash : ContentHash
  size : Nat
  manifest : List ContentHash
  exec : Bool
deriving DecidableEq

/-- One row of `versions`; a tombstone has no content columns. -/
structure VersionRow where
  id : Nat
  path : RelPath
  content : Option StoredContent
  clock : VectorClock
  replica : ReplicaId
  wallMs : Nat
  origin : Origin
deriving DecidableEq

/-- A version as `log` reports it. -/
structure VersionMeta where
  id : Nat
  state : EntryState
  clock : VectorClock
  replica : ReplicaId
  wallMs : Nat
  origin : Origin
deriving DecidableEq

structure ConflictRow where
  id : Nat
  path : RelPath
  winner : Nat
  loser : Nat
  wallMs : Nat
deriving DecidableEq

/-- The tables of the history database. Version ids ascend and are never used again. -/
structure HistoryStore where
  versions : List VersionRow
  chunks : Std.ExtTreeMap ContentHash (Nat × Bytes)
  conflicts : List ConflictRow
  lastVersion : Nat
  lastConflict : Nat
  ascending : versions.Pairwise fun r r' => r.id < r'.id
  bounded : ∀ r ∈ versions, r.id ≤ lastVersion

namespace HistoryStore
variable [Platform]

def new : HistoryStore := ⟨[], ∅, [], 0, 0, .nil, fun _ h => by cases h⟩

/-- History does not keep mtimes. -/
def rowState (r : VersionRow) : EntryState :=
  match r.content with
  | some c => .present ⟨c.hash, c.size, c.exec, 0⟩
  | none => .tombstone

def intoMeta (r : VersionRow) : VersionMeta :=
  ⟨r.id, rowState r, r.clock, r.replica, r.wallMs, r.origin⟩

/-- All recorded versions of a path, newest first. -/
def log (h : HistoryStore) (p : RelPath) : List VersionMeta :=
  ((h.versions.filter fun r => decide (r.path = p)).map intoMeta).reverse

/-- `INSERT OR IGNORE` of one chunk. -/
def storeChunk (h : HistoryStore) (chunk : Bytes) : HistoryStore :=
  let key := Platform.blake3 chunk
  if h.chunks[key]?.isSome then h
  else { h with chunks := h.chunks.insert key (chunk.length, Platform.zstdEncode chunk) }

def cut (bytes : Bytes) : List Bytes := (Platform.fastcdc bytes).map (slice bytes)

/-- Store every chunk; the manifest lists their hashes in order. -/
def storeChunks (h : HistoryStore) (bytes : Bytes) : HistoryStore × List ContentHash :=
  ((cut bytes).foldl storeChunk h, (cut bytes).map Platform.blake3)

def verifySig (p : RelPath) (sig : ContentSig) (actual : ContentHash) (size : Nat) :
    Except HistoryError Unit :=
  if actual ≠ sig.hash ∨ size ≠ sig.size then .error (.sigMismatch p sig.hash actual)
  else .ok ()

/-- Append a row under the next id. -/
def appendRow (h : HistoryStore) (r : VersionRow) : HistoryStore :=
  { h with
    versions := h.versions ++ [{ r with id := h.lastVersion + 1 }]
    lastVersion := h.lastVersion + 1
    ascending := by
      rw [List.pairwise_append]
      refine ⟨h.ascending, List.pairwise_singleton _ _, fun v hv v' hv' => ?_⟩
      cases List.mem_singleton.1 hv'
      exact Nat.lt_succ_of_le (h.bounded v hv)
    bounded := by
      intro v hv
      rcases List.mem_append.1 hv with hv | hv
      · exact (h.bounded v hv).trans (Nat.le_succ _)
      · cases List.mem_singleton.1 hv
        exact le_rfl }

/-- Whether two rows are one under the unique index on `(path, state, clock)`. -/
def sameIdentity (v r : VersionRow) : Bool :=
  decide (v.path = r.path ∧ v.content.isSome = r.content.isSome ∧ v.clock = r.clock)

/-- Insert one row unless its identity is stored already. -/
def insertRow (h : HistoryStore) (r : VersionRow) : HistoryStore × Nat :=
  match h.versions.find? fun v => sameIdentity v r with
  | some v => (h, v.id)
  | none => (h.appendRow r, h.lastVersion + 1)

/-- One `insert_version` in its own transaction: an error stores nothing. -/
def recordVersion (h : HistoryStore) (p : RelPath) (state : EntryState) (clock : VectorClock)
    (replica : ReplicaId) (origin : Origin) (wallMs : Nat) (bytes : Option Bytes) :
    Except HistoryError (HistoryStore × Nat) :=
  match state with
  | .present sig =>
    match bytes with
    | none => .error (.missingContent p)
    | some bytes => do
      let (stored, manifest) := h.storeChunks bytes
      let hash := Platform.blake3 bytes
      verifySig p sig hash bytes.length
      pure (stored.insertRow ⟨0, p, some ⟨hash, sig.size, manifest, sig.exec⟩, clock, replica,
        wallMs, origin⟩)
  | .tombstone => .ok (h.insertRow ⟨0, p, none, clock, replica, wallMs, origin⟩)

/-- One version of a batch. -/
structure VersionRecord where
  path : RelPath
  state : EntryState
  clock : VectorClock
  replica : ReplicaId
  origin : Origin
  wallMs : Nat
  bytes : Option Bytes
deriving DecidableEq

/-- Record a batch in one transaction: an error stores nothing of it. -/
def recordVersions (h : HistoryStore) (records : List VersionRecord) :
    Except HistoryError (HistoryStore × List Nat) :=
  records.foldlM (fun (h, ids) r => do
    let (h, id) ← h.recordVersion r.path r.state r.clock r.replica r.origin r.wallMs r.bytes
    pure (h, ids ++ [id])) (h, [])

/-- Whether a version with that path, clock and kind of state is stored. -/
def hasIdentity (h : HistoryStore) (p : RelPath) (clock : VectorClock) (present : Bool) : Bool :=
  h.versions.any fun v => decide (v.path = p ∧ v.clock = clock ∧ v.content.isSome = present)

def recordConflict (h : HistoryStore) (p : RelPath) (winner loser wallMs : Nat) :
    HistoryStore × Nat :=
  let id := h.lastConflict + 1
  ({ h with conflicts := h.conflicts ++ [⟨id, p, winner, loser, wallMs⟩], lastConflict := id }, id)

def decompressAndVerify (hash : ContentHash) (size : Nat) (zdata : Bytes) :
    Except HistoryError Bytes :=
  match Platform.zstdDecode zdata with
  | none => .error (.corruptChunk hash)
  | some plain =>
    if plain.length ≠ size ∨ Platform.blake3 plain ≠ hash then .error (.corruptChunk hash)
    else .ok plain

/-- The chunks a manifest names, one after the other. -/
def readManifest (h : HistoryStore) (version : Nat) : List ContentHash →
    Except HistoryError Bytes
  | [] => .ok []
  | hash :: rest =>
    match h.chunks[hash]? with
    | none => .error (.missingChunk version hash)
    | some (size, zdata) => do
      let plain ← decompressAndVerify hash size zdata
      let more ← h.readManifest version rest
      pure (plain ++ more)

/-- The content of one row, verified chunk by chunk and as a whole. -/
def rowContent (h : HistoryStore) (r : VersionRow) : Except HistoryError Bytes :=
  match r.content with
  | none => .error (.notPresent r.id)
  | some c => do
    let out ← h.readManifest r.id c.manifest
    let actual := Platform.blake3 out
    if actual ≠ c.hash then .error (.contentMismatch r.id c.hash actual) else .ok out

def getContent (h : HistoryStore) (id : Nat) : Except HistoryError Bytes :=
  match h.versions.find? fun r => r.id == id with
  | none => .error (.noSuchVersion id)
  | some r => h.rowContent r

/-- The content of the newest present version with that hash. -/
def contentByHash (h : HistoryStore) (hash : ContentHash) : Except HistoryError (Option Bytes) :=
  match h.versions.reverse.find? fun r => decide (r.content.map StoredContent.hash = some hash) with
  | none => .ok none
  | some r => do
    let bytes ← h.getContent r.id
    pure (some bytes)

end HistoryStore

end Tomo
