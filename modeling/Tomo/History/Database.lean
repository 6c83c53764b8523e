import Tomo.History.Content

namespace Tomo
set_option autoImplicit true

/-- What a cell of a table can hold, whatever the type its column declares. -/
inductive SqlValue where
  | null
  | integer (v : Int64)
  | real (bits : UInt64)
  | text (chars : List Char)
  | blob (bytes : Bytes)
deriving DecidableEq

inductive Malformed where
  | noHash
  | noManifest
  | manifestLength (n : Nat)
  | hashLength (n : Nat)
deriving DecidableEq

inductive ChunkFault where
  | decompression
  | size (actual recorded : Nat)
  | hash (actual : ContentHash)
deriving DecidableEq

inductive ReadError where
  /-- A column holds a value of another type than the one it is read as. -/
  | sqlite
  | noSuchVersion (id : Int)
  | notPresent (id : Int)
  | malformed (id : Int) (what : Malformed)
  | missingChunk (version : Int) (hash : Bytes)
  | corruptChunk (hash : Bytes) (detail : ChunkFault)
  | contentMismatch (version : Int) (expected actual : ContentHash)
deriving DecidableEq

namespace SqlValue

def asI64 : SqlValue → Except ReadError Int64
  | .integer v => .ok v
  | _ => .error .sqlite

def asBlob : SqlValue → Except ReadError Bytes
  | .blob b => .ok b
  | _ => .error .sqlite

def asOptI64 : SqlValue → Except ReadError (Option Int64)
  | .null => .ok none
  | .integer v => .ok (some v)
  | _ => .error .sqlite

def asOptBlob : SqlValue → Except ReadError (Option Bytes)
  | .null => .ok none
  | .blob b => .ok (some b)
  | _ => .error .sqlite

def isInteger : SqlValue → Bool
  | .integer _ => true
  | _ => false

def isBlob : SqlValue → Bool
  | .blob _ => true
  | _ => false

theorem asI64_ok {v : SqlValue} (h : v.asI64 = .ok n) : v = .integer n := by
  cases v <;> cases h
  rfl

theorem asBlob_ok {v : SqlValue} (h : v.asBlob = .ok b) : v = .blob b := by
  cases v <;> cases h
  rfl

theorem asOptI64_ok {v : SqlValue} {o : Option Int64} (h : v.asOptI64 = .ok o) :
    v = o.elim .null .integer := by
  cases v <;> cases h <;> rfl

theorem asOptBlob_ok {v : SqlValue} {o : Option Bytes} (h : v.asOptBlob = .ok o) :
    v = o.elim .null .blob := by
  cases v <;> cases h <;> rfl

end SqlValue

/-- `u64` to `i64`, by its bits. -/
def toSqlInt (n : Nat) : Int64 := (UInt64.ofNat n).toInt64

def fromSqlInt (v : Int64) : Nat := v.toUInt64.toNat

def lenU64 (n : Nat) : Nat := min n u64Max

/-- One row of `versions` as the file has it. -/
structure VersionCells where
  id : Int
  path : List Char
  state : SqlValue
  contentHash : SqlValue
  size : SqlValue
  manifest : SqlValue
  clock : Bytes
  exec : SqlValue
deriving DecidableEq

structure ChunkCells where
  hash : SqlValue
  size : SqlValue
  zdata : SqlValue
deriving DecidableEq

structure ConflictCells where
  id : Int
  path : List Char
  winner : Int
  loser : Int
  wallMs : Int64
  resolved : Bool
deriving DecidableEq

/-- The tables of a history file. Rows are told apart by their id. -/
structure Database where
  versions : List VersionCells
  chunks : List ChunkCells
  conflicts : List ConflictCells
  keyed : (versions.map VersionCells.id).Nodup

/-- Every cell holds what its column declares. -/
def Database.WellTyped (db : Database) : Prop :=
  (∀ r ∈ db.versions, r.state.isInteger ∧ (r.contentHash = .null ∨ r.contentHash.isBlob) ∧
    (r.size = .null ∨ r.size.isInteger) ∧ (r.manifest = .null ∨ r.manifest.isBlob) ∧
    r.exec.isInteger) ∧
  ∀ c ∈ db.chunks, c.hash.isBlob ∧ c.size.isInteger ∧ c.zdata.isBlob

instance (db : Database) : Decidable db.WellTyped := inferInstanceAs (Decidable (_ ∧ _))

/-- What `PRAGMA quick_check` answers first. -/
class Sqlite where
  quickCheck : Database → String

/-- `quick_check` has nothing against tables of the declared types. -/
class LawfulSqlite [Sqlite] : Prop where
  quick_ok : ∀ db : Database, db.WellTyped → Sqlite.quickCheck db = "ok"

/-- `chunks_exact`: the whole pieces of `n` bytes, without a shorter rest. -/
def chunksExact (n : Nat) (bytes : Bytes) : List Bytes :=
  (List.range (bytes.length / n)).map fun i => slice bytes (n * i, n)

def toHash32 (bytes : Bytes) : Option ContentHash :=
  if h : bytes.length = 32 then some ⟨bytes, h⟩ else none

namespace Database
variable [Platform]

def decompressAndVerify (hash : Bytes) (size : Nat) (zdata : Bytes) : Except ReadError Bytes :=
  match Platform.zstdDecode zdata with
  | none => .error (.corruptChunk hash .decompression)
  | some plain =>
    if lenU64 plain.length ≠ size then
      .error (.corruptChunk hash (.size plain.length size))
    else if (Platform.blake3 plain).bytes ≠ hash then
      .error (.corruptChunk hash (.hash (Platform.blake3 plain)))
    else .ok plain

def chunkRow (db : Database) (hash : Bytes) : Option ChunkCells :=
  db.chunks.find? fun c => decide (c.hash = .blob hash)

def versionRow (db : Database) (id : Int) : Option VersionCells :=
  db.versions.find? fun r => decide (r.id = id)

/-- The loop of `get_content` over the manifest. -/
def readChunks (db : Database) (version : Int) : List Bytes → Except ReadError Bytes
  | [] => .ok []
  | hash :: rest =>
    match db.chunkRow hash with
    | none => .error (.missingChunk version hash)
    | some c => do
      let size ← c.size.asI64
      let zdata ← c.zdata.asBlob
      let plain ← decompressAndVerify hash (fromSqlInt size) zdata
      let more ← db.readChunks version rest
      pure (plain ++ more)

/-- The comparison at the end of `get_content`. -/
def verifyWhole (version : Int) (contentHash out : Bytes) : Except ReadError Bytes :=
  match toHash32 contentHash with
  | none => .error (.malformed version (.hashLength contentHash.length))
  | some expected =>
    if Platform.blake3 out ≠ expected then
      .error (.contentMismatch version expected (Platform.blake3 out))
    else .ok out

def rowContent (db : Database) (r : VersionCells) : Except ReadError Bytes := do
  let state ← r.state.asI64
  let contentHash ← r.contentHash.asOptBlob
  let manifest ← r.manifest.asOptBlob
  if state = 0 then .error (.notPresent r.id)
  else
    match contentHash with
    | none => .error (.malformed r.id .noHash)
    | some contentHash =>
      match manifest with
      | none => .error (.malformed r.id .noManifest)
      | some manifest =>
        if manifest.length % 32 ≠ 0 then
          .error (.malformed r.id (.manifestLength manifest.length))
        else do
          let out ← db.readChunks r.id (chunksExact 32 manifest)
          verifyWhole r.id contentHash out

def getContent (db : Database) (id : Int) : Except ReadError Bytes :=
  match db.versionRow id with
  | none => .error (.noSuchVersion id)
  | some r => db.rowContent r

inductive Issue where
  | quickCheck (text : String)
  | noManifest (version : Int)
  | manifestLength (version : Int) (n : Nat)
  | missingChunk (version : Int) (hash : Bytes)
  | sizeMismatch (version : Int) (recorded : Int64) (summed : Nat)
  | chunk (e : ReadError)
deriving DecidableEq

structure CheckReport where
  versionsChecked : Nat
  chunksChecked : Nat
  ok : Bool
  issues : List Issue
deriving DecidableEq

/-- The loop of `check` over a manifest: the issues, and the sum of the recorded chunk sizes. -/
def sumChunks (db : Database) (version : Int) : List Bytes → Nat →
    Except ReadError (List Issue × Nat)
  | [], summed => .ok ([], summed)
  | hash :: rest, summed =>
    match db.chunkRow hash with
    | none => do
      let (issues, summed) ← db.sumChunks version rest summed
      pure (.missingChunk version hash :: issues, summed)
    | some c => do
      let cs ← c.size.asI64
      db.sumChunks version rest (saturatingAdd summed (fromSqlInt cs))

def checkVersion (db : Database) (r : VersionCells) : Except ReadError (List Issue) := do
  let size ← r.size.asOptI64
  let manifest ← r.manifest.asOptBlob
  match manifest with
  | none => pure [.noManifest r.id]
  | some manifest =>
    if manifest.length % 32 ≠ 0 then pure [.manifestLength r.id manifest.length]
    else do
      let (issues, summed) ← db.sumChunks r.id (chunksExact 32 manifest) 0
      match size with
      | none => pure issues
      | some sz =>
        pure (if fromSqlInt sz ≠ summed then issues ++ [.sizeMismatch r.id sz summed] else issues)

def checkChunk (c : ChunkCells) : Except ReadError (List Issue) := do
  let hash ← c.hash.asBlob
  let size ← c.size.asI64
  let zdata ← c.zdata.asBlob
  match decompressAndVerify hash (fromSqlInt size) zdata with
  | .ok _ => pure []
  | .error e => pure [.chunk e]

/-- The rows that `check` takes for present versions. -/
def present (db : Database) : List VersionCells :=
  db.versions.filter fun r => decide (r.state = .integer 1)

def check [Sqlite] (db : Database) : Except ReadError CheckReport := do
  let quick := Sqlite.quickCheck db
  let quickIssues := if quick ≠ "ok" then [.quickCheck quick] else []
  let versionIssues ← db.present.mapM db.checkVersion
  let chunkIssues ← db.chunks.mapM checkChunk
  let issues := quickIssues ++ versionIssues.flatten ++ chunkIssues.flatten
  pure ⟨db.present.length, db.chunks.length, issues.isEmpty, issues⟩

end Database

end Tomo
