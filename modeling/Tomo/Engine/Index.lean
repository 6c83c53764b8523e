import Mathlib.Data.List.Sort
import Tomo.Engine.Clock
import Tomo.Engine.Path
import Tomo.Lib.Frontier

namespace Tomo
set_option autoImplicit true

/-- A 32-byte content hash, opaque to the engine. -/
structure ContentHash where
  bytes : List UInt8
  length_eq : bytes.length = 32
deriving DecidableEq

instance : Ord ContentHash := ⟨compareOn ContentHash.bytes⟩

instance : Std.TransOrd ContentHash := inferInstanceAs (Std.TransCmp (compareOn ContentHash.bytes))

instance : Std.LawfulEqOrd ContentHash where
  eq_of_compare {a b} h := by
    have he : a.bytes = b.bytes := Std.LawfulEqOrd.compare_eq_iff_eq.1 h
    cases a
    cases b
    cases he
    rfl

/-- The identity of a file's content, with its mtime as carried metadata. -/
structure ContentSig where
  hash : ContentHash
  size : Nat
  exec : Bool
  mtimeMs : Nat
deriving DecidableEq

/-- `PartialEq` of the source: the mtime is no part of the identity. -/
def ContentSig.eq (a b : ContentSig) : Bool :=
  decide (a.hash = b.hash) && decide (a.size = b.size) && decide (a.exec = b.exec)

/-- The state of a path at one version. -/
inductive EntryState where
  | present (sig : ContentSig)
  | tombstone
deriving DecidableEq

def EntryState.eq : EntryState → EntryState → Bool
  | .present a, .present b => a.eq b
  | .tombstone, .tombstone => true
  | _, _ => false

/-- What `EntryState.eq` compares: the signature without its mtime. -/
def EntryState.identity : EntryState → Option (ContentHash × Nat × Bool)
  | .present s => some (s.hash, s.size, s.exec)
  | .tombstone => none

theorem EntryState.eq_iff (a b : EntryState) : a.eq b = true ↔ a.identity = b.identity := by
  cases a <;> cases b <;> simp [EntryState.eq, ContentSig.eq, identity, and_assoc]

@[simp] theorem EntryState.eq_refl (a : EntryState) : a.eq a = true := (a.eq_iff a).2 rfl

/-- One causally concurrent version of a path. -/
structure Head where
  version : VectorClock
  state : EntryState
deriving DecidableEq

instance : Inhabited Head := ⟨⟨.new, .tombstone⟩⟩

def Head.eq (a b : Head) : Bool := decide (a.version = b.version) && a.state.eq b.state

/-- `u64::to_le_bytes`. -/
def toLeBytes (n : Nat) : List UInt8 := (List.range 8).map fun i => UInt8.ofNat (n / 256 ^ i)

def pairBytes (e : ReplicaId × Nat) : List UInt8 := toLeBytes e.1.id.toNat ++ toLeBytes e.2

def EntryState.encode : EntryState → List UInt8
  | .tombstone => [0]
  | .present sig => 1 :: (sig.hash.bytes ++ toLeBytes sig.size ++ [if sig.exec then 1 else 0])

/-- The canonical byte encoding of a head. -/
def Head.encode (h : Head) : List UInt8 :=
  toLeBytes h.version.iter.length ++ h.version.iter.flatMap pairBytes ++ h.state.encode

def Head.sortKey (h : Head) : List UInt8 := h.encode

/-- What `Entry.absorb` did with an incoming version. -/
inductive AbsorbOutcome where
  | alreadyKnown
  | absorbed (winnerChanged newConflict novelContent : Bool)
deriving DecidableEq

/-- The concurrent heads of a path. -/
structure Entry where
  heads : List Head
deriving DecidableEq

/-- Whether two states carry the same content and executable bit. -/
def sameContent : EntryState → EntryState → Bool
  | .present x, .present y => decide (x.hash = y.hash) && decide (x.exec = y.exec)
  | .tombstone, .tombstone => true
  | _, _ => false

def disjointSupport (a b : VectorClock) : Bool := !a.iter.any fun e => decide (0 < b.get e.1)

/-- A clock's pairs as bytes, used only to break ties. -/
def clockKey (v : VectorClock) : List UInt8 := v.iter.flatMap pairBytes

/-- Winner ordering between two heads; `gt` means the better winner. -/
def winnerCmp (a b : Head) (adoption : Bool) : Ordering :=
  match a.state, b.state with
  | .present sa, .present sb =>
    let standard := (compare sa.hash sb.hash).then
      ((compare sa.exec sb.exec).then (compare (clockKey a.version) (clockKey b.version)))
    if adoption then (compare sa.mtimeMs sb.mtimeMs).then standard else standard
  | .present _, .tombstone => .gt
  | .tombstone, .present _ => .lt
  | .tombstone, .tombstone => compare (clockKey a.version) (clockKey b.version)

namespace Entry

def single (version : VectorClock) (state : EntryState) : Entry := ⟨[⟨version, state⟩]⟩

/-- The double loop of `adoption_mode`: no two heads share a replica. -/
def disjointHeads : List Head → Bool
  | [] => true
  | h :: hs => (hs.all fun o => disjointSupport h.version o.version) && disjointHeads hs

def adoptionMode (e : Entry) : Bool :=
  if e.heads.length < 2 then false else disjointHeads e.heads

/-- The deterministically materialized winner. The source panics on an empty head set; the
model answers the default head there. -/
def winner (e : Entry) : Head :=
  match e.heads with
  | [] => default
  | best :: rest =>
    rest.foldl (fun best h => if winnerCmp h best e.adoptionMode = .gt then h else best) best

def mergedClock (e : Entry) : VectorClock :=
  e.heads.foldl (fun c h => c.merge h.version) .new

/-- Whether an existing head is newer than or equal to `version`. -/
def knows (e : Entry) (version : VectorClock) : Bool :=
  e.heads.any fun h => match h.version.compare version with
    | .after | .equal => true
    | .before | .concurrent => false

def headsConflict (e : Entry) : Bool :=
  match e.heads.head? with
  | none => false
  | some first => e.heads.any fun h => !sameContent h.state first.state

/-- Heads in the order of `sort_by_key(Head::sort_key)`. -/
def sortHeads (hs : List Head) : List Head :=
  hs.insertionSort fun a b => (compare a.sortKey b.sortKey).isLE = true

/-- Integrate a version into the head set: drop what it dominates, push, sort. -/
def absorb (e : Entry) (version : VectorClock) (state : EntryState) : Entry × AbsorbOutcome :=
  if e.knows version then (e, .alreadyKnown)
  else
    let kept := e.heads.filter fun h => decide (h.version.compare version ≠ .before)
    let after : Entry := ⟨sortHeads (kept ++ [⟨version, state⟩])⟩
    (after, .absorbed (!e.winner.state.eq after.winner.state)
      (decide (e.heads.length = 1) && decide (2 ≤ after.heads.length) && after.headsConflict)
      (!e.heads.any fun h => sameContent h.state state))

end Entry

/-- The engine's map from path to entry. -/
structure Index where
  entries : Std.ExtTreeMap RelPath Entry
deriving DecidableEq

namespace Index

def new : Index := ⟨∅⟩

def get (i : Index) (p : RelPath) : Option Entry := i.entries[p]?

def upsert (i : Index) (p : RelPath) (e : Entry) : Index := ⟨i.entries.insert p e⟩

/-- `(path, entry)` pairs in ascending path order. -/
def iter (i : Index) : List (RelPath × Entry) := i.entries.toList

/-- The UTF-8 bytes of a path. -/
def pathBytes (p : RelPath) : List UInt8 := p.raw.flatMap String.utf8EncodeChar

def canonicalBytes (i : Index) : List UInt8 :=
  i.iter.flatMap fun (p, e) =>
    toLeBytes (pathBytes p).length ++ pathBytes p ++
      (toLeBytes e.heads.length ++ e.heads.flatMap Head.encode)

@[simp] theorem get_new (p : RelPath) : new.get p = none := by
  simp only [get, new, Std.ExtTreeMap.getElem?_empty]

@[simp] theorem get_upsert (i : Index) (p q : RelPath) (e : Entry) :
    (i.upsert p e).get q = if p = q then some e else i.get q := by
  simp only [get, upsert, Std.ExtTreeMap.getElem?_insert, Std.compare_eq_iff_eq]

theorem ext_get {i j : Index} (h : ∀ p, i.get p = j.get p) : i = j := by
  cases i
  cases j
  exact congrArg _ (Std.ExtTreeMap.ext_getElem? h)

theorem mem_iter (i : Index) : (p, e) ∈ i.iter ↔ i.get p = some e :=
  Std.ExtTreeMap.mem_toList_iff_getElem?_eq_some

end Index

end Tomo
