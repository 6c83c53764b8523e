import Tomo.Engine.Canonical
import Tomo.Lib.FileTree
import Tomo.Platform
import Tomo.Wire.Layout

namespace Tomo
set_option autoImplicit true

open Codec (Reads)

/-- The signature of the on-disk layout before mtimes. -/
structure LegacySig where
  hash : ContentHash
  size : Nat
  exec : Bool
deriving DecidableEq

inductive LegacyState where
  | present (sig : LegacySig)
  | tombstone
deriving DecidableEq

structure LegacyHead where
  version : VectorClock
  state : LegacyState
deriving DecidableEq

structure LegacyEntry where
  heads : List LegacyHead
deriving DecidableEq

structure LegacyIndex where
  entries : Std.ExtTreeMap RelPath LegacyEntry

def LegacySig.codec : Codec LegacySig :=
  (ContentHash.codec.pair (Codec.u64.pair Codec.bool)).map
    (fun x => ⟨x.1, x.2.1, x.2.2⟩) fun s => (s.hash, s.size, s.exec)

def LegacyState.variant : LegacyState → LegacySig ⊕ Unit
  | .present sig => .inl sig
  | .tombstone => .inr ()

def LegacyState.ofVariant : LegacySig ⊕ Unit → LegacyState
  | .inl sig => .present sig
  | .inr _ => .tombstone

def LegacyState.codec : Codec LegacyState :=
  (LegacySig.codec.either Codec.unit).map LegacyState.ofVariant LegacyState.variant

def LegacyHead.codec : Codec LegacyHead :=
  (VectorClock.codec.pair LegacyState.codec).map (fun x => ⟨x.1, x.2⟩)
    fun h => (h.version, h.state)

def LegacyEntry.codec : Codec LegacyEntry := LegacyHead.codec.seq.map LegacyEntry.mk LegacyEntry.heads

def LegacyIndex.codec : Codec LegacyIndex :=
  (Codec.btreeMap RelPath.codec LegacyEntry.codec).map LegacyIndex.mk LegacyIndex.entries

def upgradeState : LegacyState → EntryState
  | .present sig => .present ⟨sig.hash, sig.size, sig.exec, 0⟩
  | .tombstone => .tombstone

def LegacyHead.upgrade (h : LegacyHead) : Head := ⟨h.version, upgradeState h.state⟩

/-- The loop of the fallback over the decoded entries. -/
def LegacyIndex.rebuild : List (RelPath × LegacyEntry) → Index → Option Index
  | [], index => some index
  | (path, entry) :: rest, index =>
    match Entry.rebuild (entry.heads.map LegacyHead.upgrade) with
    | none => none
    | some rebuilt => rebuild rest (index.upsert path rebuilt)

/-- The fallback's decoder: the legacy layout, nothing after it. -/
def LegacyIndex.decode (bytes : Bytes) : Option Index :=
  match LegacyIndex.codec.read bytes with
  | some (legacy, []) => rebuild legacy.entries.toList .new
  | _ => none

/-- The index of a project and whether it had to be given up, from what reading the file gave. -/
def loadIndex : Except Errno Bytes → Except Errno (Index × Bool)
  | .error .noent => .ok (.new, false)
  | .error errno => .error errno
  | .ok bytes =>
    match Index.codec.fromBytes bytes with
    | some index => .ok (index, false)
    | none =>
      match LegacyIndex.decode bytes with
      | some index => .ok (index, false)
      | none => .ok (.new, true)

/-- The bytes of the index file. -/
def storeIndex (index : Index) : Bytes := Index.codec.write index

theorem fromBytes_storeIndex {index : Index} (h : index.Fits) :
    Index.codec.fromBytes (storeIndex index) = some index := by
  have hread := Index.reads h []
  rw [List.append_nil] at hread
  rw [Codec.fromBytes, storeIndex, hread]
  rfl

/-- What is stored is loaded again. -/
theorem loadIndex_storeIndex {index : Index} (h : index.Fits) :
    loadIndex (.ok (storeIndex index)) = .ok (index, false) := by
  rw [loadIndex, fromBytes_storeIndex h]

def LegacyEntry.upgrade (e : LegacyEntry) : Entry := ⟨e.heads.map LegacyHead.upgrade⟩

namespace LegacyIndex

/-- The index that a legacy one stands for: the same heads, mtime zero. -/
def upgrade (i : LegacyIndex) : Index := ⟨i.entries.map fun _ e => e.upgrade⟩

/-- The entries of a legacy index, ascending. -/
def iter (i : LegacyIndex) : List (RelPath × LegacyEntry) := i.entries.toList

/-- The bytes of a legacy index file. -/
def store (i : LegacyIndex) : Bytes := codec.write i

/-- A legacy index that a program could hold: its entries keep the invariants of entries, and
its numbers are `u64` values. -/
structure Held (i : LegacyIndex) : Prop where
  canonical : ∀ x ∈ i.iter, x.2.upgrade.Canonical
  path : ∀ x ∈ i.iter, x.1.Fits
  entry : ∀ x ∈ i.iter, x.2.upgrade.Fits
  length : i.iter.length < 2 ^ 64

/-- No file of the index is present. -/
def AllTombstones (i : LegacyIndex) : Prop :=
  ∀ x ∈ i.iter, ∀ h ∈ x.2.heads, h.state = .tombstone

end LegacyIndex

section
variable {e : LegacyEntry} {h : LegacyHead} {i : LegacyIndex}

theorem LegacySig.reads {s : LegacySig} (h : s.size < 2 ^ 64) : LegacySig.codec.Reads s := by
  have hm := (ContentHash.reads s.hash).pair ((Codec.reads_u64 h).pair (Codec.reads_bool s.exec))
  exact hm.map rfl rfl

theorem LegacyHead.reads (hv : h.version.Fits) (hs : h.upgrade.state.Fits) :
    LegacyHead.codec.Reads h := by
  obtain ⟨v, s⟩ := h
  have hvar : (LegacySig.codec.either Codec.unit).Reads s.variant := by
    cases s with
    | present sig => exact (LegacySig.reads hs.size).inl
    | tombstone => exact (Codec.reads_unit ()).inr
  have hstate : LegacyState.codec.Reads s := hvar.map rfl (by cases s <;> rfl)
  exact ((VectorClock.reads hv).pair hstate).map rfl rfl

theorem LegacyEntry.reads (h : e.upgrade.Fits) : LegacyEntry.codec.Reads e := by
  have hs : LegacyHead.codec.seq.Reads e.heads := by
    apply Reads.seq
    · intro g hg
      have hm : g.upgrade ∈ e.upgrade.heads := List.mem_map_of_mem hg
      exact LegacyHead.reads (h.version _ hm) (h.state _ hm)
    · have hl := h.length
      rwa [LegacyEntry.upgrade, List.length_map] at hl
  exact hs.map rfl rfl

theorem LegacyIndex.reads (h : i.Held) : LegacyIndex.codec.Reads i := by
  have hm : (Codec.btreeMap RelPath.codec LegacyEntry.codec).Reads i.entries := by
    apply Codec.reads_btreeMap
    · intro x hx
      exact ⟨RelPath.reads (h.path x hx), LegacyEntry.reads (h.entry x hx)⟩
    · exact h.length
  exact hm.map rfl rfl

theorem LegacyIndex.get_upgrade (i : LegacyIndex) (p : RelPath) :
    i.upgrade.get p = i.entries[p]?.map LegacyEntry.upgrade := by
  rw [Index.get, upgrade, Std.ExtTreeMap.getElem?_map]

/-- Rebuilding canonical entries puts each of them into the index as it is. -/
theorem LegacyIndex.rebuild_spec (l : List (RelPath × LegacyEntry)) (index : Index)
    (h : ∀ x ∈ l, x.2.upgrade.Canonical) :
    rebuild l index = some (l.foldl (fun i x => i.upsert x.1 x.2.upgrade) index) := by
  induction l generalizing index with
  | nil => rfl
  | cons x l ih =>
    have hx := (Entry.rebuild_eq_iff x.2.upgrade).2 (h x List.mem_cons_self)
    rw [LegacyEntry.upgrade] at hx
    rw [rebuild, hx]
    exact ih _ fun y hy => h y (List.mem_cons_of_mem x hy)

theorem Index.foldl_upsert (l : List (RelPath × α)) (f : α → Entry) (i : Index) :
    l.foldl (fun i x => i.upsert x.1 (f x.2)) i =
      ⟨(l.map fun x => (x.1, f x.2)).foldl (fun m x => m.insert x.1 x.2) i.entries⟩ := by
  induction l generalizing i with
  | nil => rfl
  | cons x l ih => exact ih (i.upsert x.1 (f x.2))

theorem LegacyIndex.iter_upgrade (i : LegacyIndex) :
    i.upgrade.iter = i.iter.map fun x => (x.1, x.2.upgrade) := by
  rw [Index.iter, upgrade, Std.ExtTreeMap.toList_map]
  rfl

/-- The fallback gives the upgrade of the index whose file it reads. -/
theorem LegacyIndex.decode_store (h : i.Held) : decode i.store = some i.upgrade := by
  have hread := LegacyIndex.reads h []
  rw [List.append_nil] at hread
  rw [decode, store, hread]
  dsimp only
  rw [rebuild_spec i.entries.toList .new h.canonical, Index.foldl_upsert]
  have hfold : (i.entries.toList.map fun x => (x.1, x.2.upgrade)).foldl
      (fun m x => m.insert x.1 x.2) (∅ : Std.ExtTreeMap RelPath Entry) = i.upgrade.entries := by
    have hiter := i.iter_upgrade
    rw [iter] at hiter
    rw [← hiter]
    exact Codec.ofRecords_toList i.upgrade.entries
  exact congrArg (fun m => some (Index.mk m)) hfold

/-- A tombstone is written alike in both layouts. -/
theorem LegacyHead.write_tombstone (hs : h.state = .tombstone) :
    LegacyHead.codec.write h = Head.codec.write h.upgrade := by
  obtain ⟨v, s⟩ := h
  cases hs
  rfl

theorem LegacyEntry.write_tombstones (hs : ∀ h ∈ e.heads, h.state = .tombstone) :
    LegacyEntry.codec.write e = Entry.codec.write e.upgrade := by
  have hflat : e.heads.flatMap LegacyHead.codec.write =
      (e.heads.map LegacyHead.upgrade).flatMap Head.codec.write := by
    rw [List.flatMap_map]
    exact List.flatMap_congr fun h hh => LegacyHead.write_tombstone (hs h hh)
  have hlen : e.heads.length = (e.heads.map LegacyHead.upgrade).length := (List.length_map _).symm
  exact congrArg₂ (fun n bs => Codec.usize.write n ++ bs) hlen hflat

/-- Without present files the two layouts are the same bytes. -/
theorem LegacyIndex.store_tombstones (h : i.AllTombstones) : i.store = storeIndex i.upgrade := by
  have hflat : i.iter.flatMap (RelPath.codec.pair LegacyEntry.codec).write =
      i.upgrade.iter.flatMap (RelPath.codec.pair Entry.codec).write := by
    rw [iter_upgrade, List.flatMap_map]
    apply List.flatMap_congr
    intro x hx
    have he := LegacyEntry.write_tombstones (h x hx)
    exact congrArg (fun bs => RelPath.codec.write x.1 ++ bs) he
  have hlen : i.iter.length = i.upgrade.iter.length := by
    rw [iter_upgrade, List.length_map]
  exact congrArg₂ (fun n bs => Codec.usize.write n ++ bs) hlen hflat

theorem LegacyIndex.fits_upgrade (h : i.Held) : i.upgrade.Fits where
  path x hx := by
    rw [iter_upgrade] at hx
    obtain ⟨y, hy, rfl⟩ := List.mem_map.1 hx
    exact h.path y hy
  entry x hx := by
    rw [iter_upgrade] at hx
    obtain ⟨y, hy, rfl⟩ := List.mem_map.1 hx
    exact h.entry y hy
  length := by
    rw [iter_upgrade, List.length_map]
    exact h.length

end

end Tomo
