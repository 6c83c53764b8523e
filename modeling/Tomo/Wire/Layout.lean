import Tomo.Engine.Heads
import Tomo.Engine.Transition
import Tomo.Lib.Postcard

namespace Tomo
set_option autoImplicit true

open Codec (Reads)

def ReplicaId.codec : Codec ReplicaId :=
  Codec.u64.map (fun n => ⟨UInt64.ofNat n⟩) fun r => r.id.toNat

def ContentHash.codec : Codec ContentHash :=
  (Codec.raw 32).map (fun b => ⟨b.1, b.2⟩) fun h => ⟨h.bytes, h.length_eq⟩

/-- The pairs of a clock, ascending; nothing looks at the counters on the way in. -/
def VectorClock.codec : Codec VectorClock :=
  (Codec.btreeMap ReplicaId.codec Codec.u64).map VectorClock.mk VectorClock.counters

def ContentSig.codec : Codec ContentSig :=
  (ContentHash.codec.pair (Codec.u64.pair (Codec.bool.pair Codec.u64))).map
    (fun x => ⟨x.1, x.2.1, x.2.2.1, x.2.2.2⟩) fun s => (s.hash, s.size, s.exec, s.mtimeMs)

/-- A state as the choice between a signature and nothing. -/
def EntryState.variant : EntryState → ContentSig ⊕ Unit
  | .present sig => .inl sig
  | .tombstone => .inr ()

def EntryState.ofVariant : ContentSig ⊕ Unit → EntryState
  | .inl sig => .present sig
  | .inr _ => .tombstone

def EntryState.codec : Codec EntryState :=
  (ContentSig.codec.either Codec.unit).map EntryState.ofVariant EntryState.variant

def Head.codec : Codec Head :=
  (VectorClock.codec.pair EntryState.codec).map (fun x => ⟨x.1, x.2⟩) fun h => (h.version, h.state)

/-- The heads as they come: their order, their number and their clocks are not looked at. -/
def Entry.codec : Codec Entry := Head.codec.seq.map Entry.mk Entry.heads

/-- A path is validated again on the way in. -/
def RelPath.codec : Codec RelPath :=
  Codec.str.check (fun raw => (RelPath.new raw).toOption) RelPath.raw

def Index.codec : Codec Index :=
  (Codec.btreeMap RelPath.codec Entry.codec).map Index.mk Index.entries

def ChangeKind.codec : Codec ChangeKind :=
  EntryState.codec.map kindFromState stateFromKind

def RemoteChange.codec : Codec RemoteChange :=
  (RelPath.codec.pair (ChangeKind.codec.pair VectorClock.codec)).map
    (fun x => ⟨x.1, x.2.1, x.2.2⟩) fun c => (c.path, c.kind, c.version)

/-- A signature whose numbers are `u64` values. -/
structure ContentSig.Fits (s : ContentSig) : Prop where
  size : s.size < 2 ^ 64
  mtime : s.mtimeMs < 2 ^ 64

def EntryState.Fits : EntryState → Prop
  | .present sig => sig.Fits
  | .tombstone => True

/-- An entry whose numbers and lengths are `u64` values. -/
structure Entry.Fits (e : Entry) : Prop where
  version : ∀ h ∈ e.heads, h.version.Fits
  state : ∀ h ∈ e.heads, h.state.Fits
  length : e.heads.length < 2 ^ 64

def RelPath.Fits (p : RelPath) : Prop := (Codec.toUtf8 p.raw).length < 2 ^ 64

/-- An index that a 64-bit machine can hold. -/
structure Index.Fits (i : Index) : Prop where
  path : ∀ x ∈ i.iter, x.1.Fits
  entry : ∀ x ∈ i.iter, x.2.Fits
  length : i.iter.length < 2 ^ 64

theorem Index.iter_new : Index.new.iter = [] := by decide +kernel

theorem Index.fits_new : Index.new.Fits where
  path x hx := by
    rw [iter_new] at hx
    cases hx
  entry x hx := by
    rw [iter_new] at hx
    cases hx
  length := by
    rw [iter_new]
    exact Nat.two_pow_pos 64

theorem ReplicaId.reads (r : ReplicaId) : ReplicaId.codec.Reads r := by
  have h := Codec.reads_u64 r.id.toNat_lt
  have hid : (⟨UInt64.ofNat r.id.toNat⟩ : ReplicaId) = r := by rw [UInt64.ofNat_toNat]
  exact h.map rfl hid

theorem ContentHash.reads (h : ContentHash) : ContentHash.codec.Reads h :=
  (Codec.reads_raw (n := 32) ⟨h.bytes, h.length_eq⟩).map rfl rfl

theorem VectorClock.reads {v : VectorClock} (h : v.Fits) : VectorClock.codec.Reads v := by
  have hm : (Codec.btreeMap ReplicaId.codec Codec.u64).Reads v.counters := by
    apply Codec.reads_btreeMap
    · intro e he
      exact ⟨ReplicaId.reads e.1, Codec.reads_u64 (h.counters e he)⟩
    · exact h.size
  exact hm.map rfl rfl

theorem ContentSig.reads {s : ContentSig} (h : s.Fits) : ContentSig.codec.Reads s := by
  have hm := (ContentHash.reads s.hash).pair
    ((Codec.reads_u64 h.size).pair ((Codec.reads_bool s.exec).pair (Codec.reads_u64 h.mtime)))
  exact hm.map rfl rfl

@[simp] theorem EntryState.ofVariant_variant (s : EntryState) : ofVariant s.variant = s := by
  cases s <;> rfl

theorem EntryState.reads {s : EntryState} (h : s.Fits) : EntryState.codec.Reads s := by
  have hv : (ContentSig.codec.either Codec.unit).Reads s.variant := by
    cases s with
    | present sig => exact (ContentSig.reads h).inl
    | tombstone => exact (Codec.reads_unit ()).inr
  exact hv.map rfl (ofVariant_variant s)

theorem Head.reads {h : Head} (hv : h.version.Fits) (hs : h.state.Fits) : Head.codec.Reads h :=
  ((VectorClock.reads hv).pair (EntryState.reads hs)).map rfl rfl

theorem Entry.reads {e : Entry} (h : e.Fits) : Entry.codec.Reads e := by
  have hs : Head.codec.seq.Reads e.heads :=
    Reads.seq (fun g hg => Head.reads (h.version g hg) (h.state g hg)) h.length
  exact hs.map rfl rfl

theorem RelPath.new_raw (p : RelPath) : (RelPath.new p.raw).toOption = some p := by
  rw [RelPath.new_eq_ok.2 (rfl : p.raw = p.raw)]
  rfl

theorem RelPath.reads {p : RelPath} (h : p.Fits) : RelPath.codec.Reads p :=
  (Codec.reads_str h).check rfl p.new_raw

/-- What was written of an index is read back. -/
theorem Index.reads {i : Index} (h : i.Fits) : Index.codec.Reads i := by
  have hm : (Codec.btreeMap RelPath.codec Entry.codec).Reads i.entries := by
    apply Codec.reads_btreeMap
    · intro e he
      exact ⟨RelPath.reads (h.path e he), Entry.reads (h.entry e he)⟩
    · exact h.length
  exact hm.map rfl rfl

end Tomo
