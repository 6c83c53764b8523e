import Tomo.Wire.Messages
import Tomo.Wire.Persist

namespace Tomo
set_option autoImplicit true

open Codec (Faithful Reads)

theorem LegacySig.faithful : LegacySig.codec.Faithful :=
  (ContentHash.faithful.pair (Faithful.u64.pair Faithful.bool)).map fun _ _ => rfl

theorem LegacyState.faithful : LegacyState.codec.Faithful := by
  apply (LegacySig.faithful.either Faithful.unit).map
  intro x _
  cases x <;> rfl

theorem LegacyHead.faithful : LegacyHead.codec.Faithful :=
  (VectorClock.faithful.pair LegacyState.faithful).map fun _ _ => rfl

theorem LegacyEntry.faithful : LegacyEntry.codec.Faithful := LegacyHead.faithful.seq.map fun _ _ => rfl

theorem LegacyState.fits_of_reads {s : LegacyState} (h : LegacyState.codec.Reads s) :
    (upgradeState s).Fits := by
  obtain ⟨x, hx, rfl⟩ := h.of_map (LegacySig.faithful.either Faithful.unit)
  cases x with
  | inl sig =>
    have hsig := hx.of_inl LegacySig.faithful
    have hrest := Faithful.u64.pair Faithful.bool
    obtain ⟨y, hy, rfl⟩ := hsig.of_map (ContentHash.faithful.pair hrest)
    obtain ⟨_, hy⟩ := hy.of_pair ContentHash.faithful hrest
    exact ⟨(hy.of_pair Faithful.u64 Faithful.bool).1.lt, Nat.two_pow_pos 64⟩
  | inr _ => trivial

/-- A head whose numbers are `u64` values. -/
abbrev Head.Small (h : Head) : Prop := h.version.Fits ∧ h.state.Fits

theorem LegacyHead.small_of_reads {g : LegacyHead} (h : LegacyHead.codec.Reads g) :
    g.upgrade.Small := by
  obtain ⟨x, hx, rfl⟩ := h.of_map (VectorClock.faithful.pair LegacyState.faithful)
  obtain ⟨hv, hs⟩ := hx.of_pair VectorClock.faithful LegacyState.faithful
  exact ⟨VectorClock.fits_of_reads hv, LegacyState.fits_of_reads hs⟩

theorem LegacyEntry.small_of_reads {e : LegacyEntry} (h : LegacyEntry.codec.Reads e) :
    (∀ g ∈ e.heads, g.upgrade.Small) ∧ e.heads.length < 2 ^ 64 := by
  obtain ⟨heads, hx, rfl⟩ := h.of_map LegacyHead.faithful.seq
  obtain ⟨hall, hlen⟩ := hx.of_seq LegacyHead.faithful
  exact ⟨fun g hg => LegacyHead.small_of_reads (hall g hg), hlen⟩

namespace Entry

/-- An entry of at most `n` heads, all of them small. -/
structure Within (e : Entry) (n : Nat) : Prop where
  small : ∀ h ∈ e.heads, h.Small
  few : e.heads.length ≤ n

theorem Within.absorb {e : Entry} (h : e.Within n) {g : Head} (hg : g.Small) :
    (e.absorb g.version g.state).1.Within (n + 1) := by
  rw [Entry.absorb]
  split
  · exact ⟨h.small, h.few.trans (Nat.le_succ n)⟩
  · have hmem (x : Head) : x ∈ sortHeads ((e.heads.filter fun k =>
        decide (k.version.compare g.version ≠ .before)) ++ [⟨g.version, g.state⟩]) ↔ _ :=
      List.mem_insertionSort _
    constructor
    · intro x hx
      rcases List.mem_append.1 ((hmem x).1 hx) with hx | hx
      · exact h.small x (List.mem_of_mem_filter hx)
      · rw [List.mem_singleton.1 hx]
        exact hg
    · dsimp only [sortHeads]
      rw [List.length_insertionSort, List.length_append, List.length_singleton]
      exact Nat.succ_le_succ ((List.length_filter_le _ _).trans h.few)

theorem Within.rebuild {hs : List Head} (hall : ∀ h ∈ hs, h.Small)
    {e : Entry} (h : Entry.rebuild hs = some e) : e.Within hs.length := by
  cases hs with
  | nil => cases h
  | cons first hs =>
    obtain ⟨hfirst, hall⟩ := List.forall_mem_cons.1 hall
    have hfold (hs : List Head) (hall : ∀ h ∈ hs, h.Small) (e : Entry) (n : Nat)
        (he : e.Within n) :
        (hs.foldl (fun e h => (e.absorb h.version h.state).1) e).Within (n + hs.length) := by
      induction hs generalizing e n with
      | nil => exact he
      | cons g hs ih =>
        obtain ⟨hg, hall⟩ := List.forall_mem_cons.1 hall
        have hi := ih hall _ _ (he.absorb hg)
        rw [List.length_cons, Nat.add_comm hs.length 1, ← Nat.add_assoc]
        exact hi
    cases h
    have hsingle : (Entry.single first.version first.state).Within 1 := by
      constructor
      · intro g hg
        rw [List.mem_singleton.1 hg]
        exact hfirst
      · exact le_rfl
    rw [List.length_cons, Nat.add_comm]
    exact hfold hs hall _ _ hsingle

theorem Within.fits {e : Entry} (h : e.Within n) (hn : n < 2 ^ 64) : e.Fits :=
  ⟨fun g hg => (h.small g hg).1, fun g hg => (h.small g hg).2, h.few.trans_lt hn⟩

end Entry

namespace Index

/-- An index of at most `n` entries, whose numbers are `u64` values. -/
structure Within (i : Index) (n : Nat) : Prop where
  small : ∀ x ∈ i.iter, x.1.Fits ∧ x.2.Fits
  few : i.iter.length ≤ n

theorem Within.fits {i : Index} (h : i.Within n) (hn : n < 2 ^ 64) : i.Fits :=
  ⟨fun x hx => (h.small x hx).1, fun x hx => (h.small x hx).2, h.few.trans_lt hn⟩

theorem Within.upsert {i : Index} (h : i.Within n) (hp : p.Fits) (he : e.Fits) :
    (i.upsert p e).Within (n + 1) := by
  constructor
  · rintro ⟨q, e'⟩ hx
    have hget := (mem_iter _).1 hx
    rw [get_upsert] at hget
    split at hget
    next heq =>
      cases hget
      rw [← heq]
      exact ⟨hp, he⟩
    · exact h.small (q, e') ((mem_iter _).2 hget)
  · have hle : (i.entries.insert p e).size ≤ i.entries.size + 1 := Std.ExtTreeMap.size_insert_le
    have hlen (m : Std.ExtTreeMap RelPath Entry) : m.toList.length = m.size :=
      Std.ExtTreeMap.length_toList
    have hfew := h.few
    rw [iter, hlen] at hfew
    rw [iter, hlen]
    exact hle.trans (Nat.succ_le_succ hfew)

end Index

namespace LegacyIndex

theorem within_rebuild {l : List (RelPath × LegacyEntry)} {index result : Index}
    (hall : ∀ x ∈ l, x.1.Fits ∧ LegacyEntry.codec.Reads x.2) (hi : index.Within n)
    (h : rebuild l index = some result) : result.Within (n + l.length) := by
  induction l generalizing index n with
  | nil =>
    cases h
    exact hi
  | cons x l ih =>
    obtain ⟨⟨hp, he⟩, hall⟩ := List.forall_mem_cons.1 hall
    rw [rebuild] at h
    split at h
    · cases h
    next rebuilt hr =>
      obtain ⟨hsmall, hlen⟩ := LegacyEntry.small_of_reads he
      have hw : rebuilt.Within (x.2.heads.map LegacyHead.upgrade).length :=
        Entry.Within.rebuild (List.forall_mem_map.2 hsmall) hr
      rw [List.length_map] at hw
      have hresult := ih hall (hi.upsert hp (hw.fits hlen)) h
      rw [List.length_cons, Nat.add_comm l.length 1, ← Nat.add_assoc]
      exact hresult

theorem fits_decode (h : decode bs = some index) : index.Fits := by
  rw [decode] at h
  split at h
  next legacy hread =>
    have hm := RelPath.faithful.btreeMap LegacyEntry.faithful
    have hc : LegacyIndex.codec.Faithful := hm.map fun _ _ => rfl
    obtain ⟨m, hm', heq⟩ := (hc.reads hread).of_map hm
    obtain ⟨hall, hlen⟩ := hm'.of_btreeMap RelPath.faithful LegacyEntry.faithful
    have hnew : Index.new.Within 0 := by
      constructor
      · rw [Index.iter_new]
        exact List.forall_mem_nil _
      · rw [Index.iter_new]
        exact le_rfl
    rw [← heq] at h
    have hw := within_rebuild (fun x hx => ⟨RelPath.fits_of_reads (hall x hx).1, (hall x hx).2⟩)
      hnew h
    exact hw.fits ((Nat.zero_add _).trans_lt hlen)
  · cases h

end LegacyIndex

/-- Whatever bytes an index file holds, loading gives an index that can be stored, and storing it makes
a file of the current layout that loads as just that index. -/
theorem loadIndex_again (bytes : Bytes) : ∃ index recovered,
    loadIndex (.ok bytes) = .ok (index, recovered) ∧ index.Fits ∧
      loadIndex (.ok (storeIndex index)) = .ok (index, false) ∧
      (Index.codec.fromBytes bytes = some index → (storeIndex index).length ≤ bytes.length) := by
  have hfits : ∃ index recovered, loadIndex (.ok bytes) = .ok (index, recovered) ∧ index.Fits := by
    rw [loadIndex]
    cases hread : Index.codec.fromBytes bytes with
    | some index =>
      obtain ⟨r, hr, heq⟩ := Option.map_eq_some_iff.1 hread
      cases heq
      exact ⟨_, _, rfl, Index.fits_of_reads (Index.faithful.reads hr)⟩
    | none =>
      cases hdecode : LegacyIndex.decode bytes with
      | some index => exact ⟨_, _, rfl, LegacyIndex.fits_decode hdecode⟩
      | none => exact ⟨_, _, rfl, Index.fits_new⟩
  obtain ⟨index, recovered, hload, hf⟩ := hfits
  refine ⟨index, recovered, hload, hf, loadIndex_storeIndex hf, fun hread => ?_⟩
  obtain ⟨r, hr, heq⟩ := Option.map_eq_some_iff.1 hread
  cases heq
  exact (Nat.le_add_right _ _).trans (Index.faithful.length_le hr)

end Tomo
