import Tomo.Engine.Index

namespace Tomo
set_option autoImplicit true

theorem toLeBytes_length (n : Nat) : (toLeBytes n).length = 8 := by
  rw [toLeBytes, List.length_map, List.length_range]

/-- The bytes determine a number up to multiples of `2 ^ 64`. -/
theorem toLeBytes_mod (h : toLeBytes n = toLeBytes m) : n % 2 ^ 64 = m % 2 ^ 64 := by
  have hdigit (i : Nat) (hi : i < 8) : n / 256 ^ i % 256 = m / 256 ^ i % 256 := by
    have he := congrArg (fun l => l[i]?.map UInt8.toNat) h
    simpa [toLeBytes, hi] using he
  have hmod (k : Nat) (hk : k ≤ 8) : n % 256 ^ k = m % 256 ^ k := by
    induction k with
    | zero => rw [Nat.pow_zero, Nat.mod_one, Nat.mod_one]
    | succ k ih =>
      rw [Nat.mod_pow_succ, Nat.mod_pow_succ, ih (Nat.le_of_succ_le hk), hdigit k hk]
  exact hmod 8 le_rfl

theorem toLeBytes_injective (hn : n < 2 ^ 64) (hm : m < 2 ^ 64) (h : toLeBytes n = toLeBytes m) :
    n = m := by
  have h8 := toLeBytes_mod h
  rwa [Nat.mod_eq_of_lt hn, Nat.mod_eq_of_lt hm] at h8

theorem pairBytes_length (e : ReplicaId × Nat) : (pairBytes e).length = 16 := by
  rw [pairBytes, List.length_append, toLeBytes_length, toLeBytes_length]

theorem pairBytes_injective {e e' : ReplicaId × Nat} (he : e.2 < 2 ^ 64) (he' : e'.2 < 2 ^ 64)
    (h : pairBytes e = pairBytes e') : e = e' := by
  obtain ⟨hr, hc⟩ := List.append_inj h (by rw [toLeBytes_length, toLeBytes_length])
  have hid := toLeBytes_injective e.1.id.toNat_lt e'.1.id.toNat_lt hr
  have hcount := toLeBytes_injective he he' hc
  obtain ⟨⟨r⟩, n⟩ := e
  obtain ⟨⟨r'⟩, n'⟩ := e'
  cases UInt64.toNat_inj.1 hid
  cases hcount
  rfl

theorem pairs_injective {l l' : List (ReplicaId × Nat)} (hl : ∀ e ∈ l, e.2 < 2 ^ 64)
    (hl' : ∀ e ∈ l', e.2 < 2 ^ 64) (hlen : l.length = l'.length)
    (h : l.flatMap pairBytes ++ t = l'.flatMap pairBytes ++ t') : l = l' := by
  induction l generalizing l' with
  | nil => exact (List.eq_nil_of_length_eq_zero hlen.symm).symm
  | cons e l ih =>
    cases l' with
    | nil => cases hlen
    | cons e' l' =>
      rw [List.flatMap_cons, List.flatMap_cons, List.append_assoc, List.append_assoc] at h
      obtain ⟨he, ht⟩ := List.append_inj h (by rw [pairBytes_length, pairBytes_length])
      have hp := pairBytes_injective (hl e (List.mem_cons_self ..))
        (hl' e' (List.mem_cons_self ..)) he
      have hr := ih (fun e he => hl e (List.mem_cons_of_mem _ he))
        (fun e he => hl' e (List.mem_cons_of_mem _ he)) (Nat.succ.inj hlen) ht
      rw [hp, hr]

/-- A clock that fits the wire format: its counters and their number are `u64` values. -/
structure VectorClock.Fits (c : VectorClock) : Prop where
  counters : ∀ e ∈ c.iter, e.2 < 2 ^ 64
  size : c.iter.length < 2 ^ 64

theorem VectorClock.iter_injective {a b : VectorClock} (h : a.iter = b.iter) : a = b := by
  cases a
  cases b
  congr 1
  apply Std.ExtTreeMap.ext_getElem?
  intro r
  apply Option.ext
  intro n
  rw [← Std.ExtTreeMap.mem_toList_iff_getElem?_eq_some,
    ← Std.ExtTreeMap.mem_toList_iff_getElem?_eq_some]
  exact Iff.of_eq (congrArg _ h)

/-- The canonical key of a head determines its clock. -/
theorem Head.version_eq_of_sortKey {a b : Head} (ha : a.version.Fits) (hb : b.version.Fits)
    (h : a.sortKey = b.sortKey) : a.version = b.version := by
  simp only [Head.sortKey, Head.encode, List.append_assoc] at h
  obtain ⟨hlen, ht⟩ := List.append_inj h (by rw [toLeBytes_length, toLeBytes_length])
  have hn := toLeBytes_injective ha.size hb.size hlen
  exact VectorClock.iter_injective (pairs_injective ha.counters hb.counters hn ht)

namespace Entry

/-- Canonical order of heads. -/
def KeyLe (a b : Head) : Prop := (compare a.sortKey b.sortKey).isLE = true

instance : DecidableRel KeyLe := fun _ _ => inferInstanceAs (Decidable (_ = true))

instance : Std.Total KeyLe where
  total a b := by
    unfold KeyLe
    cases h : compare a.sortKey b.sortKey with
    | gt =>
      have hs : compare b.sortKey a.sortKey = (compare a.sortKey b.sortKey).swap :=
        Std.OrientedCmp.eq_swap
      rw [hs, h]
      exact .inr rfl
    | lt => exact .inl rfl
    | eq => exact .inl rfl

instance : IsTrans Head KeyLe where
  trans _ _ _ h h' := Std.TransOrd.isLE_trans h h'

theorem KeyLe.antisymm {a b : Head} (h : KeyLe a b) (h' : KeyLe b a) : a.sortKey = b.sortKey :=
  Std.LawfulEqOrd.compare_eq_iff_eq.1 (Std.OrientedCmp.isLE_antisymm h h')

variable {e e' : Entry} {h : Head} {v : VectorClock} {K : Set Head}

theorem mem_sortHeads : h ∈ sortHeads hs ↔ h ∈ hs :=
  List.mem_insertionSort ..

theorem sortHeads_sorted (hs : List Head) : (sortHeads hs).Pairwise KeyLe :=
  List.pairwise_insertionSort KeyLe hs

theorem sortHeads_nodup (h : hs.Nodup) : (sortHeads hs).Nodup :=
  (List.perm_insertionSort KeyLe hs).nodup_iff.2 h

theorem knows_iff (e : Entry) (v : VectorClock) :
    e.knows v = true ↔ ∃ h ∈ e.heads, v ≤ h.version := by
  simp only [knows, List.any_eq_true]
  apply exists_congr
  intro h
  rw [and_congr_right_iff, VectorClock.ge_iff_compare]
  intro _
  cases h.version.compare v <;> simp

theorem absorb_known (hk : e.knows v = true) (s : EntryState) :
    e.absorb v s = (e, .alreadyKnown) := by
  rw [absorb, if_pos hk]

theorem mem_absorb (hk : e.knows v = false) (s : EntryState) :
    h ∈ (e.absorb v s).1.heads ↔ h = ⟨v, s⟩ ∨ h ∈ e.heads ∧ ¬h.version ≤ v := by
  rw [absorb, if_neg (by simp [hk])]
  simp only [mem_sortHeads, List.mem_append, List.mem_filter, List.mem_singleton,
    decide_eq_true_eq, ne_eq, VectorClock.before_iff]
  rw [or_comm]
  apply or_congr_right
  rw [and_congr_right_iff]
  intro hh
  have hn : ¬v ≤ h.version := fun hle => by
    have ht := (e.knows_iff v).2 ⟨h, hh, hle⟩
    rw [hk] at ht
    cases ht
  simp only [hn, not_false_eq_true, and_true]

theorem le_foldl_merge (hs : List Head) (c : VectorClock) :
    c ≤ hs.foldl (fun c h => c.merge h.version) c ∧
      ∀ h ∈ hs, h.version ≤ hs.foldl (fun c h => c.merge h.version) c := by
  induction hs generalizing c with
  | nil => exact ⟨le_rfl, fun _ h => by cases h⟩
  | cons h hs ih =>
    obtain ⟨hc, hm⟩ := ih (c.merge h.version)
    refine ⟨(VectorClock.le_merge_left _ _).trans hc, ?_⟩
    intro g hg
    rcases List.mem_cons.1 hg with rfl | hg
    · exact (VectorClock.le_merge_right _ _).trans hc
    · exact hm g hg

theorem le_mergedClock (hh : h ∈ e.heads) : h.version ≤ e.mergedClock :=
  (le_foldl_merge e.heads .new).2 h hh

theorem foldl_merge_le (hs : List Head) (hc : c ≤ m) (hm : ∀ h ∈ hs, h.version ≤ m) :
    hs.foldl (fun c h => c.merge h.version) c ≤ m := by
  induction hs generalizing c with
  | nil => exact hc
  | cons h hs ih =>
    apply ih (VectorClock.merge_le hc (hm h (List.mem_cons_self ..)))
    exact fun g hg => hm g (List.mem_cons_of_mem _ hg)

/-- The merged clock is the least clock above every head. -/
theorem mergedClock_le (hm : ∀ h ∈ e.heads, h.version ≤ m) : e.mergedClock ≤ m :=
  foldl_merge_le e.heads (VectorClock.new_le m) hm

theorem mergedClock_attained (hr : 0 < e.mergedClock.get r) :
    ∃ h ∈ e.heads, e.mergedClock.get r = h.version.get r := by
  have hfold (hs : List Head) (c : VectorClock) :
      (hs.foldl (fun c h => c.merge h.version) c).get r = c.get r ∨
        ∃ h ∈ hs, (hs.foldl (fun c h => c.merge h.version) c).get r = h.version.get r := by
    induction hs generalizing c with
    | nil => exact .inl rfl
    | cons h hs ih =>
      rw [List.foldl_cons]
      rcases ih (c.merge h.version) with hc | ⟨g, hg, hc⟩
      · rw [hc, VectorClock.get_merge]
        rcases Nat.le_total (c.get r) (h.version.get r) with hle | hle
        · exact .inr ⟨h, List.mem_cons_self, Nat.max_eq_right hle⟩
        · exact .inl (Nat.max_eq_left hle)
      · exact .inr ⟨g, List.mem_cons_of_mem _ hg, hc⟩
  rcases hfold e.heads .new with h | h
  · rw [mergedClock, h, VectorClock.get_new] at hr
    cases hr
  · exact h

theorem mergedClock_positive (hp : ∀ h ∈ e.heads, h.version.Positive) :
    e.mergedClock.Positive := by
  have hfold (hs : List Head) (hs' : ∀ h ∈ hs, h.version.Positive) (c : VectorClock)
      (hc : c.Positive) : (hs.foldl (fun c h => c.merge h.version) c).Positive := by
    induction hs generalizing c with
    | nil => exact hc
    | cons h hs ih =>
      apply ih fun g hg => hs' g (List.mem_cons_of_mem _ hg)
      exact hc.merge (hs' h (List.mem_cons_self ..))
  exact hfold e.heads hp .new VectorClock.positive_new

/-- An entry shows a set of versions when its heads are their frontier, in canonical order. -/
structure Shows (e : Entry) (K : Set Head) : Prop where
  frontier : Frontier Head.version {h | h ∈ e.heads} K
  sorted : e.heads.Pairwise KeyLe
  nodup : e.heads.Nodup

theorem shows_single (v : VectorClock) (s : EntryState) :
    (single v s).Shows {⟨v, s⟩} where
  frontier := by
    have he : {h | h ∈ (single v s).heads} = {(⟨v, s⟩ : Head)} := by
      ext h
      simp [single]
    rw [he]
    exact .single _
  sorted := List.pairwise_singleton ..
  nodup := List.nodup_singleton _

/-- Absorbing a version adds it to what the entry shows. -/
theorem Shows.absorb (h : e.Shows K) (v : VectorClock) (s : EntryState) :
    (e.absorb v s).1.Shows (insert ⟨v, s⟩ K) := by
  cases hk : e.knows v with
  | true =>
    obtain ⟨g, hg, hle⟩ := (e.knows_iff v).1 hk
    rw [absorb_known hk]
    exact ⟨h.frontier.insert_below (a := (⟨v, s⟩ : Head)) hg hle, h.sorted, h.nodup⟩
  | false =>
    have hnew : ∀ g ∈ {h | h ∈ e.heads}, ¬v ≤ g.version := fun g hg hle => by
      have ht := (e.knows_iff v).2 ⟨g, hg, hle⟩
      rw [hk] at ht
      cases ht
    have hset : {g | g ∈ (e.absorb v s).1.heads} =
        insert (⟨v, s⟩ : Head) {g ∈ {h | h ∈ e.heads} | ¬g.version ≤ v} := by
      ext g
      exact mem_absorb hk s
    refine ⟨?_, ?_, ?_⟩
    · rw [hset]
      exact h.frontier.insert_new (a := (⟨v, s⟩ : Head)) hnew
    · rw [Entry.absorb, if_neg (by simp [hk])]
      exact sortHeads_sorted _
    · rw [Entry.absorb, if_neg (by simp [hk])]
      apply sortHeads_nodup
      rw [List.nodup_append]
      refine ⟨h.nodup.filter _, List.nodup_singleton _, ?_⟩
      rintro g hg g' hg' rfl
      rw [List.mem_singleton] at hg'
      subst g
      exact hnew _ (List.mem_filter.1 hg).1 le_rfl

/-- A version above everything shown collapses the entry to one head. -/
theorem Shows.collapse (h : e.Shows K) (hv : ∀ g ∈ e.heads, g.version ≤ v) (s : EntryState) :
    (single v s).Shows (insert ⟨v, s⟩ K) where
  frontier := by
    have he : {h | h ∈ (single v s).heads} = {(⟨v, s⟩ : Head)} := by
      ext h
      simp [single]
    rw [he]
    exact h.frontier.insert_above hv
  sorted := List.pairwise_singleton ..
  nodup := List.nodup_singleton _

/-- Entries that show the same versions are equal, mtimes and head order included. -/
theorem Shows.unique (h : e.Shows K) (h' : e'.Shows K) (hn : Names Head.version K)
    (hf : ∀ g ∈ K, g.version.Fits) : e = e' := by
  have hset := h.frontier.unique h'.frontier hn
  have hmem (g : Head) : g ∈ e.heads ↔ g ∈ e'.heads := Set.ext_iff.1 hset g
  have hK : ∀ g ∈ e.heads, g ∈ K := fun g hg => h.frontier.subset hg
  have hlist : e.heads = e'.heads := by
    have hperm := (List.perm_ext_iff_of_nodup h.nodup h'.nodup).2 hmem
    apply hperm.eq_of_pairwise _ h.sorted h'.sorted
    intro a b ha hb hab hba
    have hv := Head.version_eq_of_sortKey (hf a (hK a ha)) (hf b (hK b ((hmem b).2 hb)))
      (hab.antisymm hba)
    exact hn a (hK a ha) b (hK b ((hmem b).2 hb)) (by rw [hv]) (by rw [hv])
  cases e
  cases e'
  cases hlist
  rfl

end Entry

end Tomo
