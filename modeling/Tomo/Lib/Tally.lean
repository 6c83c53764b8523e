import Mathlib.Algebra.GroupWithZero.Nat
import Mathlib.Data.List.Nodup
import Std.Data.ExtTreeMap

namespace Tomo
set_option autoImplicit true

/-- The sum of the weights of a map's values. -/
def tally {cmp : κ → κ → Ordering} [Std.TransCmp cmp] (f : β → Nat)
    (m : Std.ExtTreeMap κ β cmp) : Nat :=
  (m.toList.map fun e => f e.2).sum

namespace Tally

theorem entries_nodup {cmp : κ → κ → Ordering} [Std.TransCmp cmp] (m : Std.ExtTreeMap κ β cmp) :
    m.toList.Nodup := by
  apply List.Nodup.of_map Prod.fst
  rw [Std.ExtTreeMap.map_fst_toList_eq_keys]
  exact Std.ExtTreeMap.nodup_keys

variable {cmp : κ → κ → Ordering} [Std.TransCmp cmp] [Std.LawfulEqCmp cmp] {f : β → Nat}
  {m : Std.ExtTreeMap κ β cmp} {k : κ} {v : β}

theorem mem_entries {e : κ × β} : e ∈ m.toList ↔ m[e.1]? = some e.2 :=
  Std.ExtTreeMap.mem_toList_iff_getElem?_eq_some

/-- Any list that has each entry once has the same sum. -/
theorem of_entries {l : List (κ × β)} (hl : l.Nodup) (hmem : ∀ e, e ∈ l ↔ m[e.1]? = some e.2) :
    tally f m = (l.map fun e => f e.2).sum := by
  have hperm : m.toList.Perm l := by
    apply (List.perm_ext_iff_of_nodup (entries_nodup m) hl).2
    intro e
    rw [hmem, mem_entries]
  exact (hperm.map _).sum_nat

theorem getElem?_erase_ne (h : k' ≠ k) : (m.erase k)[k']? = m[k']? := by
  rw [Std.ExtTreeMap.getElem?_erase, if_neg]
  rw [Std.LawfulEqCmp.compare_eq_iff_eq]
  exact h.symm

theorem getElem?_insert_ne (h : k' ≠ k) : (m.insert k v)[k']? = m[k']? := by
  rw [Std.ExtTreeMap.getElem?_insert, if_neg]
  rw [Std.LawfulEqCmp.compare_eq_iff_eq]
  exact h.symm

/-- A map that differs from an erased one at the erased key only. -/
theorem eq_erase_add {n : Std.ExtTreeMap κ β cmp} (hk : n[k]? = some v)
    (hne : ∀ k', k' ≠ k → n[k']? = m[k']?) : tally f n = f v + tally f (m.erase k) := by
  apply of_entries (l := (k, v) :: (m.erase k).toList)
  · apply List.nodup_cons.2
    refine ⟨fun hmem => ?_, entries_nodup _⟩
    rw [mem_entries, Std.ExtTreeMap.getElem?_erase_self] at hmem
    cases hmem
  · intro e
    rw [List.mem_cons, mem_entries]
    by_cases he : e.1 = k
    · subst he
      rw [hk, Std.ExtTreeMap.getElem?_erase_self]
      constructor
      · rintro (h | h)
        · rw [show e.2 = v from congrArg Prod.snd h]
        · cases h
      · intro h
        exact .inl (Prod.ext rfl (Option.some.inj h).symm)
    · rw [hne e.1 he, getElem?_erase_ne he]
      refine ⟨fun h => h.resolve_left ?_, .inr⟩
      rintro rfl
      exact he rfl

theorem erase_some (h : m[k]? = some v) : f v + tally f (m.erase k) = tally f m :=
  (eq_erase_add h fun _ _ => rfl).symm

theorem erase_none (h : m[k]? = none) : tally f (m.erase k) = tally f m := by
  apply of_entries (entries_nodup m)
  intro e
  rw [mem_entries]
  by_cases he : e.1 = k
  · subst he
    rw [h, Std.ExtTreeMap.getElem?_erase_self]
  · rw [getElem?_erase_ne he]

theorem insert : tally f (m.insert k v) = f v + tally f (m.erase k) :=
  eq_erase_add Std.ExtTreeMap.getElem?_insert_self fun _ h => getElem?_insert_ne h

/-- Entries of different keys are taken out one after the other. -/
theorem erase_all {l : List (κ × β)} (hkeys : (l.map Prod.fst).Nodup)
    (hl : ∀ e ∈ l, m[e.1]? = some e.2) :
    (l.map fun e => f e.2).sum + tally f (l.foldl (fun m e => m.erase e.1) m) = tally f m := by
  induction l generalizing m with
  | nil => rw [List.map_nil, List.sum_nil, Nat.zero_add, List.foldl_nil]
  | cons e l ih =>
    rw [List.map_cons, List.nodup_cons] at hkeys
    obtain ⟨he, hrest⟩ := List.forall_mem_cons.1 hl
    rw [List.map_cons, List.sum_cons, List.foldl_cons, Nat.add_assoc, ih hkeys.2, erase_some he]
    intro e' he'
    rw [getElem?_erase_ne, hrest e' he']
    rintro heq
    exact hkeys.1 (heq ▸ List.mem_map_of_mem he')

end Tally

end Tomo
