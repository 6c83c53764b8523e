import Mathlib.Data.List.Nodup
import Mathlib.Order.MinMax

namespace Tomo
set_option autoImplicit true

namespace Grouping
variable {α κ ι : Type} [DecidableEq κ] [LinearOrder ι] {key : α → κ} {num : α → ι} {l : List α}

instance lawfulOrderMin : Std.LawfulOrderMin ι where
  le_min_iff := fun _ _ _ => le_min_iff
  min_eq_or := fun a b => min_choice a b

/-- The least number among the rows under a key. -/
def least (key : α → κ) (num : α → ι) (l : List α) (k : κ) : Option ι :=
  ((l.filter fun b => decide (key b = k)).map num).min?

/-- The row of the least number under each key. -/
def survivors (key : α → κ) (num : α → ι) (l : List α) : List α :=
  l.filter fun a => decide (least key num l (key a) = some (num a))

theorem least_eq_some : least key num l k = some n ↔
    (∃ b ∈ l, key b = k ∧ num b = n) ∧ ∀ c ∈ l, key c = k → n ≤ num c := by
  rw [least, List.min?_eq_some_iff]
  constructor
  · rintro ⟨hmem, hle⟩
    obtain ⟨b, hb, rfl⟩ := List.mem_map.1 hmem
    obtain ⟨hl, hk⟩ := List.mem_filter.1 hb
    refine ⟨⟨b, hl, of_decide_eq_true hk, rfl⟩, fun c hc hk => hle _ ?_⟩
    exact List.mem_map_of_mem (List.mem_filter.2 ⟨hc, decide_eq_true hk⟩)
  · rintro ⟨⟨b, hb, hk, rfl⟩, hle⟩
    refine ⟨List.mem_map_of_mem (List.mem_filter.2 ⟨hb, decide_eq_true hk⟩), fun m hm => ?_⟩
    obtain ⟨c, hc, rfl⟩ := List.mem_map.1 hm
    obtain ⟨hl, hk⟩ := List.mem_filter.1 hc
    exact hle c hl (of_decide_eq_true hk)

theorem mem_survivors {a : α} :
    a ∈ survivors key num l ↔ a ∈ l ∧ ∀ c ∈ l, key c = key a → num a ≤ num c := by
  rw [survivors, List.mem_filter, decide_eq_true_iff, least_eq_some]
  constructor
  · rintro ⟨ha, _, hle⟩
    exact ⟨ha, hle⟩
  · rintro ⟨ha, hle⟩
    exact ⟨ha, ⟨a, ha, rfl, rfl⟩, hle⟩

/-- Every key that occurs has a survivor, of its least number. -/
theorem exists_survivor (key : α → κ) (num : α → ι) {a : α} (ha : a ∈ l) :
    ∃ b ∈ survivors key num l, key b = key a ∧ least key num l (key a) = some (num b) := by
  have hne : ((l.filter fun b => decide (key b = key a)).map num) ≠ [] := by
    intro he
    have hmem : a ∈ l.filter fun b => decide (key b = key a) :=
      List.mem_filter.2 ⟨ha, decide_eq_true rfl⟩
    rw [List.map_eq_nil_iff.1 he] at hmem
    cases hmem
  cases hm : least key num l (key a) with
  | none => exact (hne (List.min?_eq_none_iff.1 hm)).elim
  | some n =>
    obtain ⟨⟨b, hb, hk, rfl⟩, hle⟩ := least_eq_some.1 hm
    exact ⟨b, mem_survivors.2 ⟨hb, fun c hc hkc => hle c hc (hkc.trans hk)⟩, hk, rfl⟩

theorem survivors_sublist : (survivors key num l).Sublist l := List.filter_sublist

/-- Where numbers tell rows apart, one row of each key survives. -/
theorem survivor_unique (hn : (l.map num).Nodup) {a b : α} (ha : a ∈ survivors key num l)
    (hb : b ∈ survivors key num l) (hk : key a = key b) : a = b := by
  obtain ⟨hla, hlea⟩ := mem_survivors.1 ha
  obtain ⟨hlb, hleb⟩ := mem_survivors.1 hb
  exact List.inj_on_of_nodup_map hn hla hlb
    (le_antisymm (hlea b hlb hk.symm) (hleb a hla hk))

theorem survivors_nodup (hn : (l.map num).Nodup) : ((survivors key num l).map key).Nodup := by
  refine List.Nodup.map_on (fun a ha b hb hk => survivor_unique hn ha hb hk) ?_
  exact (List.Nodup.of_map num hn).sublist survivors_sublist

omit [DecidableEq κ] in
/-- A join on a number that tells rows apart picks one row. -/
theorem flatMap_num {β : Type} (f : α → List β) (hn : (l.map num).Nodup) {a : α} (ha : a ∈ l) :
    (l.flatMap fun b => if num b = num a then f b else []) = f a := by
  induction l with
  | nil => cases ha
  | cons b l ih =>
    rw [List.map_cons, List.nodup_cons] at hn
    rw [List.flatMap_cons]
    rcases List.mem_cons.1 ha with rfl | ha
    · have hrest : (l.flatMap fun b => if num b = num a then f b else []) = [] := by
        refine List.flatMap_eq_nil_iff.2 fun c hc => if_neg fun he => hn.1 ?_
        rw [← he]
        exact List.mem_map_of_mem hc
      rw [if_pos rfl, hrest, List.append_nil]
    · have hne : num b ≠ num a := fun he => hn.1 (he ▸ List.mem_map_of_mem ha)
      rw [if_neg hne, List.nil_append]
      exact ih hn.2 ha

theorem survivors_eq_self (hk : (l.map key).Nodup) : survivors key num l = l := by
  refine List.filter_eq_self.2 fun a ha => decide_eq_true (least_eq_some.2 ⟨⟨a, ha, rfl, rfl⟩, ?_⟩)
  intro c hc he
  rw [List.inj_on_of_nodup_map hk hc ha he]

end Grouping

end Tomo
