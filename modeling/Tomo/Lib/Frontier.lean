import Mathlib.Order.Antichain
import Mathlib.Data.Set.Insert

namespace Tomo
set_option autoImplicit true

/-- The members of `H` are the elements of `K` that no other element dominates, and every
element of `K` lies below one of them. Elements are ordered through `key`. -/
structure Frontier [Preorder κ] (key : α → κ) (H K : Set α) : Prop where
  subset : H ⊆ K
  antichain : ∀ a ∈ H, ∀ b ∈ H, key a ≤ key b → a = b
  cofinal : ∀ a ∈ K, ∃ b ∈ H, key a ≤ key b

/-- Equivalent keys belong to one element: a key names its element. -/
def Names [Preorder κ] (key : α → κ) (K : Set α) : Prop :=
  ∀ a ∈ K, ∀ b ∈ K, key a ≤ key b → key b ≤ key a → a = b

theorem Names.mono [Preorder κ] {key : α → κ} (h : Names key K) (hs : L ⊆ K) : Names key L :=
  fun a ha b hb => h a (hs ha) b (hs hb)

section
variable [Preorder κ] {key : α → κ} {H K : Set α}

theorem Frontier.single (a : α) : Frontier key {a} {a} where
  subset := subset_rfl
  antichain := by
    rintro _ rfl _ rfl _
    rfl
  cofinal := by
    rintro _ rfl
    exact ⟨_, rfl, le_rfl⟩

theorem Frontier.empty (key : α → κ) : Frontier key ∅ ∅ where
  subset := subset_rfl
  antichain := by simp
  cofinal := by simp

theorem Frontier.nonempty (h : Frontier key H K) (hK : K.Nonempty) : H.Nonempty := by
  obtain ⟨a, ha⟩ := hK
  obtain ⟨b, hb, _⟩ := h.cofinal a ha
  exact ⟨b, hb⟩

/-- An element already below the frontier changes nothing. -/
theorem Frontier.insert_below (h : Frontier key H K) (hb : b ∈ H) (hle : key a ≤ key b) :
    Frontier key H (insert a K) where
  subset := h.subset.trans (Set.subset_insert a K)
  antichain := h.antichain
  cofinal := by
    rintro c (rfl | hc)
    · exact ⟨b, hb, hle⟩
    · exact h.cofinal c hc

/-- An element that nothing dominates joins the frontier and drops what it dominates. -/
theorem Frontier.insert_new (h : Frontier key H K) (hnew : ∀ b ∈ H, ¬key a ≤ key b) :
    Frontier key (insert a {b ∈ H | ¬key b ≤ key a}) (insert a K) where
  subset := by
    rintro c (rfl | hc)
    · exact Set.mem_insert c K
    · exact Set.mem_insert_of_mem a (h.subset hc.1)
  antichain := by
    rintro c (rfl | hc) d (rfl | hd) hle
    · rfl
    · exact (hnew d hd.1 hle).elim
    · exact (hc.2 hle).elim
    · exact h.antichain c hc.1 d hd.1 hle
  cofinal := by
    rintro c (rfl | hc)
    · exact ⟨c, Set.mem_insert c _, le_rfl⟩
    · obtain ⟨b, hb, hle⟩ := h.cofinal c hc
      by_cases hba : key b ≤ key a
      · exact ⟨a, Set.mem_insert a _, hle.trans hba⟩
      · exact ⟨b, Set.mem_insert_of_mem a ⟨hb, hba⟩, hle⟩

/-- An element above the whole frontier replaces it. -/
theorem Frontier.insert_above (h : Frontier key H K) (ha : ∀ b ∈ H, key b ≤ key a) :
    Frontier key {a} (insert a K) where
  subset := Set.singleton_subset_iff.2 (Set.mem_insert a K)
  antichain := (Frontier.single a).antichain
  cofinal := by
    rintro c (rfl | hc)
    · exact ⟨c, rfl, le_rfl⟩
    · obtain ⟨b, hb, hle⟩ := h.cofinal c hc
      exact ⟨a, rfl, hle.trans (ha b hb)⟩

theorem Frontier.mem_iff (h : Frontier key H K) (hn : Names key K) :
    a ∈ H ↔ a ∈ K ∧ ∀ b ∈ K, key a ≤ key b → b = a := by
  constructor
  · intro ha
    refine ⟨h.subset ha, fun b hb hab => ?_⟩
    obtain ⟨c, hc, hbc⟩ := h.cofinal b hb
    have hac := h.antichain a ha c hc (hab.trans hbc)
    subst c
    exact hn b hb a (h.subset ha) hbc hab
  · rintro ⟨ha, hmax⟩
    obtain ⟨b, hb, hab⟩ := h.cofinal a ha
    rwa [hmax b (h.subset hb) hab] at hb

/-- A set has one frontier, so replicas that know the same versions show the same heads. -/
theorem Frontier.unique (h : Frontier key H K) (h' : Frontier key H' K) (hn : Names key K) :
    H = H' := by
  ext a
  rw [h.mem_iff hn, h'.mem_iff hn]

/-- Elements below a known one leave the frontier as it is. -/
theorem Frontier.union (h : Frontier key H K) (hc : ∀ a ∈ L, ∃ b ∈ K, key a ≤ key b) :
    Frontier key H (K ∪ L) where
  subset := h.subset.trans Set.subset_union_left
  antichain := h.antichain
  cofinal := by
    rintro a (ha | ha)
    · exact h.cofinal a ha
    · obtain ⟨b, hb, hab⟩ := hc a ha
      obtain ⟨c, hm, hbc⟩ := h.cofinal b hb
      exact ⟨c, hm, hab.trans hbc⟩

/-- Two sets that cover each other have the same frontier. -/
theorem Frontier.eq_of_cofinal (h : Frontier key H K) (h' : Frontier key H' L)
    (hn : Names key (K ∪ L)) (hL : ∀ a ∈ L, ∃ b ∈ K, key a ≤ key b)
    (hK : ∀ a ∈ K, ∃ b ∈ L, key a ≤ key b) : H = H' := by
  have hl := h.union hL
  have hr := h'.union hK
  rw [Set.union_comm] at hr
  exact hl.unique hr hn

/-- Whatever bounds the frontier bounds the whole set. -/
theorem Frontier.upper_bound (h : Frontier key H K) (hH : ∀ b ∈ H, key b ≤ m) :
    ∀ a ∈ K, key a ≤ m := by
  intro a ha
  obtain ⟨b, hb, hab⟩ := h.cofinal a ha
  exact hab.trans (hH b hb)

end

end Tomo
