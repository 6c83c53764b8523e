import Mathlib.Data.List.Forall2
import Mathlib.Tactic.Common

namespace Tomo
set_option autoImplicit true

/-- The code of a value says where it ends: among the values of `S`, codes that begin alike are
codes of values that `R` relates, and what follows them is the same. -/
def Delimits (code : α → List β) (S : α → Prop) (R : α → α → Prop) : Prop :=
  ∀ a b, S a → S b → ∀ t t', code a ++ t = code b ++ t' → R a b ∧ t = t'

section
variable {code : α → List β} {S : α → Prop} {R : α → α → Prop} {l l' : List α}

/-- Codes of one length that determine the value. -/
theorem Delimits.of_length (hlen : ∀ a b, S a → S b → (code a).length = (code b).length)
    (hinj : ∀ a b, S a → S b → code a = code b → R a b) : Delimits code S R := by
  intro a b ha hb t t' h
  obtain ⟨hc, ht⟩ := List.append_inj h (hlen a b ha hb)
  exact ⟨hinj a b ha hb hc, ht⟩

/-- One code after the other. -/
theorem Delimits.append {code' : γ → List β} {S' : γ → Prop} {R' : γ → γ → Prop}
    (h : Delimits code S R) (h' : Delimits code' S' R') :
    Delimits (fun x : α × γ => code x.1 ++ code' x.2) (fun x => S x.1 ∧ S' x.2)
      (fun x y => R x.1 y.1 ∧ R' x.2 y.2) := by
  intro x y hx hy t t' he
  rw [List.append_assoc, List.append_assoc] at he
  obtain ⟨hr, hrest⟩ := h x.1 y.1 hx.1 hy.1 _ _ he
  obtain ⟨hr', ht⟩ := h' x.2 y.2 hx.2 hy.2 _ _ hrest
  exact ⟨⟨hr, hr'⟩, ht⟩

/-- As many codes on either side, one after the other. -/
theorem Delimits.many (h : Delimits code S R) (hl : ∀ a ∈ l, S a) (hl' : ∀ a ∈ l', S a)
    (hlen : l.length = l'.length) (he : l.flatMap code ++ t = l'.flatMap code ++ t') :
    List.Forall₂ R l l' ∧ t = t' := by
  induction l generalizing l' with
  | nil =>
    cases l' with
    | nil => exact ⟨.nil, he⟩
    | cons b l' => cases hlen
  | cons a l ih =>
    cases l' with
    | nil => cases hlen
    | cons b l' =>
      rw [List.flatMap_cons, List.flatMap_cons, List.append_assoc, List.append_assoc] at he
      obtain ⟨hr, hrest⟩ := h a b (hl a List.mem_cons_self) (hl' b List.mem_cons_self) _ _ he
      obtain ⟨hrs, ht⟩ := ih (fun a ha => hl a (List.mem_cons_of_mem _ ha))
        (fun b hb => hl' b (List.mem_cons_of_mem _ hb)) (Nat.succ.inj hlen) hrest
      exact ⟨.cons hr hrs, ht⟩

/-- A stream of codes, none of them empty, is read in one way. -/
theorem Delimits.stream (h : Delimits code S R) (hne : ∀ a, code a ≠ []) (hl : ∀ a ∈ l, S a)
    (hl' : ∀ a ∈ l', S a) (he : l.flatMap code = l'.flatMap code) : List.Forall₂ R l l' := by
  induction l generalizing l' with
  | nil =>
    cases l' with
    | nil => exact .nil
    | cons b l' =>
      rw [List.flatMap_nil, List.flatMap_cons] at he
      exact (hne b (List.append_eq_nil_iff.1 he.symm).1).elim
  | cons a l ih =>
    cases l' with
    | nil =>
      rw [List.flatMap_nil, List.flatMap_cons] at he
      exact (hne a (List.append_eq_nil_iff.1 he).1).elim
    | cons b l' =>
      rw [List.flatMap_cons, List.flatMap_cons] at he
      obtain ⟨hr, hrest⟩ := h a b (hl a List.mem_cons_self) (hl' b List.mem_cons_self) _ _ he
      exact .cons hr (ih (fun a ha => hl a (List.mem_cons_of_mem _ ha))
        (fun b hb => hl' b (List.mem_cons_of_mem _ hb)) hrest)

end

end Tomo
