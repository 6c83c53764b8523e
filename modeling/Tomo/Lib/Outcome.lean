import Mathlib.Data.List.Forall2

namespace Tomo
set_option autoImplicit true

namespace Outcome
variable {ε α β : Type} {x : Except ε α} {f : α → Except ε β} {l : List α} {ys : List β}

/-- What comes out of two steps came through both. -/
theorem bind_ok : (x >>= f) = .ok b ↔ ∃ a, x = .ok a ∧ f a = .ok b := by
  cases x with
  | error e =>
    constructor
    · intro h
      cases h
    · rintro ⟨a, ha, _⟩
      cases ha
  | ok a =>
    constructor
    · intro h
      exact ⟨a, rfl, h⟩
    · rintro ⟨_, ha, h⟩
      cases ha
      exact h

theorem map_ok {g : α → β} : g <$> x = .ok b ↔ ∃ a, x = .ok a ∧ g a = b := by
  rw [map_eq_pure_bind, bind_ok]
  constructor
  · rintro ⟨a, ha, he⟩
    exact ⟨a, ha, Except.ok.inj he⟩
  · rintro ⟨a, ha, rfl⟩
    exact ⟨a, ha, rfl⟩

theorem mapM_ok : l.mapM f = .ok ys ↔ List.Forall₂ (fun a y => f a = .ok y) l ys := by
  induction l generalizing ys with
  | nil =>
    rw [List.mapM_nil]
    constructor
    · intro h
      cases h
      exact .nil
    · intro h
      cases h
      rfl
  | cons a l ih =>
    rw [List.mapM_cons, bind_ok]
    constructor
    · rintro ⟨y, hy, hrest⟩
      obtain ⟨ys', hys, he⟩ := bind_ok.1 hrest
      cases he
      exact .cons hy (ih.1 hys)
    · intro h
      cases h with
      | cons hy hys => exact ⟨_, hy, bind_ok.2 ⟨_, ih.2 hys, rfl⟩⟩

end Outcome

end Tomo
