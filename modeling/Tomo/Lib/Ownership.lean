import Mathlib.Logic.Function.Basic
import Mathlib.Logic.Relation
import Mathlib.Tactic.Common

namespace Tomo
set_option autoImplicit true

/-- A store that many parties work on, and where each of them is. -/
structure Shared (D ι σ : Type) where
  store : D
  parties : ι → σ

/-- What the store shows under a name, which names a party has to itself, what may come to stand
under the others, and what a party knows of the store. -/
structure Ownership (D N V ι σ : Type) where
  get : D → N → Option V
  owns : ι → N → Prop
  fits : N → Option V → Prop
  knows : ι → σ → D → Prop

section
variable {D N V ι σ : Type} [DecidableEq ι] {O : Ownership D N V ι σ}
  {moves : ι → σ → D → σ → D → Prop} {x y : Shared D ι σ} {i j : ι} {n : N} {s s' : σ} {d d' : D}

/-- One party takes a step. -/
inductive Shared.Step (moves : ι → σ → D → σ → D → Prop) : Shared D ι σ → Shared D ι σ → Prop where
  | moved {x : Shared D ι σ} {i : ι} {s : σ} {d : D} : moves i (x.parties i) x.store s d →
      Step moves x ⟨d, Function.update x.parties i s⟩

namespace Ownership

def Public (O : Ownership D N V ι σ) (n : N) : Prop := ∀ i, ¬O.owns i n

/-- Every step leaves alone what others own and puts what fits under the names that nobody owns,
and what a party knows depends on its own names only. -/
structure Respected (O : Ownership D N V ι σ) (moves : ι → σ → D → σ → D → Prop) : Prop where
  apart : ∀ {i j n}, O.owns i n → O.owns j n → i = j
  stable : ∀ {i s d d'}, O.knows i s d → (∀ n, O.owns i n → O.get d' n = O.get d n) →
    O.knows i s d'
  knows : ∀ {i s d s' d'}, O.knows i s d → moves i s d s' d' → O.knows i s' d'
  frame : ∀ {i s d s' d' n}, O.knows i s d → moves i s d s' d' → ¬O.owns i n →
    O.get d' n = O.get d n ∨ O.Public n ∧ O.fits n (O.get d' n)

structure Holds (O : Ownership D N V ι σ) (x : Shared D ι σ) : Prop where
  knows : ∀ i, O.knows i (x.parties i) x.store
  fits : ∀ n, O.Public n → O.fits n (O.get x.store n)

/-- What one step preserves. -/
theorem Holds.step (h : O.Holds x) (hr : O.Respected moves) (hs : Shared.Step moves x y) :
    O.Holds y := by
  induction hs with
  | @moved i s d hm =>
    have hframe {n : N} (hn : ¬O.owns i n) := hr.frame (n := n) (h.knows i) hm hn
    apply Holds.mk
    · intro j
      change O.knows j (Function.update x.parties i s j) d
      by_cases hj : j = i
      · subst hj
        rw [Function.update_self]
        exact hr.knows (h.knows j) hm
      · rw [Function.update_of_ne hj]
        apply hr.stable (h.knows j)
        intro n hn
        obtain hsame | ⟨hpub, -⟩ := hframe fun hi => hj (hr.apart hn hi)
        · exact hsame
        · exact (hpub j hn).elim
    · intro n hn
      obtain hsame | ⟨-, hfits⟩ := hframe (hn i)
      · exact hsame ▸ h.fits n hn
      · exact hfits

/-- What every run preserves, whichever party takes which step. -/
theorem Holds.run (h : O.Holds x) (hr : O.Respected moves)
    (hs : Relation.ReflTransGen (Shared.Step moves) x y) : O.Holds y := by
  induction hs with
  | refl => exact h
  | tail _ hstep ih => exact ih.step hr hstep

end Ownership

end

end Tomo
