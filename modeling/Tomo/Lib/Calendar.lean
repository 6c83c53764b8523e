import Mathlib.Data.Int.Init
import Mathlib.Data.Prod.Lex
import Mathlib.Order.Monotone.Basic
import Mathlib.Tactic.Common

namespace Tomo
set_option autoImplicit true

/-- A day of the Gregorian calendar, carried on before its introduction. -/
structure CivilDate where
  year : Int
  month : Nat
  day : Nat
deriving DecidableEq

def leapDays (year : Int) : Nat :=
  if year % 4 = 0 ∧ (year % 100 ≠ 0 ∨ year % 400 = 0) then 1 else 0

/-- The length of a month, with so many leap days in February. -/
def lengthBy (leap : Nat) : Nat → Nat
  | 2 => 28 + leap
  | 4 | 6 | 9 | 11 => 30
  | _ => 31

theorem lengthBy_of_ne {m : Nat} (h : m ≠ 2) (l l' : Nat) : lengthBy l m = lengthBy l' m := by
  unfold lengthBy
  split
  next => exact absurd rfl h
  next => rfl
  next => rfl
  next => rfl
  next => rfl
  next => rfl

def monthLength (year : Int) (month : Nat) : Nat := lengthBy (leapDays year) month

namespace CivilDate

structure Valid (d : CivilDate) : Prop where
  month_pos : 1 ≤ d.month
  month_le : d.month ≤ 12
  day_pos : 1 ≤ d.day
  day_le : d.day ≤ monthLength d.year d.month

/-- The next day, in a month of so many days. -/
def nextBy (length : Nat) (d : CivilDate) : CivilDate :=
  if d.day < length then ⟨d.year, d.month, d.day + 1⟩
  else if d.month < 12 then ⟨d.year, d.month + 1, 1⟩
  else ⟨d.year + 1, 1, 1⟩

def next (d : CivilDate) : CivilDate := d.nextBy (monthLength d.year d.month)

/-- The same day some years later. -/
def later (d : CivilDate) (years : Int) : CivilDate := ⟨years + d.year, d.month, d.day⟩

theorem nextBy_later (d : CivilDate) (years : Int) (length : Nat) :
    (d.later years).nextBy length = (d.nextBy length).later years := by
  unfold nextBy later
  split
  next => rfl
  next =>
    split
    next => rfl
    next => rw [Int.add_assoc]

def key (d : CivilDate) : Int ×ₗ Nat ×ₗ Nat := toLex (d.year, toLex (d.month, d.day))

/-- The next day is later, whatever the length of the month. -/
theorem key_lt_nextBy (d : CivilDate) (length : Nat) : d.key < (d.nextBy length).key := by
  unfold nextBy key
  rw [Prod.Lex.toLex_lt_toLex]
  split
  next => exact .inr ⟨rfl, Prod.Lex.toLex_lt_toLex.2 (.inr ⟨rfl, Nat.lt_succ_self _⟩)⟩
  next =>
    split
    next => exact .inr ⟨rfl, Prod.Lex.toLex_lt_toLex.2 (.inl (Nat.lt_succ_self _))⟩
    next => exact .inl (Int.lt_add_one_of_le le_rfl)

theorem key_injective {d d' : CivilDate} (h : d.key = d'.key) : d = d' := by
  cases d
  cases d'
  cases h
  rfl

end CivilDate

/-- The days before the first of March of a year, from the first of March of year 0 on. -/
def marchStart (year : Int) : Int := 365 * year + year / 4 - year / 100 + year / 400

theorem marchStart_succ (year : Int) :
    marchStart (year + 1) = marchStart year + 365 + leapDays (year + 1) := by
  unfold marchStart leapDays
  split
  next h => omega
  next h => omega

theorem marchStart_le {a b : Int} (h : a ≤ b) : marchStart a ≤ marchStart b := by
  unfold marchStart
  omega

/-- Every day lies in one March-based year. -/
theorem march_unique {a b s t : Int} (hs : 0 ≤ s) (ht : 0 ≤ t)
    (hsa : s < 365 + leapDays (a + 1)) (htb : t < 365 + leapDays (b + 1))
    (h : marchStart a + s = marchStart b + t) : a = b ∧ s = t := by
  have ha := marchStart_succ a
  have hb := marchStart_succ b
  rcases Int.lt_trichotomy a b with hlt | heq | hlt
  · have hle := marchStart_le (Int.add_one_le_of_lt hlt)
    omega
  · subst heq
    exact ⟨rfl, by omega⟩
  · have hle := marchStart_le (Int.add_one_le_of_lt hlt)
    omega

end Tomo
