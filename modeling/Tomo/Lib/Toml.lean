import Mathlib.Tactic.Common

namespace Tomo
set_option autoImplicit true

namespace Toml

/-- A value of a document; floats and dates are kept as they are written. -/
inductive Value where
  | string (s : List Char)
  | integer (n : Int)
  | boolean (b : Bool)
  | other (text : List Char)
  | array (items : List Value)
  | table (entries : List (List Char × Value))

abbrev Table := List (List Char × Value)

/-- Where a reader is between two characters: after some opening quotes, in a string of one line, or
in one of several lines, after some quotes that may close it. -/
inductive Mode where
  | code
  | comment
  | opening (q : Char) (n : Nat)
  | single (q : Char) (escaped : Bool)
  | multi (q : Char) (closing : Nat) (escaped : Bool)
deriving DecidableEq

namespace Mode

def inCode (c : Char) : Mode :=
  if c = '#' then .comment else if c = '"' ∨ c = '\'' then .opening c 1 else .code

def inSingle (q c : Char) : Mode :=
  if c = '\\' ∧ q = '"' then .single q true else if c = q then .code else .single q false

/-- Three quotes close the string, after up to two that belong to it. -/
def inMulti (q : Char) (closing : Nat) (c : Char) : Mode :=
  if c = q then .multi q (closing + 1) false
  else if 3 ≤ closing then inCode c
  else if c = '\\' ∧ q = '"' then .multi q 0 true
  else .multi q 0 false

def step (m : Mode) (c : Char) : Mode :=
  match m with
  | code => inCode c
  | comment => if c = '\n' then .code else .comment
  | opening q 1 => if c = q then .opening q 2 else inSingle q c
  | opening q _ => if c = q then .multi q 0 false else inCode c
  | single q true => .single q false
  | single q false => inSingle q c
  | multi q _ true => .multi q 0 false
  | multi q closing false => inMulti q closing c

def scan (m : Mode) (s : List Char) : Mode := s.foldl step m

theorem scan_append (m : Mode) (s t : List Char) : m.scan (s ++ t) = (m.scan s).scan t :=
  List.foldl_append

end Mode

/-- The characters that a string may have. -/
def allowed (c : Char) : Bool := c = '\t' || decide (0x20 ≤ c.toNat ∧ c.toNat ≠ 0x7f)

def hexDigit (c : Char) : Option Nat :=
  if '0' ≤ c ∧ c ≤ '9' then some (c.toNat - '0'.toNat)
  else if 'a' ≤ c ∧ c ≤ 'f' then some (c.toNat - 'a'.toNat + 10)
  else if 'A' ≤ c ∧ c ≤ 'F' then some (c.toNat - 'A'.toNat + 10)
  else none

/-- The escapes of one character. -/
def escapes : List (Char × Char) :=
  [('b', '\x08'), ('t', '\t'), ('n', '\n'), ('f', '\x0c'), ('r', '\r'), ('"', '"'), ('\\', '\\')]

/-- Within an escape: after the backslash, or with some hexadecimal digits to come. -/
inductive Reading where
  | plain
  | escaped
  | digits (left value : Nat)

/-- The value of what stands between the quotes of a basic string. -/
def basicString : Reading → List Char → Option (List Char)
  | .plain, [] => some []
  | .escaped, [] | .digits _ _, [] => none
  | .plain, c :: s =>
    if c = '\\' then basicString .escaped s
    else if allowed c && c != '"' then (c :: ·) <$> basicString .plain s
    else none
  | .escaped, c :: s =>
    match escapes.lookup c with
    | some d => (d :: ·) <$> basicString .plain s
    | none =>
      if c = 'u' then basicString (.digits 3 0) s
      else if c = 'U' then basicString (.digits 7 0) s
      else none
  | .digits left value, c :: s => do
    let d ← hexDigit c
    let n := 16 * value + d
    if left = 0 then
      if n.isValidChar then (Char.ofNat n :: ·) <$> basicString .plain s else none
    else basicString (.digits (left - 1) n) s

/-- No quote ends the string before the one that follows it. -/
def closed (escaped : Bool) : List Char → Bool
  | [] => !escaped
  | c :: s => if escaped then closed false s else c != '"' && closed (c == '\\') s

/-- What a reader of basic strings takes for this character. -/
def escape (c : Char) : List Char :=
  if c = '\\' then ['\\', '\\'] else if c = '"' then ['\\', '"'] else [c]

theorem basicString_escape (s : List Char) :
    basicString .plain (s.flatMap escape) = if s.all allowed then some s else none := by
  induction s with
  | nil => rfl
  | cons c s ih =>
    have hone : basicString .plain (escape c ++ s.flatMap escape) =
        if allowed c then (c :: ·) <$> basicString .plain (s.flatMap escape) else none := by
      rw [escape]
      split
      · subst c
        rfl
      · split
        · subst c
          rfl
        · rename_i hslash hquote
          rw [List.singleton_append, basicString, if_neg hslash, bne_iff_ne.2 hquote, Bool.and_true]
    rw [List.flatMap_cons, hone, ih, List.all_cons]
    by_cases hc : allowed c
    · rw [if_pos hc, hc, Bool.true_and]
      split <;> rfl
    · rw [Bool.not_eq_true] at hc
      rw [hc, Bool.false_and]
      rfl

theorem closed_escape (s : List Char) : closed false (s.flatMap escape) := by
  induction s with
  | nil => rfl
  | cons c s ih =>
    rw [List.flatMap_cons, escape]
    split
    · exact ih
    · split
      · exact ih
      · rename_i hslash hquote
        rw [List.singleton_append, closed, bne_iff_ne.2 hquote, beq_false_of_ne hslash]
        exact ih

def Reading.afterSlash : Reading → Bool
  | .escaped => true
  | .plain | .digits _ _ => false

theorem hexDigit_range (h : hexDigit c = some d) :
    ('0' ≤ c ∧ c ≤ '9') ∨ ('a' ≤ c ∧ c ≤ 'f') ∨ ('A' ≤ c ∧ c ≤ 'F') := by
  rw [hexDigit] at h
  split at h
  · exact .inl ‹_›
  · split at h
    · exact .inr (.inl ‹_›)
    · split at h
      · exact .inr (.inr ‹_›)
      · cases h

theorem hexDigit_plain (h : hexDigit c = some d) : allowed c ∧ c ≠ '"' ∧ c ≠ '\\' := by
  have hrange := hexDigit_range h
  simp only [Char.le_def, UInt32.le_iff_toNat_le] at hrange
  refine ⟨?_, ?_, ?_⟩
  · rw [allowed, Bool.or_eq_true, decide_eq_true_eq, decide_eq_true_eq]
    right
    simp only [Char.reduceVal, UInt32.reduceToNat, Char.toNat_val] at hrange
    omega
  · rintro rfl
    revert hrange
    decide
  · rintro rfl
    revert hrange
    decide

/-- The first character of a string that is read, and what is read after it. -/
theorem basicString_cons (h : basicString r (c :: s) = some v) : allowed c ∧
    (r.afterSlash = false → c ≠ '"') ∧ ∃ r' v', basicString r' s = some v' ∧
      r'.afterSlash = (!r.afterSlash && c == '\\') := by
  cases r with
  | plain =>
    rw [basicString] at h
    split at h
    · subst c
      exact ⟨rfl, fun _ => nofun, .escaped, v, h, rfl⟩
    · rename_i hslash
      split at h
      · rename_i hc
        obtain ⟨hallowed, hquote⟩ := Bool.and_eq_true_iff.1 hc
        obtain ⟨v', hv', -⟩ := Option.map_eq_some_iff.1 h
        refine ⟨hallowed, fun _ => bne_iff_ne.1 hquote, .plain, v', hv', ?_⟩
        rw [beq_false_of_ne hslash]
        rfl
      · cases h
  | escaped =>
    rw [basicString] at h
    split at h
    · rename_i d hd
      obtain ⟨v', hv', -⟩ := Option.map_eq_some_iff.1 h
      have hkey : ∀ e ∈ escapes, allowed e.1 := by decide
      obtain ⟨l, r, hsplit, -⟩ := List.lookup_eq_some_iff.1 hd
      refine ⟨hkey (c, d) ?_, nofun, .plain, v', hv', rfl⟩
      rw [hsplit]
      exact List.mem_append_right l List.mem_cons_self
    · split at h
      · subst c
        exact ⟨rfl, nofun, _, v, h, rfl⟩
      · split at h
        · subst c
          exact ⟨rfl, nofun, _, v, h, rfl⟩
        · cases h
  | digits left value =>
    rw [basicString] at h
    obtain ⟨d, hd, hrest⟩ := Option.bind_eq_some_iff.1 h
    obtain ⟨hallowed, hquote, hslash⟩ := hexDigit_plain hd
    have hnext : (Reading.digits left value).afterSlash = false := rfl
    rw [hnext, beq_false_of_ne hslash]
    refine ⟨hallowed, fun _ => hquote, ?_⟩
    dsimp only at hrest
    split at hrest
    · split at hrest
      · obtain ⟨v', hv', -⟩ := Option.map_eq_some_iff.1 hrest
        exact ⟨.plain, v', hv', rfl⟩
      · cases hrest
    · exact ⟨_, v, hrest, rfl⟩

/-- Every character of a string that is read is one that a string may have. -/
theorem basicString_allowed (h : basicString r s = some v) : ∀ c ∈ s, allowed c := by
  induction s generalizing r v with
  | nil => exact nofun
  | cons c s ih =>
    obtain ⟨hc, -, r', v', hs, -⟩ := basicString_cons h
    exact List.forall_mem_cons.2 ⟨hc, ih hs⟩

/-- What is read as a string ends at a quote that follows it. -/
theorem basicString_ends (h : basicString r s = some v) (rest : List Char) :
    closed r.afterSlash (s ++ '"' :: rest) = false := by
  induction s generalizing r v with
  | nil =>
    cases r with
    | plain => rfl
    | escaped => cases h
    | digits left value => cases h
  | cons c s ih =>
    obtain ⟨-, hquote, r', v', hs, hr'⟩ := basicString_cons h
    have hrest := ih hs
    rw [hr'] at hrest
    rw [List.cons_append, closed]
    cases hr : r.afterSlash with
    | true =>
      rw [hr] at hrest
      exact hrest
    | false =>
      rw [hr] at hrest
      rw [if_neg Bool.false_ne_true, bne_iff_ne.2 (hquote hr)]
      exact hrest

end Toml

end Tomo
