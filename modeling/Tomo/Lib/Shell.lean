import Mathlib.Tactic.Common

namespace Tomo
set_option autoImplicit true

namespace Shell

/-- The characters of a word, each with whether it is quoted. -/
abbrev Word := List (Char × Bool)

inductive Token where
  | word (w : Word)
  | operator (op : List Char)
  | newline
deriving DecidableEq

inductive Mode where
  | unquoted
  | escaped
  | single
  | double
  | doubleEscaped
  | comment
  | operator (op : List Char)
deriving DecidableEq

/-- The tokens so far, and the word that is being read. -/
structure Lexing where
  out : List Token
  cur : Option Word
  mode : Mode
deriving DecidableEq

/-- The operators of two characters and more; a single character of them is one as well. -/
def operators : List (List Char) :=
  ["&&", "||", ";;", "<<", ">>", "<&", ">&", "<>", ">|", "<<-"].map String.toList

def startsOperator (c : Char) : Bool := c ∈ ['&', '|', ';', '<', '>', '(', ')']

def isBlank (c : Char) : Bool := c = ' ' ∨ c = '\t'

/-- What asks for an expansion, also between double quotes. -/
def expands (c : Char) : Bool := c = '$' ∨ c = '\x60'

/-- What has no meaning of its own in an unquoted word. -/
def ordinary (c : Char) : Bool :=
  !startsOperator c && !isBlank c && !expands c &&
    decide (c ∉ ['\'', '"', '\\', '\n', '#', '*', '?', '[', '~', '!', '{', '}'])

namespace Lexing

def push (s : Lexing) (c : Char) (quoted : Bool) : Lexing :=
  { s with cur := some (s.cur.getD [] ++ [(c, quoted)]) }

/-- An opening quote begins a word, even an empty one. -/
def enter (s : Lexing) (m : Mode) : Lexing := { s with cur := some (s.cur.getD []), mode := m }

/-- The word ends. -/
def delimit (s : Lexing) : Lexing :=
  match s.cur with
  | some w => { s with out := s.out ++ [.word w], cur := none }
  | none => s

def emit (s : Lexing) (t : Token) : Lexing := { s with out := s.out ++ [t] }

def stepUnquoted (s : Lexing) (c : Char) : Option Lexing :=
  if c = '\'' then some (s.enter .single)
  else if c = '"' then some (s.enter .double)
  else if c = '\\' then some { s with mode := .escaped }
  else if isBlank c then some s.delimit
  else if c = '\n' then some (s.delimit.emit .newline)
  else if startsOperator c then some { s.delimit with mode := .operator [c] }
  else if c = '#' ∧ s.cur = none then some { s with mode := .comment }
  else if expands c then none
  else some (s.push c false)

/-- One character more; nothing where an expansion begins, which is not followed here. -/
def step (s : Lexing) (c : Char) : Option Lexing :=
  match s.mode with
  | .unquoted => s.stepUnquoted c
  | .escaped =>
    let s := { s with mode := .unquoted }
    if c = '\n' then some s else some (s.push c true)
  | .single => if c = '\'' then some { s with mode := .unquoted } else some (s.push c true)
  | .double =>
    if c = '"' then some { s with mode := .unquoted }
    else if c = '\\' then some { s with mode := .doubleEscaped }
    else if expands c then none
    else some (s.push c true)
  | .doubleEscaped =>
    let s := { s with mode := .double }
    if c = '\n' then some s
    else if c = '"' ∨ c = '\\' ∨ expands c then some (s.push c true)
    else some ((s.push '\\' true).push c true)
  | .comment => if c = '\n' then some { s.emit .newline with mode := .unquoted } else some s
  | .operator op =>
    if op ++ [c] ∈ operators then some { s with mode := .operator (op ++ [c]) }
    else stepUnquoted { s.emit (.operator op) with mode := .unquoted } c

def run (s : Lexing) (text : List Char) : Option Lexing := text.foldlM step s

/-- The tokens at the end of a text; nothing where a quote is open. -/
def finish (s : Lexing) : Option (List Token) :=
  match s.mode with
  | .unquoted | .comment => some s.delimit.out
  | .operator op => some (s.emit (.operator op)).out
  | .escaped | .single | .double | .doubleEscaped => none

end Lexing

/-- Token recognition of the shell. -/
def tokenize (text : List Char) : Option (List Token) :=
  (Lexing.run ⟨[], none, .unquoted⟩ text).bind Lexing.finish

def quoted (s : List Char) : Word := s.map fun c => (c, true)

def plain (s : List Char) : Word := s.map fun c => (c, false)

/-- Whether nothing in a token but an operator asks for more than its characters. -/
def Token.inert : Token → Bool
  | .word w => w.all fun e => e.2 || ordinary e.1
  | .operator _ => true
  | .newline => false

namespace Lexing
variable {s : Lexing} {out : List Token} {cur : Option Word} {a b : List Char} {w : Word}

theorem run_append : s.run (a ++ b) = (s.run a).bind fun u => u.run b := List.foldlM_append

@[simp] theorem run_nil : s.run [] = some s := rfl

theorem run_cons (c : Char) : s.run (c :: a) = (s.step c).bind fun u => u.run a := rfl

end Lexing

/-- A text that adds just this to the word it stands in. -/
def Spells (text : List Char) (w : Word) : Prop :=
  ∀ out cur, Lexing.run ⟨out, cur, .unquoted⟩ text =
    some ⟨out, some (cur.getD [] ++ w), .unquoted⟩

/-- Adjacent pieces join to one word. -/
theorem Spells.append (h : Spells a w) (h' : Spells b w') : Spells (a ++ b) (w ++ w') := by
  intro out cur
  rw [Lexing.run_append, h out cur, Option.bind_some, h' out, Option.getD_some, List.append_assoc]

theorem stepUnquoted_ordinary {s : Lexing} (hc : ordinary c = true) :
    s.stepUnquoted c = some (s.push c false) := by
  simp only [ordinary, Bool.and_eq_true, Bool.not_eq_true', decide_eq_true_eq, List.mem_cons,
    List.not_mem_nil, or_false, not_or] at hc
  obtain ⟨⟨⟨hop, hblank⟩, hexp⟩, hq, hd, he, hn, hhash, _⟩ := hc
  simp only [Lexing.stepUnquoted, hop, hblank, hexp, hq, hd, he, hn, hhash, if_false,
    Bool.false_eq_true, false_and]

/-- Words with a blank after them are read one by one. -/
theorem Spells.word (h : Spells a w) (out : List Token) (rest : List Char) :
    Lexing.run ⟨out, none, .unquoted⟩ (a ++ ' ' :: rest) =
      Lexing.run ⟨out ++ [.word w], none, .unquoted⟩ rest := by
  rw [Lexing.run_append, h out none, Option.bind_some]
  rfl

theorem spells_plain (hne : a ≠ []) (hall : a.all ordinary) : Spells a (plain a) := by
  obtain ⟨c, a, rfl⟩ := List.exists_cons_of_ne_nil hne
  have h := List.all_eq_true.1 hall
  clear hne hall
  intro out cur
  induction a generalizing c cur with
  | nil =>
    rw [Lexing.run_cons, Lexing.step, stepUnquoted_ordinary (h c List.mem_cons_self)]
    rfl
  | cons d a ih =>
    rw [Lexing.run_cons, Lexing.step, stepUnquoted_ordinary (h c List.mem_cons_self),
      Option.bind_some, Lexing.push, ih d fun e he => h e (List.mem_cons_of_mem c he)]
    rw [Option.getD_some, List.append_assoc]
    rfl

/-- A text that stands for one word, with the word. -/
structure Spelling where
  text : List Char
  word : Word
  spells : Spells text word

/-- Words with blanks between them. -/
def line (words : List (List Char)) : List Char := [' '].intercalate words

theorem line_cons (a b : List Char) (l : List (List Char)) :
    line (a :: b :: l) = a ++ ' ' :: line (b :: l) := by
  simp only [line, List.intercalate, List.intersperse_cons_cons, List.flatten_cons]
  rfl

theorem run_line (l : List Spelling) (x : Spelling) (out : List Token) :
    Lexing.run ⟨out, none, .unquoted⟩ (line ((l ++ [x]).map Spelling.text)) =
      some ⟨out ++ l.map fun y => .word y.word, some x.word, .unquoted⟩ := by
  induction l generalizing out with
  | nil =>
    have hone : line ([x].map Spelling.text) = x.text := by
      simp only [line, List.intercalate, List.map_cons, List.map_nil, List.intersperse_singleton,
        List.flatten_cons, List.flatten_nil, List.append_nil]
    rw [List.nil_append, hone, x.spells]
    simp only [Option.getD_none, List.nil_append, List.map_nil, List.append_nil]
  | cons y l ih =>
    obtain ⟨z, rest, hz⟩ := List.exists_cons_of_ne_nil
      (List.append_ne_nil_of_right_ne_nil l (List.cons_ne_nil x []))
    have hline : line ((y :: l ++ [x]).map Spelling.text) =
        y.text ++ ' ' :: line ((l ++ [x]).map Spelling.text) := by
      rw [List.cons_append, hz]
      exact line_cons ..
    rw [hline, y.spells.word, ih, List.append_assoc]
    rfl

/-- A line of words is read as just these words. -/
theorem tokenize_line (l : List Spelling) :
    tokenize (line (l.map Spelling.text)) = some (l.map fun y => .word y.word) := by
  rcases l.eq_nil_or_concat with rfl | ⟨l, x, rfl⟩
  · rfl
  · rw [List.concat_eq_append, tokenize, run_line, List.map_append]
    rfl

end Shell

end Tomo
