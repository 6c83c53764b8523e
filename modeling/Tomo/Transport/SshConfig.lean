import Mathlib.Tactic.Common
import Mathlib.Data.Char
import Mathlib.Data.List.DropRight
import Mathlib.Data.List.Lex
import Tomo.Engine.Path

namespace Tomo
set_option autoImplicit true

abbrev Text := List Char

instance Text.lawfulBEq : LawfulBEq Text := List.instLawfulBEq

/-- The characters of the Unicode property White_Space. -/
def isWhitespace (c : Char) : Bool :=
  decide (0x09 ≤ c.toNat ∧ c.toNat ≤ 0x0d) || decide (0x2000 ≤ c.toNat ∧ c.toNat ≤ 0x200a) ||
    decide (c.toNat ∈ [0x20, 0x85, 0xa0, 0x1680, 0x2028, 0x2029, 0x202f, 0x205f, 0x3000])

namespace Text

def trimStart (s : Text) : Text := s.dropWhile isWhitespace

def trim (s : Text) : Text := (trimStart s).rdropWhile isWhitespace

def toAsciiLowercase (s : Text) : Text := s.map Char.toLower

def splitWhitespace (s : Text) : List Text := (s.splitOnP isWhitespace).filter (· ≠ [])

/-- A carriage return before the line's end, and the empty text after the last one, are left to
`trim`, which every user of the lines calls first. -/
def lines (s : Text) : List Text := s.splitOn '\n'

/-- Without its first character, where it is that one. -/
def stripChar (c : Char) : Text → Option Text
  | [] => none
  | d :: s => if d = c then some s else none

end Text

theorem digits_lt {x x' y y' b : Nat} (h : x' < x ∨ x' = x ∧ y' < y) (hb : y' ≤ b) :
    x' * (b + 1) + y' < x * (b + 1) + y := by
  rcases h with h | ⟨rfl, h⟩
  · calc x' * (b + 1) + y' < (x' + 1) * (b + 1) := by rw [Nat.succ_mul]; omega
      _ ≤ x * (b + 1) := Nat.mul_le_mul_right _ h
      _ ≤ x * (b + 1) + y := Nat.le_add_right _ _
  · exact Nat.add_lt_add_left h _

/-- Where the matching of a pattern stands: the indices into pattern and text, and the last star
with the place in the text where it took over. -/
structure GlobState where
  p : Nat
  t : Nat
  star : Option Nat
  mark : Nat
  behind : ∀ sp, star = some sp → sp < p
  marked : mark ≤ t

namespace GlobState

def start : GlobState := ⟨0, 0, none, 0, fun _ h => (by cases h), Nat.le_refl 0⟩

/-- Both one character on. -/
def advance (g : GlobState) : GlobState :=
  ⟨g.p + 1, g.t + 1, g.star, g.mark, fun sp h => Nat.lt_succ_of_lt (g.behind sp h),
    Nat.le_succ_of_le g.marked⟩

def atStar (g : GlobState) : GlobState :=
  ⟨g.p + 1, g.t, some g.p, g.t, fun _ h => (by cases h; exact Nat.lt_succ_self g.p),
    Nat.le_refl g.t⟩

/-- The star takes one character more. -/
def backtrack (g : GlobState) (sp : Nat) : GlobState :=
  ⟨sp + 1, g.mark + 1, some sp, g.mark + 1, fun _ h => (by cases h; exact Nat.lt_succ_self sp),
    Nat.le_refl (g.mark + 1)⟩

/-- The first pattern index that no star so far has taken. -/
def free (g : GlobState) : Nat := g.star.elim 0 (· + 1)

theorem free_le (g : GlobState) : g.free ≤ g.p := by
  rcases hs : g.star with _ | sp
  · simp only [free, hs, Option.elim_none, Nat.zero_le]
  · simp only [free, hs, Option.elim_some]
    exact g.behind sp hs

def measure (needle hay : Text) (g : GlobState) : Nat :=
  ((needle.length - g.free) * (hay.length + 1) + (hay.length - g.mark)) *
    (needle.length + hay.length + 1) + ((needle.length - g.p) + (hay.length - g.t))

def run (needle hay : Text) (g : GlobState) : Bool :=
  if _ : g.t < hay.length then
    if _ : g.p < needle.length ∧ (needle[g.p]? = some '?' ∨ needle[g.p]? = hay[g.t]?) then
      run needle hay g.advance
    else if _ : g.p < needle.length ∧ needle[g.p]? = some '*' then run needle hay g.atStar
    else
      match _ : g.star with
      | some sp => run needle hay (g.backtrack sp)
      | none => false
  else (needle.drop g.p).all (· == '*')
termination_by g.measure needle hay
decreasing_by
  · simp only [measure, free, advance]
    omega
  · have hfree := g.free_le
    apply digits_lt (digits_lt (.inl ?_) (Nat.sub_le _ _) |> .inl) (by omega)
    simp only [free, atStar, Option.elim_some] at hfree ⊢
    omega
  · have hmark := g.marked
    apply digits_lt (digits_lt (.inr ⟨?_, ?_⟩) (Nat.sub_le _ _) |> .inl) (by omega)
    · simp only [free, backtrack, Option.elim_some, *]
    · simp only [backtrack]
      omega

end GlobState

/-- Case-insensitive matching with `*` for any run and `?` for one character. -/
def globMatch (pattern text : Text) : Bool :=
  GlobState.start.run (Text.toAsciiLowercase pattern) (Text.toAsciiLowercase text)

/-- The loop over the patterns of a `Host` line; a negated match wins at once. -/
def hostMatchesFrom (host : Text) (positive : Bool) : List Text → Bool
  | [] => positive
  | pat :: pats =>
    match Text.stripChar '!' pat with
    | some neg => if globMatch neg host then false else hostMatchesFrom host positive pats
    | none => hostMatchesFrom host (positive || globMatch pat host) pats

def hostMatches (patterns host : Text) : Bool :=
  hostMatchesFrom host false (Text.splitWhitespace patterns)

/-- The keyword of a line and its argument, unless the line is blank or a comment. -/
def splitDirective (line : Text) : Option (Text × Text) :=
  let trimmed := Text.trim line
  if trimmed = [] ∨ trimmed.head? = some '#' then none
  else
    match trimmed.findIdx? fun c => isWhitespace c || c == '=' with
    | none => none
    | some splitAt =>
      let keyword := trimmed.take splitAt
      let rest := Text.trimStart (trimmed.drop splitAt)
      let rest := match Text.stripChar '=' rest with
        | some after => Text.trimStart after
        | none => rest
      if keyword = [] ∨ rest = [] then none else some (keyword, rest)

/-- The tokens of an argument so far, and the one that is being read. -/
structure ArgState where
  out : List Text
  cur : Text
  inQuote : Bool
  sawToken : Bool

def ArgState.step (s : ArgState) (c : Char) : ArgState :=
  if c = '"' then { s with inQuote := !s.inQuote, sawToken := true }
  else if isWhitespace c && !s.inQuote then
    if s.sawToken then { s with out := s.out ++ [s.cur], cur := [], sawToken := false } else s
  else { s with cur := s.cur ++ [c], sawToken := true }

/-- Double quotes keep a token together and are taken out. -/
def splitArgs (s : Text) : List Text :=
  let last := s.foldl ArgState.step ⟨[], [], false, false⟩
  if last.sawToken then last.out ++ [last.cur] else last.out

inductive StrictHostKey where
  | yes
  | no
  | acceptNew
deriving DecidableEq

def StrictHostKey.parse (arg : Text) : Option StrictHostKey :=
  let arg := Text.toAsciiLowercase (Text.trim arg)
  if arg = "yes".toList ∨ arg = "ask".toList then some .yes
  else if arg = "no".toList ∨ arg = "off".toList then some .no
  else if arg = "accept-new".toList then some .acceptNew
  else none

/-- What one host has been given so far. -/
structure RawHostConfig where
  hostName : Option Text
  user : Option Text
  port : Option Nat
  identityFiles : List Text
  identitiesOnly : Option Bool
  strict : Option StrictHostKey
  knownHosts : Option (List Text)
  globalKnownHosts : Option (List Text)
  proxyJump : Option Text
  unknown : List Text
deriving DecidableEq

/-- Without the double quotes around it. -/
def unquote (s : Text) : Text :=
  match Text.stripChar '"' s with
  | some inner => if inner.getLast? = some '"' then inner.dropLast else s
  | none => s

def parseYes (arg : Text) : Bool := Text.toAsciiLowercase (Text.trim arg) = "yes".toList

/-- Decimal digits, after a plus sign or not, that fit sixteen bits. -/
def parseU16 (s : Text) : Option Nat :=
  let digits := (Text.stripChar '+' s).getD s
  if digits = [] ∨ ¬ digits.all Char.isDigit then none
  else
    let n := digits.foldl (fun n c => 10 * n + (c.toNat - '0'.toNat)) 0
    if n < 65536 then some n else none

namespace RawHostConfig

def empty : RawHostConfig := ⟨none, none, none, [], none, none, none, none, none, []⟩

/-- The first value stays; identity files and unknown names gather. -/
def apply (raw : RawHostConfig) (name args : Text) : RawHostConfig :=
  if name = "hostname".toList then
    { raw with hostName := raw.hostName <|> some (unquote (Text.trim args)) }
  else if name = "user".toList then
    { raw with user := raw.user <|> some (unquote (Text.trim args)) }
  else if name = "port".toList then
    { raw with port := raw.port <|> (parseU16 (Text.trim args)).filter (· ≠ 0) }
  else if name = "identityfile".toList then
    { raw with identityFiles := raw.identityFiles ++ splitArgs args }
  else if name = "identitiesonly".toList then
    { raw with identitiesOnly := raw.identitiesOnly <|> some (parseYes args) }
  else if name = "stricthostkeychecking".toList then
    { raw with strict := raw.strict <|> StrictHostKey.parse args }
  else if name = "userknownhostsfile".toList then
    { raw with knownHosts := raw.knownHosts <|> some (splitArgs args) }
  else if name = "globalknownhostsfile".toList then
    { raw with globalKnownHosts := raw.globalKnownHosts <|> some (splitArgs args) }
  else if name = "proxyjump".toList then
    { raw with proxyJump := raw.proxyJump <|> some (Text.trim args) }
  else if name ∈ raw.unknown then raw
  else { raw with unknown := raw.unknown ++ [name] }

end RawHostConfig

/-- A path by its components, which is how paths compare. -/
structure FilePath where
  absolute : Bool
  parts : List Name
deriving DecidableEq

namespace FilePath

def of (s : Text) : FilePath :=
  ⟨s.head? = some '/', (s.splitOn '/').filter fun part => part ≠ [] ∧ part ≠ ['.']⟩

/-- An absolute second path replaces the first. -/
def join (a b : FilePath) : FilePath :=
  if b.absolute then b else ⟨a.absolute, a.parts ++ b.parts⟩

def parent (a : FilePath) : Option FilePath :=
  if a.parts = [] then none else some ⟨a.absolute, a.parts.dropLast⟩

def fileName (a : FilePath) : Option Name := a.parts.getLast?.filter (· ≠ ['.', '.'])

end FilePath

/-- What loading asks of the file system. -/
structure ConfigFiles where
  readToString : FilePath → Option Text
  canonicalize : FilePath → Option FilePath
  readDir : FilePath → Option (List Name)

/-- The files that one token of an `Include` argument stands for. -/
def expandToken (files : ConfigFiles) (home : FilePath) (tok : Text) : List FilePath :=
  let base :=
    if ['~', '/'] <+: tok then home.join (.of (tok.drop 2))
    else if (FilePath.of tok).absolute then .of tok
    else (home.join (.of ".ssh".toList)).join (.of tok)
  if '*' ∈ tok ∨ '?' ∈ tok then
    match base.parent, base.fileName with
    | some dir, some pattern =>
      match files.readDir dir with
      | some entries =>
        ((entries.filter (globMatch pattern)).mergeSort fun a b => decide (a ≤ b)).map
          fun name => ⟨dir.absolute, dir.parts ++ [name]⟩
      | none => []
    | _, _ => []
  else [base]

def expandIncludes (files : ConfigFiles) (arg : Text) (home : FilePath) : List FilePath :=
  (splitArgs arg).flatMap (expandToken files home)

/-- One parsed line of a config, after include expansion. -/
inductive SshConfig.Line where
  | host (patterns : Text)
  | «match»
  | keyword (name args : Text)
deriving DecidableEq

/-- What loading puts out: lines, and where the lines of an included file begin and end. -/
inductive Mark where
  | line (l : SshConfig.Line)
  | enter
  | leave
deriving DecidableEq

structure LoadState where
  out : List Mark
  visited : List FilePath
deriving DecidableEq

def LoadState.push (s : LoadState) (m : Mark) : LoadState := { s with out := s.out ++ [m] }

def maxDepth : Nat := 8

/-- One line of a file, where `include` loads one included file. -/
def loadLine (files : ConfigFiles) (home : FilePath) (loadIncluded : FilePath → LoadState → LoadState)
    (s : LoadState) (raw : Text) : LoadState :=
  match splitDirective raw with
  | none => s
  | some (kw, arg) =>
    let name := Text.toAsciiLowercase kw
    if name = "host".toList then s.push (.line (.host arg))
    else if name = "match".toList then s.push (.line .match)
    else if name = "include".toList then
      (expandIncludes files arg home).foldl
        (fun s inc => (loadIncluded inc (s.push .enter)).push .leave) s
    else s.push (.line (.keyword name arg))

/-- The levels that are left are one more than `maxDepth` minus the depth: with none left the depth
exceeds the bound. -/
def loadInto (files : ConfigFiles) (home : FilePath) :
    (left : Nat) → FilePath → LoadState → LoadState
  | 0, _, s => s
  | left + 1, path, s =>
    let key := (files.canonicalize path).getD path
    if key ∈ s.visited then s
    else
      let s := { s with visited := key :: s.visited }
      match files.readToString path with
      | none => s
      | some content =>
        (Text.lines content).foldl (loadLine files home (loadInto files home left)) s

/-- A config with its includes expanded. -/
def loadMarks (files : ConfigFiles) (path home : FilePath) : List Mark :=
  (loadInto files home (maxDepth + 1) path ⟨[], []⟩).out

def Mark.line? : Mark → Option SshConfig.Line
  | .line l => some l
  | _ => none

structure SshConfig where
  lines : List SshConfig.Line
deriving DecidableEq

namespace SshConfig

/-- Without a file system an `Include` is nothing. -/
def parseLine (raw : Text) : Option Line :=
  match splitDirective raw with
  | none => none
  | some (kw, arg) =>
    let name := Text.toAsciiLowercase kw
    if name = "host".toList then some (.host arg)
    else if name = "match".toList then some .match
    else if name = "include".toList then none
    else some (.keyword name arg)

def parse (content : Text) : SshConfig := ⟨(Text.lines content).filterMap parseLine⟩

def load (files : ConfigFiles) (path home : FilePath) : SshConfig :=
  ⟨(loadMarks files path home).filterMap Mark.line?⟩

/-- Whether the block is active, and what the host has been given. -/
def step (host : Text) : Bool × RawHostConfig → Line → Bool × RawHostConfig
  | (_, raw), .host patterns => (hostMatches patterns host, raw)
  | (_, raw), .match => (false, raw)
  | (active, raw), .keyword name args => (active, if active then raw.apply name args else raw)

def resolveRaw (c : SshConfig) (host : Text) : RawHostConfig :=
  (c.lines.foldl (step host) (true, .empty)).2

end SshConfig

end Tomo
