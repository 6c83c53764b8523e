import Tomo.Lib.Shell
import Tomo.Transport.SshConfig

namespace Tomo
set_option autoImplicit true

/-- A single quote closes the quotes, stands escaped, and opens them again. -/
def quoteChar (ch : Char) : Text := if ch = '\'' then "'\\''".toList else [ch]

/-- Single quotes around the text. -/
def shellQuote (arg : Text) : Text := '\'' :: (arg.flatMap quoteChar ++ ['\''])

def shellLine (words : List Text) : Text := Shell.line words

/-- What the login shell of the remote host is to run. -/
def serveCommand (remotePath binaryRel : Text) (peerName : Option Text) : Text :=
  let quotedBin := shellQuote binaryRel
  let tail := match peerName with
    | some name => "env TOMO_PEER_NAME=".toList ++ shellQuote name ++ ' ' :: quotedBin ++
        " serve --stdio".toList
    | none => quotedBin ++ " serve --stdio".toList
  "cd ".toList ++ shellQuote remotePath ++ " && exec ".toList ++ tail

namespace Shell
variable {out : List Token} {w : Word}

theorem run_quoteChar (ch : Char) :
    Lexing.run ⟨out, some w, .single⟩ (quoteChar ch) =
      some ⟨out, some (w ++ [(ch, true)]), .single⟩ := by
  by_cases h : ch = '\''
  · rw [h]
    rfl
  · rw [quoteChar, if_neg h, Lexing.run_cons, Lexing.step]
    dsimp only
    rw [if_neg h]
    rfl

theorem run_quoteChars (arg : Text) :
    Lexing.run ⟨out, some w, .single⟩ (arg.flatMap quoteChar) =
      some ⟨out, some (w ++ quoted arg), .single⟩ := by
  induction arg generalizing w with
  | nil =>
    rw [quoted, List.map_nil, List.append_nil]
    rfl
  | cons ch arg ih =>
    rw [List.flatMap_cons, Lexing.run_append, run_quoteChar, Option.bind_some, ih,
      List.append_assoc]
    rfl

/-- A quoted text adds its characters to the word, and nothing else happens. -/
theorem spells_shellQuote (arg : Text) : Spells (shellQuote arg) (quoted arg) := by
  intro out cur
  have hopen : Lexing.run ⟨out, cur, .unquoted⟩ ['\''] =
      some ⟨out, some (cur.getD []), .single⟩ := rfl
  have hclose (w : Word) : Lexing.run ⟨out, some w, .single⟩ ['\''] =
      some ⟨out, some w, .unquoted⟩ := rfl
  have hquote : shellQuote arg = ['\''] ++ (arg.flatMap quoteChar ++ ['\'']) := rfl
  rw [hquote, Lexing.run_append, hopen, Option.bind_some, Lexing.run_append, run_quoteChars,
    Option.bind_some, hclose]

/-- A quoted text, as a word of its own. -/
def quotedWord (arg : Text) : Spelling := ⟨shellQuote arg, quoted arg, spells_shellQuote arg⟩

/-- What the command line of the remote is meant to say. -/
def serveTokens (remotePath binaryRel : Text) (peerName : Option Text) : List Token :=
  [.word (plain "cd".toList), .word (quoted remotePath), .operator "&&".toList,
    .word (plain "exec".toList)] ++
  (match peerName with
    | some name => [.word (plain "env".toList),
        .word (plain "TOMO_PEER_NAME=".toList ++ quoted name)]
    | none => []) ++
  [.word (quoted binaryRel), .word (plain "serve".toList), .word (plain "--stdio".toList)]

theorem inert_quoted (arg : Text) : (Token.word (quoted arg)).inert = true := by
  rw [Token.inert, quoted, List.all_map, List.all_eq_true]
  intro c _
  rfl

/-- Outside the quotes there are only the fixed words. -/
theorem serveTokens_inert {remotePath binaryRel : Text} {peerName : Option Text} {t : Token}
    (ht : t ∈ serveTokens remotePath binaryRel peerName) : t.inert = true := by
  rcases List.mem_append.1 ht with ht | ht
  · rcases List.mem_append.1 ht with ht | ht
    · simp only [List.mem_cons, List.not_mem_nil, or_false] at ht
      rcases ht with rfl | rfl | rfl | rfl
      · rfl
      · exact inert_quoted remotePath
      · rfl
      · rfl
    · cases peerName with
      | none => cases ht
      | some name =>
        simp only [List.mem_cons, List.not_mem_nil, or_false] at ht
        rcases ht with rfl | rfl
        · rfl
        · rw [Token.inert, List.all_append, Bool.and_eq_true]
          exact ⟨rfl, inert_quoted name⟩
  · simp only [List.mem_cons, List.not_mem_nil, or_false] at ht
    rcases ht with rfl | rfl | rfl
    · exact inert_quoted binaryRel
    · rfl
    · rfl

/-- The shell reads the command line piece by piece as the tokens meant. -/
theorem tokenize_serveCommand (remotePath binaryRel : Text) (peerName : Option Text) :
    tokenize (serveCommand remotePath binaryRel peerName) =
      some (serveTokens remotePath binaryRel peerName) := by
  have hcd : Spells "cd".toList (plain "cd".toList) := spells_plain (by decide) (by decide)
  have hexec : Spells "exec".toList (plain "exec".toList) := spells_plain (by decide) (by decide)
  have henv : Spells "env".toList (plain "env".toList) := spells_plain (by decide) (by decide)
  have hname : Spells "TOMO_PEER_NAME=".toList (plain "TOMO_PEER_NAME=".toList) :=
    spells_plain (by decide) (by decide)
  have hserve : Spells "serve".toList (plain "serve".toList) :=
    spells_plain (by decide) (by decide)
  have hstdio : Spells "--stdio".toList (plain "--stdio".toList) :=
    spells_plain (by decide) (by decide)
  have hand (out : List Token) (rest : Text) :
      Lexing.run ⟨out, none, .unquoted⟩ ("&& ".toList ++ rest) =
        Lexing.run ⟨out ++ [.operator "&&".toList], none, .unquoted⟩ rest := by
    rw [Lexing.run_append]
    rfl
  cases peerName with
  | none =>
    have htext : serveCommand remotePath binaryRel none =
        "cd".toList ++ ' ' :: (shellQuote remotePath ++ ' ' :: ("&& ".toList ++ ("exec".toList ++
          ' ' :: (shellQuote binaryRel ++ ' ' :: ("serve".toList ++ ' ' :: "--stdio".toList))))) := by
      rw [serveCommand.eq_def]
      simp only [List.append_assoc]
      rfl
    rw [tokenize, htext, hcd.word, (spells_shellQuote remotePath).word, hand, hexec.word,
      (spells_shellQuote binaryRel).word, hserve.word, hstdio]
    rfl
  | some name =>
    have htext : serveCommand remotePath binaryRel (some name) =
        "cd".toList ++ ' ' :: (shellQuote remotePath ++ ' ' :: ("&& ".toList ++ ("exec".toList ++
          ' ' :: ("env".toList ++ ' ' :: (("TOMO_PEER_NAME=".toList ++ shellQuote name) ++
            ' ' :: (shellQuote binaryRel ++ ' ' :: ("serve".toList ++ ' ' ::
              "--stdio".toList))))))) := by
      rw [serveCommand.eq_def]
      simp only [List.append_assoc]
      rfl
    rw [tokenize, htext, hcd.word, (spells_shellQuote remotePath).word, hand, hexec.word,
      henv.word, (hname.append (spells_shellQuote name)).word, (spells_shellQuote binaryRel).word,
      hserve.word, hstdio]
    rfl

/-- The command line of the remote is read as meant and has no further effect, and a quoted text is
one word, whatever words stand beside it. -/
theorem quoting_safe :
    (∀ remotePath binaryRel peerName,
      tokenize (serveCommand remotePath binaryRel peerName) =
        some (serveTokens remotePath binaryRel peerName) ∧
      ∀ t ∈ serveTokens remotePath binaryRel peerName, t.inert = true) ∧
    ∀ (before after : List Spelling) (arg : Text),
      tokenize (shellLine (before.map Spelling.text ++ shellQuote arg :: after.map Spelling.text)) =
        some (before.map (fun x => .word x.word) ++ .word (quoted arg) ::
          after.map fun x => .word x.word) := by
  constructor
  · intro remotePath binaryRel peerName
    exact ⟨tokenize_serveCommand remotePath binaryRel peerName, fun t ht => serveTokens_inert ht⟩
  · intro before after arg
    have h := tokenize_line (before ++ quotedWord arg :: after)
    rw [List.map_append, List.map_append, List.map_cons, List.map_cons] at h
    exact h

/-- A hostname with a quote and a blank. -/
example : serveCommand "/srv/p".toList ".tomo/bin/tomo-x".toList (some "mac's box".toList) =
    ("cd '/srv/p' && exec env TOMO_PEER_NAME='mac'\\''s box' '.tomo/bin/tomo-x' serve " ++
      "--stdio").toList := by
  decide

end Shell

end Tomo
