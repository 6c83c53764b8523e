import Tomo.Session.Scanning
import Tomo.Transport.Connect

namespace Tomo
set_option autoImplicit true

namespace Connect

open Toml (Mode)

/-- What stands in a section that is read back. -/
def remoteEntries (host path : Text) (identity : Option Text) : Toml.Table :=
  ("host".toList, .string host) :: ("path".toList, .string path) ::
    (identity.map fun id => ("identity".toList, Toml.Value.string id)).toList

/-- The texts that are written between quotes, read back. -/
def readTexts (host path : Text) (identity : Option Text) : Option Toml.Table := do
  let host ← Toml.basicString .plain host
  let path ← Toml.basicString .plain path
  let identity ← identity.mapM (Toml.basicString .plain)
  some (remoteEntries host path identity)

/-- A reader that has read the text is outside of strings and comments. -/
def Outside (text : Text) : Prop := Mode.code.scan text = .code

/-- The text is empty or ends its last line. -/
def Ended (text : Text) : Prop := text = [] ∨ text.getLast? = some '\n'

/-- If the remote is a table, it has nothing but strings. -/
def Flat (doc : Toml.Table) : Prop :=
  ∀ entries, doc.lookup remoteKey = some (.table entries) → ∀ e ∈ entries, ∃ s, e.2 = .string s

/-- The document without its remote. -/
def unremoted (doc : Toml.Table) : Toml.Table := doc.filter fun e => e.1 ≠ remoteKey

/-- What the code relies on. Of the format: line ends may be of either kind; a header outside of
strings begins a table, which goes on to the next header, and can be left out together with it;
a table that is there cannot be defined again; and one that is not can be appended, with basic
strings for its values. Of the decoder of the remote: it takes a table of these strings, and no
other table than one of strings. -/
structure Crates.Documented (k : Crates) : Prop where
  newlines : ∀ {t doc}, k.toml t = some doc → k.toml (unlines (strLines t)) = some doc
  header : ∀ {before line rest doc}, (∀ l ∈ before ++ line :: rest, '\n' ∉ l) →
    k.toml (unlines (before ++ line :: rest)) = some doc →
    Text.trim line = remoteHeader → Outside (unlines before) →
    ∃ entries, doc.lookup remoteKey = some (.table entries)
  cut : ∀ {before line body rest doc}, (∀ l ∈ before ++ line :: (body ++ rest), '\n' ∉ l) →
    k.toml (unlines (before ++ line :: (body ++ rest))) = some doc →
    Text.trim line = remoteHeader → Outside (unlines before) → (∀ l ∈ body, ¬Bracketed l) →
    (∀ l ∈ rest.head?, Bracketed l ∧ Outside (unlines (before ++ line :: body))) → Flat doc →
    k.toml (unlines (before ++ rest)) = some (unremoted doc)
  again : ∀ {t doc v} (rest : Text), k.toml t = some doc → doc.lookup remoteKey = some v →
    Flat doc → Ended t → k.toml (t ++ sectionHeader ++ rest) = none
  fresh : ∀ {t doc host path identity}, k.toml t = some doc → doc.lookup remoteKey = none →
    Ended t → Toml.closed false host → Toml.closed false path →
    (∀ id ∈ identity, Toml.closed false id) →
    k.toml (t ++ remoteSection host path identity) =
      (readTexts host path identity).map fun entries => doc ++ [(remoteKey, .table entries)]
  missing : k.remote none = some none
  strings : ∀ host path identity, k.remote (some (.table (remoteEntries host path identity))) =
    some (some ⟨host, path, identity⟩)
  flat : ∀ {entries r}, k.remote (some (.table entries)) = some r →
    ∀ e ∈ entries, ∃ s, e.2 = Toml.Value.string s

/-- The keys of a section, in the order in which they are written. -/
def sectionKeys : List Text := ["host".toList, "path".toList, "identity".toList]

def entryOpening (key : Text) : Text := key ++ " = \"".toList

/-- What is read from a line that is an entry for the key. -/
def readEntry (key line : Text) : Option Text :=
  let body := (line.drop (entryOpening key).length).dropLast
  if line = entryOpening key ++ body ++ ['"'] then Toml.basicString .plain body else none

def readEntries : List Text → List Text → Option Toml.Table
  | _, [] => some []
  | [], _ :: _ => none
  | key :: keys, line :: ls => do
    let s ← readEntry key line
    let entries ← readEntries keys ls
    some ((key, .string s) :: entries)

/-- Blank lines, and then the section of a remote or nothing. -/
def readLines : List Text → Option Toml.Table
  | [] => some []
  | line :: ls =>
    if line = [] then readLines ls
    else if line = remoteHeader then
      (readEntries sectionKeys ls).map fun entries => [(remoteKey, .table entries)]
    else none

/-- A reader of the documents that have nothing but a remote, written as the code writes it. -/
def plainToml (text : Text) : Option Toml.Table :=
  if '\r' ∈ text then none else readLines (strLines text)

def stringEntry (e : Text × Toml.Value) : Option (Text × Text) :=
  match e.2 with
  | .string s => some (e.1, s)
  | _ => none

def plainRemote : Option Toml.Value → Option (Option Remote)
  | none => some none
  | some (.table entries) => do
    let strings ← entries.mapM stringEntry
    if strings.all fun e => e.1 ∈ sectionKeys then
      let host ← strings.lookup "host".toList
      let path ← strings.lookup "path".toList
      some (some ⟨host, path, strings.lookup "identity".toList⟩)
    else none
  | some _ => none

/-- With that reader; the other sections have their defaults. -/
def plainCrates : Crates where
  toml := plainToml
  history v := if v.isNone then some ⟨.adaptive⟩ else none
  sync v := if v.isNone then some ⟨true⟩ else none
  remote := plainRemote
  rules v := if v.isNone then some [] else none
  globs := plainGlobs

theorem linesFrom_newline (hline : '\n' ∉ line) : ∀ l ∈ linesFrom line s, '\n' ∉ l := by
  induction s generalizing line with
  | nil =>
    intro l hl
    rw [linesFrom] at hl
    split at hl
    · cases hl
    · rwa [List.mem_singleton.1 hl]
  | cons c s ih =>
    rw [linesFrom]
    split
    · intro l hl
      rcases List.mem_cons.1 hl with rfl | hl
      · rw [lineEnd]
        split
        · exact fun h => hline (List.mem_of_mem_dropLast h)
        · exact hline
      · exact ih List.not_mem_nil l hl
    · rename_i hc
      apply ih
      rw [List.mem_append, List.mem_singleton]
      rintro (h | h)
      · exact hline h
      · exact hc h.symm

theorem linesFrom_mem (hl : l ∈ linesFrom line s) (hc : c ∈ l) : c ∈ line ∨ c ∈ s := by
  induction s generalizing line with
  | nil =>
    rw [linesFrom] at hl
    split at hl
    · cases hl
    · rw [List.mem_singleton.1 hl] at hc
      exact .inl hc
  | cons d s ih =>
    rw [linesFrom] at hl
    split at hl
    · rcases List.mem_cons.1 hl with rfl | hl
      · left
        rw [lineEnd] at hc
        split at hc
        · exact List.mem_of_mem_dropLast hc
        · exact hc
      · exact .inr (List.mem_cons_of_mem d ((ih hl).resolve_left List.not_mem_nil))
    · rcases ih hl with h | h
      · rcases List.mem_append.1 h with h | h
        · exact .inl h
        · exact .inr (List.mem_singleton.1 h ▸ List.mem_cons_self)
      · exact .inr (List.mem_cons_of_mem d h)

theorem linesFrom_line (ha : '\n' ∉ a) :
    linesFrom line (a ++ '\n' :: s) = lineEnd (line ++ a) :: linesFrom [] s := by
  induction a generalizing line with
  | nil => rw [List.nil_append, linesFrom, if_pos rfl, List.append_nil]
  | cons c a ih =>
    rw [List.mem_cons, not_or] at ha
    rw [List.cons_append, linesFrom, if_neg (Ne.symm ha.1), ih ha.2, List.append_assoc,
      List.singleton_append]

/-- After a line end the lines are those of what comes before and after. -/
theorem strLines_append (ht : Ended t) (s : Text) :
    strLines (t ++ s) = strLines t ++ strLines s := by
  have hsplit : ∀ line a, linesFrom line ((a ++ ['\n']) ++ s) =
      linesFrom line (a ++ ['\n']) ++ linesFrom [] s := by
    intro line a
    induction a generalizing line with
    | nil => rfl
    | cons c a ih =>
      rw [List.cons_append, List.cons_append, linesFrom, linesFrom]
      split
      · rw [ih, List.cons_append]
      · exact ih _
  rcases ht with rfl | hlast
  · rfl
  · obtain ⟨a, rfl⟩ := List.getLast?_eq_some_iff.1 hlast
    exact hsplit [] a

theorem lineEnd_clean (h : '\r' ∉ line) : lineEnd line = line :=
  if_neg fun hlast => h (List.mem_of_getLast? hlast)

theorem strLines_unlines (hnewline : ∀ l ∈ ls, '\n' ∉ l) (hreturn : ∀ l ∈ ls, '\r' ∉ l) :
    strLines (unlines ls) = ls := by
  induction ls with
  | nil => rfl
  | cons line ls ih =>
    obtain ⟨hline, hls⟩ := List.forall_mem_cons.1 hnewline
    obtain ⟨hline', hls'⟩ := List.forall_mem_cons.1 hreturn
    rw [strLines, unlines, List.flatMap_cons, List.append_assoc, List.singleton_append,
      linesFrom_line hline, List.nil_append, lineEnd_clean hline']
    rw [strLines, unlines] at ih
    rw [ih hls hls']

theorem mem_unlines (hc : c ≠ '\n') : c ∈ unlines ls ↔ ∃ l ∈ ls, c ∈ l := by
  rw [unlines, List.mem_flatMap]
  apply exists_congr
  intro l
  rw [List.mem_append, List.mem_singleton, or_iff_left hc]

theorem plainToml_unlines (hnewline : ∀ l ∈ ls, '\n' ∉ l) :
    plainToml (unlines ls) = some doc ↔ (∀ l ∈ ls, '\r' ∉ l) ∧ readLines ls = some doc := by
  have hmem : '\r' ∈ unlines ls ↔ ∃ l ∈ ls, '\r' ∈ l := mem_unlines (by decide)
  rw [plainToml]
  by_cases hreturn : '\r' ∈ unlines ls
  · rw [if_pos hreturn]
    obtain ⟨l, hl, hc⟩ := hmem.1 hreturn
    constructor
    · rintro ⟨⟩
    · rintro ⟨hclean, -⟩
      exact absurd hc (hclean l hl)
  · have hclean : ∀ l ∈ ls, '\r' ∉ l := fun l hl hc => hreturn (hmem.2 ⟨l, hl, hc⟩)
    rw [if_neg hreturn, strLines_unlines hnewline hclean]
    exact (and_iff_right hclean).symm

theorem readEntry_written (key body : Text) :
    readEntry key (entryOpening key ++ body ++ ['"']) = Toml.basicString .plain body := by
  rw [readEntry, List.append_assoc, List.drop_left, List.dropLast_concat, List.append_assoc]
  exact if_pos rfl

theorem readEntry_eq_some (h : readEntry key line = some v) :
    ∃ body, line = entryOpening key ++ body ++ ['"'] ∧ Toml.basicString .plain body = some v := by
  rw [readEntry] at h
  split at h
  · exact ⟨_, ‹_›, h⟩
  · cases h

theorem readEntries_cons : readEntries (key :: keys) (line :: ls) = some entries ↔
    ∃ s es, readEntry key line = some s ∧ readEntries keys ls = some es ∧
      entries = (key, .string s) :: es := by
  rw [readEntries]
  constructor
  · intro h
    obtain ⟨s, hs, h⟩ := Option.bind_eq_some_iff.1 h
    obtain ⟨es, hes, h⟩ := Option.bind_eq_some_iff.1 h
    exact ⟨s, es, hs, hes, (Option.some.inj h).symm⟩
  · rintro ⟨s, es, hs, hes, rfl⟩
    rw [hs, hes]
    rfl

theorem trim_head (h : isWhitespace c = false) : (Text.trim (c :: s)).head? = some c := by
  have hstart : Text.trimStart (c :: s) = c :: s := by
    rw [Text.trimStart, List.dropWhile_cons, h]
    rfl
  rw [Text.trim, hstart]
  have hprefix := List.rdropWhile_prefix isWhitespace (c :: s)
  have hne : (c :: s).rdropWhile isWhitespace ≠ [] := by
    intro hnil
    have hc := List.rdropWhile_eq_nil_iff.1 hnil c List.mem_cons_self
    rw [h] at hc
    cases hc
  obtain ⟨rest, heq⟩ := hprefix
  cases htrim : (c :: s).rdropWhile isWhitespace with
  | nil => exact absurd htrim hne
  | cons d ds =>
    rw [htrim] at heq
    cases heq
    rfl

theorem entryOpening_first : ∀ key ∈ sectionKeys,
    (entryOpening key).head?.any fun c => !isWhitespace c && c != '[' := by
  decide

/-- No line of a section that is read is blank or a header. -/
theorem readEntry_unbracketed (hkey : key ∈ sectionKeys) (h : readEntry key line = some v) :
    line ≠ [] ∧ ¬Bracketed line := by
  obtain ⟨body, rfl, -⟩ := readEntry_eq_some h
  obtain ⟨c, hc, hfirst⟩ := (Option.any_eq_true _ _).1 (entryOpening_first key hkey)
  obtain ⟨hspace, hbracket⟩ := Bool.and_eq_true_iff.1 hfirst
  rw [Bool.not_eq_true'] at hspace
  obtain ⟨cs, hopening⟩ := List.head?_eq_some_iff.1 hc
  rw [hopening]
  refine ⟨nofun, ?_⟩
  rw [Bracketed, List.cons_append, List.cons_append, trim_head hspace, Option.some.injEq]
  exact bne_iff_ne.1 hbracket

theorem readEntries_unbracketed (hkeys : ∀ key ∈ keys, key ∈ sectionKeys)
    (h : readEntries keys ls = some entries) : ∀ l ∈ ls, l ≠ [] ∧ ¬Bracketed l := by
  induction ls generalizing keys entries with
  | nil => exact nofun
  | cons line ls ih =>
    cases keys with
    | nil => cases h
    | cons key keys =>
      obtain ⟨hkey, hkeys⟩ := List.forall_mem_cons.1 hkeys
      obtain ⟨s, es, hs, hes, -⟩ := readEntries_cons.1 h
      exact List.forall_mem_cons.2 ⟨readEntry_unbracketed hkey hs, ih hkeys hes⟩

/-- The lines of a document: blank ones, and then the section of a remote, if there is one. -/
theorem readLines_cases (h : readLines ls = some doc) : (∀ l ∈ ls, l = []) ∧ doc = [] ∨
    ∃ blank body entries, ls = blank ++ remoteHeader :: body ∧ (∀ l ∈ blank, l = []) ∧
      readEntries sectionKeys body = some entries ∧ doc = [(remoteKey, .table entries)] := by
  induction ls with
  | nil => exact .inl ⟨nofun, (Option.some.inj h).symm⟩
  | cons line ls ih =>
    rw [readLines] at h
    split at h
    · subst line
      rcases ih h with ⟨hblank, hdoc⟩ | ⟨blank, body, entries, rfl, hblank, hbody, hdoc⟩
      · exact .inl ⟨List.forall_mem_cons.2 ⟨rfl, hblank⟩, hdoc⟩
      · exact .inr ⟨[] :: blank, body, entries, rfl, List.forall_mem_cons.2 ⟨rfl, hblank⟩, hbody,
          hdoc⟩
    · split at h
      · subst line
        obtain ⟨entries, hentries, rfl⟩ := Option.map_eq_some_iff.1 h
        exact .inr ⟨[], ls, entries, rfl, nofun, hentries, rfl⟩
      · cases h

theorem readLines_blank (h : ∀ l ∈ blank, l = []) (ls : List Text) :
    readLines (blank ++ ls) = readLines ls := by
  induction blank with
  | nil => rfl
  | cons line blank ih =>
    obtain ⟨rfl, hblank⟩ := List.forall_mem_cons.1 h
    rw [List.cons_append, readLines, if_pos rfl, ih hblank]

/-- After an entry a blank line or another header is not read. -/
theorem readEntries_append (h : readEntries keys ls = some entries) :
    readEntries keys (ls ++ [] :: rest) = none := by
  induction ls generalizing keys entries with
  | nil =>
    cases keys with
    | nil => rfl
    | cons key keys =>
      rw [List.nil_append, readEntries]
      cases hread : readEntry key [] with
      | none => rfl
      | some v =>
        obtain ⟨body, heq, -⟩ := readEntry_eq_some hread
        exact absurd heq.symm (List.append_ne_nil_of_right_ne_nil _ nofun)
  | cons line ls ih =>
    cases keys with
    | nil => cases h
    | cons key keys =>
      obtain ⟨s, es, hs, hes, -⟩ := readEntries_cons.1 h
      rw [List.cons_append, readEntries, hs, ih hes]
      rfl

/-- With the lines of its section a remote is gone, and nothing else is there. -/
theorem readLines_cut (h : readLines (before ++ line :: (body ++ rest)) = some doc)
    (hline : Text.trim line = remoteHeader) (hrest : ∀ l ∈ rest.head?, Bracketed l) :
    (∀ l ∈ before ++ rest, l = []) ∧ ∃ entries, doc = [(remoteKey, .table entries)] := by
  have hbracketed : Bracketed line := by
    rw [Bracketed, hline]
    rfl
  have hmem : line ∈ before ++ line :: (body ++ rest) :=
    List.mem_append_right before List.mem_cons_self
  have hblank : ¬Bracketed [] := by decide
  rcases readLines_cases h with ⟨hall, -⟩ | ⟨blank, body', entries, heq, hall, hbody, hdoc⟩
  · rw [hall line hmem] at hbracketed
    exact absurd hbracketed hblank
  · have hbody := readEntries_unbracketed (fun _ hkey => hkey) hbody
    obtain ⟨rfl, -, rfl⟩ := (List.append_cons_inj_of_notMem
      (fun hl => hblank (hall line hl ▸ hbracketed))
      (fun hl => (hbody line hl).2 hbracketed)).1 heq.symm
    refine ⟨?_, entries, hdoc⟩
    cases rest with
    | nil =>
      rw [List.append_nil]
      exact hall
    | cons l rest =>
      have hl : l ∈ body ++ l :: rest := List.mem_append_right body List.mem_cons_self
      exact absurd (hrest l rfl) (hbody l hl).2

theorem basicString_none (hc : c ∈ s) (hallowed : Toml.allowed c = false) :
    Toml.basicString .plain s = none := by
  cases hs : Toml.basicString .plain s with
  | none => rfl
  | some v =>
    have h := Toml.basicString_allowed hs c hc
    rw [hallowed] at h
    cases h

theorem entryOpening_clean : ∀ key ∈ sectionKeys,
    '\n' ∉ entryOpening key ∧ '\r' ∉ entryOpening key := by
  decide

theorem entryLine_eq (key body rest : Text) :
    entryLine key body ++ rest = entryOpening key ++ (body ++ '"' :: '\n' :: rest) := by
  rw [entryLine, entryOpening, List.append_assoc, List.append_assoc]
  rfl

/-- An entry is read from its line, whatever stands between the quotes. -/
theorem readEntries_entryLine (hkey : key ∈ sectionKeys) (hbody : Toml.closed false body)
    (hreturn : '\r' ∉ body) (keys : List Text) (rest : Text) :
    readEntries (key :: keys) (strLines (entryLine key body ++ rest)) = (do
      let s ← Toml.basicString .plain body
      let entries ← readEntries keys (strLines rest)
      some ((key, .string s) :: entries)) := by
  obtain ⟨hopening, hopening'⟩ := entryOpening_clean key hkey
  rw [entryLine_eq, strLines]
  by_cases hnewline : '\n' ∈ body
  · obtain ⟨a, b, rfl, ha⟩ := List.eq_append_cons_of_mem hnewline
    have hfirst : '\n' ∉ entryOpening key ++ a := by
      rw [List.mem_append, not_or]
      exact ⟨hopening, ha⟩
    have hclean : '\r' ∉ entryOpening key ++ a := by
      rw [List.mem_append, not_or]
      exact ⟨hopening', fun h => hreturn (List.mem_append_left _ h)⟩
    have hread : readEntry key (entryOpening key ++ a) = none := by
      cases hread : readEntry key (entryOpening key ++ a) with
      | none => rfl
      | some v =>
        obtain ⟨body, heq, hs⟩ := readEntry_eq_some hread
        rw [List.append_assoc] at heq
        rw [List.append_cancel_left heq, List.append_assoc] at hbody
        have hends := Toml.basicString_ends hs ('\n' :: b)
        rw [Toml.Reading.afterSlash] at hends
        rw [List.singleton_append, hends] at hbody
        cases hbody
    rw [basicString_none hnewline rfl, List.append_assoc, ← List.append_assoc, List.cons_append,
      linesFrom_line hfirst, List.nil_append, lineEnd_clean hclean, readEntries, hread]
    rfl
  · have hfirst : '\n' ∉ entryOpening key ++ body ++ ['"'] := by
      rw [List.mem_append, List.mem_append, not_or, not_or]
      exact ⟨⟨hopening, hnewline⟩, by decide⟩
    have hclean : '\r' ∉ entryOpening key ++ body ++ ['"'] := by
      rw [List.mem_append, List.mem_append, not_or, not_or]
      exact ⟨⟨hopening', hreturn⟩, by decide⟩
    have hsplit : entryOpening key ++ (body ++ '"' :: '\n' :: rest) =
        (entryOpening key ++ body ++ ['"']) ++ '\n' :: rest := by
      rw [List.append_assoc, List.append_assoc]
      rfl
    rw [hsplit, linesFrom_line hfirst, List.nil_append, lineEnd_clean hclean, readEntries,
      readEntry_written]
    rfl

theorem readEntries_section (hhost : Toml.closed false host) (hpath : Toml.closed false path)
    (hidentity : ∀ id ∈ identity, Toml.closed false id) (hreturn : '\r' ∉ host)
    (hreturn' : '\r' ∉ path) (hreturns : ∀ id ∈ identity, '\r' ∉ id) :
    readEntries sectionKeys (strLines (sectionBody host path identity)) =
      readTexts host path identity := by
  rw [sectionBody.eq_def, List.append_assoc, sectionKeys,
    readEntries_entryLine (by decide) hhost hreturn,
    readEntries_entryLine (by decide) hpath hreturn', readTexts]
  cases identity with
  | none =>
    cases Toml.basicString .plain host with
    | none => rfl
    | some host =>
      cases Toml.basicString .plain path with
      | none => rfl
      | some path => rfl
  | some id =>
    dsimp only
    rw [← List.append_nil (entryLine _ id),
      readEntries_entryLine (by decide) (hidentity id rfl) (hreturns id rfl)]
    cases Toml.basicString .plain host with
    | none => rfl
    | some host =>
      cases Toml.basicString .plain path with
      | none => rfl
      | some path =>
        change _ = ((Toml.basicString .plain id).map some).bind _
        cases Toml.basicString .plain id with
        | none => rfl
        | some id => rfl

theorem plainRemote_flat (h : plainRemote (some (.table entries)) = some r) :
    ∀ e ∈ entries, ∃ s, e.2 = Toml.Value.string s := by
  obtain ⟨strings, hstrings, -⟩ := Option.bind_eq_some_iff.1 h
  clear h
  induction entries generalizing strings with
  | nil => exact nofun
  | cons e entries ih =>
    rw [List.mapM_cons] at hstrings
    obtain ⟨entry, hentry, hrest⟩ := Option.bind_eq_some_iff.1 hstrings
    obtain ⟨strings, hstrings, -⟩ := Option.bind_eq_some_iff.1 hrest
    intro e' he'
    rcases List.mem_cons.1 he' with rfl | he'
    · rw [stringEntry] at hentry
      split at hentry
      · exact ⟨_, ‹_›⟩
      · cases hentry
    · exact ih strings hstrings e' he'

theorem plainToml_eq_some : plainToml text = some doc ↔
    '\r' ∉ text ∧ readLines (strLines text) = some doc := by
  rw [plainToml]
  by_cases h : '\r' ∈ text
  · rw [if_pos h]
    constructor
    · rintro ⟨⟩
    · rintro ⟨hclean, -⟩
      exact absurd h hclean
  · rw [if_neg h, and_iff_right h]

theorem strLines_sectionHeader (rest : Text) :
    strLines (sectionHeader ++ rest) = [] :: remoteHeader :: strLines rest := by
  rfl

theorem plainToml_again (h : plainToml t = some doc) (hremote : doc.lookup remoteKey = some v)
    (hended : Ended t) (rest : Text) : plainToml (t ++ sectionHeader ++ rest) = none := by
  cases hread : plainToml (t ++ sectionHeader ++ rest) with
  | none => rfl
  | some doc' =>
    have hlines := (plainToml_eq_some.1 hread).2
    rw [List.append_assoc, strLines_append hended, strLines_sectionHeader] at hlines
    rcases readLines_cases (plainToml_eq_some.1 h).2 with
      ⟨-, rfl⟩ | ⟨blank, body, entries, heq, hblank, hbody, -⟩
    · cases hremote
    · rw [heq, List.append_assoc, readLines_blank hblank, List.cons_append, readLines,
        if_neg (by decide), if_pos rfl, readEntries_append hbody] at hlines
      cases hlines

theorem mem_entryLine (hkey : key ∈ sectionKeys) : '\r' ∈ entryLine key body ↔ '\r' ∈ body := by
  have hopening := (entryOpening_clean key hkey).2
  have hlast : '\r' ∉ ['"', '\n'] := by decide
  rw [← List.append_nil (entryLine key body), entryLine_eq, List.mem_append, List.mem_append,
    or_iff_right hopening, or_iff_left hlast]

theorem mem_remoteSection : '\r' ∈ remoteSection host path identity ↔
    '\r' ∈ host ∨ '\r' ∈ path ∨ ∃ id ∈ identity, '\r' ∈ id := by
  have hheader : '\r' ∉ sectionHeader := by decide
  rw [remoteSection, sectionBody.eq_def, List.mem_append, List.mem_append, List.mem_append,
    or_iff_right hheader, mem_entryLine (by decide), mem_entryLine (by decide), or_assoc]
  cases identity with
  | none => simp only [List.not_mem_nil, Option.mem_def, reduceCtorEq, false_and, exists_false]
  | some id =>
    dsimp only
    rw [mem_entryLine (by decide)]
    simp only [Option.mem_def, Option.some.injEq, exists_eq_left']

theorem readTexts_none (h : '\r' ∈ host ∨ '\r' ∈ path ∨ ∃ id ∈ identity, '\r' ∈ id) :
    readTexts host path identity = none := by
  rw [readTexts]
  rcases h with h | h | ⟨id, rfl, h⟩
  · rw [basicString_none h rfl]
    rfl
  · rw [basicString_none h rfl]
    cases Toml.basicString .plain host with
    | none => rfl
    | some host => rfl
  · change (do
      let host ← Toml.basicString .plain host
      let path ← Toml.basicString .plain path
      let identity ← (Toml.basicString .plain id).map some
      some (remoteEntries host path identity)) = none
    rw [basicString_none h rfl]
    cases Toml.basicString .plain host with
    | none => rfl
    | some host =>
      cases Toml.basicString .plain path with
      | none => rfl
      | some path => rfl

theorem plainToml_fresh (h : plainToml t = some doc) (hfree : doc.lookup remoteKey = none)
    (hended : Ended t) (hhost : Toml.closed false host) (hpath : Toml.closed false path)
    (hidentity : ∀ id ∈ identity, Toml.closed false id) :
    plainToml (t ++ remoteSection host path identity) =
      (readTexts host path identity).map fun entries => doc ++ [(remoteKey, .table entries)] := by
  obtain ⟨hclean, hlines⟩ := plainToml_eq_some.1 h
  obtain ⟨hblank, rfl⟩ : (∀ l ∈ strLines t, l = []) ∧ doc = [] := by
    rcases readLines_cases hlines with hblank | ⟨blank, body, entries, -, -, -, rfl⟩
    · exact hblank
    · cases hfree
  by_cases hreturn : '\r' ∈ remoteSection host path identity
  · rw [plainToml, if_pos (List.mem_append_right t hreturn),
      readTexts_none (mem_remoteSection.1 hreturn)]
    rfl
  · have htexts := fun h => hreturn (mem_remoteSection.2 h)
    have hclean : '\r' ∉ t ++ remoteSection host path identity := by
      rw [List.mem_append, not_or]
      exact ⟨hclean, hreturn⟩
    rw [plainToml, if_neg hclean, strLines_append hended, readLines_blank hblank, remoteSection,
      strLines_sectionHeader, readLines, if_pos rfl, readLines, if_neg (by decide), if_pos rfl,
      readEntries_section hhost hpath hidentity (fun h => htexts (.inl h))
        (fun h => htexts (.inr (.inl h))) (fun id hid h => htexts (.inr (.inr ⟨id, hid, h⟩)))]
    rfl

theorem plainCrates_documented : plainCrates.Documented := by
  constructor
  case newlines =>
    intro t doc h
    obtain ⟨hclean, hlines⟩ := plainToml_eq_some.1 h
    apply (plainToml_unlines (linesFrom_newline List.not_mem_nil)).2
    refine ⟨fun l hl hc => ?_, hlines⟩
    exact hclean ((linesFrom_mem hl hc).resolve_left List.not_mem_nil)
  case header =>
    intro before line rest doc hnewline h hline houtside
    have hlines := ((plainToml_unlines hnewline).1 h).2
    rw [← List.append_nil rest] at hlines
    obtain ⟨-, entries, rfl⟩ := readLines_cut hlines hline nofun
    exact ⟨entries, rfl⟩
  case cut =>
    intro before line body rest doc hnewline h hline houtside hbody hrest hflat
    obtain ⟨hreturn, hlines⟩ := (plainToml_unlines hnewline).1 h
    obtain ⟨hblank, entries, rfl⟩ := readLines_cut hlines hline fun l hl => (hrest l hl).1
    have hempty : ∀ c, ∀ l ∈ before ++ rest, c ∉ l := fun c l hl => hblank l hl ▸ List.not_mem_nil
    apply (plainToml_unlines (hempty '\n')).2
    refine ⟨hempty '\r', ?_⟩
    rw [← List.append_nil (before ++ rest), readLines_blank hblank]
    rfl
  case again =>
    intro t doc v rest h hremote hflat hended
    exact plainToml_again h hremote hended rest
  case fresh =>
    intro t doc host path identity h hfree hended hhost hpath hidentity
    exact plainToml_fresh h hfree hended hhost hpath hidentity
  case missing => rfl
  case strings =>
    intro host path identity
    cases identity with
    | none => rfl
    | some id => rfl
  case flat =>
    intro entries r h
    exact plainRemote_flat h

end Connect

end Tomo
