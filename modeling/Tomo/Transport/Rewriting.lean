import Tomo.Transport.Documents

namespace Tomo
set_option autoImplicit true

namespace Connect

open Toml (Mode)

/-- The lines that the code takes for the header of the remote, or for the next header after it, do
not stand in a string. -/
def sectioned (m : Mode) (inRemote : Bool) : List Text → Bool
  | [] => true
  | line :: ls =>
    let next := (m.scan line).step '\n'
    if Text.trim line = remoteHeader then m = .code && sectioned next true ls
    else if inRemote && Bracketed line then m = .code && sectioned next false ls
    else sectioned next inRemote ls

/-- Between quotes the text stands for itself, or is refused. -/
def Verbatim (s : Text) : Prop := Toml.closed false s ∧ ∀ v ∈ Toml.basicString .plain s, v = s

instance (s : Text) : Decidable (Verbatim s) := inferInstanceAs (Decidable (_ ∧ _))

namespace Layout

/-- If the file is written it is read back with the new remote and everything else as it was; else
it stays as it is. -/
def RewritesRemote (k : Crates) (layout : Layout) (target remotePath : Text) (force : Bool)
    (identity : Option Text) : Prop :=
  ∀ raw config, k.fromTomlStr (layout.config.getD []) = .ok (raw, config) →
    match applyRemoteConfig k layout target remotePath force identity with
    | (.ok (_, .writeAndValidate), after) => ∃ text, after.config = some text ∧
      k.fromTomlStr text = .ok ({ raw with remote := some ⟨target, remotePath, identity⟩ }, config)
    | (.ok (_, .revalidateExisting), after) | (.error _, after) => after.config = layout.config

/-- If the remote is to be written, then the headers stand outside of strings, the host and the path
stand for themselves, and the write does not stop halfway. -/
def Verbatim (k : Crates) (layout : Layout) (target remotePath : Text) (force : Bool) : Prop :=
  ∀ raw config, k.fromTomlStr (layout.config.getD []) = .ok (raw, config) →
    decideConnect raw.remote target remotePath force = .ok .writeAndValidate →
    sectioned .code false (strLines (layout.config.getD [])) ∧ Connect.Verbatim target ∧
      Connect.Verbatim remotePath ∧ ∀ n, layout.write ≠ .torn n

end Layout

theorem unlines_append (a b : List Text) : unlines (a ++ b) = unlines a ++ unlines b :=
  List.flatMap_append

theorem scan_unlines_cons (m : Mode) (line : Text) (ls : List Text) :
    m.scan (unlines (line :: ls)) = ((m.scan line).step '\n').scan (unlines ls) := by
  rw [unlines, List.flatMap_cons, Mode.scan_append, Mode.scan_append]
  rfl

theorem unlines_ended (ls : List Text) : Ended (unlines ls) := by
  induction ls with
  | nil => exact .inl rfl
  | cons line ls ih =>
    right
    rw [unlines, List.flatMap_cons]
    rcases ih with h | h
    · rw [unlines] at h
      rw [h, List.append_nil, List.getLast?_append]
      rfl
    · rw [unlines] at h
      rw [List.getLast?_append, h]
      rfl

theorem bracketed_header (h : Text.trim line = remoteHeader) : Bracketed line := by
  rw [Bracketed, h]
  rfl

/-- The first header of the remote, if there is one, is outside of strings. -/
theorem sectioned_first (h : sectioned m false ls) :
    (∀ l ∈ ls, Text.trim l ≠ remoteHeader) ∨
    ∃ before line rest, ls = before ++ line :: rest ∧
      (∀ l ∈ before, Text.trim l ≠ remoteHeader) ∧ Text.trim line = remoteHeader ∧
      m.scan (unlines before) = .code ∧
      sectioned (m.scan (unlines (before ++ [line]))) true rest := by
  induction ls generalizing m with
  | nil => exact .inl nofun
  | cons line ls ih =>
    rw [sectioned] at h
    by_cases hline : Text.trim line = remoteHeader
    · right
      rw [if_pos hline, Bool.and_eq_true, decide_eq_true_eq] at h
      refine ⟨[], line, ls, rfl, nofun, hline, h.1, ?_⟩
      rw [List.nil_append, scan_unlines_cons]
      exact h.2
    · rw [if_neg hline, Bool.false_and, if_neg Bool.false_ne_true] at h
      rcases ih h with hnone | ⟨before, line', rest, rfl, hbefore, hline', hcode, hrest⟩
      · exact .inl (List.forall_mem_cons.2 ⟨hline, hnone⟩)
      · right
        refine ⟨line :: before, line', rest, rfl, List.forall_mem_cons.2 ⟨hline, hbefore⟩, hline',
          ?_, ?_⟩
        · rw [scan_unlines_cons]
          exact hcode
        · rw [List.cons_append, scan_unlines_cons]
          exact hrest

/-- So is the header that ends the section, if there is one. -/
theorem sectioned_next (h : sectioned m true ls) : ∃ body rest, ls = body ++ rest ∧
    (∀ l ∈ body, ¬Bracketed l) ∧
    ∀ line ∈ rest.head?, Bracketed line ∧ m.scan (unlines body) = .code ∧
      sectioned .code false rest := by
  induction ls generalizing m with
  | nil => exact ⟨[], [], rfl, nofun, nofun⟩
  | cons line ls ih =>
    by_cases hline : Bracketed line
    · refine ⟨[], line :: ls, rfl, nofun, ?_⟩
      rintro _ ⟨⟩
      rw [sectioned] at h ⊢
      by_cases hheader : Text.trim line = remoteHeader
      · rw [if_pos hheader, Bool.and_eq_true, decide_eq_true_eq] at h
        obtain ⟨rfl, hrest⟩ := h
        rw [if_pos hheader]
        exact ⟨hline, rfl, hrest⟩
      · rw [if_neg hheader, Bool.true_and, if_pos (decide_eq_true hline), Bool.and_eq_true,
          decide_eq_true_eq] at h
        obtain ⟨rfl, hrest⟩ := h
        rw [if_neg hheader]
        exact ⟨hline, rfl, hrest⟩
    · have hheader : Text.trim line ≠ remoteHeader := fun h => hline (bracketed_header h)
      rw [sectioned, if_neg hheader, Bool.true_and, if_neg (by rwa [decide_eq_true_eq])] at h
      obtain ⟨body, rest, rfl, hbody, hrest⟩ := ih h
      refine ⟨line :: body, rest, rfl, List.forall_mem_cons.2 ⟨hline, hbody⟩, ?_⟩
      rw [scan_unlines_cons]
      exact hrest

theorem keptLines_unheaded (h : ∀ l ∈ ls, Text.trim l ≠ remoteHeader) :
    keptLines false ls = ls := by
  induction ls with
  | nil => rfl
  | cons line ls ih =>
    obtain ⟨hline, hls⟩ := List.forall_mem_cons.1 h
    rw [keptLines, if_neg hline, if_neg Bool.false_ne_true, ih hls]

theorem keptLines_before (h : ∀ l ∈ before, Text.trim l ≠ remoteHeader)
    (hline : Text.trim line = remoteHeader) :
    keptLines false (before ++ line :: rest) = before ++ keptLines true rest := by
  induction before with
  | nil => rw [List.nil_append, keptLines, if_pos hline, List.nil_append]
  | cons l before ih =>
    obtain ⟨hl, hbefore⟩ := List.forall_mem_cons.1 h
    rw [List.cons_append, keptLines, if_neg hl, if_neg Bool.false_ne_true, ih hbefore]
    rfl

/-- The lines of the section go, up to the next header. -/
theorem keptLines_section (hbody : ∀ l ∈ body, ¬Bracketed l) (hnext : ∀ l ∈ rest.head?, Bracketed l)
    (hrest : ∀ l ∈ rest, Text.trim l ≠ remoteHeader) : keptLines true (body ++ rest) = rest := by
  induction body with
  | nil =>
    cases rest with
    | nil => rfl
    | cons line rest =>
      obtain ⟨hline, hrest⟩ := List.forall_mem_cons.1 hrest
      rw [List.nil_append, keptLines, if_neg hline, if_pos rfl, if_pos (hnext line rfl),
        keptLines_unheaded hrest]
  | cons line body ih =>
    obtain ⟨hline, hbody⟩ := List.forall_mem_cons.1 hbody
    rw [List.cons_append, keptLines, if_neg fun h => hline (bracketed_header h), if_pos rfl,
      if_neg hline]
    exact ih hbody

theorem lookup_unremoted (doc : Toml.Table) : (unremoted doc).lookup remoteKey = none := by
  apply List.lookup_eq_none_iff.2
  intro e he
  have hne := of_decide_eq_true (List.mem_filter.1 he).2
  exact bne_iff_ne.2 (Ne.symm hne)

variable {k : Crates} {doc : Toml.Table} {text : Text}

/-- Without its section the text has the rest of the document, unless it has no such section. -/
theorem strip_reads (h : k.Documented) (htext : k.toml text = some doc) (hflat : Flat doc)
    (hlines : sectioned .code false (strLines text)) :
    k.toml (stripRemoteSection text) = some doc ∨
      k.toml (stripRemoteSection text) = some (unremoted doc) := by
  have hread := h.newlines htext
  have hclean : ∀ l ∈ strLines text, '\n' ∉ l := linesFrom_newline List.not_mem_nil
  rw [stripRemoteSection]
  rcases sectioned_first hlines with hnone | ⟨before, line, rest, heq, hbefore, hline, hcode, hrest⟩
  · left
    rw [keptLines_unheaded hnone]
    exact hread
  · right
    obtain ⟨body, after, rfl, hbody, hnext⟩ := sectioned_next hrest
    rw [heq] at hread hclean ⊢
    have hafter : k.toml (unlines (before ++ after)) = some (unremoted doc) := by
      apply h.cut hclean hread hline hcode hbody _ hflat
      intro l hl
      obtain ⟨hbracketed, hscan, -⟩ := hnext l hl
      rw [← Mode.scan_append, ← unlines_append, List.append_assoc] at hscan
      exact ⟨hbracketed, hscan⟩
    -- A second header would begin a table that is not there any more.
    have hunheaded : ∀ l ∈ after, Text.trim l ≠ remoteHeader := by
      cases after with
      | nil => exact nofun
      | cons l after =>
        rcases sectioned_first (hnext l rfl).2.2 with hnone | hsecond
        · exact hnone
        · obtain ⟨before', line', rest', heq', -, hline', hcode', -⟩ := hsecond
          have hrest : ∀ l ∈ before ++ (before' ++ line' :: rest'), '\n' ∉ l := by
            rw [← heq']
            intro l hl
            apply hclean l
            exact (List.Sublist.append_left (List.sublist_cons_of_sublist _
              (List.sublist_append_right body _)) before).subset hl
          rw [← List.append_assoc] at hrest
          rw [heq', ← List.append_assoc] at hafter
          have houtside : Outside (unlines (before ++ before')) := by
            rw [Outside, unlines_append, Mode.scan_append, hcode]
            exact hcode'
          obtain ⟨entries, hlookup⟩ := h.header hrest hafter hline' houtside
          rw [lookup_unremoted] at hlookup
          cases hlookup
    rw [keptLines_before hbefore hline,
      keptLines_section hbody (fun l hl => (hnext l hl).1) hunheaded]
    exact hafter

theorem tomlEscape_eq (s : Text) : tomlEscape s = s.flatMap Toml.escape := by
  rw [tomlEscape, List.flatMap_assoc]
  congr 1
  funext c
  rw [Toml.escape]
  by_cases hslash : c = '\\'
  · rw [if_pos hslash, if_pos hslash]
    rfl
  · rw [if_neg hslash, if_neg hslash, List.flatMap_singleton]

theorem lookup_filter_ne (doc : Toml.Table) (hkey : key ≠ remoteKey) :
    (unremoted doc).lookup key = doc.lookup key := by
  induction doc with
  | nil => rfl
  | cons e doc ih =>
    obtain ⟨k, v⟩ := e
    by_cases hk : k = remoteKey
    · have hne : (key == k) = false := beq_false_of_ne (hk ▸ hkey)
      rw [unremoted, List.filter_cons_of_neg (by simpa using hk), List.lookup_cons, hne]
      exact ih
    · rw [unremoted, List.filter_cons_of_pos (by simpa using hk), List.lookup_cons,
        List.lookup_cons]
      rw [unremoted] at ih
      rw [ih]

theorem lookup_appended (doc : Toml.Table) (hkey : key ≠ remoteKey) (v : Toml.Value) :
    (doc ++ [(remoteKey, v)]).lookup key = doc.lookup key := by
  have hne : (key == remoteKey) = false := beq_false_of_ne hkey
  rw [List.lookup_append, List.lookup_cons, hne]
  exact Option.or_none

theorem decode_eq_some : k.decode doc = some raw ↔
    (∀ e ∈ doc, e.1 ∈ [historyKey, syncKey, remoteKey, rulesKey]) ∧
      k.history (doc.lookup historyKey) = some raw.history ∧
      k.sync (doc.lookup syncKey) = some raw.sync ∧
      k.remote (doc.lookup remoteKey) = some raw.remote ∧
      k.rules (doc.lookup rulesKey) = some raw.rules := by
  obtain ⟨history, sync, remote, rules⟩ := raw
  rw [Crates.decode]
  by_cases hkeys : (doc.all fun e => e.1 ∈ [historyKey, syncKey, remoteKey, rulesKey]) = true
  · have hall : ∀ e ∈ doc, e.1 ∈ [historyKey, syncKey, remoteKey, rulesKey] :=
      fun e he => of_decide_eq_true (List.all_eq_true.1 hkeys e he)
    rw [if_pos hkeys, and_iff_right hall]
    simp only [Option.pure_def, Option.bind_eq_bind, Option.bind_eq_some_iff, Option.some.injEq,
      RawConfig.mk.injEq]
    constructor
    · rintro ⟨_, hhistory, _, hsync, _, hremote, _, hrules, rfl, rfl, rfl, rfl⟩
      exact ⟨hhistory, hsync, hremote, hrules⟩
    · rintro ⟨hhistory, hsync, hremote, hrules⟩
      exact ⟨_, hhistory, _, hsync, _, hremote, _, hrules, rfl, rfl, rfl, rfl⟩
  · rw [if_neg hkeys]
    constructor
    · rintro ⟨⟩
    · rintro ⟨hall, -⟩
      exact absurd (List.all_eq_true.2 fun e he => decide_eq_true (hall e he)) hkeys

theorem remoteKey_known : remoteKey ∈ [historyKey, syncKey, remoteKey, rulesKey] := by
  decide

/-- The other sections are decoded as before. -/
theorem decode_rewritten (hraw : k.decode doc = some raw)
    (hdoc : doc' = doc ∨ doc' = unremoted doc) (hfree : doc'.lookup remoteKey = none)
    (hremote : k.remote (some v) = some remote) :
    k.decode (doc' ++ [(remoteKey, v)]) = some { raw with remote } := by
  obtain ⟨hkeys, hhistory, hsync, -, hrules⟩ := decode_eq_some.1 hraw
  have hlookup : ∀ key, key ≠ remoteKey →
      (doc' ++ [(remoteKey, v)]).lookup key = doc.lookup key := by
    intro key hkey
    rw [lookup_appended _ hkey]
    rcases hdoc with rfl | rfl
    · rfl
    · exact lookup_filter_ne doc hkey
  have hmem : ∀ e ∈ doc', e ∈ doc := by
    rcases hdoc with rfl | rfl
    · exact fun e he => he
    · exact fun e he => (List.mem_filter.1 he).1
  apply decode_eq_some.2
  refine ⟨?_, ?_, ?_, ?_, ?_⟩
  · intro e he
    rcases List.mem_append.1 he with he | he
    · exact hkeys e (hmem e he)
    · rw [List.mem_singleton.1 he]
      exact remoteKey_known
  · rwa [hlookup historyKey (by decide)]
  · rwa [hlookup syncKey (by decide)]
  · rw [List.lookup_append, hfree, Option.none_or, List.lookup_cons_self]
    exact hremote
  · rwa [hlookup rulesKey (by decide)]

theorem Verbatim.read (hs : Verbatim s) :
    Toml.basicString .plain s = none ∨ Toml.basicString .plain s = some s := by
  cases hread : Toml.basicString .plain s with
  | none => exact .inl rfl
  | some v =>
    right
    rw [hs.2 v hread]

/-- What is read back from the section: the strings that were meant, or nothing at all. -/
theorem readTexts_verbatim (hhost : Verbatim host) (hpath : Verbatim path)
    (identity : Option Text) : readTexts host path (identity.map tomlEscape) = none ∨
      readTexts host path (identity.map tomlEscape) = some (remoteEntries host path identity) := by
  rw [readTexts]
  rcases hhost.read with hhost | hhost
  · left
    rw [hhost]
    rfl
  · rcases hpath.read with hpath | hpath
    · left
      rw [hhost, hpath]
      rfl
    · rw [hhost, hpath]
      cases identity with
      | none => exact .inr rfl
      | some id =>
        rw [Option.map_some, tomlEscape_eq]
        change ((Toml.basicString .plain (id.flatMap Toml.escape)).map some).bind _ = none ∨
          ((Toml.basicString .plain (id.flatMap Toml.escape)).map some).bind _ = _
        rw [Toml.basicString_escape]
        split
        · exact .inr rfl
        · exact .inl rfl

theorem fresh_section (h : k.Documented) (htext : k.toml text = some doc)
    (hfree : doc.lookup remoteKey = none) (hended : Ended text) (hhost : Verbatim host)
    (hpath : Verbatim path) (identity : Option Text) :
    k.toml (text ++ remoteSection host path (identity.map tomlEscape)) = none ∨
      k.toml (text ++ remoteSection host path (identity.map tomlEscape)) =
        some (doc ++ [(remoteKey, .table (remoteEntries host path identity))]) := by
  have hclosed : ∀ id ∈ identity.map tomlEscape, Toml.closed false id := by
    intro id hid
    obtain ⟨id', -, rfl⟩ := Option.map_eq_some_iff.1 hid
    rw [tomlEscape_eq]
    exact Toml.closed_escape id'
  rw [h.fresh htext hfree hended hhost.1 hpath.1 hclosed]
  rcases readTexts_verbatim hhost hpath identity with hread | hread
  · left
    rw [hread]
    rfl
  · right
    rw [hread]
    rfl

theorem updatedConfig_eq (text target remotePath : Text) (identity : Option Text) :
    Layout.updatedConfig text target remotePath identity =
      stripRemoteSection text ++ remoteSection target remotePath (identity.map tomlEscape) := by
  rw [Layout.updatedConfig]
  congr 1
  apply if_neg
  rintro ⟨hne, hlast⟩
  rcases unlines_ended (keptLines false (strLines text)) with hnil | hended
  · exact hne hnil
  · exact hlast hended

/-- The text that is to be written is refused, or has the new remote and all else as it was. -/
theorem updatedConfig_reads (h : k.Documented)
    (hconfig : k.fromTomlStr text = .ok (raw, config))
    (hlines : sectioned .code false (strLines text)) (htarget : Verbatim target)
    (hpath : Verbatim remotePath) (identity : Option Text) :
    (∃ e, k.fromTomlStr (Layout.updatedConfig text target remotePath identity) = .error e) ∨
      k.fromTomlStr (Layout.updatedConfig text target remotePath identity) =
        .ok ({ raw with remote := some ⟨target, remotePath, identity⟩ }, config) := by
  have hread : (k.toml text).bind k.decode = some raw ∧
      Config.fromRaw k.globs raw.sync.defaultIgnores raw.rules = .ok config := by
    rw [Crates.fromTomlStr] at hconfig
    split at hconfig
    · cases hconfig
    · rename_i raw' hraw
      split at hconfig
      · rename_i config' hcompiled
        cases hconfig
        exact ⟨hraw, hcompiled⟩
      · cases hconfig
  obtain ⟨hraw, hcompiled⟩ := hread
  obtain ⟨doc, htext, hdoc⟩ := Option.bind_eq_some_iff.1 hraw
  have hflat : Flat doc := by
    intro entries hentries e he
    have hremote := (decode_eq_some.1 hdoc).2.2.2.1
    rw [hentries] at hremote
    exact h.flat hremote e he
  have hrefused : ∀ t, k.toml t = none → ∃ e, k.fromTomlStr t = .error e := by
    intro t ht
    rw [Crates.fromTomlStr, ht]
    exact ⟨_, rfl⟩
  rw [updatedConfig_eq]
  obtain ⟨doc', hstripped, hdoc'⟩ : ∃ doc', k.toml (stripRemoteSection text) = some doc' ∧
      (doc' = doc ∨ doc' = unremoted doc) := by
    rcases strip_reads h htext hflat hlines with hs | hs
    · exact ⟨doc, hs, .inl rfl⟩
    · exact ⟨_, hs, .inr rfl⟩
  have hended := unlines_ended (keptLines false (strLines text))
  cases hfree : doc'.lookup remoteKey with
  | some v =>
    -- The remote is not in a section that could be cut out, and the new one is a second one.
    left
    apply hrefused
    have hsame : doc' = doc := by
      rcases hdoc' with rfl | rfl
      · rfl
      · rw [lookup_unremoted] at hfree
        cases hfree
    subst hsame
    rw [remoteSection, ← List.append_assoc]
    exact h.again _ hstripped hfree hflat hended
  | none =>
    have hsection := fresh_section h hstripped hfree hended htarget hpath identity
    rcases hsection with hnone | hsome
    · exact .inl (hrefused _ hnone)
    · right
      have hstrings := h.strings target remotePath identity
      rw [Crates.fromTomlStr, hsome, Option.bind_some,
        decode_rewritten hdoc hdoc' hfree hstrings]
      dsimp only
      rw [hcompiled]

/-- Where that holds the remote is rewritten and nothing else. -/
theorem Layout.rewritesRemote {layout : Layout} (h : k.Documented)
    (hverbatim : layout.Verbatim k target remotePath force) (identity : Option Text) :
    layout.RewritesRemote k target remotePath force identity := by
  intro raw config hconfig
  rw [applyRemoteConfig]
  by_cases hinit : layout.initialized = false
  · rw [if_pos hinit]
  rw [if_neg hinit]
  by_cases hreadable : layout.readable = false
  · rw [if_pos hreadable]
  rw [if_neg hreadable]
  dsimp only
  rw [hconfig]
  dsimp only
  cases haction : decideConnect raw.remote target remotePath force with
  | error e => rfl
  | ok action =>
    cases action with
    | revalidateExisting => rfl
    | writeAndValidate =>
      obtain ⟨hlines, htarget, hpath, hwrite⟩ := hverbatim raw config hconfig haction
      dsimp only
      rcases updatedConfig_reads h hconfig hlines htarget hpath identity with ⟨e, he⟩ | hread
      · rw [he]
      · rw [hread]
        dsimp only
        cases hw : layout.write with
        | done =>
          rw [if_pos rfl, written, hw]
          exact ⟨_, rfl, hread⟩
        | refused =>
          rw [if_neg nofun, written, hw]
        | torn n => exact absurd hw (hwrite n)

/-- A project whose remote is recorded already. -/
def recorded : Layout :=
  ⟨true, true, some "[remote]\nhost = \"box\"\npath = \"/srv\"\n".toList, .done⟩

theorem recorded_rewritten :
    (recorded.applyRemoteConfig plainCrates "build".toList "/data".toList true
      (some "C:\\key".toList)).1 =
        .ok (⟨"build".toList, "/data".toList, some "C:\\key".toList⟩, .writeAndValidate) ∧
    recorded.RewritesRemote plainCrates "build".toList "/data".toList true
      (some "C:\\key".toList) :=
  ⟨by rfl, Layout.rewritesRemote plainCrates_documented
    (fun _ _ _ _ => ⟨by decide, by decide, by decide, by rintro n ⟨⟩⟩) _⟩

/-- A backslash in the path is read back as an escape. -/
theorem path_escaped : ¬Layout.RewritesRemote plainCrates ⟨true, true, none, .done⟩
    "box".toList "/srv\\new".toList false none := by
  intro h
  obtain ⟨config, hconfig⟩ : ∃ config, plainCrates.fromTomlStr [] =
      .ok (⟨⟨.adaptive⟩, ⟨true⟩, none, []⟩, config) := ⟨_, rfl⟩
  obtain ⟨config', hread⟩ : ∃ config', plainCrates.fromTomlStr
      (remoteSection "box".toList "/srv\\new".toList none) =
        .ok (⟨⟨.adaptive⟩, ⟨true⟩, some ⟨"box".toList, "/srv\new".toList, none⟩, []⟩, config') :=
    ⟨_, rfl⟩
  obtain ⟨text, htext, hwritten⟩ := h _ config hconfig
  rw [← Option.some.inj htext] at hwritten
  have hraw := (Prod.mk.inj (Except.ok.inj (hread.symm.trans hwritten))).1
  have hremote := congrArg RawConfig.remote hraw
  revert hremote
  decide

end Connect

end Tomo
