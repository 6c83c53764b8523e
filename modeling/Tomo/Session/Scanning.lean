import Tomo.Engine.Actions
import Tomo.Lib.Collect
import Tomo.Session.Pump
import Tomo.Session.Rules

namespace Tomo
set_option autoImplicit true

open Collect

namespace Session
variable [Platform] {s : Session} {p d : RelPath} {comps : List Name}

/-- A regular file stands at a path, below real directories. -/
def fileAt (s : Session) (p : RelPath) : Bool := s.tree.isFile (join s.root p)

/-- Names below the root have no slash in them, and are kept in the form that the file system
identifies them by. -/
structure Named (s : Session) : Prop where
  plain : ∀ comps n, s.tree.get (s.root ++ comps) = some n → ∀ c ∈ comps, '/' ∉ c
  canonical : s.fs.normalizesUnicode = true → ∀ comps n, s.tree.get (s.root ++ comps) = some n →
    Platform.nfc (['/'].intercalate comps) = ['/'].intercalate comps

/-- What is found below the root has the path of its components, if it has one. -/
theorem Named.relativize_iff (hn : s.Named) (hg : s.tree.get (s.root ++ comps) = some n) :
    relativize s.fs comps = .ok p ↔ p.components = comps := by
  have hraw : relativize s.fs comps = RelPath.new (['/'].intercalate comps) := by
    rw [relativize]
    cases hf : s.fs.normalizesUnicode with
    | false => rfl
    | true =>
      have hc := hn.canonical hf comps n hg
      simp only [↓reduceIte, hc]
  rw [hraw, RelPath.new_eq_ok]
  constructor
  · exact fun h => p.components_of_raw h (hn.plain comps n hg)
  · rintro rfl
    exact (List.intercalate_splitOn '/').symm

theorem snapshot_fileAt (h : s.fileAt p = true) :
    ∃ sig, snapshot s.tree s.root p = .ok (some sig) := by
  obtain ⟨b, m, k, hg⟩ := FileTree.isFile_iff.1 h
  have hl : ∀ l : Link Name, Node.file b m k ≠ .link l := fun l h => by cases h
  have hr : s.tree.read (join s.root p) = .ok b := by
    rw [FileTree.read, FileTree.stat_get hg hl]
    rfl
  rw [snapshot, FileTree.stat_get hg hl]
  simp only [hr]
  exact ⟨_, rfl⟩

/-- Neither a path nor a directory it lies in is ignored. -/
def Entered (s : Session) (p : RelPath) : Prop :=
  ∀ d : RelPath, d.components <+: p.components → (s.config.classify d).cls ≠ .ignored

/-- The walk gets to an object: the rules let it enter every directory on the way. -/
def enters (s : Session) (comps : List Name) : Bool :=
  (List.range comps.length).all fun k =>
    match relativize s.fs (comps.take (k + 1)) with
    | .ok rel => decide ((s.config.classify rel).cls ≠ .ignored)
    | .error _ => false

theorem Named.enters_iff (hn : s.Named) (hg : s.tree.get (join s.root p) = some n) :
    s.enters p.components = true ↔ s.Entered p := by
  have hup (k : Nat) (d : RelPath) :
      relativize s.fs (p.components.take (k + 1)) = .ok d ↔
        d.components = p.components.take (k + 1) := by
    have hex : ∃ n, s.tree.get (s.root ++ p.components.take (k + 1)) = some n := by
      by_cases hd : p.components.drop (k + 1) = []
      · have ht := List.take_append_drop (k + 1) p.components
        rw [hd, List.append_nil] at ht
        rw [ht]
        exact ⟨n, hg⟩
      · refine ⟨_, s.tree.get_above (n := n) ?_ hd⟩
        rwa [List.append_assoc, List.take_append_drop]
    obtain ⟨_, hg'⟩ := hex
    exact hn.relativize_iff hg'
  rw [enters, List.all_eq_true]
  constructor
  · intro h d hd
    have hlen := hd.length_le
    have hpos := List.length_pos_iff.2 d.components_ne_nil
    have hk := h (d.components.length - 1) (by rw [List.mem_range]; omega)
    have htake : d.components = p.components.take (d.components.length - 1 + 1) := by
      rw [Nat.sub_add_cancel hpos]
      exact List.prefix_iff_eq_take.1 hd
    rw [(hup _ d).2 htake] at hk
    exact of_decide_eq_true hk
  · intro h k hk
    rw [List.mem_range] at hk
    have hpre := List.take_prefix (k + 1) p.components
    obtain ⟨d, hd⟩ := p.exists_prefix hpre fun hnil => by
      rw [List.take_eq_nil_iff] at hnil
      rcases hnil with hnil | hnil
      · cases hnil
      · exact p.components_ne_nil hnil
    rw [(hup k d).2 hd]
    exact decide_eq_true (h d (hd ▸ hpre))

/-- What the walk keeps of an object it visits. -/
def kept (s : Session) (e : List Name × Node Name) : Option (RelPath × ContentSig) :=
  if s.root <+: e.1 ∧ s.tree.isFile e.1 ∧ s.enters (e.1.drop s.root.length) then
    match relativize s.fs (e.1.drop s.root.length) with
    | .error _ => none
    | .ok rel =>
      match snapshot s.tree s.root rel with
      | .ok (some sig) => some (rel, sig)
      | _ => none
  else none

/-- One visit of the walk. -/
def visit (s : Session) (out : Std.ExtTreeMap RelPath ContentSig) (e : List Name × Node Name) :
    Except CliError (Std.ExtTreeMap RelPath ContentSig) :=
  if s.root <+: e.1 ∧ s.tree.isFile e.1 ∧ s.enters (e.1.drop s.root.length) then
    match relativize s.fs (e.1.drop s.root.length) with
    | .error _ => .ok out
    | .ok rel =>
      match snapshot s.tree s.root rel with
      | .ok (some sig) => .ok (out.insert rel sig)
      | .ok none => .ok out
      | .error errno => .error (.scan (join s.root rel) errno)
  else .ok out

theorem walkTree_visits (hr : s.tree.get s.root = some .dir) :
    walkTree s = s.tree.nodes.toList.foldlM s.visit ∅ := by
  have hloc : s.tree.locate true s.root = .ok s.root :=
    FileTree.locate_get hr fun l h => by cases h
  have hbase : s.tree.canonicalize s.root = .ok s.root := by
    simp only [FileTree.canonicalize, hloc, bind, Except.bind, hr]
  rw [walkTree, hbase]
  rfl

theorem Named.kept_iff (hn : s.Named) {e : List Name × Node Name}
    (he : s.tree.get e.1 = some e.2) (p : RelPath) (sig : ContentSig) :
    s.kept e = some (p, sig) ↔
      e.1 = join s.root p ∧ s.fileAt p = true ∧ s.Entered p ∧
        snapshot s.tree s.root p = .ok (some sig) := by
  rw [kept]
  constructor
  · intro h
    split at h
    next hv =>
      obtain ⟨⟨comps, hc⟩, hf, hent⟩ := hv
      rw [← hc] at he hf hent h
      rw [List.drop_left] at hent h
      split at h
      · cases h
      next rel hrel =>
        have hcomps := (hn.relativize_iff he).1 hrel
        subst hcomps
        split at h
        next sig' hsig =>
          cases h
          exact ⟨hc.symm, hf, (hn.enters_iff he).1 hent, hsig⟩
        next => cases h
    next => cases h
  · rintro ⟨he', hf, hent, hsig⟩
    rw [he', join] at he
    rw [he', join, List.drop_left, if_pos, (hn.relativize_iff he).2 rfl]
    · simp only [hsig]
    · exact ⟨List.prefix_append _ _, hf, (hn.enters_iff he).2 hent⟩

theorem Named.visit_eq (hn : s.Named) {e : List Name × Node Name}
    (he : s.tree.get e.1 = some e.2) (out : Std.ExtTreeMap RelPath ContentSig) :
    s.visit out e = .ok (add s.kept out e) := by
  rw [visit, add, kept]
  split
  next hv =>
    obtain ⟨⟨comps, hc⟩, hf, _⟩ := hv
    rw [← hc] at he hf ⊢
    rw [List.drop_left]
    split
    · rfl
    next rel hrel =>
      have hcomps := (hn.relativize_iff he).1 hrel
      subst hcomps
      obtain ⟨sig, hsig⟩ := snapshot_fileAt (p := rel) hf
      simp only [hsig]
  next => rfl

/-- The walk finds the files that stand at a path which is not ignored, nor below an ignored
directory. -/
theorem walkTree_spec (hr : s.tree.get s.root = some .dir) (hn : s.Named) :
    ∃ m, walkTree s = .ok m ∧ ∀ p sig, m[p]? = some sig ↔
      s.fileAt p = true ∧ s.Entered p ∧ snapshot s.tree s.root p = .ok (some sig) := by
  have hget (e : List Name × Node Name) (he : e ∈ s.tree.nodes.toList) :
      s.tree.get e.1 = some e.2 := Std.ExtTreeMap.mem_toList_iff_getElem?_eq_some.1 he
  have hfold (l : List (List Name × Node Name)) (hl : ∀ e ∈ l, s.tree.get e.1 = some e.2)
      (out : Std.ExtTreeMap RelPath ContentSig) :
      l.foldlM s.visit out = .ok (collect s.kept l out) := by
    induction l generalizing out with
    | nil => rfl
    | cons e l ih =>
      rw [List.foldlM_cons, hn.visit_eq (hl e List.mem_cons_self)]
      exact (pure_bind _ _).trans (ih (fun e he => hl e (List.mem_cons_of_mem _ he)) _)
  refine ⟨_, (walkTree_visits hr).trans (hfold _ hget ∅), fun p sig => ?_⟩
  rw [getElem?_collect]
  · constructor
    · rintro (⟨e, he, hk⟩ | ⟨_, h⟩)
      · exact ((hn.kept_iff (hget e he) p sig).1 hk).2
      · rw [Std.ExtTreeMap.getElem?_empty] at h
        cases h
    · intro h
      obtain ⟨b, m, k, hg⟩ := FileTree.isFile_iff.1 h.1
      have hm := Std.ExtTreeMap.mem_toList_iff_getElem?_eq_some.2 hg
      exact .inl ⟨_, hm, (hn.kept_iff hg p sig).2 ⟨rfl, h⟩⟩
  · intro e he e' he' v v' hv hv'
    have hs := ((hn.kept_iff (hget e he) p v).1 hv).2.2.2
    have hs' := ((hn.kept_iff (hget e' he') p v').1 hv').2.2.2
    rw [hs] at hs'
    cases hs'
    rfl

section
variable {onDisk : Std.ExtTreeMap RelPath ContentSig}

omit [Platform]

/-- What the scan reports of a file that the walk found. -/
def found (s : Session) (e : RelPath × ContentSig) : Option (RelPath × ChangeKind) :=
  if diskDiffers s.engine.index e.1 e.2 then some (e.1, .modified e.2) else none

/-- What the scan reports of an entry of the index. -/
def gone (s : Session) (onDisk : Std.ExtTreeMap RelPath ContentSig) (e : RelPath × Entry) :
    Option (RelPath × ChangeKind) :=
  match e.2.winner.state with
  | .present _ =>
    if onDisk[e.1]?.isNone ∧ (s.config.classify e.1).cls ≠ .ignored then some (e.1, .removed)
    else none
  | .tombstone => none

theorem found_iff (e : RelPath × ContentSig) (k : ChangeKind) : s.found e = some (p, k) ↔
    e.1 = p ∧ k = .modified e.2 ∧ diskDiffers s.engine.index e.1 e.2 = true := by
  rw [found]
  split
  next h =>
    rw [Option.some.injEq, Prod.mk.injEq]
    exact ⟨fun h' => ⟨h'.1, h'.2.symm, h⟩, fun h' => ⟨h'.1, h'.2.1.symm⟩⟩
  next h => exact ⟨fun h' => (by cases h'), fun h' => (h h'.2.2).elim⟩

theorem gone_iff (e : RelPath × Entry) (k : ChangeKind) : s.gone onDisk e = some (p, k) ↔
    e.1 = p ∧ k = .removed ∧ (∃ sig, e.2.winner.state = .present sig) ∧
      onDisk[e.1]? = none ∧ (s.config.classify e.1).cls ≠ .ignored := by
  rw [gone]
  cases e.2.winner.state with
  | tombstone =>
    constructor
    · intro h
      cases h
    · rintro ⟨_, _, ⟨_, h⟩, _⟩
      cases h
  | present sig =>
    simp only [Option.isNone_iff_eq_none]
    split
    next h =>
      rw [Option.some.injEq, Prod.mk.injEq]
      exact ⟨fun h' => ⟨h'.1, h'.2.symm, ⟨sig, rfl⟩, h⟩, fun h' => ⟨h'.1, h'.2.1.symm⟩⟩
    next h => exact ⟨fun h' => (by cases h'), fun h' => (h h'.2.2.2).elim⟩

/-- What the scan reports of a path: of a file that was found, whether the index shows it
otherwise; else whether the index has a file there. -/
theorem collect_reports (p : RelPath) (k : ChangeKind) :
    (collect (s.gone onDisk) s.engine.index.iter (collect s.found onDisk.toList ∅))[p]? = some k ↔
      (∃ sig, k = .modified sig ∧ onDisk[p]? = some sig ∧
        diskDiffers s.engine.index p sig = true) ∨
      k = .removed ∧ onDisk[p]? = none ∧ (s.config.classify p).cls ≠ .ignored ∧
        ∃ sig, s.engine.winnerState p = some (.present sig) := by
  have hdisk (e : RelPath × ContentSig) : e ∈ onDisk.toList ↔ onDisk[e.1]? = some e.2 :=
    Std.ExtTreeMap.mem_toList_iff_getElem?_eq_some
  have hindex (e : RelPath × Entry) : e ∈ s.engine.index.iter ↔
      s.engine.index.get e.1 = some e.2 := Std.ExtTreeMap.mem_toList_iff_getElem?_eq_some
  rw [getElem?_collect, getElem?_collect]
  · constructor
    · rintro (⟨e, he, hk⟩ | ⟨_, ⟨e, he, hk⟩ | ⟨_, h⟩⟩)
      · obtain ⟨rfl, rfl, ⟨sig, hw⟩, hn, hc⟩ := (gone_iff e k).1 hk
        refine .inr ⟨rfl, hn, hc, sig, ?_⟩
        rw [Engine.winnerState, (hindex e).1 he, Option.map_some, hw]
      · obtain ⟨rfl, rfl, hd⟩ := (found_iff e k).1 hk
        exact .inl ⟨e.2, rfl, (hdisk e).1 he, hd⟩
      · rw [Std.ExtTreeMap.getElem?_empty] at h
        cases h
    · rintro (⟨sig, rfl, hs, hd⟩ | ⟨rfl, hn, hc, sig, hw⟩)
      · refine .inr ⟨fun e he v hv => ?_, .inl ⟨(p, sig), (hdisk _).2 hs, ?_⟩⟩
        · obtain ⟨rfl, _, _, hn, _⟩ := (gone_iff e v).1 hv
          rw [hs] at hn
          cases hn
        · exact (found_iff _ _).2 ⟨rfl, rfl, hd⟩
      · rw [Engine.winnerState, Option.map_eq_some_iff] at hw
        obtain ⟨entry, he, hw⟩ := hw
        exact .inl ⟨(p, entry), (hindex _).2 he, (gone_iff _ _).2 ⟨rfl, rfl, ⟨sig, hw⟩, hn, hc⟩⟩
  · intro e he e' he' v v' hv hv'
    obtain ⟨hp, rfl, _⟩ := (found_iff e v).1 hv
    obtain ⟨hp', rfl, _⟩ := (found_iff e' v').1 hv'
    rw [hdisk, hp] at he
    rw [hdisk, hp', he, Option.some.injEq] at he'
    rw [he']
  · intro e he e' he' v v' hv hv'
    rw [((gone_iff e v).1 hv).2.1, ((gone_iff e' v').1 hv').2.1]

end

theorem scanDiff_collects {onDisk : Std.ExtTreeMap RelPath ContentSig}
    (hw : walkTree s = .ok onDisk) : scanDiff s = .ok ((collect (s.gone onDisk)
      s.engine.index.iter (collect s.found onDisk.toList ∅)).toList.map fun e => ⟨e.1, e.2⟩) := by
  have hd : (fun m (e : RelPath × ContentSig) =>
      if diskDiffers s.engine.index e.1 e.2 then m.insert e.1 (ChangeKind.modified e.2) else m) =
      add s.found := by
    funext m e
    rw [add, found]
    split <;> rfl
  have hg : (fun m (e : RelPath × Entry) => match e.2.winner.state with
      | .present _ =>
        if onDisk[e.1]?.isNone ∧ (s.config.classify e.1).cls ≠ .ignored then
          m.insert e.1 ChangeKind.removed
        else m
      | .tombstone => m) = add (s.gone onDisk) := by
    funext m e
    rw [add, gone]
    cases e.2.winner.state with
    | present sig =>
      dsimp only
      split <;> rfl
    | tombstone => rfl
  rw [collect, collect, ← hd, ← hg, scanDiff, hw]
  rfl

/-- A removal is reported where no file is, and a modification for each file that is not ignored
and that the index shows otherwise. -/
structure ScanExact (s : Session) (changes : List LocalChange) : Prop where
  removed : ∀ p, ⟨p, .removed⟩ ∈ changes → s.fileAt p = false
  modified : ∀ p sig, ⟨p, .modified sig⟩ ∈ changes ↔
    s.fileAt p = true ∧ (s.config.classify p).cls ≠ .ignored ∧
      snapshot s.tree s.root p = .ok (some sig) ∧ diskDiffers s.engine.index p sig = true

/-- The scan is exact if and only if no file that is not ignored lies below a directory that
is. -/
theorem scanDiff_exact_iff (hr : s.tree.get s.root = some .dir) (hn : s.Named) :
    ∃ changes, scanDiff s = .ok changes ∧ (s.ScanExact changes ↔
      ∀ p, s.fileAt p = true → (s.config.classify p).cls ≠ .ignored →
        ∀ d : RelPath, d.components <+: p.components → (s.config.classify d).cls ≠ .ignored) := by
  obtain ⟨onDisk, hw, hspec⟩ := walkTree_spec hr hn
  refine ⟨_, scanDiff_collects hw, ?_⟩
  have hmem (p : RelPath) (k : ChangeKind) :
      (⟨p, k⟩ : LocalChange) ∈ (collect (s.gone onDisk) s.engine.index.iter
        (collect s.found onDisk.toList ∅)).toList.map (fun e => (⟨e.1, e.2⟩ : LocalChange)) ↔
      (∃ sig, k = .modified sig ∧ onDisk[p]? = some sig ∧
        diskDiffers s.engine.index p sig = true) ∨
      k = .removed ∧ onDisk[p]? = none ∧ (s.config.classify p).cls ≠ .ignored ∧
        ∃ sig, s.engine.winnerState p = some (.present sig) := by
    rw [← collect_reports, ← Std.ExtTreeMap.mem_toList_iff_getElem?_eq_some, List.mem_map]
    constructor
    · rintro ⟨⟨q, k⟩, he, heq⟩
      cases heq
      exact he
    · intro h
      exact ⟨_, h, rfl⟩
  constructor
  · intro h p hf hc
    obtain ⟨sig, hsig⟩ := snapshot_fileAt hf
    by_contra hent
    have hnone : onDisk[p]? = none := by
      rw [Option.eq_none_iff_forall_ne_some]
      intro sig' h'
      exact hent ((hspec p sig').1 h').2.1
    -- the file is missed: it is reported as removed, or its content is not reported
    cases hd : diskDiffers s.engine.index p sig with
    | true =>
      have hm := (h.modified p sig).2 ⟨hf, hc, hsig, hd⟩
      rw [hmem] at hm
      rcases hm with ⟨sig', _, h', _⟩ | ⟨h', _⟩
      · rw [hnone] at h'
        cases h'
      · cases h'
    | false =>
      have hw : ∃ sig, s.engine.winnerState p = some (.present sig) := by
        rw [diskDiffers] at hd
        rw [Engine.winnerState]
        split at hd
        next prev hp => exact ⟨prev, hp⟩
        all_goals cases hd
      have hf' := h.removed p ((hmem p .removed).2 (.inr ⟨rfl, hnone, hc, hw⟩))
      rw [hf] at hf'
      cases hf'
  · intro h
    constructor
    · intro p hp
      rw [hmem] at hp
      rcases hp with ⟨sig, h', _⟩ | ⟨_, hnone, hc, _⟩
      · cases h'
      · rw [Bool.eq_false_iff]
        intro hf
        obtain ⟨sig, hsig⟩ := snapshot_fileAt hf
        rw [(hspec p sig).2 ⟨hf, h p hf hc, hsig⟩] at hnone
        cases hnone
    · intro p sig
      rw [hmem]
      constructor
      · rintro (⟨sig', h', hs, hd⟩ | ⟨h', _⟩)
        · cases h'
          obtain ⟨hf, hent, hsig⟩ := (hspec p sig).1 hs
          exact ⟨hf, hent p (List.prefix_refl _), hsig, hd⟩
        · cases h'
      · rintro ⟨hf, hc, hsig, hd⟩
        exact .inl ⟨sig, rfl, (hspec p sig).2 ⟨hf, h p hf hc, hsig⟩, hd⟩

omit [Platform] in
theorem named_of_nodes [Platform] (hf : s.fs.normalizesUnicode = false)
    (h : ∀ e ∈ s.tree.nodes.toList, ∀ c ∈ e.1, '/' ∉ c) : s.Named where
  plain comps n hg c hc := by
    have hm := Std.ExtTreeMap.mem_toList_iff_getElem?_eq_some.2 hg
    exact h _ hm c (List.mem_append_right _ hc)
  canonical ht := by
    rw [hf] at ht
    cases ht

end Session

/-- A pattern for one component: `*` stands for any text and `?` for any character. -/
def globComponent : List Char → Name → Bool
  | [], name => name.isEmpty
  | p :: pattern, name =>
    if p = '*' then name.tails.any (globComponent pattern)
    else match name with
      | [] => false
      | c :: name => (decide (p = '?') || decide (p = c)) && globComponent pattern name

/-- A pattern for a path: `**` stands for any components, and for at least one at the end. -/
def globPath : List (List Char) → List Name → Bool
  | [], path => path.isEmpty
  | p :: pattern, path =>
    if p = ['*', '*'] then
      if pattern = [] then !path.isEmpty else path.tails.any (globPath pattern)
    else match path with
      | [] => false
      | c :: path => globComponent p c && globPath pattern path

/-- What the glob compiler makes of patterns without brackets, braces and backslashes. -/
def plainGlobs : Globs := fun pattern => some fun path =>
  globPath (pattern.splitOn '/') (path.splitOn '/')

def headPath : RelPath := ⟨".git/HEAD".toList, by decide⟩

/-- The rule that brings a git tree back, which the defaults ignore. -/
def gitRules : List Rule := [⟨".git/**".toList, .syncedVersioned, .both⟩]

def gitConfig : Config := ((Config.fromRaw plainGlobs true gitRules).toOption).getD syncAll

/-- A session with that rule, which tracks the file `.git/HEAD` on disk. -/
def gitSession : Session :=
  .start rootDir gitConfig
    (.new ⟨1⟩ (Index.new.upsert headPath (.single (VectorClock.new.tick ⟨1⟩) (.present oneSig))))
    .new
    ((((FileTree.empty : Tree).put rootDir .dir).put (rootDir ++ [".git".toList]) .dir).put
      (join rootDir headPath) (.file [0x31] 0o644 7))

/-- A file that the rules bring back below an ignored directory is reported as removed. -/
theorem scanDiff_removes_kept :
    letI := tabulated shortHashes
    Config.fromRaw plainGlobs true gitRules = .ok gitConfig ∧
      gitSession.tree.get rootDir = some .dir ∧ gitSession.Named ∧
      gitSession.fileAt headPath = true ∧
      (gitConfig.classify headPath).cls = .syncedVersioned ∧
      scanDiff gitSession = .ok [⟨headPath, .removed⟩] := by
  let platform := tabulated shortHashes
  exact ⟨rfl, by decide +kernel, Session.named_of_nodes rfl (by decide +kernel), by decide +kernel,
    by decide +kernel, by decide +kernel⟩

/-- Where nothing is ignored, the scan of a tracked file is exact. -/
theorem foo_scanned :
    letI := tabulated shortHashes
    ∃ changes, scanDiff fooSession = .ok changes ∧ fooSession.ScanExact changes := by
  let platform := tabulated shortHashes
  have hn : fooSession.Named := Session.named_of_nodes rfl (by decide +kernel)
  obtain ⟨changes, hs, he⟩ := Session.scanDiff_exact_iff (s := fooSession) (by decide) hn
  exact ⟨changes, hs, he.2 fun _ _ _ _ _ h => by cases h⟩

end Tomo
