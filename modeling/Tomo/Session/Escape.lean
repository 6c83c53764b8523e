import Tomo.Lib.Confinement
import Tomo.Session.Bookkeeping

namespace Tomo
set_option autoImplicit true

section
variable {t u : Tree} {root seen comps : List Name} {rel : RelPath} {S : List Name → Prop}

/-- A walk of the parents that is not refused has met no link. -/
theorem walkParents_unlinked {rest : List Name} (hd : t.get (root ++ seen) = some .dir)
    (h : ∀ why, walkParents t root seen rest ≠ .refused why) (hr : r <+: rest) (l : Link Name) :
    t.get (root ++ seen ++ r) ≠ some (.link l) := by
  induction rest generalizing seen r with
  | nil =>
    rw [List.prefix_nil.1 hr, List.append_nil, hd]
    exact fun h => by cases h
  | cons c rest ih =>
    rcases List.prefix_cons_iff.1 hr with rfl | ⟨r', rfl, hr'⟩
    · rw [List.append_nil, hd]
      exact fun h => by cases h
    · have hs : t.stat false (root ++ (seen ++ [c])) =
          (t.get (root ++ seen ++ [c])).elim (.error .noent) .ok := by
        rw [← List.append_assoc]
        exact FileTree.stat_in_dir (by rwa [List.dropLast_concat])
      rw [List.append_cons]
      cases hg : t.get (root ++ seen ++ [c]) with
      | none =>
        by_cases hn : r' = []
        · rw [hn, List.append_nil, hg]
          exact fun h => by cases h
        · intro hl
          rw [t.get_above hl hn] at hg
          cases hg
      | some n =>
        rw [hg] at hs
        cases n with
        | file b m k =>
          intro hl
          by_cases hn : r' = []
          · rw [hn, List.append_nil, hg] at hl
            cases hl
          · rw [t.get_above hl hn] at hg
            cases hg
        | dir =>
          rw [List.append_assoc root seen [c]] at hg ⊢
          refine ih hg ?_ hr'
          intro why hw
          apply h why
          rw [walkParents, hs]
          exact hw
        | link k =>
          have hw := walkParents.eq_2 t root seen c rest
          rw [hs] at hw
          exact (h _ hw).elim

theorem checkParents_unlinked (hr : t.get root = some .dir) (h : checkParents t root comps = none) :
    t.Unlinked root comps := by
  intro r c s he l
  rw [checkParents] at h
  split at h
  next hn =>
    rw [hn] at he
    exact (List.append_ne_nil_of_right_ne_nil r (List.cons_ne_nil c s) he.symm).elim
  next =>
    have hpre : r <+: comps.dropLast := by
      rw [he, List.dropLast_append_cons]
      exact List.prefix_append _ _
    have hw : ∀ why, walkParents t root [] comps.dropLast ≠ .refused why := by
      intro why hw
      rw [hw] at h
      cases h
    have hd : t.get (root ++ []) = some .dir := by rwa [List.append_nil]
    have hl := walkParents_unlinked hd hw hpre l
    rwa [List.append_nil] at hl

theorem pruneEmptyParents_confined (hr : t.get root = some .dir) (hu : t.Unlinked root comps)
    (hp : comps ≠ []) (hs : FileTree.Clears S root comps) (n : Nat) :
    FileTree.Confined S root t (pruneEmptyParents root comps t n) := by
  induction n generalizing t with
  | zero => exact .refl S root t
  | succ n ih =>
    rw [pruneEmptyParents]
    split
    next u h =>
      have hne : comps.take (n + 1) ≠ [] := by simp [hp]
      have hc := FileTree.rmdir_confined hr (hu.take _) hne (hs.take _) h
      exact hc.trans (ih (hc.root_dir hr) (hc.unlinked hu))
    next => exact .refl S root t

theorem applyAbsent_confined (hr : t.get root = some .dir)
    (hs : FileTree.Clears S root rel.components) (h : applyAbsent t root rel = .ok u) :
    FileTree.Confined S root t u := by
  rw [applyAbsent] at h
  split at h
  · cases h
  next hc =>
    have hu := checkParents_unlinked hr hc
    have hp := rel.components_ne_nil
    split at h
    next v hv =>
      cases h
      have hcv := FileTree.unlink_confined hr hu hp hs hv
      exact hcv.trans (pruneEmptyParents_confined (hcv.root_dir hr) (hcv.unlinked hu) hp hs _)
    · cases h
      exact pruneEmptyParents_confined hr hu hp hs _
    · cases h

theorem createDirAll_confined (hr : t.get root = some .dir) (hu : t.Unlinked root comps)
    (hs : FileTree.Clears S root comps) (h : t.createDirAll full (root ++ comps) = .ok u) :
    FileTree.Confined S root t u := by
  rw [FileTree.createDirAll, List.length_append] at h
  exact FileTree.mkdirs_confined hr hu hs _ h

theorem join_dropLast (root : List Name) (rel : RelPath) :
    (join root rel).dropLast = root ++ rel.components.dropLast :=
  List.dropLast_append_of_ne_nil rel.components_ne_nil

theorem stagePresent_confined [Platform] (hr : t.get root = some .dir)
    (hs : FileTree.Clears S root rel.components) (full : Bool) (wallMs : Nat)
    (dirs : List (List Name)) (sig : ContentSig) (bytes : Bytes) :
    FileTree.Confined S root t (stagePresent t root full wallMs dirs rel sig bytes).tree ∧
      ∀ f, (stagePresent t root full wallMs dirs rel sig bytes).result = .ok f →
        t.Unlinked root rel.components := by
  unfold stagePresent
  split
  · exact ⟨.refl S root t, fun f h => by cases h⟩
  · split
    · exact ⟨.refl S root t, fun f h => by cases h⟩
    next hc =>
      have hu := checkParents_unlinked hr hc
      refine ⟨?_, fun _ _ => hu⟩
      have hw (v : Tree) (d : List (List Name)) :
          (if full = true then ⟨v, d, .error (.io .writeStaging (join root rel) .nospc)⟩
            else ⟨v, d, .ok ⟨bytes, execMode sig.exec, wallMs⟩⟩ : Staging).tree = v := by
        split <;> rfl
      dsimp only
      split
      · rw [hw]
        exact .refl S root t
      · split
        next v hv =>
          rw [hw]
          rw [join_dropLast] at hv
          rw [List.dropLast_eq_take] at hv
          exact createDirAll_confined hr (hu.take _) (hs.take _) hv
        next => exact .refl S root t

end

section
variable {t : Tree} {root : List Name} {rel : RelPath}

/-- A parent that is a regular file makes everything below it unreachable. -/
theorem fileParent_blocks {seen rest : List Name} (h : fileParent t root seen rest = some a) :
    ∃ r s, rest = r ++ s ∧ a = root ++ (seen ++ r) ∧
      ∃ b m k, t.stat false a = .ok (.file b m k) := by
  induction rest generalizing seen with
  | nil => cases h
  | cons c rest ih =>
    have hnext (h : fileParent t root (seen ++ [c]) rest = some a) :
        ∃ r s, c :: rest = r ++ s ∧ a = root ++ (seen ++ r) ∧
          ∃ b m k, t.stat false a = .ok (.file b m k) := by
      obtain ⟨r, s, rfl, ha, hf⟩ := ih h
      exact ⟨c :: r, s, rfl, by rw [ha, List.append_assoc seen, List.singleton_append], hf⟩
    rw [fileParent] at h
    split at h
    · cases h
    next b m k hs =>
      cases h
      exact ⟨[c], rest, rfl, rfl, b, m, k, hs⟩
    · exact hnext h
    · exact hnext h

/-- Where the path can be probed no parent is a regular file. -/
theorem fileParent_none [Platform] (h : snapshot t root rel = .ok o) :
    fileParent t root [] rel.components.dropLast = none := by
  cases hf : fileParent t root [] rel.components.dropLast with
  | none => rfl
  | some a =>
    obtain ⟨r, s, hr, rfl, b, m, k, hs⟩ := fileParent_blocks hf
    rw [List.nil_append] at hs
    cases hq : t.locate false (root ++ r) with
    | error e =>
      rw [FileTree.stat, hq] at hs
      cases hs
    | ok q =>
      have hg : t.get q = some (.file b m k) := by
        rw [FileTree.stat, hq] at hs
        simp only [bind, Except.bind] at hs
        split at hs
        next n hn =>
          cases hs
          exact hn
        next => cases hs
      have hne := rel.components_ne_nil
      have hjoin : join root rel = root ++ r ++ (s ++ [rel.components.getLast hne]) := by
        rw [join, ← List.append_assoc, List.append_assoc root r s, ← hr, List.append_assoc,
          List.dropLast_append_getLast hne]
      have hb : t.locate false (join root rel) = .error .notdir := by
        rw [hjoin]
        exact FileTree.locate_below_file hq hg (List.append_ne_nil_of_right_ne_nil s
          (List.cons_ne_nil _ _))
      rw [snapshot, FileTree.stat, hb] at h
      cases h

end

namespace Session
open Eff
variable {s s' : Session} {x : SessionM α} {f : α → SessionM β} {p : RelPath} {sig : ContentSig}
  {S : List Name → Prop}

/-- The root is a real directory, and no staged file waits behind a link. -/
structure Anchored (s : Session) : Prop where
  root_dir : s.tree.get s.root = some .dir
  guarded : ∀ i ∈ s.pendingInstalls,
    i.finalPath = join s.root i.path ∧ s.tree.Unlinked s.root i.path.components

/-- An anchored session with no file staged for a spared place, or below one. -/
structure Reaches (S : List Name → Prop) (s : Session) : Prop extends Anchored s where
  clears : ∀ i ∈ s.pendingInstalls, FileTree.Clears S s.root i.path.components

theorem Anchored.reaches (h : s.Anchored) : s.Reaches (fun q => ¬s.root <+: q) :=
  ⟨h, fun _ _ => .outside _ _⟩

/-- `s'` follows from `s` by changes of the tree that spare a set of places. -/
structure Sparing (S : List Name → Prop) (s s' : Session) : Prop where
  root : s'.root = s.root
  tree : FileTree.Confined S s.root s.tree s'.tree
  reaches : s'.Reaches S

theorem Sparing.trans (h : Sparing S s s') (h' : Sparing S s' u) : Sparing S s u where
  root := h'.root.trans h.root
  tree := by
    have ht := h'.tree
    rw [h.root] at ht
    exact h.tree.trans ht
  reaches := h'.reaches

theorem Reaches.of_core (hs : s.Reaches S) (h : s'.core = s.core) : s'.Reaches S := by
  have hr : s'.core.root = s.core.root := by rw [h]
  have ht : s'.core.tree = s.core.tree := by rw [h]
  have hp : s'.core.pendingInstalls = s.core.pendingInstalls := by rw [h]
  simp only [core] at hr ht hp
  refine ⟨⟨?_, ?_⟩, ?_⟩
  · rw [hr, ht]
    exact hs.root_dir
  · rw [hp, hr, ht]
    exact hs.guarded
  · rw [hp, hr]
    exact hs.clears

theorem Sparing.of_core (hs : s.Reaches S) (h : s'.core = s.core) : Sparing S s s' := by
  have hr : s'.core.root = s.core.root := by rw [h]
  have ht : s'.core.tree = s.core.tree := by rw [h]
  simp only [core] at hr ht
  exact ⟨hr, ht ▸ .refl S s.root s.tree, hs.of_core h⟩

/-- A change of the tree that makes no links keeps every staged file guarded. -/
theorem Sparing.tree_only (hs : s.Reaches S) (hr : s'.root = s.root)
    (ht : FileTree.Confined S s.root s.tree s'.tree)
    (hp : ∀ i ∈ s'.pendingInstalls, ∃ j ∈ s.pendingInstalls,
      i.finalPath = j.finalPath ∧ i.path = j.path) : Sparing S s s' := by
  refine ⟨hr, ht, ⟨⟨?_, fun i hi => ?_⟩, fun i hi => ?_⟩⟩
  · rw [hr]
    exact ht.root_dir hs.root_dir
  · obtain ⟨j, hj, hf, hpath⟩ := hp i hi
    obtain ⟨hjf, hju⟩ := hs.guarded j hj
    rw [hf, hpath, hr]
    exact ⟨hjf, ht.unlinked hju⟩
  · obtain ⟨j, hj, _, hpath⟩ := hp i hi
    rw [hpath, hr]
    exact hs.clears j hj

/-- `x` spares a set of places. -/
def Stays (S : List Name → Prop) (x : SessionM α) (s : Session) : Prop := Sparing S s (x.exec s).2

theorem Stays.bind (hx : Stays S x s) (hf : ∀ a s', x.exec s = (.ok a, s') → Sparing S s s' →
    Stays S (f a) s') : Stays S (x >>= f) s := by
  unfold Stays at *
  rcases he : x.exec s with ⟨r, s'⟩
  rw [he] at hx
  cases r with
  | error e =>
    rw [exec_bind_error he]
    exact hx
  | ok a =>
    rw [exec_bind_ok he]
    exact hx.trans (hf a s' he hx)

theorem Books.stays (hx : Books x s) (hs : s.Reaches S) : Stays S x s := .of_core hs hx.core

/-- Installing guarded files spares what none of them is for, however far it gets. -/
theorem installAll_confined {root : List Name} {t : Tree} {l : List PendingInstall}
    (hr : t.get root = some .dir)
    (hl : ∀ i ∈ l, i.finalPath = join root i.path ∧ t.Unlinked root i.path.components)
    (hs : ∀ i ∈ l, FileTree.Clears S root i.path.components) :
    FileTree.Confined S root t (installAll t l).1 ∧ ∀ i ∈ (installAll t l).2.1, ∃ j ∈ l,
      i.finalPath = j.finalPath ∧ i.path = j.path := by
  have hself (l : List PendingInstall) : ∀ i ∈ l, ∃ j ∈ l,
      i.finalPath = j.finalPath ∧ i.path = j.path := fun i hi => ⟨i, hi, rfl, rfl⟩
  induction l generalizing t with
  | nil => exact ⟨.refl S root t, hself []⟩
  | cons i rest ih =>
    rw [installAll]
    cases htemp : i.temp with
    | none => exact ⟨.refl S root t, hself _⟩
    | some staged =>
      dsimp only
      obtain ⟨hf, hu⟩ := hl i List.mem_cons_self
      cases hi : t.install i.finalPath staged.node with
      | error e => exact ⟨.refl S root t, hself _⟩
      | ok u =>
        rw [hf] at hi
        have hc := FileTree.install_confined hr hu i.path.components_ne_nil
          (hs i List.mem_cons_self) (fun l h => by cases h) hi
        obtain ⟨hc', hm⟩ := ih (hc.root_dir hr) (fun j hj =>
          ⟨(hl j (List.mem_cons_of_mem i hj)).1, hc.unlinked (hl j (List.mem_cons_of_mem i hj)).2⟩)
          fun j hj => hs j (List.mem_cons_of_mem i hj)
        refine ⟨hc.trans hc', fun j hj => ?_⟩
        rcases List.mem_cons.1 hj with rfl | hj
        · exact ⟨i, List.mem_cons_self, rfl, rfl⟩
        · obtain ⟨k, hk, he⟩ := hm j hj
          exact ⟨k, List.mem_cons_of_mem i hk, he⟩

theorem flushInstalls_stays (hs : s.Reaches S) : Stays S flushInstalls s := by
  obtain ⟨hc, hm⟩ := installAll_confined hs.root_dir hs.guarded hs.clears
  simp only [Stays, flushInstalls, exec_get_bind]
  split
  next tree pending path e he =>
    rw [he] at hc hm
    exact .tree_only hs rfl hc hm
  next tree pending he =>
    rw [he] at hc
    exact .tree_only hs rfl hc fun i hi => by cases hi

theorem flushPendingInstallFor_stays (hs : s.Reaches S) : Stays S (flushPendingInstallFor p) s := by
  simp only [Stays, flushPendingInstallFor, exec_get_bind]
  split
  · exact flushInstalls_stays hs
  · exact .of_core hs rfl

theorem applyAbsentGuarded_stays (hs : s.Reaches S)
    (hp : FileTree.Clears S s.root p.components) : Stays S (applyAbsentGuarded p) s := by
  refine (flushPendingInstallFor_stays hs).bind fun _ s hx hb => ?_
  rw [← hb.root] at hp
  simp only [Stays, exec_modify_bind, exec_get_bind]
  have hb' := hb.reaches
  split
  · exact .tree_only hb' rfl (.refl _ _ _) fun i hi => ⟨i, hi, rfl, rfl⟩
  · split
    next tree h =>
      exact .tree_only hb' rfl (applyAbsent_confined hb'.root_dir hp h) fun i hi => ⟨i, hi, rfl, rfl⟩
    · exact .tree_only hb' rfl (.refl _ _ _) fun i hi => ⟨i, hi, rfl, rfl⟩
    · exact .tree_only hb' rfl (.refl _ _ _) fun i hi => ⟨i, hi, rfl, rfl⟩

section
variable [Platform] {remoteBytes : Option Bytes}

/-- Before a file is written, a directory in its place is the only thing to be resolved. -/
theorem preparePresentTarget_spec (sig : ContentSig) (remoteBytes : Option Bytes) (hprobe : snapshot s.tree s.root p = .ok o) :
    (pathIsDir s.tree (join s.root p) = true ∧ Books (preparePresentTarget p sig remoteBytes) s ∧
        ((preparePresentTarget p sig remoteBytes).exec s).1 ≠ .ok true) ∨
      (pathIsDir s.tree (join s.root p) = false ∧
        (preparePresentTarget p sig remoteBytes).exec s = (.ok true, s)) := by
  cases hd : pathIsDir s.tree (join s.root p) with
  | true =>
    refine .inl ⟨rfl, ?_⟩
    have hc : typeCollision s.tree s.root p.components = some .targetIsDir := by
      rw [typeCollision]
      exact if_pos hd
    have hb : Books (do
        preserveIncomingFile p sig remoteBytes
        modify fun s => { s with rescanPending := true }
        pure false : SessionM Bool) s :=
      (preserveIncomingFile_books p sig remoteBytes s).bind fun _ s' _ =>
        Books.bind (.modify rfl rfl) fun _ s' _ => .pure _ s'
    have he : (preparePresentTarget p sig remoteBytes).exec s = Eff.exec (do
        preserveIncomingFile p sig remoteBytes
        modify fun s => { s with rescanPending := true }
        pure false : SessionM Bool) s := by
      simp only [preparePresentTarget, exec_get_bind, hc]
    refine ⟨⟨?_, ?_, ?_⟩, ?_⟩
    · rw [he]
      exact hb.core
    · rw [he]
      exact hb.error
    · rw [Emits, he]
      exact hb.emits
    rw [he, exec_bind]
    rcases (preserveIncomingFile p sig remoteBytes).exec s with ⟨r, s'⟩
    cases r with
    | error e => exact fun h => by cases h
    | ok a => exact fun h => by cases h
  | false =>
    refine .inr ⟨rfl, ?_⟩
    have hc : typeCollision s.tree s.root p.components = none := by
      rw [typeCollision, fileParent_none hprobe]
      exact if_neg (by rw [← join, hd]; exact Bool.false_ne_true)
    simp only [preparePresentTarget, exec_get_bind, hc, exec_pure]

theorem writePresent_stays (hs : s.Reaches S) (hp : FileTree.Clears S s.root p.components)
    (bytes : Bytes) : Stays S (writePresent p sig bytes) s := by
  refine (flushPendingInstallFor_stays hs).bind fun _ s _ hb => ?_
  rw [← hb.root] at hp
  have hs := hb.reaches
  obtain ⟨hc, hu⟩ := stagePresent_confined hs.root_dir hp s.diskFull s.wallMs s.createdDirs
    sig bytes
  simp only [Stays, exec_get_bind, exec_set_bind]
  split
  next temp hr =>
    refine ⟨rfl, hc, ⟨⟨hc.root_dir hs.root_dir, fun i hi => ?_⟩, fun i hi => ?_⟩⟩
    · rcases List.mem_append.1 hi with hi | hi
      · exact ⟨(hs.guarded i hi).1, hc.unlinked (hs.guarded i hi).2⟩
      · cases List.mem_singleton.1 hi
        exact ⟨rfl, hc.unlinked (hu temp hr)⟩
    · rcases List.mem_append.1 hi with hi | hi
      · exact hs.clears i hi
      · cases List.mem_singleton.1 hi
        exact hp
  all_goals exact .tree_only hs rfl hc fun i hi => ⟨i, hi, rfl, rfl⟩

/-- The frame does not bring the content, but the disk shows it already. -/
def Skips (s : Session) (p : RelPath) (sig : ContentSig) (remoteBytes : Option Bytes) : Prop :=
  (remoteBytes.filter fun b => matchesSig b sig) = none ∧
    (readVerified s.tree s.root p sig).isSome = true

/-- A file is written at its path and nowhere else, unless the disk shows it already. -/
theorem materialize_stays (hs : s.Reaches S) (hp : FileTree.Clears S s.root p.components)
    (h : ¬s.Skips p sig remoteBytes) : Stays S (materialize p sig remoteBytes) s := by
  cases hf : remoteBytes.filter fun b => matchesSig b sig with
  | some bytes =>
    have he : (materialize p sig remoteBytes).exec s = (writePresent p sig bytes).exec s := by
      simp only [materialize, exec_get_bind, hf]
      rfl
    rw [Stays, he]
    exact writePresent_stays hs hp bytes
  | none =>
    have hr : (readVerified s.tree s.root p sig).isSome = false := by
      rw [← Bool.not_eq_true]
      exact fun hr => h ⟨hf, hr⟩
    simp only [Stays, materialize, exec_get_bind, hf, hr]
    refine ((liftHistory_books _ s).stays hs).bind fun cas s' _ hb => ?_
    cases cas with
    | none => exact .of_core hb.reaches rfl
    | some bytes =>
      rw [← hb.root] at hp
      exact writePresent_stays hb.reaches hp bytes

/-- What the disk shows already only has its mode set, wherever the path leads. -/
theorem materialize_skips (h : s.Skips p sig remoteBytes) :
    (materialize p sig remoteBytes).exec s =
      match setExecMode s.tree s.root p sig.exec with
      | .ok tree => (.ok ⟨⟩, { s with tree })
      | .error e => (.error e, s) := by
  simp only [materialize, exec_get_bind, h.1, h.2]
  cases setExecMode s.tree s.root p sig.exec <;> rfl

theorem applyPresentBySig_dir (hprobe : snapshot s.tree s.root p = .ok o) (hs : s.Reaches S)
    (hdir : pathIsDir s.tree (join s.root p) = true) :
    Stays S (applyPresentBySig p sig remoteBytes) s := by
  rcases preparePresentTarget_spec sig remoteBytes hprobe with ⟨_, hb, hne⟩ | ⟨hdir', _⟩
  · refine (hb.stays hs).bind fun ready s' he hbelow => ?_
    cases ready with
    | true =>
      rw [he] at hne
      exact (hne rfl).elim
    | false => exact .of_core hbelow.reaches rfl
  · rw [hdir] at hdir'
    cases hdir'

theorem applyPresentBySig_file (hprobe : snapshot s.tree s.root p = .ok o)
    (hdir : pathIsDir s.tree (join s.root p) = false) :
    (applyPresentBySig p sig remoteBytes).exec s = (materialize p sig remoteBytes).exec s := by
  rcases preparePresentTarget_spec sig remoteBytes hprobe with ⟨hdir', _⟩ | ⟨_, hx⟩
  · rw [hdir] at hdir'
    cases hdir'
  · rw [applyPresentBySig, exec_bind_ok hx]
    rfl

/-- A read that succeeds has found a regular file. -/
theorem locate_readVerified (h : (readVerified s.tree s.root p sig).isSome = true) :
    ∃ q b m k, s.tree.locate true (join s.root p) = .ok q ∧ s.tree.get q = some (.file b m k) := by
  rw [readVerified] at h
  split at h
  next bytes hread =>
    rw [FileTree.read, FileTree.stat] at hread
    cases hq : s.tree.locate true (join s.root p) with
    | error e =>
      rw [hq] at hread
      cases hread
    | ok q =>
      rw [hq] at hread
      simp only [bind, Except.bind] at hread
      cases hg : s.tree.get q with
      | none =>
        rw [hg] at hread
        cases hread
      | some n =>
        rw [hg] at hread
        cases n with
        | file b m k => exact ⟨q, b, m, k, rfl, hg⟩
        | dir => cases hread
        | link l => cases hread
  next => cases h

omit [Platform] in
/-- A chmod touches the one file the path leads to. -/
theorem setExecMode_spec {t : Tree} {root q : List Name} (hq : t.locate true (join root p) = .ok q)
    (hg : t.get q = some (.file b m k)) (exec : Bool) :
    ∃ u, setExecMode t root p exec = .ok u ∧
      ∀ r, u.get r = if q = r then some (.file b (execMode exec) k) else t.get r := by
  have hd : t.get q ≠ some .dir := by
    rw [hg]
    exact fun h => by cases h
  refine ⟨t.put q (.file b (execMode exec) k), ?_, FileTree.get_put (FileTree.fits_file hq hd _)⟩
  rw [setExecMode, FileTree.chmod, hq]
  simp only [bind, Except.bind, hg]

omit [Platform] in
/-- A mode set inside the root, or the one a file has already, changes nothing outside. -/
theorem confined_chmod {t u : Tree} {root q : List Name} (hr : t.get root = some .dir)
    (hg : t.get q = some (.file b m k))
    (hget : ∀ r, u.get r = if q = r then some (.file b m' k) else t.get r)
    (h : ¬(¬root <+: q ∧ m ≠ m')) : FileTree.Confined (fun q => ¬root <+: q) root t u := by
  by_cases hin : root <+: q
  · obtain ⟨d, rfl⟩ := hin
    refine .update ?_ (.outside root d) (fun l h => by cases h) hget
    rintro rfl
    rw [List.append_nil, hr] at hg
    cases hg
  · have hm : m = m' := by_contra fun hm => h ⟨hin, hm⟩
    subst hm
    have he : u = t := by
      apply FileTree.ext_get
      intro r
      rw [hget]
      split
      next hqr => rw [← hqr, hg]
      next => rfl
    rw [he]
    exact .refl _ root t

omit [Platform] in
theorem Anchored.chmod {u : Tree} (hs : s.Anchored) (hg : s.tree.get q = some (.file b m k))
    (hget : ∀ r, u.get r = if q = r then some (.file b m' k) else s.tree.get r) :
    Anchored { s with tree := u } where
  root_dir := by
    have hne : q ≠ s.root := by
      rintro rfl
      rw [hs.root_dir] at hg
      cases hg
    exact (hget s.root).trans (by rw [if_neg hne, hs.root_dir])
  guarded i hi := by
    refine ⟨(hs.guarded i hi).1, fun r c d hr l hl => ?_⟩
    have hl' : u.get (s.root ++ r) = some (.link l) := hl
    rw [hget] at hl'
    split at hl'
    · cases hl'
    · exact (hs.guarded i hi).2 r c d hr l hl'

/-- The disk already shows the content through a link that leads out of the root, with another
mode than the one to be set. -/
def ModeEscapes (s : Session) (p : RelPath) (target : Expectation) (remoteBytes : Option Bytes) :
    Prop :=
  ∃ sig q b mode mtime, target = .present sig ∧ pathIsDir s.tree (join s.root p) = false ∧
    s.Skips p sig remoteBytes ∧ s.tree.locate true (join s.root p) = .ok q ∧
    s.tree.get q = some (.file b mode mtime) ∧ ¬s.root <+: q ∧ mode ≠ execMode sig.exec

/-- Nothing outside the root changes while a change is applied and installed, exactly when no
mode has to be set through a link that leads out. -/
theorem apply_outside_iff (hs : s.Anchored) (hprobe : snapshot s.tree s.root p = .ok o)
    (target : Expectation) (remoteBytes : Option Bytes) :
    (∀ q, ¬s.root <+: q →
      (flushInstalls.exec ((doApply p target remoteBytes).exec s).2).2.tree.get q =
        s.tree.get q) ↔ ¬s.ModeEscapes p target remoteBytes := by
  have hstays (h : Stays (fun q => ¬s.root <+: q) (doApply p target remoteBytes) s)
      (q : List Name) (hq : ¬s.root <+: q) :
      (flushInstalls.exec ((doApply p target remoteBytes).exec s).2).2.tree.get q =
        s.tree.get q := (h.trans (flushInstalls_stays h.reaches)).tree.spared q hq
  have hp : FileTree.Clears (fun q => ¬s.root <+: q) s.root p.components := .outside _ _
  cases target with
  | absent =>
    refine iff_of_true (hstays (applyAbsentGuarded_stays hs.reaches hp)) ?_
    rintro ⟨sig, q, b, m, k, ht, _⟩
    cases ht
  | present sig =>
    cases hdir : pathIsDir s.tree (join s.root p) with
    | true =>
      refine iff_of_true (hstays (applyPresentBySig_dir hprobe hs.reaches hdir)) ?_
      rintro ⟨_, q, b, m, k, _, hf, _⟩
      rw [hdir] at hf
      cases hf
    | false =>
      have hx : (doApply p (.present sig) remoteBytes).exec s =
          (materialize p sig remoteBytes).exec s := applyPresentBySig_file hprobe hdir
      by_cases hskip : s.Skips p sig remoteBytes
      · obtain ⟨q, b, m, k, hq, hg⟩ := locate_readVerified hskip.2
        obtain ⟨u, hu, hget⟩ := setExecMode_spec hq hg sig.exec
        have he : (doApply p (.present sig) remoteBytes).exec s = (.ok ⟨⟩, { s with tree := u }) := by
          rw [hx, materialize_skips hskip, hu]
        by_cases hin : ¬s.root <+: q ∧ m ≠ execMode sig.exec
        · -- the file outside has another mode now, and installing leaves it so
          refine iff_of_false (fun h => ?_) (not_not.2 ?_)
          · have hs' := hs.chmod hg hget
            have hb := (flushInstalls_stays hs'.reaches).tree.spared q hin.1
            have hsame := h q hin.1
            rw [he, hb, hget, if_pos rfl, hg] at hsame
            injection hsame with hsame
            injection hsame with _ hm
            exact hin.2 hm.symm
          · exact ⟨sig, q, b, m, k, rfl, hdir, hskip, hq, hg, hin⟩
        · refine iff_of_true (hstays ?_) ?_
          · rw [Stays, he]
            exact .tree_only hs.reaches rfl (confined_chmod hs.root_dir hg hget hin) fun i hi =>
              ⟨i, hi, rfl, rfl⟩
          · rintro ⟨sig', q', b', m', k', ht, _, _, hq', hg', hout⟩
            cases ht
            rw [hq] at hq'
            cases hq'
            rw [hg] at hg'
            cases hg'
            exact hin hout
      · refine iff_of_true (hstays ?_) ?_
        · rw [Stays, hx]
          exact materialize_stays hs.reaches hp hskip
        · rintro ⟨sig', q, b, m, k, ht, _, hf, _⟩
          cases ht
          exact hskip hf

end

end Session

/-- A file outside the root, and a link in the root to the directory that holds it. -/
def linkedTree : Tree :=
  ((((FileTree.empty : Tree).put rootDir .dir).put [['o']] .dir).put [['o'], ['f']]
    (.file [0x31] 0o755 7)).put [['r'], ['l']] (.link ⟨true, [some ['o']]⟩)

def linkedPath : RelPath := ⟨['l', '/', 'f'], by decide⟩

def linkedSession : Session := .start rootDir syncAll (.new ⟨1⟩ .new) .new linkedTree

/-- A frame without bytes for a file that is there already, behind the link. -/
def linkedChange : RemoteChange :=
  ⟨linkedPath, .modified { oneSig with mtimeMs := 9 }, VectorClock.new.tick ⟨2⟩⟩

/-- The frame takes the executable bit from the file outside. -/
theorem onChange_sets_mode_outside :
    letI := tabulated shortHashes
    linkedSession.tree.get rootDir = some .dir ∧ ¬rootDir <+: [['o'], ['f']] ∧
      linkedSession.tree.get [['o'], ['f']] = some (.file [0x31] 0o755 7) ∧
      ((Session.onChange linkedChange none).exec linkedSession).2.tree.get [['o'], ['f']] =
        some (.file [0x31] 0o644 7) := by
  decide +kernel

/-- A frame that brings its bytes is written inside, or refused. -/
theorem apply_outside_linked :
    letI := tabulated shortHashes
    (Session.flushInstalls.exec ((Session.doApply linkedPath (.present oneSig)
      (some [0x31])).exec linkedSession).2).2.tree.get [['o'], ['f']] =
        linkedSession.tree.get [['o'], ['f']] := by
  let platform := tabulated shortHashes
  have hs : linkedSession.Anchored := ⟨by decide, fun i hi => by cases hi⟩
  have hprobe : snapshot linkedSession.tree linkedSession.root linkedPath =
      .ok (some { oneSig with exec := true, mtimeMs := 7 }) := by decide
  refine (Session.apply_outside_iff hs hprobe (.present oneSig) (some [0x31])).2 ?_ _ (by decide)
  rintro ⟨sig, q, b, m, k, ht, _, ⟨hf, _⟩, _⟩
  cases ht
  exact absurd hf (by decide)

end Tomo
