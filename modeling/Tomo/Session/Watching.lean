import Mathlib.Logic.Relation
import Tomo.Lib.Postcard
import Tomo.Session.Notify
import Tomo.Session.Quiet
import Tomo.Session.Refusal

namespace Tomo
set_option autoImplicit true

open Collect

/-- A session whose tree its user changes; the directories that no watch is set up for yet; the
events that are raised and not handled; and the signals that are sent and not processed. -/
structure Watching where
  session : Session
  unwatched : List (List Name)
  events : List NotifyEvent
  signals : List WatchSignal

namespace Session
variable [Platform]

/-- What a path shows: the file there, if there is one. -/
def shown (s : Session) (p : RelPath) : Expectation :=
  match s.tree.get (join s.root p) with
  | some (.file bytes mode mtime) =>
    .present ⟨Platform.blake3 bytes, bytes.length, isExecutable mode, mtime⟩
  | _ => .absent

omit [Platform] in
/-- The engine takes in a local change. -/
def learn (s : Session) (c : LocalChange) : Session :=
  { s with engine := (s.engine.handle (.local c)).1 }

/-- A watch signal, as far as the engine is concerned. -/
def heed (s : Session) : WatchSignal → Session
  | .needsRescan => { s with rescanPending := true }
  | .pending rel kind =>
    match resolve s.tree s.root rel kind with
    | .error _ => { s with rescanPending := true }
    | .ok k => s.learn ⟨rel, s.observe rel k⟩

/-- The rescan that is pending, as far as the engine is concerned. -/
def reread (s : Session) : Session :=
  match scanDiff s with
  | .error _ => s
  | .ok changes => changes.foldl learn { s with rescanPending := false }

/-- The index agrees with the disk. -/
def Mirrors (s : Session) (p : RelPath) : Prop := agrees (s.engine.index.get p) (s.shown p) = true

end Session

namespace Watching

/-- A path that is in no directory without a watch. -/
def Visible (w : Watching) (path : List Name) : Prop :=
  ∀ d ∈ w.unwatched, ¬(d <+: path ∧ d ≠ path)

def start (s : Session) : Watching := ⟨s, [], [], []⟩

/-- An operation of the user, and what is raised of its events. -/
def edit (w : Watching) (t : Tree) (raised : List NotifyEvent) : Watching where
  session := { w.session with tree := t }
  unwatched := (raised.filterMap NotifyEvent.arrival ++ w.unwatched).filter (UserOp.dirAt t)
  events := w.events ++ raised
  signals := w.signals

/-- The first event is handled, and the directory it is about watched, with all below it. -/
def handle [Platform] (w : Watching) : Watching :=
  match w.events with
  | [] => w
  | e :: rest =>
    { w with
      unwatched := match e.arrival with
        | some d => w.unwatched.filter fun u => !decide (d <+: u)
        | none => w.unwatched
      events := rest
      signals := w.signals ++ handler w.session e }

/-- The session processes the first signal. -/
def take [Platform] (w : Watching) : Watching :=
  match w.signals with
  | [] => w
  | signal :: rest => { w with session := w.session.heed signal, signals := rest }

/-- What an operation raises: its events, but for some that name a path in a directory without a
watch. -/
structure Raises (w : Watching) (t : Tree) (op : UserOp) (raised : List NotifyEvent) : Prop where
  sublist : raised.Sublist (op.events w.session.tree t)
  seen : ∀ e ∈ op.events w.session.tree t, (∀ path ∈ e.paths, w.Visible path) → e ∈ raised

variable [Platform]

/-- A user's operation that leaves a tree as it can be: names without slashes, and no links. -/
structure Can (w : Watching) (t : Tree) (op : UserOp) (raised : List NotifyEvent) : Prop where
  makes : op.Makes w.session.root w.session.tree t
  raises : w.Raises t op raised
  root_dir : t.get w.session.root = some .dir
  named : Session.Named { w.session with tree := t }
  linkless : t.Linkless

omit [Platform] in
/-- A rescan is still to come: it is pending or signalled, or an event that is not handled yet will
ask for it. -/
def Due (w : Watching) : Prop :=
  w.session.rescanPending = true ∨ .needsRescan ∈ w.signals ∨
    ∃ e ∈ w.events, e.needRescan = true ∨ dirAppeared w.session.tree e = true

omit [Platform] in
/-- The operation calls no rescan off that is still to come; and if it takes a directory out of the
root, the index has no file below it, or a rescan is still to come. -/
structure Calm (w : Watching) (t : Tree) (op : UserOp) (raised : List NotifyEvent) : Prop where
  kept : w.Due → (w.edit t raised).Due
  empty : ∀ src, op = .leave src → w.session.tree.get src = some .dir → ¬w.Due →
    ∀ p : RelPath, src <+: join w.session.root p →
      ∀ sig, w.session.engine.winnerState p ≠ some (.present sig)

inductive Step : Watching → Watching → Prop where
  | edit (w : Watching) (t : Tree) (op : UserOp) (raised : List NotifyEvent)
    (h : w.Can t op raised) : Step w (w.edit t raised)
  | handle (w : Watching) : Step w w.handle
  | take (w : Watching) : Step w w.take
  | rescan (w : Watching) (h : w.session.rescanPending = true) :
    Step w { w with session := w.session.reread }

/-- A step that, if the user takes it, meets the condition. -/
inductive CalmStep : Watching → Watching → Prop where
  | edit (w : Watching) (t : Tree) (op : UserOp) (raised : List NotifyEvent)
    (h : w.Can t op raised) (hc : w.Calm t op raised) : CalmStep w (w.edit t raised)
  | handle (w : Watching) : CalmStep w w.handle
  | take (w : Watching) : CalmStep w w.take
  | rescan (w : Watching) (h : w.session.rescanPending = true) :
    CalmStep w { w with session := w.session.reread }

omit [Platform] in
/-- All events are handled, all signals processed, and no rescan is pending. -/
structure Settled (w : Watching) : Prop where
  events : w.events = []
  signals : w.signals = []
  rescan : w.session.rescanPending = false

omit [Platform] in
/-- A path that is not ignored. -/
def Kept (s : Session) (p : RelPath) : Prop := (s.config.classify p).cls ≠ .ignored

/-- A session that has just scanned its tree: the index agrees with the disk, and no echo is
expected. Its rules keep nothing below a directory that they ignore. -/
structure Begun (s : Session) : Prop where
  root_dir : s.tree.get s.root = some .dir
  named : s.Named
  linkless : s.tree.Linkless
  unexpected : ∀ p, (s.engine.echo.pending p).length = 0
  rules : ∀ p, Kept s p → s.Entered p
  mirrors : ∀ p, Kept s p → s.Mirrors p

/-- A path will be looked at: a signal of it is to be processed, or an event that names it to be
handled. -/
def Marked (w : Watching) (p : RelPath) : Prop :=
  (∃ kind, .pending p kind ∈ w.signals) ∨
    relativize w.session.fs p.components = .ok p ∧
      ∃ e ∈ w.events, e.Names (join w.session.root p)

/-- Every path that does not mirror the disk is to be looked at, or a rescan is still to come; and
of every directory without a watch an event is still to be handled. -/
structure Inv (w : Watching) : Prop where
  root_dir : w.session.tree.get w.session.root = some .dir
  named : w.session.Named
  linkless : w.session.tree.Linkless
  unexpected : ∀ p, (w.session.engine.echo.pending p).length = 0
  rules : ∀ p, Kept w.session p → w.session.Entered p
  tended : ∀ d ∈ w.unwatched, w.session.tree.get d = some .dir ∧
    ∃ e ∈ w.events, e.arrival = some d
  each : ∀ p, Kept w.session p → w.session.Mirrors p ∨ w.Marked p ∨ w.Due

end Watching

namespace Session
variable [Platform] {s : Session} {p q : RelPath}

omit [Platform] in
theorem winner_absent (h : ∀ sig, s.engine.winnerState p ≠ some (.present sig)) :
    agrees (s.engine.index.get p) .absent = true := by
  cases hg : s.engine.index.get p with
  | none => rfl
  | some e =>
    have hw : s.engine.winnerState p = some e.winner.state := by
      rw [Engine.winnerState, hg]
      rfl
    cases hs : e.winner.state with
    | present sig =>
      rw [hs] at hw
      exact (h sig hw).elim
    | tombstone =>
      rw [agrees, hs]
      rfl

theorem shown_of_not_file (h : s.fileAt p = false) : s.shown p = .absent := by
  rw [fileAt, FileTree.isFile] at h
  rw [shown]
  split
  next bytes mode mtime hg =>
    rw [hg] at h
    cases h
  next => rfl

/-- A file is shown as a look at it finds it. -/
theorem shown_of_file (h : s.fileAt p = true) :
    ∃ sig, snapshot s.tree s.root p = .ok (some sig) ∧ s.shown p = .present sig := by
  obtain ⟨b, m, k, hg⟩ := FileTree.isFile_iff.1 h
  have hl : ∀ l : Link Name, Node.file b m k ≠ .link l := fun l h => by cases h
  have hr : s.tree.read (join s.root p) = .ok b := by
    rw [FileTree.read, FileTree.stat_get hg hl]
    rfl
  refine ⟨⟨Platform.blake3 b, b.length, isExecutable m, k⟩, ?_, ?_⟩
  · rw [snapshot, FileTree.stat_get hg hl]
    simp only [hr]
  · rw [shown, hg]

/-- Where there is no file, a look finds none or fails. -/
theorem snapshot_of_not_file (hl : s.tree.Linkless) (h : s.fileAt p = false) :
    snapshot s.tree s.root p = .ok none ∨ ∃ e, snapshot s.tree s.root p = .error e := by
  rw [snapshot]
  cases hg : s.tree.get (join s.root p) with
  | none =>
    rw [FileTree.stat_none (hl.straight _) hg]
    split
    next => exact .inl rfl
    next => exact .inr ⟨_, rfl⟩
    next hst =>
      split at hst
      · cases hst
      · cases hst
    next => exact .inl rfl
    next => exact .inl rfl
  | some n =>
    cases n with
    | dir =>
      rw [FileTree.stat_get hg fun l h => by cases h]
      exact .inl rfl
    | link l => exact (hl _ l hg).elim
    | file b m k =>
      rw [fileAt, FileTree.isFile, hg] at h
      cases h

/-- A signal that can be resolved says what the path shows. -/
theorem observe_mirrors (hl : s.tree.Linkless) (h : resolve s.tree s.root p kind = .ok k) :
    s.observe p k = observedKind (s.shown p) := by
  cases hf : s.fileAt p with
  | true =>
    obtain ⟨sig, hs, hshown⟩ := shown_of_file hf
    rw [hshown]
    cases kind with
    | gone =>
      cases h
      simp only [observe, hs, ite_self]
      rfl
    | dirty =>
      rw [resolve, hs] at h
      cases h
      simp only [observe, hs, ite_self]
      rfl
  | false =>
    rw [shown_of_not_file hf]
    rcases snapshot_of_not_file hl hf with hs | ⟨e, hs⟩
    · cases kind with
      | gone =>
        cases h
        simp only [observe, hs]
        rfl
      | dirty =>
        rw [resolve, hs] at h
        cases h
        simp only [observe, hs]
        rfl
    · cases kind with
      | gone =>
        cases h
        simp only [observe, hs]
        rfl
      | dirty =>
        rw [resolve, hs] at h
        cases h

end Session

namespace Session
open Eff
variable [Platform] {s : Session}

/-- Over a working link a local change is taken in without fail, and beside the records nothing
but the engine changes. -/
theorem absorbLocal_learns (hs : s.Healthy) (c : LocalChange) :
    ∃ s', (absorbLocal c).exec s = (.ok ⟨⟩, s') ∧ s'.core = (s.learn c).core := by
  have hf : Files (do
      if (s.engine.handleLocal c).2 = [] then pure () else markDirty
      execute (s.engine.handleLocal c).2 none none) (s.learn c) := by
    have hpaper := fun a ha => (s.engine.handleLocal_paper c a ha).1
    have hh : (s.learn c).Healthy := hs
    exact .ite (execute_files hh none none hpaper)
      (.bind (.modify rfl rfl) fun _ s' hc => execute_files (hh.of_core hc) none none hpaper)
  obtain ⟨_, s', hx, hcore⟩ := hf.exec_eq
  exact ⟨s', hx, hcore⟩

/-- What is heeded is what the session makes of the signal, where nothing is staged for its path. -/
theorem onWatch_heeds (hs : s.Healthy)
    (hp : ∀ rel kind, signal = .pending rel kind → s.stagedFor rel = false) :
    ∃ s', (onWatch signal).exec s = (.ok ⟨⟩, s') ∧ s'.core = (s.heed signal).core := by
  cases signal with
  | needsRescan => exact ⟨_, rfl, rfl⟩
  | pending rel kind =>
    have hflush : (flushPendingInstallFor rel).exec s = (.ok ⟨⟩, s) := by
      simp only [flushPendingInstallFor, exec_get_bind, hp rel kind rfl, Bool.false_eq_true,
        ↓reduceIte, exec_pure]
    rw [onWatch, exec_bind_ok hflush, exec_get_bind, heed]
    cases resolve s.tree s.root rel kind with
    | error e => exact ⟨_, rfl, rfl⟩
    | ok k => exact absorbLocal_learns hs _

/-- So with the changes of a scan. -/
theorem rescan_rereads (hs : s.Healthy) (hscan : scanDiff s = .ok changes) :
    ∃ s', rescan.exec s = (.ok ⟨⟩, s') ∧ s'.core = s.reread.core := by
  have hall (l : List LocalChange) (s t : Session) (hs : s.Healthy) (ht : s.core = t.core) :
      ∃ s', (l.forM absorbLocal).exec s = (.ok ⟨⟩, s') ∧ s'.core = (l.foldl learn t).core := by
    induction l generalizing s t with
    | nil => exact ⟨s, rfl, ht⟩
    | cons c l ih =>
      obtain ⟨u, hu, hcore⟩ := absorbLocal_learns hs c
      have htu : u.core = (t.learn c).core := by
        have hsame : (s.learn c).core = (t.learn c).core := by
          change s.core.learn c = t.core.learn c
          rw [ht]
        exact hcore.trans hsame
      have hh : (s.learn c).Healthy := hs
      obtain ⟨s', hx, hs'⟩ := ih u (t.learn c) (hh.of_core hcore) htu
      refine ⟨s', ?_, hs'⟩
      change (absorbLocal c >>= fun _ => l.forM absorbLocal).exec s = _
      rw [exec_bind_ok hu]
      exact hx
  obtain ⟨s', hx, hcore⟩ := hall changes s { s with rescanPending := false } hs rfl
  refine ⟨s', ?_, ?_⟩
  · rw [rescan, exec_get_bind, hscan]
    exact hx
  · rw [hcore, reread, hscan]

end Session

namespace Engine

theorem unexpected_report {e : Engine} (h : ∀ q, (e.echo.pending q).length = 0) (p : RelPath)
    (disk : Expectation) : ∀ q, ((e.report p disk).1.echo.pending q).length = 0 := by
  intro q
  rw [report_pending, h q]
  split <;> rfl

/-- Where no echo is expected, a report makes the index agree, and touches nothing else. -/
theorem report_unexpected {e : Engine} (h : ∀ q, (e.echo.pending q).length = 0) (p : RelPath)
    (disk : Expectation) :
    agrees ((e.report p disk).1.index.get p) disk = true ∧
      ∀ q, q ≠ p → (e.report p disk).1.index.get q = e.index.get q := by
  cases hecho : e.isExpectedEcho p disk with
  | true =>
    have hpos := EchoJournal.pending_pos hecho
    rw [h p] at hpos
    cases hpos
  | false =>
    rcases report_fresh hecho with ⟨ha, hindex, _⟩ | ⟨_, ha, hother, _⟩
    · rw [hindex]
      exact ⟨ha, fun q _ => rfl⟩
    · exact ⟨ha, hother⟩

end Engine

namespace Watching
open Session
variable [Platform] {w w' : Watching} {t : Tree} {op : UserOp} {raised : List NotifyEvent}
  {s : Session} {p : RelPath}

omit [Platform] in
/-- A directory that has come is seen when its event is handled. -/
theorem appeared_of_arrival {e : NotifyEvent} {d : List Name} (ha : e.arrival = some d)
    (hd : t.get d = some .dir) : dirAppeared t e = true := by
  rw [NotifyEvent.arrival] at ha
  split at ha
  next hkind =>
    have hmem : d ∈ e.paths := List.mem_of_mem_head? ha
    have hany : e.paths.any t.isDir = true :=
      List.any_eq_true.2 ⟨d, hmem, FileTree.isDir_get hd⟩
    rw [dirAppeared, hany]
    rcases List.mem_cons.1 hkind.2 with hk | hk
    · rw [hk]
      rfl
    · rw [List.mem_singleton.1 hk]
      rfl
  next => cases ha

theorem Inv.start (h : Begun s) : (start s).Inv where
  root_dir := h.root_dir
  named := h.named
  linkless := h.linkless
  unexpected := h.unexpected
  rules := h.rules
  tended d hd := by cases hd
  each p hp := .inl (h.mirrors p hp)

/-- What happens in a directory without a watch comes out with a rescan. -/
theorem Inv.due_of_hidden (h : w.Inv) (hv : ¬w.Visible path) : w.Due := by
  simp only [Visible, not_forall, not_not] at hv
  obtain ⟨d, hd, _⟩ := hv
  obtain ⟨hdir, e, he, harr⟩ := h.tended d hd
  exact .inr (.inr ⟨e, he, .inr (appeared_of_arrival harr hdir)⟩)

/-- The path of an object that is there now or after an operation is found again. -/
theorem Can.relativizes (h : w.Can t op raised) (hn : w.session.Named)
    (hf : w.session.tree.isFile (join w.session.root p) = true ∨
      t.isFile (join w.session.root p) = true) :
    relativize w.session.fs p.components = .ok p := by
  rcases hf with hf | hf
  · obtain ⟨b, m, k, hg⟩ := FileTree.isFile_iff.1 hf
    exact (hn.relativize_iff hg).2 rfl
  · obtain ⟨b, m, k, hg⟩ := FileTree.isFile_iff.1 hf
    exact (h.named.relativize_iff (s := { w.session with tree := t }) hg).2 rfl

theorem Inv.edit (h : w.Inv) (hcan : w.Can t op raised) (hcalm : w.Calm t op raised) :
    (w.edit t raised).Inv := by
  refine ⟨hcan.root_dir, hcan.named, hcan.linkless, h.unexpected, h.rules, ?_, fun p hp => ?_⟩
  · intro d hd
    obtain ⟨hmem, hdir⟩ := List.mem_filter.1 hd
    refine ⟨of_decide_eq_true hdir, ?_⟩
    rcases List.mem_append.1 hmem with hnew | hold
    · obtain ⟨e, he, harr⟩ := List.mem_filterMap.1 hnew
      exact ⟨e, List.mem_append_right _ he, harr⟩
    · obtain ⟨_, e, he, harr⟩ := h.tended d hold
      exact ⟨e, List.mem_append_left _ he, harr⟩
  · have hsame (hs : (w.edit t raised).session.shown p = w.session.shown p) :
        (w.edit t raised).session.Mirrors p ∨ (w.edit t raised).Marked p ∨
          (w.edit t raised).Due := by
      rcases h.each p hp with hf | (hk | ⟨hrel, e, he, hnames⟩) | hd
      · refine .inl ?_
        rw [Mirrors, hs]
        exact hf
      · exact .inr (.inl (.inl hk))
      · exact .inr (.inl (.inr ⟨hrel, e, List.mem_append_left _ he, hnames⟩))
      · exact .inr (.inr (hcalm.kept hd))
    by_cases hget : t.get (join w.session.root p) = w.session.tree.get (join w.session.root p)
    · refine hsame ?_
      change shown { w.session with tree := t } p = _
      rw [shown, hget, shown]
    by_cases hfile : w.session.tree.isFile (join w.session.root p) = true ∨
        t.isFile (join w.session.root p) = true
    · rcases hcan.makes.told h.linkless hcan.linkless (List.prefix_append _ _) hfile hget with
        ⟨e, he, hpaths, hnames⟩ | ⟨e, he, d, hpaths, harr, hdir⟩ | ⟨src, rfl, hdir, hsrc⟩
      · by_cases hv : w.Visible (join w.session.root p)
        · have hmem : e ∈ raised := hcan.raises.seen e he fun path hpath => by
            rw [hpaths, List.mem_singleton] at hpath
            rwa [hpath]
          exact .inr (.inl (.inr ⟨hcan.relativizes h.named hfile, e,
            List.mem_append_right _ hmem, hnames⟩))
        · exact .inr (.inr (hcalm.kept (h.due_of_hidden hv)))
      · by_cases hv : w.Visible d
        · have hmem : e ∈ raised := hcan.raises.seen e he fun path hpath => by
            rw [hpaths, List.mem_singleton] at hpath
            rwa [hpath]
          exact .inr (.inr (.inr (.inr ⟨e, List.mem_append_right _ hmem,
            .inr (appeared_of_arrival harr hdir)⟩)))
        · exact .inr (.inr (hcalm.kept (h.due_of_hidden hv)))
      · by_cases hd : w.Due
        · exact .inr (.inr (hcalm.kept hd))
        · obtain ⟨_, _, hgone⟩ := hcan.makes
          have hnone : t.get (join w.session.root p) = none :=
            (hgone _ (List.prefix_append _ _)).trans (if_pos hsrc)
          have habsent : (w.edit t raised).session.shown p = .absent := by
            change shown { w.session with tree := t } p = _
            rw [shown, hnone]
          refine .inl ?_
          rw [Mirrors, habsent]
          exact winner_absent (hcalm.empty src rfl hdir hd p hsrc)
    · rw [not_or, Bool.not_eq_true, Bool.not_eq_true] at hfile
      refine hsame ?_
      have hnew : (w.edit t raised).session.fileAt p = false := hfile.2
      have hold : w.session.fileAt p = false := hfile.1
      rw [shown_of_not_file hnew, shown_of_not_file hold]

theorem Inv.handle (h : w.Inv) : w.handle.Inv := by
  rw [Watching.handle]
  split
  next => exact h
  next e rest he =>
    refine ⟨h.root_dir, h.named, h.linkless, h.unexpected, h.rules, fun d hd => ?_, fun p hp => ?_⟩
    · have hmem : d ∈ w.unwatched := by
        cases harr : e.arrival with
        | none =>
          simp only [harr] at hd
          exact hd
        | some a =>
          simp only [harr] at hd
          exact (List.mem_filter.1 hd).1
      obtain ⟨hdir, e', he', harr'⟩ := h.tended d hmem
      refine ⟨hdir, e', ?_, harr'⟩
      rw [he] at he'
      rcases List.mem_cons.1 he' with rfl | he'
      · simp only [harr'] at hd
        have hnot := (List.mem_filter.1 hd).2
        simp at hnot
      · exact he'
    · rcases h.each p hp with hf | (⟨k, hk⟩ | ⟨hrel, e', he', hnames⟩) | hd
      · exact .inl hf
      · exact .inr (.inl (.inl ⟨k, List.mem_append_left _ hk⟩))
      · rw [he] at he'
        rcases List.mem_cons.1 he' with rfl | he'
        · obtain ⟨hno, kind, hkind⟩ := hnames
          refine .inr (.inl (.inl ⟨pendingKind kind, List.mem_append_right _ ?_⟩))
          rw [handler, hno]
          refine List.mem_append_right _ (List.mem_flatMap.2 ⟨_, hkind, ?_⟩)
          have hpre : w.session.root <+: join w.session.root p := List.prefix_append _ _
          have hdrop : (join w.session.root p).drop w.session.root.length = p.components :=
            List.drop_left ..
          have hkept : (w.session.config.classify p).cls ≠ .ignored := hp
          simp only [ingest, if_pos hpre, hdrop, hrel, if_neg hkept, List.mem_singleton]
        · exact .inr (.inl (.inr ⟨hrel, e', he', hnames⟩))
      · refine .inr (.inr ?_)
        rcases hd with hd | hd | ⟨e', he', hd⟩
        · exact .inl hd
        · exact .inr (.inl (List.mem_append_left _ hd))
        · rw [he] at he'
          rcases List.mem_cons.1 he' with rfl | he'
          · refine .inr (.inl (List.mem_append_right _ ?_))
            rw [handler]
            split
            next => exact List.mem_singleton.2 rfl
            next hno =>
              rw [if_pos (hd.resolve_left hno)]
              exact List.mem_cons_self
          · exact .inr (.inr ⟨e', he', hd⟩)

/-- The engine takes in what a path shows. -/
theorem learn_shown (s : Session) (p : RelPath) :
    (s.learn ⟨p, observedKind (s.shown p)⟩).engine = (s.engine.report p (s.shown p)).1 := rfl

theorem Inv.take (h : w.Inv) : w.take.Inv := by
  rw [Watching.take]
  split
  next => exact h
  next signal rest hs =>
    cases signal with
    | needsRescan =>
      exact ⟨h.root_dir, ⟨h.named.plain, h.named.canonical⟩, h.linkless, h.unexpected, h.rules, h.tended,
        fun p _ => .inr (.inr (.inl rfl))⟩
    | pending q kind =>
      rw [heed]
      cases hk : resolve w.session.tree w.session.root q kind with
      | error e =>
        exact ⟨h.root_dir, ⟨h.named.plain, h.named.canonical⟩, h.linkless, h.unexpected, h.rules, h.tended,
          fun p _ => .inr (.inr (.inl rfl))⟩
      | ok k =>
        dsimp only
        rw [observe_mirrors h.linkless hk]
        obtain ⟨hagree, hother⟩ := Engine.report_unexpected h.unexpected q (w.session.shown q)
        refine ⟨h.root_dir, ⟨h.named.plain, h.named.canonical⟩, h.linkless, Engine.unexpected_report h.unexpected q _, h.rules,
          h.tended, fun p hp => ?_⟩
        by_cases hpq : p = q
        · subst hpq
          exact .inl hagree
        · rcases h.each p hp with hf | (⟨k', hk'⟩ | hm) | hd
          · refine .inl ?_
            change agrees ((w.session.engine.report q _).1.index.get p) (w.session.shown p) = true
            rw [hother p hpq]
            exact hf
          · rw [hs] at hk'
            rcases List.mem_cons.1 hk' with heq | hk'
            · cases heq
              exact (hpq rfl).elim
            · exact .inr (.inl (.inl ⟨k', hk'⟩))
          · exact .inr (.inl (.inr hm))
          · rcases hd with hd | hd | hd
            · exact .inr (.inr (.inl hd))
            · rw [hs] at hd
              rcases List.mem_cons.1 hd with heq | hd
              · cases heq
              · exact .inr (.inr (.inr (.inl hd)))
            · exact .inr (.inr (.inr (.inr hd)))

/-- Reports of different paths, each of what is there. -/
theorem learnt_mirrors {changes : List LocalChange} {s : Session}
    (hu : ∀ q, (s.engine.echo.pending q).length = 0)
    (hd : changes.Pairwise fun a b => a.path ≠ b.path)
    (hk : ∀ c ∈ changes, c.kind = observedKind (s.shown c.path)) :
    (∃ e, changes.foldl learn s = { s with engine := e }) ∧
      (∀ q, ((changes.foldl learn s).engine.echo.pending q).length = 0) ∧
      (∀ p, (∀ c ∈ changes, c.path ≠ p) →
        (changes.foldl learn s).engine.index.get p = s.engine.index.get p) ∧
      ∀ c ∈ changes, (changes.foldl learn s).Mirrors c.path := by
  induction changes generalizing s with
  | nil => exact ⟨⟨s.engine, rfl⟩, hu, fun p _ => rfl, fun c hc => by cases hc⟩
  | cons c changes ih =>
    obtain ⟨hne, hrest⟩ := List.pairwise_cons.1 hd
    obtain ⟨p, kind⟩ := c
    obtain rfl : kind = observedKind (s.shown p) := hk _ List.mem_cons_self
    obtain ⟨hagree, hother⟩ := Engine.report_unexpected hu p (s.shown p)
    obtain ⟨⟨e, he⟩, hu', hkeep, hall⟩ := ih (s := s.learn ⟨p, observedKind (s.shown p)⟩)
      (Engine.unexpected_report hu p _) hrest fun c hc => hk c (List.mem_cons_of_mem _ hc)
    rw [List.foldl_cons]
    refine ⟨⟨e, he⟩, hu', fun q hq => ?_, fun c hc => ?_⟩
    · rw [hkeep q fun c hc => hq c (List.mem_cons_of_mem _ hc)]
      exact hother q (hq _ List.mem_cons_self).symm
    · rcases List.mem_cons.1 hc with rfl | hc
      · have hsame := hkeep p fun c hc => (hne c hc).symm
        have hshown : (changes.foldl learn (s.learn ⟨p, observedKind (s.shown p)⟩)).shown p =
            s.shown p := by
          rw [he]
          rfl
        change agrees ((changes.foldl learn (s.learn _)).engine.index.get p) _ = true
        rw [hshown, hsame]
        exact hagree
      · exact hall c hc

/-- After a rescan everything mirrors the disk. -/
theorem reread_mirrors (hr : s.tree.get s.root = some .dir) (hn : s.Named)
    (hu : ∀ q, (s.engine.echo.pending q).length = 0)
    (hrules : ∀ p, Kept s p → s.Entered p) :
    (∃ e, s.reread = { s with engine := e, rescanPending := false }) ∧
      (∀ q, (s.reread.engine.echo.pending q).length = 0) ∧
      ∀ p, Kept s p → s.reread.Mirrors p := by
  obtain ⟨onDisk, hwalk, hspec⟩ := walkTree_spec hr hn
  have hscan := scanDiff_collects hwalk
  have hmem (p : RelPath) (k : ChangeKind) : (⟨p, k⟩ : LocalChange) ∈ (collect (s.gone onDisk)
      s.engine.index.iter (collect s.found onDisk.toList ∅)).toList.map
        (fun e => (⟨e.1, e.2⟩ : LocalChange)) ↔
      (∃ sig, k = .modified sig ∧ onDisk[p]? = some sig ∧
        diskDiffers s.engine.index p sig = true) ∨
      k = .removed ∧ onDisk[p]? = none ∧ (s.config.classify p).cls ≠ .ignored ∧
        ∃ sig, s.engine.winnerState p = some (.present sig) := by
    rw [List.mem_map, ← collect_reports]
    constructor
    · rintro ⟨⟨q, k'⟩, he, heq⟩
      cases heq
      exact Std.ExtTreeMap.mem_toList_iff_getElem?_eq_some.1 he
    · intro h
      exact ⟨(p, k), Std.ExtTreeMap.mem_toList_iff_getElem?_eq_some.2 h, rfl⟩
  have hseen (p : RelPath) (sig : ContentSig) (h : onDisk[p]? = some sig) :
      s.shown p = .present sig := by
    obtain ⟨hf, _, hs⟩ := (hspec p sig).1 h
    obtain ⟨sig', hs', hshown⟩ := shown_of_file hf
    cases hs.symm.trans hs'
    exact hshown
  have hmissed (p : RelPath) (hp : Kept s p) (h : onDisk[p]? = none) : s.shown p = .absent := by
    cases hf : s.fileAt p with
    | false => exact shown_of_not_file hf
    | true =>
      obtain ⟨sig, hs, _⟩ := shown_of_file hf
      cases h.symm.trans ((hspec p sig).2 ⟨hf, hrules p hp, hs⟩)
  rw [reread, hscan]
  obtain ⟨⟨e, he⟩, hu', hkeep, hall⟩ := learnt_mirrors (s := { s with rescanPending := false }) hu
    (List.pairwise_map.2 (Codec.toList_distinct (collect (s.gone onDisk)
      s.engine.index.iter (collect s.found onDisk.toList ∅)))) fun c hc => by
        obtain ⟨p, k⟩ := c
        rcases (hmem p k).1 hc with ⟨sig, rfl, hsig, _⟩ | ⟨rfl, hnone, hp, _⟩
        · change _ = observedKind (s.shown p)
          rw [hseen p sig hsig]
          rfl
        · change _ = observedKind (s.shown p)
          rw [hmissed p hp hnone]
          rfl
  refine ⟨⟨e, he⟩, hu', fun p hp => ?_⟩
  by_cases hc : ∃ k, (⟨p, k⟩ : LocalChange) ∈ (collect (s.gone onDisk)
      s.engine.index.iter (collect s.found onDisk.toList ∅)).toList.map
        (fun e => (⟨e.1, e.2⟩ : LocalChange))
  · obtain ⟨k, hk⟩ := hc
    exact hall _ hk
  · have hsame := hkeep p fun c hm hcp => hc ⟨c.kind, by rw [← hcp]; exact hm⟩
    have hshown : (List.foldl learn { s with rescanPending := false } ((collect (s.gone onDisk)
        s.engine.index.iter (collect s.found onDisk.toList ∅)).toList.map
          fun e => (⟨e.1, e.2⟩ : LocalChange))).shown p = s.shown p := by
      rw [he]
      rfl
    dsimp only
    rw [Mirrors, hshown, hsame]
    change agrees (s.engine.index.get p) (s.shown p) = true
    cases hd : onDisk[p]? with
    | none =>
      rw [hmissed p hp hd]
      exact winner_absent fun sig hw => hc ⟨.removed, (hmem p _).2 (.inr ⟨rfl, hd, hp, sig, hw⟩)⟩
    | some sig =>
      rw [hseen p sig hd]
      have hdiff : diskDiffers s.engine.index p sig = false := by
        rw [Bool.eq_false_iff]
        intro hdiff
        exact hc ⟨.modified sig, (hmem p _).2 (.inl ⟨sig, rfl, hd, hdiff⟩)⟩
      rw [diskDiffers] at hdiff
      cases hg : s.engine.index.get p with
      | none =>
        rw [hg] at hdiff
        cases hdiff
      | some entry =>
        rw [hg, Option.map_some] at hdiff
        rw [agrees]
        cases hw : entry.winner.state with
        | tombstone =>
          rw [hw] at hdiff
          cases hdiff
        | present prev =>
          rw [hw] at hdiff
          have hsame : prev.eq sig = true := by simpa using hdiff
          exact hsame

theorem Inv.rescan (h : w.Inv) : Inv { w with session := w.session.reread } := by
  obtain ⟨⟨e, he⟩, hu, hall⟩ := reread_mirrors h.root_dir h.named h.unexpected h.rules
  have hfield {α : Type} (f : Session → α) (hf : ∀ e b, f { w.session with
      engine := e, rescanPending := b } = f w.session) : f w.session.reread = f w.session := by
    rw [he]
    exact hf e false
  have ht : w.session.reread.tree = w.session.tree := hfield _ fun _ _ => rfl
  have hr : w.session.reread.root = w.session.root := hfield _ fun _ _ => rfl
  have hconfig : w.session.reread.config = w.session.config := hfield _ fun _ _ => rfl
  have hkept (p : RelPath) (hp : Kept w.session.reread p) : Kept w.session p := by
    rw [Kept, hconfig] at hp
    exact hp
  refine ⟨?_, ?_, ?_, hu, fun p hp => ?_, fun d hd => ?_, fun p hp => .inl (hall p (hkept p hp))⟩
  · rw [ht, hr]
    exact h.root_dir
  · rw [he]
    exact ⟨h.named.plain, h.named.canonical⟩
  · rw [ht]
    exact h.linkless
  · have hentered := h.rules p (hkept p hp)
    rw [Entered] at hentered ⊢
    rw [hconfig]
    exact hentered
  · rw [ht]
    exact h.tended d hd

theorem CalmStep.inv (h : w.Inv) (hstep : CalmStep w w') : w'.Inv := by
  cases hstep with
  | edit t op raised hcan hcalm => exact h.edit hcan hcalm
  | handle => exact h.handle
  | take => exact h.take
  | rescan _ => exact h.rescan

theorem CalmRun.inv (hs : Begun s) (hrun : Relation.ReflTransGen CalmStep (start s) w) :
    w.Inv := by
  induction hrun with
  | refl => exact .start hs
  | tail _ hstep ih => exact hstep.inv ih

/-- In a run in which no rescan that is still to come is called off, and no directory with tracked
files taken out of the root without one, the index mirrors the disk once everything is processed. -/
theorem CalmRun.mirrored (hs : Begun s) (hrun : Relation.ReflTransGen CalmStep (start s) w)
    (hdone : w.Settled) (p : RelPath) (hp : Kept w.session p) : w.session.Mirrors p := by
  rcases (CalmRun.inv hs hrun).each p hp with hf | (⟨k, hk⟩ | ⟨_, e, he, _⟩) | hd | hd | ⟨e, he, _⟩
  · exact hf
  · rw [hdone.signals] at hk
    cases hk
  · rw [hdone.events] at he
    cases he
  · rw [hdone.rescan] at hd
    cases hd
  · rw [hdone.signals] at hd
    cases hd
  · rw [hdone.events] at he
    cases he

end Watching

/-- A file in a directory. -/
def nestedPath : RelPath := ⟨['d', '/', 'x'], by decide⟩

/-- A root with nothing in it. -/
def bareTree : Tree := (FileTree.empty : Tree).put rootDir .dir

/-- A root with one directory. -/
def dirTree : Tree := bareTree.put (rootDir ++ [['d']]) .dir

/-- A root with one directory, and a file in it. -/
def nestedTree : Tree := dirTree.put (join rootDir nestedPath) (.file [0x31] 0o644 5)

/-- A session that tracks the file in the directory. -/
def nestedSession : Session :=
  .start rootDir syncAll (.new ⟨1⟩ (Index.new.upsert nestedPath
    (.single (VectorClock.new.tick ⟨1⟩) (.present oneSig)))) .new nestedTree

theorem bareTree_get (q : List Name) : bareTree.get q =
    if rootDir = q then some .dir else if [] = q then some .dir else none := by
  rw [bareTree, FileTree.get_put (by decide +kernel)]
  split
  · rfl
  · rw [FileTree.get, FileTree.empty, Std.ExtTreeMap.getElem?_insert]
    simp only [Std.compare_eq_iff_eq, Std.ExtTreeMap.getElem?_empty]

theorem dirTree_get (q : List Name) : dirTree.get q =
    if rootDir ++ [['d']] = q then some .dir else bareTree.get q := by
  rw [dirTree, FileTree.get_put (by decide +kernel)]

theorem nestedTree_get (q : List Name) : nestedTree.get q =
    if join rootDir nestedPath = q then some (.file [0x31] 0o644 5) else dirTree.get q := by
  rw [nestedTree, FileTree.get_put (by decide +kernel)]

theorem bareTree_linkless : bareTree.Linkless :=
  FileTree.linkless_empty.put fun l h => by cases h

theorem dirTree_linkless : dirTree.Linkless := bareTree_linkless.put fun l h => by cases h

theorem nestedTree_linkless : nestedTree.Linkless :=
  dirTree_linkless.put fun l h => by cases h

theorem dirTree_isFile (q : List Name) : dirTree.isFile q = false := by
  apply UserOp.not_isFile
  rw [dirTree_get, bareTree_get]
  split
  · exact .inr rfl
  · split
    · exact .inr rfl
    · split
      · exact .inr rfl
      · exact .inl rfl

namespace Watching

theorem nestedSession_begun :
    letI := tabulated shortHashes
    Begun nestedSession := by
  let platform := tabulated shortHashes
  refine ⟨by decide +kernel, Session.named_of_nodes rfl (by decide +kernel), nestedTree_linkless,
    fun p => rfl, fun p _ d _ h => (by cases h), fun p _ => ?_⟩
  by_cases hp : p = nestedPath
  · subst hp
    change agrees (nestedSession.engine.index.get nestedPath) (nestedSession.shown nestedPath) = true
    decide +kernel
  · have hindex : nestedSession.engine.index.get p = none := by
      change (Index.new.upsert nestedPath _).get p = none
      rw [Index.get_upsert, if_neg (Ne.symm hp)]
      exact Index.get_new p
    have hshown : nestedSession.shown p = .absent := by
      apply Session.shown_of_not_file
      change nestedTree.isFile (join rootDir p) = false
      have hne : join rootDir nestedPath ≠ join rootDir p := fun h =>
        hp (RelPath.components_injective (List.append_cancel_left h)).symm
      have hsame : nestedTree.get (join rootDir p) = dirTree.get (join rootDir p) := by
        rw [nestedTree_get, if_neg hne]
      rw [UserOp.isFile_congr hsame, dirTree_isFile]
    rw [Session.Mirrors, hindex, hshown]
    rfl

/-- The directory is moved out of the root, and its one event handled and processed. -/
def departed [Platform] : Watching :=
  ((start nestedSession).edit bareTree [⟨.renameFrom, [rootDir ++ [['d']]], true, false⟩]).handle.take

/-- All is processed and no rescan to come, and the index still has the file that left. -/
theorem departed_stays :
    letI := tabulated shortHashes
    Begun nestedSession ∧ Relation.ReflTransGen Step (start nestedSession) departed ∧
      departed.Settled ∧ Kept departed.session nestedPath ∧
      departed.session.engine.winnerState nestedPath = some (.present oneSig) ∧
      departed.session.shown nestedPath = .absent ∧ ¬departed.session.Mirrors nestedPath := by
  let platform := tabulated shortHashes
  have hshown : departed.session.shown nestedPath = .absent := by decide +kernel
  have hindex : agrees (departed.session.engine.index.get nestedPath) .absent = false := by
    decide +kernel
  have hkept : (departed.session.config.classify nestedPath).cls ≠ .ignored := by
    decide +kernel
  have hevents : (UserOp.leave (rootDir ++ [['d']])).events nestedTree bareTree =
      [⟨.renameFrom, [rootDir ++ [['d']]], true, false⟩] := by
    decide +kernel
  have hmakes : (UserOp.leave (rootDir ++ [['d']])).Makes rootDir nestedTree bareTree := by
    refine ⟨⟨⟨_, rfl⟩, by decide⟩, by decide +kernel, fun q _ => ?_⟩
    split
    next h =>
      obtain ⟨r, rfl⟩ := h
      exact UserOp.get_below_none (by decide +kernel) r
    next h =>
      rw [nestedTree_get, if_neg, dirTree_get, if_neg]
      · rintro rfl
        exact h (List.prefix_refl _)
      · rintro rfl
        exact h ⟨[['x']], rfl⟩
  have hraises : (start nestedSession).Raises bareTree (.leave (rootDir ++ [['d']]))
      [⟨.renameFrom, [rootDir ++ [['d']]], true, false⟩] :=
    ⟨hevents ▸ List.Sublist.refl _, fun e he _ => hevents ▸ he⟩
  have hcan : (start nestedSession).Can bareTree (.leave (rootDir ++ [['d']]))
      [⟨.renameFrom, [rootDir ++ [['d']]], true, false⟩] :=
    ⟨hmakes, hraises, by decide +kernel, Session.named_of_nodes rfl (by decide +kernel),
      bareTree_linkless⟩
  refine ⟨nestedSession_begun, ((Relation.ReflTransGen.single (.edit _ _ _ _ hcan)).tail
    (.handle _)).tail (.take _), ⟨by decide +kernel, by decide +kernel, by decide +kernel⟩,
    hkept, by decide +kernel, hshown, fun h => ?_⟩
  rw [Session.Mirrors, hshown, hindex] at h
  cases h

/-- The file alone is deleted. -/
theorem deleted_mirrored :
    letI := tabulated shortHashes
    (((start nestedSession).edit dirTree
      [⟨.remove, [join rootDir nestedPath], false, false⟩]).handle.take).session.Mirrors
        nestedPath := by
  let platform := tabulated shortHashes
  have hmakes : (UserOp.delete (join rootDir nestedPath)).Makes rootDir nestedTree dirTree := by
    refine ⟨⟨⟨_, rfl⟩, by decide⟩, by decide +kernel, fun q _ => ?_⟩
    split
    next h =>
      rw [h]
      decide +kernel
    next h => rw [nestedTree_get, if_neg (Ne.symm h)]
  have hcan : (start nestedSession).Can dirTree (.delete (join rootDir nestedPath))
      [⟨.remove, [join rootDir nestedPath], false, false⟩] :=
    ⟨hmakes, ⟨.refl _, fun e he _ => he⟩, by decide +kernel,
      Session.named_of_nodes rfl (by decide +kernel), dirTree_linkless⟩
  have hcalm : (start nestedSession).Calm dirTree (.delete (join rootDir nestedPath))
      [⟨.remove, [join rootDir nestedPath], false, false⟩] := by
    constructor
    · rintro (h | h | ⟨e, h, _⟩)
      · cases h
      · cases h
      · cases h
    · intro src h
      cases h
  refine CalmRun.mirrored nestedSession_begun (((Relation.ReflTransGen.single
    (.edit _ _ _ _ hcan hcalm)).tail (.handle _)).tail (.take _))
    ⟨by decide +kernel, by decide +kernel, by decide +kernel⟩ nestedPath ?_
  change (_ : PathClass) ≠ .ignored
  decide +kernel

end Watching

end Tomo
