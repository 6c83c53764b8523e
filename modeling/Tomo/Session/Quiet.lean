import Tomo.Engine.Recovery
import Tomo.Session.Echo

namespace Tomo
set_option autoImplicit true

namespace Engine

theorem localModified_echo (e : Engine) (p : RelPath) (sig : ContentSig) :
    (e.localModified p sig).1.echo = e.echo := by
  rw [localModified]
  split
  · split <;> rfl
  · rfl

theorem localRemoved_echo (e : Engine) (p : RelPath) : (e.localRemoved p).1.echo = e.echo := by
  rw [localRemoved]
  split
  · split <;> rfl
  · rfl

/-- A report takes an expectation out of the journal or leaves it alone. -/
theorem report_journal (e : Engine) (p : RelPath) (disk : Expectation) :
    (e.report p disk).1.echo = (e.echo.retire p disk).1 := by
  cases disk with
  | present sig =>
    simp only [report, handle, handleLocal, Session.observedKind]
    rcases e.echo.retire_cases p (.present sig) with heq | ⟨l, i, _, _, heq⟩
    · rw [heq]
      exact e.localModified_echo p sig
    · rw [heq]
  | absent =>
    simp only [report, handle, handleLocal, Session.observedKind]
    rcases e.echo.retire_cases p .absent with heq | ⟨l, i, _, _, heq⟩
    · rw [heq]
      exact e.localRemoved_echo p
    · rw [heq]

theorem report_pending (e : Engine) (p q : RelPath) (disk : Expectation) :
    ((e.report p disk).1.echo.pending q).length =
      if q = p ∧ e.isExpectedEcho p disk = true then (e.echo.pending q).length - 1
      else (e.echo.pending q).length := by
  rw [report_journal, EchoJournal.retire_pending]
  rfl

/-- A report of what the index shows is not answered, and changes nothing but the journal. -/
theorem report_agreeing {e : Engine} (h : agrees (e.index.get p) disk = true) :
    (e.report p disk).2 = [] ∧ (e.report p disk).1.index = e.index := by
  cases hecho : e.isExpectedEcho p disk with
  | true =>
    obtain ⟨hindex, hactions⟩ := report_echo hecho
    exact ⟨hactions, hindex⟩
  | false =>
    rcases report_fresh hecho with ⟨_, hindex, hactions⟩ | ⟨hdiffers, _⟩
    · exact ⟨hactions, hindex⟩
    · rw [h] at hdiffers
      cases hdiffers

end Engine

/-- Two mirrors, and the changes on their way to each, oldest first. -/
structure Network where
  mirror : Side → Mirror
  inbound : Side → List RemoteChange

inductive NetworkStep where
  | write (side : Side) (p : RelPath) (content : Expectation)
  | report (side : Side) (p : RelPath)
  | deliver (side : Side)

namespace Network

/-- What the engine answers to the next report of a path. -/
def emitted (s : Network) (side : Side) (p : RelPath) : List Action :=
  ((s.mirror side).engine.report p ((s.mirror side).disk p)).2

def step (s : Network) : NetworkStep → Network
  | .write side p content =>
    { s with mirror := Function.update s.mirror side ((s.mirror side).write p content) }
  | .report side p => {
      mirror := Function.update s.mirror side ((s.mirror side).report p)
      inbound := Function.update s.inbound side.other
        (s.inbound side.other ++ sends (s.emitted side p)) }
  | .deliver side =>
    match s.inbound side with
    | [] => s
    | change :: rest => {
        mirror := Function.update s.mirror side ((s.mirror side).remote change)
        inbound := Function.update s.inbound side rest }

def run (s : Network) (steps : List NetworkStep) : Network := steps.foldl step s

/-- What a list of reports leads to, and all that the engines answer on the way. -/
def reports (s : Network) : List (Side × RelPath) → Network × List Action
  | [] => (s, [])
  | (side, p) :: rest =>
    let (s', actions) := (s.step (.report side p)).reports rest
    (s', s.emitted side p ++ actions)

/-- No report is answered any more, and none changes an index or adds to a journal. -/
def Quiet (s : Network) : Prop :=
  ∀ l, (s.reports l).2 = [] ∧ ∀ side,
    ((s.reports l).1.mirror side).engine.index = (s.mirror side).engine.index ∧
    ∀ p, (((s.reports l).1.mirror side).engine.echo.pending p).length ≤
      ((s.mirror side).engine.echo.pending p).length

/-- On both sides every path shows its winner. -/
def Shown (s : Network) : Prop :=
  ∀ side p, agrees ((s.mirror side).engine.index.get p) ((s.mirror side).disk p) = true

/-- Both disks are reported, or yet to be. -/
def Settled (s : Network) : Prop := ∀ side, (s.mirror side).Settled

/-- No write awaits its report, and no change its delivery. -/
def Delivered (s : Network) : Prop :=
  ∀ side, (∀ p, (s.mirror side).unreported p = false) ∧ s.inbound side = []

/-- A report that would be swallowed shows the winner. -/
def Fresh (s : Network) : NetworkStep → Prop
  | .report side p => (s.mirror side).Fresh p
  | .write .. | .deliver _ => True

/-- Every report of the run is fresh when it comes. -/
def FreshRun : Network → List NetworkStep → Prop
  | _, [] => True
  | s, a :: steps => s.Fresh a ∧ FreshRun (s.step a) steps

variable {s : Network}

theorem step_settled (hs : s.Settled) (ha : s.Fresh a) : (s.step a).Settled := by
  have hupdate (side : Side) {m : Mirror} (hm : m.Settled) (other : Side) :
      (Function.update s.mirror side m other).Settled := by
    by_cases heq : other = side
    · subst heq
      rwa [Function.update_self]
    · rw [Function.update_of_ne heq]
      exact hs other
  cases a with
  | write side p content => exact hupdate side ((Mirror.FreshStep.write _ p content).settled (hs side))
  | report side p => exact hupdate side ((Mirror.FreshStep.report _ p ha).settled (hs side))
  | deliver side =>
    rw [step]
    split
    · exact hs
    next change rest hinbound =>
      exact hupdate side ((Mirror.FreshStep.remote _ change).settled (hs side))

theorem FreshRun.settled (hs : s.Settled) (hrun : s.FreshRun steps) : (s.run steps).Settled := by
  induction steps generalizing s with
  | nil => exact hs
  | cons a steps ih => exact ih (step_settled hs hrun.1) hrun.2

theorem Settled.shown (hs : s.Settled) (hdelivered : s.Delivered) : s.Shown :=
  fun side p => hs side p ((hdelivered side).1 p)

/-- What a report does to the side it is about. -/
theorem mirror_report (s : Network) (side : Side) (p : RelPath) :
    (s.step (.report side p)).mirror side = (s.mirror side).report p ∧
      ∀ other, other ≠ side → (s.step (.report side p)).mirror other = s.mirror other :=
  ⟨Function.update_self .., fun _ hne => Function.update_of_ne hne ..⟩

theorem report_disk (s : Network) (side other : Side) (p : RelPath) :
    ((s.step (.report side p)).mirror other).disk = (s.mirror other).disk := by
  by_cases heq : other = side
  · subst heq
    rw [(s.mirror_report other p).1]
    rfl
  · rw [(s.mirror_report side p).2 other heq]

theorem report_index (hs : s.Shown) (side other : Side) (p : RelPath) :
    ((s.step (.report side p)).mirror other).engine.index = (s.mirror other).engine.index := by
  by_cases heq : other = side
  · subst heq
    rw [(s.mirror_report other p).1]
    exact (Engine.report_agreeing (hs other p)).2
  · rw [(s.mirror_report side p).2 other heq]

theorem report_pending_le (s : Network) (side other : Side) (p q : RelPath) :
    (((s.step (.report side p)).mirror other).engine.echo.pending q).length ≤
      ((s.mirror other).engine.echo.pending q).length := by
  by_cases heq : other = side
  · subst heq
    rw [(s.mirror_report other p).1, Mirror.report, Engine.report_pending]
    split
    · exact Nat.sub_le _ _
    · exact Nat.le_refl _
  · rw [(s.mirror_report side p).2 other heq]

theorem report_shown (hs : s.Shown) (side : Side) (p : RelPath) :
    (s.step (.report side p)).Shown := by
  intro other q
  rw [report_index hs, report_disk]
  exact hs other q

theorem Shown.quiet (hs : s.Shown) : s.Quiet := by
  intro l
  induction l generalizing s with
  | nil => exact ⟨rfl, fun side => ⟨rfl, fun p => Nat.le_refl _⟩⟩
  | cons r l ih =>
    obtain ⟨side, p⟩ := r
    obtain ⟨hrest, hsides⟩ := ih (report_shown hs side p)
    have hsilent : s.emitted side p = [] := (Engine.report_agreeing (hs side p)).1
    constructor
    · simp only [reports, hsilent, hrest, List.append_nil]
    · intro other
      obtain ⟨hindex, hpending⟩ := hsides other
      exact ⟨hindex.trans (report_index hs side other p), fun q =>
        Nat.le_trans (hpending q) (s.report_pending_le side other p q)⟩

/-- A path that does not show its winner is sent once no expectation meets what it shows. -/
theorem shown_of_silent (hs : ∀ l, (s.reports l).2 = []) : s.Shown := by
  intro side p
  generalize hn : ((s.mirror side).engine.echo.pending p).length = n
  induction n using Nat.strong_induction_on generalizing s with
  | _ n ih =>
    have hone : s.emitted side p = [] := by simpa [reports] using hs [(side, p)]
    have hrest : ∀ l, ((s.step (.report side p)).reports l).2 = [] := by
      intro l
      simpa [reports, hone] using hs ((side, p) :: l)
    cases hecho : (s.mirror side).engine.isExpectedEcho p ((s.mirror side).disk p) with
    | true =>
      have hpending := (s.mirror side).engine.report_pending p p ((s.mirror side).disk p)
      rw [if_pos ⟨rfl, hecho⟩] at hpending
      have hpos := EchoJournal.pending_pos hecho
      have hself := (s.mirror_report side p).1
      have hshown := ih (n - 1) (by omega) hrest (by rw [hself, ← hn]; exact hpending)
      rw [report_disk, hself] at hshown
      rwa [Mirror.report, (Engine.report_echo hecho).1] at hshown
    | false =>
      rcases Engine.report_fresh hecho with ⟨hagrees, _⟩ | ⟨_, _, _, v, hsend⟩
      · exact hagrees
      · rw [emitted] at hone
        rw [hone] at hsend
        cases hsend

/-- Reports go unanswered for good just when both disks show their winners. -/
theorem quiet_iff (s : Network) : s.Quiet ↔ s.Shown :=
  ⟨fun hs => shown_of_silent fun l => (hs l).1, Shown.quiet⟩

/-- After a run whose reports were all fresh, nothing that is delivered is ever sent back; and
wherever a run has led, it is quiet from there on exactly when both disks show their winners. -/
theorem FreshRun.never_sent_back (s : Network) :
    (∀ steps, s.Settled → s.FreshRun steps → (s.run steps).Delivered → (s.run steps).Quiet) ∧
      ∀ steps, (s.run steps).Quiet ↔ (s.run steps).Shown :=
  ⟨fun _ hs hrun hdelivered => ((hrun.settled hs).shown hdelivered).quiet,
    fun steps => quiet_iff (s.run steps)⟩

/-- Two empty projects. -/
def init (ids : Side → ReplicaId) : Network where
  mirror side := .init (ids side)
  inbound _ := []

/-- One side writes two versions, both are applied at the other, and its watcher reports the
second. -/
def twoApplied : List NetworkStep :=
  [.write .b fooPath (.present oneSig), .report .b fooPath, .deliver .a,
    .write .b fooPath (.present twoSig), .report .b fooPath, .deliver .a,
    .report .a fooPath]

/-- The user there puts the first content back, and the watcher reports it. -/
def putBack : List NetworkStep :=
  twoApplied ++ [.write .a fooPath (.present oneSig), .report .a fooPath]

def twoIds : Side → ReplicaId
  | .a => ⟨1⟩
  | .b => ⟨2⟩

/-- A path nobody writes never awaits a report. -/
theorem run_unreported (hs : ∀ side, (s.mirror side).unreported p = false)
    (hsteps : ∀ side content, .write side p content ∉ steps) (side : Side) :
    ((s.run steps).mirror side).unreported p = false := by
  induction steps generalizing s with
  | nil => exact hs side
  | cons a steps ih =>
    apply ih
    · intro other
      cases a with
      | write side q content =>
        have hne : p ≠ q := by
          rintro rfl
          exact hsteps side content List.mem_cons_self
        by_cases heq : other = side
        · subst heq
          simpa [step, Mirror.write, hne] using hs other
        · simpa [step, heq] using hs other
      | report side q =>
        by_cases heq : other = side
        · subst heq
          rw [(s.mirror_report other q).1, Mirror.report]
          by_cases hq : p = q
          · subst hq
            exact Function.update_self ..
          · exact (Function.update_of_ne hq ..).trans (hs other)
        · rw [(s.mirror_report side q).2 other heq]
          exact hs other
      | deliver side =>
        rw [step]
        split
        · exact hs other
        · by_cases heq : other = side
          · subst heq
            simpa [Mirror.remote] using hs other
          · simpa [heq] using hs other
    · intro side content hmem
      exact hsteps side content (List.mem_cons_of_mem a hmem)

/-- Every write is reported and every change delivered, and yet the next report is sent. -/
theorem put_back_not_quiet :
    ((init twoIds).run putBack).Delivered ∧ ¬((init twoIds).run putBack).Quiet := by
  constructor
  · intro side
    constructor
    · intro p
      by_cases hp : p = fooPath
      · subst hp
        cases side <;> rfl
      · apply run_unreported fun _ => rfl
        intro side content
        simp [putBack, twoApplied, hp]
    · cases side <;> decide
  · rw [quiet_iff]
    intro hshown
    have hfoo := hshown .a fooPath
    revert hfoo
    decide

theorem init_settled (ids : Side → ReplicaId) : (init ids).Settled :=
  fun side => Mirror.settled_init (ids side)

theorem two_applied_quiet :
    ((init twoIds).run twoApplied).emitted .a fooPath = [] ∧
      ((init twoIds).run twoApplied).Quiet := by
  refine ⟨by decide, (FreshRun.never_sent_back (init twoIds)).1 _ (init_settled twoIds) ?_ ?_⟩
  · simp only [twoApplied, FreshRun, Fresh, Mirror.Fresh, true_and]
    refine ⟨by decide, by decide, by decide, trivial⟩
  · intro side
    constructor
    · intro p
      by_cases hp : p = fooPath
      · subst hp
        cases side <;> rfl
      · apply run_unreported fun _ => rfl
        intro side content
        simp [twoApplied, hp]
    · cases side <;> decide

end Network
end Tomo
