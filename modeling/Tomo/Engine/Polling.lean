import Mathlib.Data.List.TakeWhile
import Tomo.Engine.Convergence
import Tomo.Engine.Staging

namespace Tomo
set_option autoImplicit true

/-- One use of the controller: a call with a time, or the question for the next deadline. -/
inductive PressureAsk where
  | call (x : PressureCall)
  | nextDueMs

inductive PressureAnswer where
  | event (x : PressureEvent)
  | dueMs (x : Option Nat)

def PressureCall.timeMs : PressureCall → Nat
  | .note _ _ nowMs | .signals _ nowMs | .pollDue nowMs => nowMs

def PressureCall.queueHigh : PressureCall → Bool
  | .signals depth _ => queueHighWater < depth
  | .note .. | .pollDue _ => false

def PressureCall.isPoll : PressureCall → Bool
  | .pollDue _ => true
  | .note .. | .signals .. => false

/-- The times of the calls of a run, and of its notes. -/
def timesMs (l : List PressureAsk) : List Nat :=
  l.filterMap fun
    | .call x => some x.timeMs
    | .nextDueMs => none

def notedMs (l : List PressureAsk) : List Nat :=
  l.filterMap fun
    | .call (.note _ _ nowMs) => some nowMs
    | .call (.signals ..) | .call (.pollDue _) | .nextDueMs => none

/-- Times are `u64` values that never go back. -/
structure Clocked (l : List PressureAsk) : Prop where
  ordered : (timesMs l).Pairwise (· ≤ ·)
  fits : ∀ t ∈ timesMs l, t ≤ u64Max

/-- The time of the last call, `t` where there is none. -/
def lastMs (t : Nat) (l : List PressureAsk) : Nat := (timesMs l).getLastD t

/-- The notes of the trailing window. -/
def trailing (l : List PressureAsk) (nowMs : Nat) : Nat :=
  (notedMs l).countP fun t => nowMs - rateWindowMs ≤ t

namespace PressureController

def ask (c : PressureController) : PressureAsk → PressureController × PressureAnswer
  | .call x => ((c.call x).1, .event (c.call x).2)
  | .nextDueMs => (c, .dueMs c.nextDueMs)

def askAll (c : PressureController) : List PressureAsk → PressureController × List PressureAnswer
  | [] => (c, [])
  | x :: l => (((c.ask x).1.askAll l).1, (c.ask x).2 :: ((c.ask x).1.askAll l).2)

/-- The second list is the first with polls that return nothing put in; the other calls answer
`answers`, and `last` is left. -/
inductive Interspersed : PressureController → List PressureAsk → List PressureAsk →
    List PressureAnswer → PressureController → Prop where
  | nil : Interspersed c [] [] [] c
  | asked (x : PressureAsk) : Interspersed (c.ask x).1 l l' answers last →
      Interspersed c (x :: l) (x :: l') ((c.ask x).2 :: answers) last
  | polled (nowMs : Nat) : (c.pollDue nowMs).2 = [] →
      Interspersed (c.pollDue nowMs).1 l l' answers last →
      Interspersed c l (.call (.pollDue nowMs) :: l') answers last

/-- The decay that any call applies first. -/
def settle (c : PressureController) (nowMs : Nat) : PressureController :=
  match c.mode with
  | .adaptive => c.decay nowMs
  | .everyChange | .off | .intervalMs _ => c

variable {c c' : PressureController}

/-- Without saturation, the idle periods since the anchor are taken off the rung and moved over. -/
theorem decay_eq (h : nowMs ≤ u64Max) (c : PressureController) : c.decay nowMs =
    { c with
      rung := c.rung - (nowMs - c.decayAnchorMs) / c.config.decayIdleMs
      decayAnchorMs := c.decayAnchorMs +
        (nowMs - c.decayAnchorMs) / c.config.decayIdleMs * c.config.decayIdleMs } := by
  have hmul := Nat.div_mul_le_self (nowMs - c.decayAnchorMs) c.config.decayIdleMs
  rw [decay]
  split
  next hidle =>
    have hzero : (nowMs - c.decayAnchorMs) / c.config.decayIdleMs = 0 := by
      rcases hidle with hnone | hearly
      · rw [hnone, Nat.div_zero]
      · rw [Nat.sub_eq_zero_of_le hearly, Nat.zero_div]
    rw [hzero, Nat.zero_mul]
    rfl
  next hidle =>
    push Not at hidle
    dsimp only
    split
    next hzero =>
      rw [hzero, Nat.zero_mul]
      rfl
    next =>
      congr 1
      unfold saturatingAdd
      omega

/-- Decaying twice is decaying once, at the later time. -/
theorem decay_decay (hs : s ≤ t) (ht : t ≤ u64Max) (c : PressureController) :
    (c.decay s).decay t = c.decay t := by
  have hmul := Nat.div_mul_le_self (s - c.decayAnchorMs) c.config.decayIdleMs
  have hsub : (t - (c.decayAnchorMs + (s - c.decayAnchorMs) / c.config.decayIdleMs *
      c.config.decayIdleMs)) / c.config.decayIdleMs =
        (t - c.decayAnchorMs) / c.config.decayIdleMs -
          (s - c.decayAnchorMs) / c.config.decayIdleMs := by
    rw [← Nat.sub_sub, Nat.mul_comm _ c.config.decayIdleMs, Nat.sub_mul_div]
  have hle : (s - c.decayAnchorMs) / c.config.decayIdleMs ≤
      (t - c.decayAnchorMs) / c.config.decayIdleMs := Nat.div_le_div_right (by omega)
  rw [decay_eq (hs.trans ht), decay_eq ht, decay_eq ht]
  simp only [hsub]
  congr 1
  · omega
  · rw [Nat.add_assoc, ← Nat.add_mul, Nat.add_sub_cancel' hle]

/-- What a decay leaves alone. -/
theorem decay_frame (c : PressureController) (nowMs : Nat) :
    (c.decay nowMs).mode = c.mode ∧ (c.decay nowMs).config = c.config ∧
      (c.decay nowMs).stagedBytes = c.stagedBytes ∧ (c.decay nowMs).window = c.window := by
  rw [decay]
  split
  · exact ⟨rfl, rfl, rfl, rfl⟩
  · dsimp only
    split
    · exact ⟨rfl, rfl, rfl, rfl⟩
    · exact ⟨rfl, rfl, rfl, rfl⟩

theorem mode_decay (c : PressureController) (nowMs : Nat) : (c.decay nowMs).mode = c.mode :=
  (c.decay_frame nowMs).1

theorem settle_adaptive (h : c.mode = .adaptive) (nowMs : Nat) :
    c.settle nowMs = c.decay nowMs := by
  rw [settle, h]

theorem settle_other (h : c.mode ≠ .adaptive) (nowMs : Nat) : c.settle nowMs = c := by
  rw [settle]
  split
  next heq => exact absurd heq h
  all_goals rfl

theorem settle_settle (hs : s ≤ t) (ht : t ≤ u64Max) (c : PressureController) :
    (c.settle s).settle t = c.settle t := by
  by_cases hmode : c.mode = .adaptive
  · rw [settle_adaptive hmode, settle_adaptive ((mode_decay c s).trans hmode),
      settle_adaptive hmode, decay_decay hs ht]
  · rw [settle_other hmode, settle_other hmode]

theorem settle_staging (c : PressureController) (nowMs : Nat) :
    (c.settle nowMs).staging = c.staging := by
  by_cases hmode : c.mode = .adaptive
  · rw [settle_adaptive hmode, staging_decay]
  · rw [settle_other hmode]

/-- A call decays first, so it cannot tell whether that was done before it. -/
theorem call_settle (x : PressureCall) (hx : x.timeMs ≤ u64Max) (c : PressureController) :
    (c.settle x.timeMs).call x = c.call x := by
  by_cases hmode : c.mode = .adaptive
  · have hsame := (mode_decay c x.timeMs).trans hmode
    have htwice := decay_decay (Nat.le_refl x.timeMs) hx c
    rw [settle_adaptive hmode]
    cases x with
    | note p capture nowMs =>
      simp only [PressureCall.timeMs] at hsame htwice ⊢
      simp only [call, note, hsame, hmode, htwice]
    | signals depth nowMs =>
      simp only [PressureCall.timeMs] at hsame htwice ⊢
      simp only [call, signals, hsame, hmode, htwice]
    | pollDue nowMs =>
      simp only [PressureCall.timeMs] at hsame htwice ⊢
      simp only [call, pollDue, hsame, hmode, htwice]
  · rw [settle_other hmode]

theorem decide_anchor (c : PressureController) (p : RelPath) (capture : CaptureInput)
    (nowMs interval : Nat) :
    (c.decide p capture nowMs interval).1.mode = c.mode ∧
      (c.decide p capture nowMs interval).1.config = c.config ∧
      (c.decide p capture nowMs interval).1.rung = c.rung ∧
      (c.decide p capture nowMs interval).1.decayAnchorMs = c.decayAnchorMs ∧
      (c.decide p capture nowMs interval).1.window = c.window := by
  rw [decide]
  split
  · exact ⟨rfl, rfl, rfl, rfl, rfl⟩
  · exact ⟨rfl, rfl, rfl, rfl, rfl⟩

theorem escalate_anchor (c : PressureController) (nowMs : Nat) (high : Bool) :
    (c.escalate nowMs high).mode = c.mode ∧ (c.escalate nowMs high).config = c.config ∧
      (c.escalate nowMs high).decayAnchorMs = c.decayAnchorMs := by
  rw [escalate]
  split
  · exact ⟨rfl, rfl, rfl⟩
  · dsimp only [observedRate]
    split
    · exact ⟨rfl, rfl, rfl⟩
    · exact ⟨rfl, rfl, rfl⟩

/-- A controller whose anchor leaves no whole period has nothing to decay. -/
theorem decay_idle (h : (nowMs - c.decayAnchorMs) / c.config.decayIdleMs = 0) :
    c.decay nowMs = c := by
  rw [decay]
  split
  · rfl
  · rw [if_pos h]

/-- What decayed last keeps its anchor, and so has nothing to decay again. -/
theorem decay_anchored (ht : nowMs ≤ u64Max) (c : PressureController)
    (hanchor : c'.decayAnchorMs = (c.decay nowMs).decayAnchorMs) (hconfig : c'.config = c.config) :
    c'.decay nowMs = c' := by
  apply decay_idle
  rw [hanchor, hconfig, decay_eq ht, ← Nat.sub_sub, Nat.mul_comm _ c.config.decayIdleMs,
    Nat.sub_mul_div, Nat.sub_self]

theorem mode_note (c : PressureController) (p : RelPath) (capture : CaptureInput) (nowMs : Nat) :
    (c.note p capture nowMs).1.mode = c.mode := by
  cases hmode : c.mode with
  | off | everyChange =>
    rw [note, hmode]
    exact hmode
  | intervalMs interval =>
    rw [note_interval hmode, (decide_anchor _ _ _ _ _).1, hmode]
  | adaptive =>
    rw [note_adaptive hmode, (decide_anchor _ _ _ _ _).1, noted]
    exact (escalate_anchor _ nowMs false).1.trans ((mode_decay c nowMs).trans hmode)

theorem mode_call (c : PressureController) (x : PressureCall) : (c.call x).1.mode = c.mode := by
  cases x with
  | note p capture nowMs => exact mode_note c p capture nowMs
  | signals depth nowMs =>
    simp only [call, signals]
    split
    · exact (escalate_anchor _ nowMs _).1.trans (mode_decay c nowMs)
    · rfl
  | pollDue nowMs =>
    simp only [call, pollDue]
    split
    · exact mode_decay c nowMs
    · rfl

/-- A call leaves nothing to decay at its time. -/
theorem settled_call (x : PressureCall) (hx : x.timeMs ≤ u64Max) (c : PressureController) :
    (c.call x).1.settle x.timeMs = (c.call x).1 := by
  by_cases hmode : c.mode = .adaptive
  · rw [settle_adaptive ((mode_call c x).trans hmode)]
    cases x with
    | note p capture nowMs =>
      obtain ⟨_, hconfig, _, hanchor, _⟩ := (c.noted nowMs).decide_anchor p capture nowMs
        (max ((c.noted nowMs).config.ladderMs.getD (c.noted nowMs).rung 0)
          (c.noted nowMs).config.minCaptureWindowMs)
      apply decay_idle
      simp only [call, PressureCall.timeMs, note_adaptive hmode, hconfig, hanchor]
      rw [noted, Nat.sub_self, Nat.zero_div]
    | signals depth nowMs =>
      simp only [call, signals, hmode]
      obtain ⟨_, hconfig, hanchor⟩ :=
        (c.decay nowMs).escalate_anchor nowMs (Decidable.decide (queueHighWater < depth))
      exact decay_anchored hx c hanchor (hconfig.trans (c.decay_frame nowMs).2.1)
    | pollDue nowMs =>
      simp only [call, pollDue, hmode]
      exact decay_anchored hx c rfl (c.decay_frame nowMs).2.1
  · rw [settle_other fun h => hmode ((mode_call c x).symm.trans h)]

/-- A poll that returns nothing only decays. -/
theorem pollDue_idle (h : (c.pollDue nowMs).2 = []) : (c.pollDue nowMs).1 = c.settle nowMs := by
  have hnone : (c.staging.toList.filter fun e => e.2.dueAtMs ≤ nowMs) = [] := by
    have hperm := List.perm_insertionSort (fun a b => dueBefore a b = true)
      (c.staging.toList.filter fun e => e.2.dueAtMs ≤ nowMs)
    rw [← (pollDue_eq c nowMs).2, h] at hperm
    exact hperm.nil_eq.symm
  cases hmode : c.mode with
  | adaptive =>
    simp only [pollDue, settle, hmode, staging_decay, hnone, List.foldl_nil]
    rw [← staging_decay c nowMs]
  | everyChange | off | intervalMs =>
    simp only [pollDue, settle, hmode, hnone, List.foldl_nil]
    rw [← hmode]

theorem nextDueMs_settle (c : PressureController) (nowMs : Nat) :
    (c.settle nowMs).nextDueMs = c.nextDueMs := by
  rw [nextDueMs, nextDueMs, settle_staging]

end PressureController

theorem lastMs_call (t : Nat) (x : PressureCall) (l : List PressureAsk) :
    lastMs t (.call x :: l) = lastMs x.timeMs l := List.getLastD_cons

theorem lastMs_nextDueMs (t : Nat) (l : List PressureAsk) :
    lastMs t (.nextDueMs :: l) = lastMs t l := rfl

theorem timesMs_call (x : PressureCall) (l : List PressureAsk) :
    timesMs (.call x :: l) = x.timeMs :: timesMs l := rfl

theorem timesMs_nextDueMs (l : List PressureAsk) : timesMs (.nextDueMs :: l) = timesMs l := rfl

/-- Times that do not go back behind `t` either. -/
structure ClockedFrom (t : Nat) (l : List PressureAsk) : Prop where
  clocked : Clocked l
  after : ∀ s ∈ timesMs l, t ≤ s

theorem ClockedFrom.nextDueMs (h : ClockedFrom t (.nextDueMs :: l)) : ClockedFrom t l :=
  ⟨⟨h.clocked.ordered, h.clocked.fits⟩, h.after⟩

theorem ClockedFrom.call (h : ClockedFrom t (.call x :: l)) :
    t ≤ x.timeMs ∧ x.timeMs ≤ u64Max ∧ ClockedFrom x.timeMs l := by
  obtain ⟨⟨hordered, hfits⟩, hafter⟩ := h
  rw [timesMs_call] at hordered hfits hafter
  obtain ⟨hfirst, hrest⟩ := List.pairwise_cons.1 hordered
  exact ⟨hafter _ List.mem_cons_self, hfits _ List.mem_cons_self,
    ⟨hrest, fun s hs => hfits s (List.mem_cons_of_mem _ hs)⟩, hfirst⟩

namespace PressureController
variable {c c' : PressureController}

/-- Two controllers that differ in decay only answer alike, and are the same after the next call. -/
theorem Interspersed.spec (h : Interspersed c' l l' answers last) (hsame : c.settle t = c'.settle t)
    (hl : ClockedFrom t l') :
    (c.askAll l).2 = answers ∧ (c.askAll l).1.settle (lastMs t l') = last.settle (lastMs t l') := by
  induction h generalizing c t with
  | nil => exact ⟨rfl, hsame⟩
  | asked x hrest ih =>
    cases x with
    | nextDueMs =>
      have hdue := congrArg nextDueMs hsame
      rw [nextDueMs_settle, nextDueMs_settle] at hdue
      obtain ⟨hanswers, hlast⟩ := ih hsame hl.nextDueMs
      simp only [askAll, ask, hdue, lastMs_nextDueMs]
      exact ⟨congrArg _ hanswers, hlast⟩
    | call x =>
      obtain ⟨hle, hfits, hl⟩ := hl.call
      have hcall := congrArg (fun d => (d.settle x.timeMs).call x) hsame
      simp only [settle_settle hle hfits, call_settle x hfits] at hcall
      obtain ⟨hanswers, hlast⟩ := ih (congrArg (fun r => r.1.settle x.timeMs) hcall) hl
      simp only [askAll, ask, hcall, lastMs_call] at hanswers hlast ⊢
      exact ⟨congrArg _ hanswers, hlast⟩
  | polled nowMs hnothing hrest ih =>
    obtain ⟨(hle : t ≤ nowMs), (hfits : nowMs ≤ u64Max), hl⟩ := hl.call
    have hsettled := congrArg (fun d => d.settle nowMs) hsame
    simp only [settle_settle hle hfits] at hsettled
    rw [lastMs_call]
    apply ih _ hl
    rw [pollDue_idle hnothing, PressureCall.timeMs, settle_settle (Nat.le_refl _) hfits]
    exact hsettled

/-- A run leaves nothing to decay at its last time. -/
theorem settled_askAll (h : c.settle t = c) (hl : ClockedFrom t l) :
    (c.askAll l).1.settle (lastMs t l) = (c.askAll l).1 := by
  induction l generalizing c t with
  | nil => exact h
  | cons x l ih =>
    cases x with
    | nextDueMs => exact ih h hl.nextDueMs
    | call x =>
      obtain ⟨_, hfits, hl⟩ := hl.call
      rw [lastMs_call]
      exact ih (settled_call x hfits c) hl

theorem Interspersed.settled (h : Interspersed c l l' answers last) (hc : c.settle t = c)
    (hl : ClockedFrom t l') : last.settle (lastMs t l') = last := by
  induction h generalizing t with
  | nil => exact hc
  | asked x hrest ih =>
    cases x with
    | nextDueMs => exact ih hc hl.nextDueMs
    | call x =>
      obtain ⟨_, hfits, hl⟩ := hl.call
      rw [lastMs_call]
      exact ih (settled_call x hfits _) hl
  | polled nowMs hnothing hrest ih =>
    obtain ⟨_, hfits, hl⟩ := hl.call
    rw [lastMs_call]
    exact ih (settled_call (.pollDue nowMs) hfits _) hl

/-- The times of the notes of a run, without those pruned as too old for its last time. -/
structure Windowed (arrivals : List Nat) (t : Nat) (c : PressureController) : Prop where
  ordered : arrivals.Pairwise (· ≤ ·)
  early : ∀ s ∈ arrivals, s ≤ t
  pruned : ∃ old, arrivals = old ++ c.window ∧ ∀ s ∈ old, s < t - rateWindowMs

theorem dropWhile_sorted {l : List Nat} (h : l.Pairwise (· ≤ ·)) (n : Nat) :
    l.dropWhile (fun s => s < n) = l.filter fun s => n ≤ s := by
  induction l with
  | nil => rfl
  | cons a l ih =>
    obtain ⟨hfirst, hrest⟩ := List.pairwise_cons.1 h
    by_cases ha : a < n
    · rw [List.dropWhile_cons_of_pos (by simpa using ha), ih hrest, List.filter_cons_of_neg]
      simpa using ha
    · have hall : ∀ s ∈ a :: l, n ≤ s := by
        intro s hs
        rcases List.mem_cons.1 hs with rfl | hs
        · exact Nat.le_of_not_lt ha
        · exact (Nat.le_of_not_lt ha).trans (hfirst s hs)
      rw [List.dropWhile_cons_of_neg (by simpa using ha), List.filter_eq_self.2]
      intro s hs
      simpa using hall s hs

/-- The rate is the number of notes in the window, however late the window was pruned before. -/
theorem Windowed.rate (h : Windowed arrivals t c) (ht : t ≤ nowMs) :
    (c.observedRate nowMs).2 = arrivals.countP fun s => nowMs - rateWindowMs ≤ s := by
  obtain ⟨old, harrivals, hold⟩ := h.pruned
  have hwindow := h.ordered
  rw [harrivals] at hwindow
  have hgone : old.filter (fun s => nowMs - rateWindowMs ≤ s) = [] := by
    rw [List.filter_eq_nil_iff]
    intro s hs
    have hlt := hold s hs
    simp only [decide_eq_true_eq]
    omega
  rw [observedRate, dropWhile_sorted (List.pairwise_append.1 hwindow).2.1, harrivals,
    List.countP_eq_length_filter, List.filter_append, hgone, List.nil_append]

theorem Windowed.prune (h : Windowed arrivals t c) (ht : t ≤ nowMs) :
    Windowed arrivals nowMs (c.observedRate nowMs).1 := by
  obtain ⟨old, harrivals, hold⟩ := h.pruned
  refine ⟨h.ordered, fun s hs => (h.early s hs).trans ht, ?_⟩
  refine ⟨old ++ c.window.takeWhile fun s => s < nowMs - rateWindowMs, ?_, ?_⟩
  · rw [observedRate, List.append_assoc, List.takeWhile_append_dropWhile, harrivals]
  · intro s hs
    rcases List.mem_append.1 hs with hs | hs
    · have hlt := hold s hs
      omega
    · simpa using List.mem_takeWhile_imp hs

theorem Windowed.later (h : Windowed arrivals t c) (ht : t ≤ nowMs) (hw : c'.window = c.window) :
    Windowed arrivals nowMs c' := by
  obtain ⟨old, harrivals, hold⟩ := h.pruned
  refine ⟨h.ordered, fun s hs => (h.early s hs).trans ht, old, ?_, fun s hs => ?_⟩
  · rw [hw, harrivals]
  · have hlt := hold s hs
    omega

theorem Windowed.arrive (h : Windowed arrivals t c) (ht : t ≤ nowMs)
    (hw : c'.window = c.window ++ [nowMs]) : Windowed (arrivals ++ [nowMs]) nowMs c' := by
  obtain ⟨old, harrivals, hold⟩ := h.pruned
  have hearly (s : Nat) (hs : s ∈ arrivals) : s ≤ nowMs := (h.early s hs).trans ht
  constructor
  case ordered =>
    rw [List.pairwise_append]
    refine ⟨h.ordered, List.pairwise_singleton _ _, fun s hs s' hs' => ?_⟩
    rw [List.mem_singleton.1 hs']
    exact hearly s hs
  case early =>
    intro s hs
    rcases List.mem_append.1 hs with hs | hs
    · exact hearly s hs
    · rw [List.mem_singleton.1 hs]
  case pruned =>
    refine ⟨old, by rw [hw, harrivals, List.append_assoc], fun s hs => ?_⟩
    have hlt := hold s hs
    omega

theorem Windowed.escalate (h : Windowed arrivals t c) (ht : t ≤ nowMs) (high : Bool) :
    Windowed arrivals nowMs (c.escalate nowMs high) := by
  rw [PressureController.escalate]
  split
  · exact h.later ht rfl
  · dsimp only
    split
    · exact (h.prune ht).later (Nat.le_refl _) rfl
    · exact h.prune ht

/-- One rung is climbed, where there is one, when the rate, the staged bytes or the queue is too
high. -/
theorem Windowed.rung_escalate (h : Windowed arrivals t c) (ht : t ≤ nowMs) (high : Bool) :
    (c.escalate nowMs high).rung =
      if c.rung + 1 < c.config.ladderMs.length ∧
          (exceeds (arrivals.countP fun s => nowMs - rateWindowMs ≤ s)
            c.config.escalateEventsPerSec = true ∨
            c.config.maxStagedBytes < c.stagedBytes ∨ high = true)
      then c.rung + 1 else c.rung := by
  rw [← h.rate ht, PressureController.escalate]
  by_cases hroom : c.config.ladderMs.length ≤ c.rung + 1
  · rw [if_pos hroom, if_neg fun hclimb => absurd hroom (Nat.not_le.2 hclimb.1)]
  · simp only [if_neg hroom, Nat.not_le.1 hroom, true_and, observedRate]
    exact apply_ite PressureController.rung _ _ _

/-- What a note or a signal climbs from the decayed rung. -/
theorem Windowed.rung_call (h : Windowed arrivals t c) (hmode : c.mode = .adaptive)
    {x : PressureCall} (ht : t ≤ x.timeMs) (hx : x.isPoll = false) :
    (c.call x).1.rung = if (c.decay x.timeMs).rung + 1 < c.config.ladderMs.length ∧
        (exceeds ((arrivals ++ notedMs [.call x]).countP fun s => x.timeMs - rateWindowMs ≤ s)
          c.config.escalateEventsPerSec = true ∨
          c.config.maxStagedBytes < c.stagedBytes ∨ x.queueHigh = true)
      then (c.decay x.timeMs).rung + 1 else (c.decay x.timeMs).rung := by
  obtain ⟨_, hconfig, hstaged, hwindow⟩ := c.decay_frame x.timeMs
  cases x with
  | note p capture nowMs =>
    have harrived : Windowed (arrivals ++ [nowMs]) nowMs
        { c.decay nowMs with window := (c.decay nowMs).window ++ [nowMs] } :=
      h.arrive ht (congrArg (· ++ [nowMs]) hwindow)
    have hrung := harrived.rung_escalate (Nat.le_refl _) false
    rw [← hconfig, ← hstaged, PressureController.call, note_adaptive hmode]
    exact (decide_anchor _ _ _ _ _).2.2.1.trans hrung
  | signals depth nowMs =>
    have hlater : Windowed arrivals nowMs (c.decay nowMs) := h.later ht hwindow
    have hrung := hlater.rung_escalate (Nat.le_refl _) (Decidable.decide (queueHighWater < depth))
    have hnone : notedMs [.call (.signals depth nowMs)] = [] := rfl
    rw [← hconfig, ← hstaged, hnone, List.append_nil]
    simp only [PressureController.call, signals, hmode]
    exact hrung
  | pollDue nowMs => cases hx

theorem Windowed.call (h : Windowed arrivals t c) (hmode : c.mode = .adaptive) (x : PressureCall)
    (ht : t ≤ x.timeMs) : Windowed (arrivals ++ notedMs [.call x]) x.timeMs (c.call x).1 := by
  obtain ⟨_, _, _, hwindow⟩ := c.decay_frame x.timeMs
  cases x with
  | note p capture nowMs =>
    have harrived : Windowed (arrivals ++ [nowMs]) nowMs
        { c.decay nowMs with window := (c.decay nowMs).window ++ [nowMs] } :=
      h.arrive ht (congrArg (· ++ [nowMs]) hwindow)
    simp only [PressureController.call, note_adaptive hmode]
    exact (harrived.escalate (Nat.le_refl _) false).later (Nat.le_refl _)
      (decide_anchor _ _ _ _ _).2.2.2.2
  | signals depth nowMs =>
    have hlater : Windowed arrivals nowMs (c.decay nowMs) := h.later ht hwindow
    have hnone : notedMs [.call (.signals depth nowMs)] = [] := rfl
    simp only [PressureController.call, signals, hmode]
    rw [hnone, List.append_nil]
    exact hlater.escalate (Nat.le_refl _) _
  | pollDue nowMs =>
    have hlater : Windowed arrivals nowMs (c.decay nowMs) := h.later ht hwindow
    have hnone : notedMs [.call (.pollDue nowMs)] = [] := rfl
    simp only [PressureController.call, pollDue, hmode]
    rw [hnone, List.append_nil]
    exact hlater.later (Nat.le_refl _) rfl

end PressureController

theorem notedMs_cons (x : PressureAsk) (l : List PressureAsk) :
    notedMs (x :: l) = notedMs [x] ++ notedMs l := List.filterMap_append (l := [x])

namespace PressureController
variable {c : PressureController} {mode : HistoryMode} {config : PressureConfig}

/-- The window of a run is that of its notes. -/
theorem Windowed.askAll (h : Windowed arrivals t c) (hmode : c.mode = .adaptive)
    (hl : ClockedFrom t l) :
    Windowed (arrivals ++ notedMs l) (lastMs t l) (c.askAll l).1 ∧
      (c.askAll l).1.mode = .adaptive := by
  induction l generalizing c t arrivals with
  | nil =>
    rw [notedMs, List.filterMap_nil, List.append_nil]
    exact ⟨h, hmode⟩
  | cons x l ih =>
    rw [notedMs_cons, ← List.append_assoc]
    cases x with
    | nextDueMs =>
      have hnone : notedMs [.nextDueMs] = [] := rfl
      rw [hnone, List.append_nil]
      exact ih h hmode hl.nextDueMs
    | call x =>
      obtain ⟨hle, hfits, hl⟩ := hl.call
      rw [lastMs_call]
      exact ih (h.call hmode x hle) ((mode_call c x).trans hmode) hl

theorem Steady.askAll (h : c.Steady mode config) (l : List PressureAsk) :
    (c.askAll l).1.Steady mode config := by
  induction l generalizing c with
  | nil => exact h
  | cons x l ih =>
    cases x with
    | nextDueMs => exact ih h
    | call x => exact ih (h.call x)

theorem rung_decay_le (c : PressureController) (nowMs : Nat) : (c.decay nowMs).rung ≤ c.rung := by
  rw [decay]
  split
  · exact Nat.le_refl _
  · dsimp only
    split
    · exact Nat.le_refl _
    · exact Nat.sub_le _ _

theorem rung_escalate_le (c : PressureController) (nowMs : Nat) (high : Bool) :
    (c.escalate nowMs high).rung ≤ c.rung + 1 := by
  rw [escalate]
  split
  · exact Nat.le_succ _
  · dsimp only [observedRate]
    split
    · exact Nat.le_refl _
    · exact Nat.le_succ _

theorem rung_call_le (c : PressureController) (x : PressureCall) :
    (c.call x).1.rung ≤ c.rung + 1 := by
  have hdecay := c.rung_decay_le x.timeMs
  cases x with
  | note p capture nowMs =>
    cases hmode : c.mode with
    | off | everyChange =>
      simp only [call, note, hmode]
      exact Nat.le_succ _
    | intervalMs interval =>
      simp only [call, note_interval hmode, (decide_anchor _ _ _ _ _).2.2.1]
      exact Nat.le_succ _
    | adaptive =>
      simp only [call, note_adaptive hmode, (decide_anchor _ _ _ _ _).2.2.1]
      exact (rung_escalate_le _ nowMs false).trans (Nat.succ_le_succ hdecay)
  | signals depth nowMs =>
    simp only [call, signals]
    split
    · exact (rung_escalate_le _ nowMs _).trans (Nat.succ_le_succ hdecay)
    · exact Nat.le_succ _
  | pollDue nowMs =>
    simp only [call, pollDue]
    split
    · exact hdecay.trans (Nat.le_succ _)
    · exact Nat.le_succ _

/-- Only the adaptive mode has a rung to climb. -/
theorem rung_call_other (hmode : c.mode ≠ .adaptive) (x : PressureCall) :
    (c.call x).1.rung = c.rung := by
  cases x with
  | note p capture nowMs =>
    cases heq : c.mode with
    | adaptive => exact absurd heq hmode
    | off | everyChange => simp only [call, note, heq]
    | intervalMs interval => simp only [call, note_interval heq, (decide_anchor _ _ _ _ _).2.2.1]
  | signals depth nowMs =>
    simp only [call, signals]
  | pollDue nowMs =>
    simp only [call, pollDue]

theorem settle_new (mode : HistoryMode) (config : PressureConfig) :
    (new mode config).settle 0 = new mode config := by
  by_cases hmode : mode = .adaptive
  · rw [settle_adaptive hmode]
    exact decay_idle (Nat.zero_div _)
  · exact settle_other hmode 0

theorem windowed_new (mode : HistoryMode) (config : PressureConfig) :
    Windowed [] 0 (new mode config) where
  ordered := .nil
  early s hs := by cases hs
  pruned := ⟨[], rfl, fun s hs => by cases hs⟩

end PressureController

theorem Clocked.fromZero (h : Clocked l) : ClockedFrom 0 l := ⟨h, fun _ _ => Nat.zero_le _⟩

theorem PressureController.Interspersed.sublist
    (h : PressureController.Interspersed c l l' answers last) :
    (timesMs l).Sublist (timesMs l') := by
  induction h with
  | nil => exact .slnil
  | asked x hrest ih =>
    cases x with
    | nextDueMs => exact ih
    | call x => exact ih.cons_cons x.timeMs
  | polled nowMs hnothing hrest ih => exact ih.cons nowMs

theorem PressureController.Interspersed.clocked
    (h : PressureController.Interspersed c l l' answers last) (hl : Clocked l') : Clocked l :=
  ⟨hl.ordered.sublist h.sublist, fun t ht => hl.fits t (h.sublist.subset ht)⟩

/-- The last call of a clocked run is no earlier than the ones before it. -/
theorem Clocked.init (h : Clocked (l ++ [.call x])) : Clocked l ∧ lastMs 0 l ≤ x.timeMs := by
  obtain ⟨hordered, hfits⟩ := h
  have htimes : timesMs (l ++ [.call x]) = timesMs l ++ [x.timeMs] := List.filterMap_append
  rw [htimes] at hordered hfits
  rw [List.pairwise_append] at hordered
  refine ⟨⟨hordered.1, fun t ht => hfits t (List.mem_append_left _ ht)⟩, ?_⟩
  rw [lastMs]
  cases hlast : timesMs l using List.reverseRecOn with
  | nil => exact Nat.zero_le _
  | append_singleton times t =>
    rw [List.getLastD_concat]
    exact hordered.2.2 t (by simp [hlast]) _ (List.mem_singleton_self _)

namespace PressureController

/-- Polls that return nothing change no other answer and no staging, and the rung only by the decay
that is due when they come; the rung is one of the ladder and is climbed one at a time, by the rate
of the trailing window. -/
theorem polling (mode : HistoryMode) (config : PressureConfig) :
    (∀ l l' answers last, (new mode config).Interspersed l l' answers last → Clocked l' →
      ((new mode config).askAll l).2 = answers ∧
        last.staging = ((new mode config).askAll l).1.staging ∧
        last.rung = (((new mode config).askAll l).1.settle (lastMs 0 l')).rung ∧
        (lastMs 0 l' = lastMs 0 l → last.rung = ((new mode config).askAll l).1.rung)) ∧
      (∀ l, ((new mode config).askAll l).1.rung <
        ((new mode config).askAll l).1.config.ladderMs.length) ∧
      ∀ l x c, ((new mode config).askAll l).1 = c → Clocked (l ++ [.call x]) →
        (c.call x).1.rung ≤ c.rung + 1 ∧
        (mode ≠ .adaptive → (c.call x).1.rung = c.rung) ∧
        (mode = .adaptive → x.isPoll = false → (c.call x).1.rung =
          if (c.decay x.timeMs).rung + 1 < c.config.ladderMs.length ∧
              (exceeds (trailing (l ++ [.call x]) x.timeMs) c.config.escalateEventsPerSec = true ∨
                c.config.maxStagedBytes < c.stagedBytes ∨ x.queueHigh = true)
          then (c.decay x.timeMs).rung + 1 else (c.decay x.timeMs).rung) := by
  refine ⟨?_, ?_, ?_⟩
  · intro l l' answers last h hl
    have hnew := settle_new mode config
    obtain ⟨hanswers, hlast⟩ := h.spec rfl hl.fromZero
    rw [h.settled hnew hl.fromZero] at hlast
    refine ⟨hanswers, ?_, ?_, ?_⟩
    · rw [← hlast, settle_staging]
    · rw [hlast]
    · intro hsame
      rw [← hlast, hsame, settled_askAll hnew (h.clocked hl).fromZero]
  · intro l
    exact ((new_steady mode config).askAll l).rung
  · rintro l x c rfl h
    have hmode := ((new_steady mode config).askAll l).same
    obtain ⟨hl, hle⟩ := h.init
    refine ⟨rung_call_le _ x, fun hother => rung_call_other ?_ x, fun hadaptive hx => ?_⟩
    · rwa [hmode]
    · have hstart : (new mode config).mode = .adaptive := hadaptive
      obtain ⟨hwindow, hmode⟩ := (windowed_new mode config).askAll hstart hl.fromZero
      have hnotes : notedMs (l ++ [.call x]) = [] ++ notedMs l ++ notedMs [.call x] :=
        List.filterMap_append
      rw [hwindow.rung_call hmode hle hx, trailing, hnotes]

end PressureController

/-- A controller that one note takes up a rung. -/
def steepConfig : PressureConfig := { ladderMs := [0, 250], escalateEventsPerSec := some 0 }

def steepController : PressureController := .new .adaptive steepConfig

def steepCapture : CaptureInput := ⟨.present (twinSig 1), .new, true, 1⟩

/-- One note, and the poll that returns it. -/
def steepAsks : List PressureAsk :=
  [.call (.note twinPath steepCapture 0), .call (.pollDue 250)]

/-- An idle poll after that. -/
def steepPolled : List PressureAsk := steepAsks ++ [.call (.pollDue 2000)]

theorem steepPolled_clocked : Clocked steepPolled := ⟨by decide, by decide⟩

theorem steep_interspersed : steepController.Interspersed steepAsks steepPolled
    (steepController.askAll steepAsks).2 (steepController.askAll steepPolled).1 :=
  .asked _ (.asked _ (.polled 2000 (List.isEmpty_iff.1 (by decide +kernel)) .nil))

/-- The idle poll takes the rung down that the run without it leaves up. -/
theorem steep_polled : ¬∀ mode config l l' answers last,
    (PressureController.new mode config).Interspersed l l' answers last → Clocked l' →
      ((PressureController.new mode config).askAll l).2 = answers ∧
        last.staging = ((PressureController.new mode config).askAll l).1.staging ∧
        last.rung = ((PressureController.new mode config).askAll l).1.rung := by
  intro h
  have hrung := (h .adaptive steepConfig _ _ _ _ steep_interspersed steepPolled_clocked).2.2
  exact absurd hrung (by decide +kernel)

theorem steep_settled :
    (steepController.askAll steepPolled).1.rung =
      ((steepController.askAll steepAsks).1.settle 2000).rung ∧
      (steepController.call (.note twinPath steepCapture 0)).1.rung = 1 := by
  obtain ⟨hidle, _, hclimb⟩ := PressureController.polling .adaptive steepConfig
  obtain ⟨_, _, hrung, _⟩ := hidle _ _ _ _ steep_interspersed steepPolled_clocked
  have hclocked : Clocked ([] ++ [.call (.note twinPath steepCapture 0)]) := ⟨by decide, by decide⟩
  have hnote := (hclimb [] (.note twinPath steepCapture 0) _ rfl hclocked).2.2 rfl rfl
  exact ⟨hrung, hnote.trans (by decide +kernel)⟩

end Tomo
