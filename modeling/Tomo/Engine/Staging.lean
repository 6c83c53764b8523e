import Mathlib.Data.List.Induction
import Tomo.Engine.Pressure

namespace Tomo
set_option autoImplicit true

/-- One call of the controller. -/
inductive PressureCall where
  | note (p : RelPath) (capture : CaptureInput) (nowMs : Nat)
  | signals (depth nowMs : Nat)
  | pollDue (nowMs : Nat)

/-- A call with its answer. -/
inductive PressureEvent where
  | noted (p : RelPath) (capture : CaptureInput) (nowMs : Nat) (decision : CaptureDecision)
  | signalled
  | polled (nowMs : Nat) (due : List (RelPath × StagedCapture))

namespace PressureEvent

/-- A poll that returns the path. -/
def Returns (p : RelPath) : PressureEvent → Prop
  | polled _ due => p ∈ due.map Prod.fst
  | _ => False

/-- The slot of the path is filled anew or emptied. -/
def Touches (p : RelPath) : PressureEvent → Prop
  | noted q _ _ _ => q = p
  | signalled => False
  | polled _ due => p ∈ due.map Prod.fst

end PressureEvent

/-- The capture as it is staged. -/
def CaptureInput.staged (capture : CaptureInput) (nowMs dueAtMs : Nat) : StagedCapture :=
  ⟨capture.state, capture.version, capture.originIsLocal, nowMs, dueAtMs, capture.sizeHint⟩

namespace PressureController

def call (c : PressureController) : PressureCall → PressureController × PressureEvent
  | .note p capture nowMs =>
    let (c, decision) := c.note p capture nowMs
    (c, .noted p capture nowMs decision)
  | .signals depth nowMs => (c.signals depth nowMs, .signalled)
  | .pollDue nowMs =>
    let (c, due) := c.pollDue nowMs
    (c, .polled nowMs due)

def run (c : PressureController) : List PressureCall → PressureController × List PressureEvent
  | [] => (c, [])
  | x :: calls =>
    let (c, event) := c.call x
    let (c, events) := c.run calls
    (c, event :: events)

/-- The largest interval a note can be given. -/
def longest (mode : HistoryMode) (config : PressureConfig) : Nat :=
  match mode with
  | .adaptive => config.ladderMs.foldr max config.minCaptureWindowMs
  | .intervalMs interval => interval
  | .everyChange | .off => 0

theorem decide_cases (c : PressureController) (p : RelPath) (capture : CaptureInput)
    (nowMs interval : Nat) :
    (c.staging[p]? = none ∧ c.decide p capture nowMs interval = (c, .immediate)) ∨
    ∃ due, (c.decide p capture nowMs interval).2 = .deferred due ∧
      (c.decide p capture nowMs interval).1.staging =
        c.staging.insert p (capture.staged nowMs due) ∧
      due ≤ saturatingAdd nowMs interval ∧
      ∀ old, c.staging[p]? = some old → due ≤ old.dueAtMs := by
  rw [decide]
  split
  next h =>
    left
    exact ⟨Option.isNone_iff_eq_none.mp h.2, rfl⟩
  · right
    cases hold : c.staging[p]? with
    | none =>
      refine ⟨_, rfl, rfl, Nat.le_refl _, ?_⟩
      intro old h
      cases h
    | some existing =>
      refine ⟨_, rfl, rfl, Nat.min_le_right _ _, ?_⟩
      intro old h
      cases h
      exact Nat.min_le_left _ _

/-- The tuning never changes, the rung is a rung of the ladder, and where every change is recorded
at once nothing is ever staged. -/
structure Steady (mode : HistoryMode) (config : PressureConfig) (c : PressureController) :
    Prop where
  same : c.mode = mode
  ladder : c.config.ladderMs = if config.ladderMs = [] then [0] else config.ladderMs
  window : c.config.minCaptureWindowMs = config.minCaptureWindowMs
  rung : c.rung < c.config.ladderMs.length
  prompt : mode = .everyChange → ∀ p : RelPath, c.staging[p]? = none

variable {mode : HistoryMode} {config : PressureConfig} {c : PressureController}

theorem new_steady (mode : HistoryMode) (config : PressureConfig) :
    (new mode config).Steady mode config := by
  rw [new]
  by_cases hladder : config.ladderMs = []
  · rw [if_pos hladder]
    exact ⟨rfl, by rw [if_pos hladder], rfl, Nat.zero_lt_one, fun _ _ => rfl⟩
  · rw [if_neg hladder]
    exact ⟨rfl, by rw [if_neg hladder], rfl, List.length_pos_iff.mpr hladder, fun _ _ => rfl⟩

theorem Steady.decay (h : c.Steady mode config) (nowMs : Nat) :
    (c.decay nowMs).Steady mode config := by
  rw [PressureController.decay]
  split
  · exact h
  · dsimp only
    split
    · exact h
    · exact ⟨h.same, h.ladder, h.window, Nat.lt_of_le_of_lt (Nat.sub_le _ _) h.rung, h.prompt⟩

theorem Steady.escalate (h : c.Steady mode config) (nowMs : Nat) (high : Bool) :
    (c.escalate nowMs high).Steady mode config := by
  rw [PressureController.escalate]
  split
  · exact h
  next hroom =>
    dsimp only [observedRate]
    split
    · exact ⟨h.same, h.ladder, h.window, by simpa using hroom, h.prompt⟩
    · exact ⟨h.same, h.ladder, h.window, h.rung, h.prompt⟩

theorem Steady.signals (h : c.Steady mode config) (depth nowMs : Nat) :
    (c.signals depth nowMs).Steady mode config := by
  rw [PressureController.signals]
  split
  · exact (h.decay nowMs).escalate nowMs _
  · exact h

theorem Steady.pollDue (h : c.Steady mode config) (nowMs : Nat) :
    (c.pollDue nowMs).1.Steady mode config := by
  have hprompt : mode = .everyChange → ∀ p : RelPath, (c.pollDue nowMs).1.staging[p]? = none := by
    intro hmode p
    rw [pollDue_staging, h.prompt hmode p]
    rfl
  cases hmode : c.mode with
  | adaptive =>
    have hdecay := h.decay nowMs
    rw [PressureController.pollDue, hmode] at hprompt ⊢
    exact ⟨hdecay.same, hdecay.ladder, hdecay.window, hdecay.rung, hprompt⟩
  | everyChange | off | intervalMs =>
    rw [PressureController.pollDue, hmode] at hprompt ⊢
    exact ⟨h.same, h.ladder, h.window, h.rung, hprompt⟩

theorem decide_steady (h : c.Steady mode config) (hmode : mode ≠ .everyChange) (p : RelPath)
    (capture : CaptureInput) (nowMs interval : Nat) :
    (c.decide p capture nowMs interval).1.Steady mode config := by
  rw [decide]
  split
  · exact h
  · exact ⟨h.same, h.ladder, h.window, h.rung, fun heq => absurd heq hmode⟩

/-- The controller a note is decided with. -/
def noted (c : PressureController) (nowMs : Nat) : PressureController :=
  { escalate { c.decay nowMs with window := (c.decay nowMs).window ++ [nowMs] } nowMs false with
      decayAnchorMs := nowMs }

theorem note_adaptive (h : c.mode = .adaptive) (p : RelPath) (capture : CaptureInput)
    (nowMs : Nat) :
    c.note p capture nowMs = (c.noted nowMs).decide p capture nowMs
      (max ((c.noted nowMs).config.ladderMs.getD (c.noted nowMs).rung 0)
        (c.noted nowMs).config.minCaptureWindowMs) := by
  rw [PressureController.note, h]
  rfl

theorem note_interval (h : c.mode = .intervalMs interval) (p : RelPath) (capture : CaptureInput)
    (nowMs : Nat) : c.note p capture nowMs = c.decide p capture nowMs interval := by
  rw [PressureController.note, h]

theorem staging_noted (c : PressureController) (nowMs : Nat) :
    (c.noted nowMs).staging = c.staging :=
  (staging_escalate _ nowMs false).trans (staging_decay c nowMs)

theorem Steady.noted (h : c.Steady mode config) (nowMs : Nat) :
    (c.noted nowMs).Steady mode config := by
  have hrated : Steady mode config
      { c.decay nowMs with window := (c.decay nowMs).window ++ [nowMs] } := by
    have hdecay := h.decay nowMs
    exact ⟨hdecay.same, hdecay.ladder, hdecay.window, hdecay.rung, hdecay.prompt⟩
  have hclimbed := hrated.escalate nowMs false
  exact ⟨hclimbed.same, hclimbed.ladder, hclimbed.window, hclimbed.rung, hclimbed.prompt⟩

theorem Steady.note (h : c.Steady mode config) (p : RelPath) (capture : CaptureInput)
    (nowMs : Nat) : (c.note p capture nowMs).1.Steady mode config := by
  cases hmode : c.mode with
  | off | everyChange =>
    rw [PressureController.note, hmode]
    exact h
  | intervalMs interval =>
    rw [note_interval hmode]
    apply decide_steady h
    rw [← h.same, hmode]
    exact HistoryMode.noConfusion
  | adaptive =>
    rw [note_adaptive hmode]
    apply decide_steady (h.noted nowMs)
    rw [← h.same, hmode]
    exact HistoryMode.noConfusion

theorem Steady.call (h : c.Steady mode config) (x : PressureCall) :
    (c.call x).1.Steady mode config := by
  cases x with
  | note p capture nowMs => exact h.note p capture nowMs
  | signals depth nowMs => exact h.signals depth nowMs
  | pollDue nowMs => exact h.pollDue nowMs

theorem Steady.run (h : c.Steady mode config) (calls : List PressureCall) :
    (c.run calls).1.Steady mode config := by
  induction calls generalizing c with
  | nil => exact h
  | cons x calls ih => exact ih (h.call x)

theorem le_foldr_max {l : List Nat} {base n : Nat} (h : n ∈ l) : n ≤ l.foldr max base := by
  induction l with
  | nil => cases h
  | cons m l ih =>
    rw [List.foldr_cons]
    rcases List.mem_cons.mp h with rfl | hl
    · exact Nat.le_max_left _ _
    · exact Nat.le_trans (ih hl) (Nat.le_max_right _ _)

theorem base_le_foldr_max (l : List Nat) (base : Nat) : base ≤ l.foldr max base := by
  induction l with
  | nil => exact Nat.le_refl _
  | cons m l ih => exact Nat.le_trans ih (Nat.le_max_right _ _)

/-- The interval of the rung is one of the ladder, whichever rung it is. -/
theorem Steady.interval_le (h : c.Steady .adaptive config) :
    max (c.config.ladderMs.getD c.rung 0) c.config.minCaptureWindowMs ≤
      longest .adaptive config := by
  apply Nat.max_le.mpr
  constructor
  · have hmem : c.config.ladderMs.getD c.rung 0 ∈ c.config.ladderMs := by
      rw [List.getD_eq_getElem?_getD, List.getElem?_eq_getElem h.rung]
      exact List.getElem_mem h.rung
    rw [h.ladder] at hmem ⊢
    by_cases hladder : config.ladderMs = []
    · rw [if_pos hladder] at hmem ⊢
      rw [List.mem_singleton.mp hmem]
      exact Nat.zero_le _
    · rw [if_neg hladder] at hmem ⊢
      exact le_foldr_max hmem
  · rw [h.window]
    exact base_le_foldr_max _ _

theorem saturatingAdd_le {a b n : Nat} (h : a ≤ b) : saturatingAdd n a ≤ saturatingAdd n b := by
  unfold saturatingAdd
  omega

/-- A note passes through when its slot is free, or fills the slot: the content is new, the deadline
is the interval's at most, and never later than it was. -/
theorem Steady.note_cases (h : c.Steady mode config) (hmode : mode ≠ .off) (p : RelPath)
    (capture : CaptureInput) (nowMs : Nat) :
    (c.staging[p]? = none ∧ (c.note p capture nowMs).2 = .immediate ∧
      (c.note p capture nowMs).1.staging = c.staging) ∨
    ∃ due, (c.note p capture nowMs).2 = .deferred due ∧
      (c.note p capture nowMs).1.staging = c.staging.insert p (capture.staged nowMs due) ∧
      due ≤ saturatingAdd nowMs (longest mode config) ∧
      ∀ old, c.staging[p]? = some old → due ≤ old.dueAtMs := by
  cases heq : c.mode with
  | off => exact absurd (h.same.symm.trans heq) hmode
  | everyChange =>
    left
    rw [PressureController.note, heq]
    exact ⟨h.prompt (h.same.symm.trans heq) p, rfl, rfl⟩
  | intervalMs interval =>
    obtain rfl : mode = .intervalMs interval := h.same.symm.trans heq
    rw [note_interval heq]
    rcases c.decide_cases p capture nowMs interval with ⟨hfree, hdecide⟩ | hdeferred
    · left
      exact ⟨hfree, by rw [hdecide], by rw [hdecide]⟩
    · exact .inr hdeferred
  | adaptive =>
    obtain rfl : mode = .adaptive := h.same.symm.trans heq
    have hstaging := c.staging_noted nowMs
    rw [note_adaptive heq]
    rcases (c.noted nowMs).decide_cases p capture nowMs _
      with ⟨hfree, hdecide⟩ | ⟨due, hdecision, hinsert, hdue, hold⟩
    · left
      rw [hstaging] at hfree
      exact ⟨hfree, by rw [hdecide], by rw [hdecide, hstaging]⟩
    · right
      rw [hstaging] at hinsert hold
      exact ⟨due, hdecision, hinsert,
        Nat.le_trans hdue (saturatingAdd_le (h.noted nowMs).interval_le), hold⟩

theorem run_append (c : PressureController) (before after : List PressureCall) :
    c.run (before ++ after) = ((c.run before).1.run after |>.1,
      (c.run before).2 ++ ((c.run before).1.run after).2) := by
  induction before generalizing c with
  | nil => rfl
  | cons x before ih => simp only [List.cons_append, run, ih]

theorem getElem?_insert_ne {m : Std.ExtTreeMap RelPath StagedCapture} {p q : RelPath}
    (h : q ≠ p) (cap : StagedCapture) : (m.insert q cap)[p]? = m[p]? := by
  rw [Std.ExtTreeMap.getElem?_insert, if_neg]
  rwa [Std.compare_eq_iff_eq]

/-- A call that does not touch a path leaves its slot as it is. -/
theorem Steady.call_untouched (h : c.Steady mode config) (hmode : mode ≠ .off)
    (x : PressureCall) {p : RelPath} (hp : ¬(c.call x).2.Touches p) :
    (c.call x).1.staging[p]? = c.staging[p]? := by
  cases x with
  | note q capture nowMs =>
    have hne : q ≠ p := hp
    rcases h.note_cases hmode q capture nowMs with ⟨_, _, hsame⟩ | ⟨due, _, hinsert, _⟩
    · simp only [PressureController.call, hsame]
    · simp only [PressureController.call, hinsert]
      exact getElem?_insert_ne hne _
  | signals depth nowMs => simp only [PressureController.call, staging_signals]
  | pollDue nowMs =>
    simp only [PressureController.call, pollDue_staging]
    cases hcap : c.staging[p]? with
    | none => rfl
    | some cap =>
      have hlate : nowMs < cap.dueAtMs := by
        by_contra hdue
        apply hp
        exact List.mem_map_of_mem ((mem_pollDue c nowMs).mpr ⟨hcap, Nat.le_of_not_lt hdue⟩)
      simp [Option.filter, hlate]

/-- What becomes of a staged capture: it stays, or the first call that touches its path is a note
that supersedes it or the one poll that returns it. -/
def Fate (p : RelPath) (cap : StagedCapture) (events : List PressureEvent)
    (last : PressureController) : Prop :=
  ((∀ e ∈ events, ¬e.Touches p) ∧ last.staging[p]? = some cap) ∨
  ∃ before e after, events = before ++ e :: after ∧ (∀ e' ∈ before, ¬e'.Touches p) ∧
    ((∃ newer nowMs due, e = .noted p newer nowMs (.deferred due)) ∨
      ∃ nowMs due, e = .polled nowMs due ∧ (p, cap) ∈ due ∧ (due.map Prod.fst).Nodup)

/-- A call that touches a staged path supersedes the capture or returns it. -/
theorem Steady.call_touches (h : c.Steady mode config) (hmode : mode ≠ .off) (x : PressureCall)
    {p : RelPath} (hcap : c.staging[p]? = some cap) (hp : (c.call x).2.Touches p) :
    (∃ newer nowMs due, (c.call x).2 = .noted p newer nowMs (.deferred due)) ∨
      ∃ nowMs due, (c.call x).2 = .polled nowMs due ∧ (p, cap) ∈ due ∧
        (due.map Prod.fst).Nodup := by
  cases x with
  | note q capture nowMs =>
    obtain rfl : q = p := hp
    rcases h.note_cases hmode q capture nowMs with ⟨hfree, _⟩ | ⟨due, hdecision, _⟩
    · rw [hfree] at hcap
      cases hcap
    · left
      exact ⟨capture, nowMs, due, by simp only [PressureController.call, hdecision]⟩
  | signals depth nowMs => exact hp.elim
  | pollDue nowMs =>
    right
    obtain ⟨⟨q, cap'⟩, hmem, rfl⟩ := List.mem_map.mp hp
    have hcap' := ((mem_pollDue c nowMs).mp hmem).1
    obtain rfl : cap = cap' := Option.some.inj (hcap.symm.trans hcap')
    exact ⟨nowMs, _, rfl, hmem, pollDue_nodup c nowMs⟩

theorem Steady.fate (h : c.Steady mode config) (hmode : mode ≠ .off) {p : RelPath}
    (hcap : c.staging[p]? = some cap) (calls : List PressureCall) :
    Fate p cap (c.run calls).2 (c.run calls).1 := by
  induction calls generalizing c with
  | nil => exact .inl ⟨fun e he => (List.not_mem_nil he).elim, hcap⟩
  | cons x calls ih =>
    by_cases hp : (c.call x).2.Touches p
    · right
      exact ⟨[], _, _, rfl, fun e he => (List.not_mem_nil he).elim,
        h.call_touches hmode x hcap hp⟩
    · have hkept := (h.call_untouched hmode x hp).trans hcap
      rcases ih (h.call x) hkept with ⟨hall, hlast⟩ | ⟨before, e, after, heq, hbefore, hfate⟩
      · left
        exact ⟨List.forall_mem_cons.mpr ⟨hp, hall⟩, hlast⟩
      · right
        refine ⟨(c.call x).2 :: before, e, after, ?_, List.forall_mem_cons.mpr ⟨hp, hbefore⟩, hfate⟩
        simp only [PressureController.run, heq, List.cons_append]

/-- A staged capture is the newest one noted for its path. -/
theorem Steady.newest (h : c.Steady mode config) (hmode : mode ≠ .off)
    (hempty : ∀ p : RelPath, c.staging[p]? = none) (calls : List PressureCall) {p : RelPath}
    (hcap : (c.run calls).1.staging[p]? = some cap) :
    ∃ before capture nowMs due after,
      (c.run calls).2 = before ++ .noted p capture nowMs (.deferred due) :: after ∧
      (∀ e ∈ after, ¬e.Touches p) ∧ cap = capture.staged nowMs due := by
  induction calls using List.reverseRecOn generalizing cap with
  | nil =>
    rw [PressureController.run, hempty p] at hcap
    cases hcap
  | append_singleton calls x ih =>
    have hsteady := h.run calls
    have hlast : c.run (calls ++ [x]) =
        (((c.run calls).1.call x).1, (c.run calls).2 ++ [((c.run calls).1.call x).2]) :=
      run_append c calls [x]
    rw [hlast] at hcap ⊢
    by_cases hp : ((c.run calls).1.call x).2.Touches p
    · cases x with
      | note q capture nowMs =>
        obtain rfl : q = p := hp
        rcases hsteady.note_cases hmode q capture nowMs with
          ⟨hfree, _, hsame⟩ | ⟨due, hdecision, hinsert, _⟩
        · simp only [PressureController.call, hsame, hfree] at hcap
          cases hcap
        · simp only [PressureController.call, hinsert, Std.ExtTreeMap.getElem?_insert_self] at hcap
          refine ⟨(c.run calls).2, capture, nowMs, due, [], ?_, fun e he => (by cases he),
            (Option.some.inj hcap).symm⟩
          simp only [PressureController.call, hdecision]
      | signals depth nowMs => exact hp.elim
      | pollDue nowMs =>
        obtain ⟨⟨q, cap'⟩, hmem, rfl⟩ := List.mem_map.mp hp
        obtain ⟨hcap', hdue⟩ := (mem_pollDue _ nowMs).mp hmem
        have hlate : ¬nowMs < cap'.dueAtMs := Nat.not_lt.mpr hdue
        have hgone : ((c.run calls).1.pollDue nowMs).1.staging[q]? = none := by
          simp [pollDue_staging, hcap', Option.filter, hlate]
        cases hgone.symm.trans hcap
    · rw [hsteady.call_untouched hmode x hp] at hcap
      obtain ⟨before, capture, nowMs, due, after, heq, hafter, hnewest⟩ := ih hcap
      refine ⟨before, capture, nowMs, due, after ++ [((c.run calls).1.call x).2], ?_, ?_, hnewest⟩
      · rw [heq, List.append_assoc, List.cons_append]
      · intro e he
        rcases List.mem_append.mp he with he | he
        · exact hafter e he
        · rw [List.mem_singleton.mp he]
          exact hp

/-- The deadline of a slot never grows, so a path that no poll has returned is still staged, due
no later than before. -/
theorem Steady.deadline_le (h : c.Steady mode config) (hmode : mode ≠ .off) {p : RelPath}
    (hcap : c.staging[p]? = some cap) (hle : cap.dueAtMs ≤ limit) (calls : List PressureCall)
    (hp : ∀ e ∈ (c.run calls).2, ¬e.Returns p) :
    ∃ cap', (c.run calls).1.staging[p]? = some cap' ∧ cap'.dueAtMs ≤ limit := by
  induction calls generalizing c cap with
  | nil => exact ⟨cap, hcap, hle⟩
  | cons x calls ih =>
    obtain ⟨hx, hcalls⟩ := List.forall_mem_cons.mp hp
    by_cases htouch : (c.call x).2.Touches p
    · cases x with
      | note q capture nowMs =>
        obtain rfl : q = p := htouch
        rcases h.note_cases hmode q capture nowMs with ⟨hfree, _⟩ | ⟨due, _, hinsert, _, hold⟩
        · rw [hfree] at hcap
          cases hcap
        · have hcap' : (c.note q capture nowMs).1.staging[q]? = some (capture.staged nowMs due) := by
            rw [hinsert, Std.ExtTreeMap.getElem?_insert_self]
          exact ih (h.note q capture nowMs) hcap' (Nat.le_trans (hold cap hcap) hle) hcalls
      | signals depth nowMs => exact htouch.elim
      | pollDue nowMs => exact absurd htouch hx
    · exact ih (h.call x) ((h.call_untouched hmode x htouch).trans hcap) hle hcalls

/-- Poll at each next deadline until nothing is staged, for so many polls at most. -/
def drain : Nat → Nat → PressureController → PressureController
  | 0, _, c => c
  | n + 1, nowMs, c =>
    match c.nextDueMs with
    | none => c
    | some dueMs => drain n (max nowMs dueMs) (c.pollDue (max nowMs dueMs)).1

theorem nextDueMs_none (h : c.nextDueMs = none) : c.staging.size = 0 := by
  rw [nextDueMs, List.min?_eq_none_iff, List.map_eq_nil_iff] at h
  rw [← Std.ExtTreeMap.length_toList, h]
  rfl

theorem nextDueMs_some (h : c.nextDueMs = some dueMs) :
    ∃ (p : RelPath) (cap : StagedCapture), c.staging[p]? = some cap ∧ cap.dueAtMs = dueMs := by
  rw [nextDueMs] at h
  obtain ⟨⟨p, cap⟩, hmem, hdue⟩ := List.mem_map.mp (List.min?_mem h)
  exact ⟨p, cap, Std.ExtTreeMap.mem_toList_iff_getElem?_eq_some.mp hmem, hdue⟩

theorem foldl_erase_size (l : List (RelPath × StagedCapture))
    (m : Std.ExtTreeMap RelPath StagedCapture) :
    (l.foldl (fun m e => m.erase e.1) m).size ≤ m.size := by
  induction l generalizing m with
  | nil => exact Nat.le_refl _
  | cons e l ih => exact Nat.le_trans (ih _) Std.ExtTreeMap.size_erase_le

/-- A poll at a deadline takes out one capture at least. -/
theorem pollDue_size {p : RelPath} (hcap : c.staging[p]? = some cap) (hdue : cap.dueAtMs ≤ nowMs) :
    (c.pollDue nowMs).1.staging.size < c.staging.size := by
  rw [(pollDue_eq c nowMs).1]
  cases hlist : c.staging.toList.filter fun e => e.2.dueAtMs ≤ nowMs with
  | nil =>
    have hmem : (p, cap) ∈ c.staging.toList.filter fun e => e.2.dueAtMs ≤ nowMs := by
      rw [List.mem_filter, Std.ExtTreeMap.mem_toList_iff_getElem?_eq_some]
      exact ⟨hcap, by simpa using hdue⟩
    rw [hlist] at hmem
    cases hmem
  | cons e l =>
    have he : e ∈ c.staging.toList := by
      apply List.mem_of_mem_filter
      rw [hlist]
      exact List.mem_cons_self
    have hin : e.1 ∈ c.staging := by
      rw [Std.ExtTreeMap.mem_iff_isSome_getElem?,
        Std.ExtTreeMap.mem_toList_iff_getElem?_eq_some.mp he]
      rfl
    have hsize : 0 < c.staging.size := by
      rw [← Std.ExtTreeMap.length_toList]
      exact List.length_pos_of_mem he
    have herase : (c.staging.erase e.1).size = c.staging.size - 1 := by
      rw [Std.ExtTreeMap.size_erase, if_pos (Std.ExtTreeMap.mem_iff_contains.mp hin)]
    have hrest := foldl_erase_size l (c.staging.erase e.1)
    rw [List.foldl_cons]
    omega

theorem drain_empty (h : c.staging.size ≤ n) (nowMs : Nat) :
    (drain n nowMs c).staging.size = 0 := by
  induction n generalizing c nowMs with
  | zero => exact Nat.le_zero.mp h
  | succ n ih =>
    rw [drain]
    cases hdue : c.nextDueMs with
    | none => exact nextDueMs_none hdue
    | some dueMs =>
      obtain ⟨p, cap, hcap, hcapdue⟩ := nextDueMs_some hdue
      have hle : cap.dueAtMs ≤ max nowMs dueMs := by
        rw [hcapdue]
        exact Nat.le_max_right _ _
      have hsize := pollDue_size hcap hle
      exact ih (by omega) _

/-- No capture is lost and none waits longer than the ladder allows. -/
theorem captures_kept (mode : HistoryMode) (config : PressureConfig) (hmode : mode ≠ .off)
    (calls : List PressureCall) :
    let c := ((new mode config).run calls).1
    (∀ p capture nowMs, (c.note p capture nowMs).2 = .immediate →
      c.staging[p]? = none ∧ (c.note p capture nowMs).1.staging[p]? = none) ∧
    (∀ p capture nowMs, (c.note p capture nowMs).2 ≠ .immediate →
      ∃ due, (c.note p capture nowMs).2 = .deferred due ∧ ∀ after,
        Fate p (capture.staged nowMs due) ((c.note p capture nowMs).1.run after).2
          ((c.note p capture nowMs).1.run after).1) ∧
    (∀ nowMs p cap, (p, cap) ∈ (c.pollDue nowMs).2 →
      ∃ before capture notedMs due after, ((new mode config).run calls).2 =
          before ++ .noted p capture notedMs (.deferred due) :: after ∧
        (∀ e ∈ after, ¬e.Touches p) ∧ cap = capture.staged notedMs due) ∧
    (∀ p capture nowMs, (c.note p capture nowMs).2 ≠ .immediate →
      ∀ after laterMs, (∀ e ∈ ((c.note p capture nowMs).1.run after).2, ¬e.Returns p) →
        saturatingAdd nowMs (longest mode config) ≤ laterMs →
        ∃ cap, (p, cap) ∈ (((c.note p capture nowMs).1.run after).1.pollDue laterMs).2) ∧
    (∀ n nowMs, c.staging.size ≤ n → (drain n nowMs c).staging.size = 0) := by
  intro c
  have hc : c.Steady mode config := (new_steady mode config).run calls
  have hslot : ∀ p capture nowMs, (c.note p capture nowMs).2 ≠ .immediate →
      ∃ due, (c.note p capture nowMs).2 = .deferred due ∧
        (c.note p capture nowMs).1.staging[p]? = some (capture.staged nowMs due) ∧
        due ≤ saturatingAdd nowMs (longest mode config) := by
    intro p capture nowMs hdeferred
    rcases hc.note_cases hmode p capture nowMs with
      ⟨_, himmediate, _⟩ | ⟨due, hdecision, hinsert, hle, _⟩
    · exact absurd himmediate hdeferred
    · exact ⟨due, hdecision, by rw [hinsert, Std.ExtTreeMap.getElem?_insert_self], hle⟩
  refine ⟨?_, ?_, ?_, ?_, fun n nowMs hn => drain_empty hn nowMs⟩
  · intro p capture nowMs himmediate
    rcases hc.note_cases hmode p capture nowMs with ⟨hfree, _, hsame⟩ | ⟨due, hdecision, _⟩
    · exact ⟨hfree, by rw [hsame, hfree]⟩
    · rw [himmediate] at hdecision
      cases hdecision
  · intro p capture nowMs hdeferred
    obtain ⟨due, hdecision, hstaged, _⟩ := hslot p capture nowMs hdeferred
    exact ⟨due, hdecision, (hc.note p capture nowMs).fate hmode hstaged⟩
  · intro nowMs p cap hmem
    exact (new_steady mode config).newest hmode (fun _ => rfl) calls ((mem_pollDue c nowMs).mp hmem).1
  · intro p capture nowMs hdeferred after laterMs hreturns hlater
    obtain ⟨due, _, hstaged, hle⟩ := hslot p capture nowMs hdeferred
    obtain ⟨cap, hcap, hdue⟩ :=
      (hc.note p capture nowMs).deadline_le hmode hstaged hle after hreturns
    exact ⟨cap, (mem_pollDue _ laterMs).mpr ⟨hcap, Nat.le_trans hdue hlater⟩⟩

def onePath : RelPath := ⟨['a'], RelPath.valid_single⟩

def oneCapture : CaptureInput := ⟨.tombstone, .new, true, 3⟩

/-- A capture noted at the start is returned by a poll after five seconds, though the path is noted
again in between. -/
theorem captures_kept_one :
    (((new .adaptive {}).run [.signals 100 0]).1.note onePath oneCapture 7).2 = .deferred 257 ∧
      ∃ cap, (onePath, cap) ∈ (((((new .adaptive {}).run [.signals 100 0]).1.note
        onePath oneCapture 7).1.run [.note onePath oneCapture 9]).1.pollDue 5007).2 := by
  have hdecision :
      (((new .adaptive {}).run [.signals 100 0]).1.note onePath oneCapture 7).2 = .deferred 257 := by
    decide +kernel
  have hkept := (captures_kept .adaptive {} (by decide) [.signals 100 0]).2.2.2.1 onePath oneCapture 7
    (by rw [hdecision]; exact CaptureDecision.noConfusion) [.note onePath oneCapture 9] 5007
  refine ⟨hdecision, hkept ?_ (by decide)⟩
  intro e he
  obtain rfl := List.mem_singleton.mp he
  exact id

end PressureController

end Tomo
