import Tomo.Engine.Staging
import Tomo.Lib.Tally

namespace Tomo
set_option autoImplicit true

namespace PressureCall

def nowMs : PressureCall → Nat
  | note _ _ nowMs | signals _ nowMs | pollDue nowMs => nowMs

/-- The calls that look at the rate. -/
def Observes : PressureCall → Prop
  | note _ _ _ | signals _ _ => True
  | pollDue _ => False

end PressureCall

namespace PressureController

/-- What the size hints of the staged captures come to. -/
def hinted (c : PressureController) : Nat := tally StagedCapture.sizeHint c.staging

/-- The arrivals in the window are those of the trailing rate window. -/
def Recent (c : PressureController) (nowMs : Nat) : Prop :=
  ∀ t ∈ c.window, nowMs - rateWindowMs ≤ t ∧ t ≤ nowMs

/-- What is bounded after the last call of a run. -/
structure MemoryBounded (start : PressureController) (before : List PressureCall)
    (x : PressureCall) : Prop where
  recent : x.Observes → (start.run (before ++ [x])).1.Recent x.nowMs
  counted : (∀ l, l <+: before ++ [x] → (start.run l).1.hinted ≤ u64Max) →
    (start.run (before ++ [x])).1.stagedBytes = (start.run (before ++ [x])).1.hinted
  single : ((start.run (before ++ [x])).1.staging.toList.map Prod.fst).Nodup

/-- The call finds a rung to climb to, or no arrival that is too old. -/
def Prunes (c : PressureController) : PressureCall → Prop
  | .note _ _ nowMs | .signals _ nowMs =>
    (c.decay nowMs).rung + 1 < c.config.ladderMs.length ∨
      ∀ t ∈ c.window, nowMs - rateWindowMs ≤ t
  | .pollDue _ => True

variable {c : PressureController}

theorem decay_cases (c : PressureController) (nowMs : Nat) :
    ∃ rung anchor, c.decay nowMs = { c with rung, decayAnchorMs := anchor } := by
  rw [decay]
  split
  · exact ⟨c.rung, c.decayAnchorMs, rfl⟩
  · dsimp only
    split
    · exact ⟨c.rung, c.decayAnchorMs, rfl⟩
    · exact ⟨_, _, rfl⟩

theorem escalate_cases (c : PressureController) (nowMs : Nat) (high : Bool) :
    ∃ rung, c.escalate nowMs high = { c with
      rung
      window := if c.config.ladderMs.length ≤ c.rung + 1 then c.window
        else c.window.dropWhile fun t => t < nowMs - rateWindowMs } := by
  rw [escalate]
  split
  · exact ⟨c.rung, rfl⟩
  · dsimp only [observedRate]
    split
    · exact ⟨c.rung + 1, rfl⟩
    · exact ⟨c.rung, rfl⟩

theorem decide_window (c : PressureController) (p : RelPath) (capture : CaptureInput)
    (nowMs interval : Nat) :
    (c.decide p capture nowMs interval).1.window = c.window ∧
      (c.decide p capture nowMs interval).1.mode = c.mode := by
  rw [decide]
  split <;> exact ⟨rfl, rfl⟩

/-- What escalation leaves of the arrivals, after the decay that is due. -/
def pruned (c : PressureController) (nowMs : Nat) (arrivals : List Nat) : List Nat :=
  if c.config.ladderMs.length ≤ (c.decay nowMs).rung + 1 then arrivals
  else arrivals.dropWhile fun t => t < nowMs - rateWindowMs

theorem note_window (hmode : c.mode = .adaptive) (p : RelPath) (capture : CaptureInput)
    (nowMs : Nat) :
    (c.note p capture nowMs).1.mode = .adaptive ∧
      (c.note p capture nowMs).1.window = c.pruned nowMs (c.window ++ [nowMs]) := by
  obtain ⟨rung, anchor, hdecay⟩ := c.decay_cases nowMs
  obtain ⟨rung', hclimb⟩ := escalate_cases
    { c.decay nowMs with window := (c.decay nowMs).window ++ [nowMs] } nowMs false
  have hdecide := fun interval => (c.noted nowMs).decide_window p capture nowMs interval
  rw [note_adaptive hmode, (hdecide _).1, (hdecide _).2, noted, hclimb, pruned, hdecay]
  exact ⟨hmode, rfl⟩

theorem signals_window (hmode : c.mode = .adaptive) (depth nowMs : Nat) :
    (c.signals depth nowMs).mode = .adaptive ∧
      (c.signals depth nowMs).window = c.pruned nowMs c.window := by
  obtain ⟨rung, anchor, hdecay⟩ := c.decay_cases nowMs
  obtain ⟨rung', hclimb⟩ := (c.decay nowMs).escalate_cases nowMs (queueHighWater < depth)
  rw [signals, hmode]
  dsimp only
  rw [hclimb, pruned, hdecay]
  exact ⟨hmode, rfl⟩

theorem pollDue_window (hmode : c.mode = .adaptive) (nowMs : Nat) :
    (c.pollDue nowMs).1.mode = .adaptive ∧ (c.pollDue nowMs).1.window = c.window := by
  obtain ⟨rung, anchor, hdecay⟩ := c.decay_cases nowMs
  rw [pollDue, hmode]
  dsimp only
  rw [hdecay]
  exact ⟨hmode, rfl⟩

/-- The arrivals are in order, and none of them is later than this. -/
structure Timely (c : PressureController) (last : Nat) : Prop where
  mode : c.mode = .adaptive
  ordered : c.window.Pairwise (· ≤ ·)
  past : ∀ t ∈ c.window, t ≤ last

theorem dropWhile_recent {l : List Nat} (hl : l.Pairwise (· ≤ ·)) (cutoff : Nat) :
    ∀ t ∈ l.dropWhile (fun t => t < cutoff), cutoff ≤ t := by
  induction l with
  | nil => exact nofun
  | cons a l ih =>
    obtain ⟨ha, hrest⟩ := List.pairwise_cons.1 hl
    by_cases hlt : a < cutoff
    · rw [List.dropWhile_cons_of_pos (by rwa [decide_eq_true_eq])]
      exact ih hrest
    · rw [List.dropWhile_cons_of_neg (by rwa [decide_eq_true_eq])]
      intro t ht
      rcases List.mem_cons.1 ht with rfl | ht
      · exact Nat.le_of_not_lt hlt
      · exact Nat.le_trans (Nat.le_of_not_lt hlt) (ha t ht)

theorem pruned_sublist (c : PressureController) (nowMs : Nat) (l : List Nat) :
    (c.pruned nowMs l).Sublist l := by
  rw [pruned]
  split
  · exact .refl l
  · exact List.dropWhile_sublist _

theorem Timely.mono (h : c.Timely last) (hle : last ≤ nowMs) : c.Timely nowMs :=
  ⟨h.mode, h.ordered, fun t ht => Nat.le_trans (h.past t ht) hle⟩

/-- A window that is in order, with an arrival at its end. -/
theorem Timely.arrival (h : c.Timely nowMs) : (c.window ++ [nowMs]).Pairwise (· ≤ ·) := by
  apply List.pairwise_append.2
  refine ⟨h.ordered, List.pairwise_singleton _ _, fun t ht t' ht' => ?_⟩
  rw [List.mem_singleton.1 ht']
  exact h.past t ht

theorem Timely.call (h : c.Timely last) (x : PressureCall) (hx : last ≤ x.nowMs) :
    (c.call x).1.Timely x.nowMs := by
  have hnow := h.mono hx
  cases x with
  | note p capture nowMs =>
    obtain ⟨hmode, hwindow⟩ := note_window h.mode p capture nowMs
    have hsub := c.pruned_sublist nowMs (c.window ++ [nowMs])
    refine ⟨hmode, ?_, ?_⟩
    · show List.Pairwise _ (c.note p capture nowMs).1.window
      rw [hwindow]
      exact hnow.arrival.sublist hsub
    · show ∀ t ∈ (c.note p capture nowMs).1.window, t ≤ nowMs
      rw [hwindow]
      intro t ht
      rcases List.mem_append.1 (hsub.subset ht) with ht | ht
      · exact hnow.past t ht
      · exact Nat.le_of_eq (List.mem_singleton.1 ht)
  | signals depth nowMs =>
    obtain ⟨hmode, hwindow⟩ := signals_window h.mode depth nowMs
    have hsub := c.pruned_sublist nowMs c.window
    refine ⟨hmode, ?_, ?_⟩
    · show List.Pairwise _ (c.signals depth nowMs).window
      rw [hwindow]
      exact h.ordered.sublist hsub
    · show ∀ t ∈ (c.signals depth nowMs).window, t ≤ nowMs
      rw [hwindow]
      exact fun t ht => hnow.past t (hsub.subset ht)
  | pollDue nowMs =>
    obtain ⟨hmode, hwindow⟩ := pollDue_window h.mode nowMs
    refine ⟨hmode, ?_, ?_⟩
    · show List.Pairwise _ (c.pollDue nowMs).1.window
      rw [hwindow]
      exact h.ordered
    · show ∀ t ∈ (c.pollDue nowMs).1.window, t ≤ nowMs
      rw [hwindow]
      exact hnow.past

/-- Times that never go back keep the arrivals in order. -/
theorem Timely.run (h : c.Timely last)
    (htimes : (last :: (calls.map PressureCall.nowMs ++ [n])).Pairwise (· ≤ ·)) :
    (c.run calls).1.Timely n := by
  induction calls generalizing c last with
  | nil =>
    obtain ⟨hlast, _⟩ := List.pairwise_cons.1 htimes
    exact h.mono (hlast n List.mem_cons_self)
  | cons x calls ih =>
    obtain ⟨hlast, hrest⟩ := List.pairwise_cons.1 htimes
    exact ih (h.call x (hlast _ List.mem_cons_self)) hrest

theorem pruned_recent (c : PressureController) {l : List Nat} (hl : l.Pairwise (· ≤ ·))
    (hpast : ∀ t ∈ l, t ≤ nowMs) :
    (∀ t ∈ c.pruned nowMs l, nowMs - rateWindowMs ≤ t ∧ t ≤ nowMs) ↔
      (c.decay nowMs).rung + 1 < c.config.ladderMs.length ∨ ∀ t ∈ l, nowMs - rateWindowMs ≤ t := by
  rw [pruned]
  split
  next htop =>
    constructor
    · intro h
      exact .inr fun t ht => (h t ht).1
    · intro h t ht
      exact ⟨h.resolve_left (Nat.not_lt_of_le htop) t ht, hpast t ht⟩
  next hroom =>
    constructor
    · intro _
      exact .inl (Nat.lt_of_not_le hroom)
    · intro _ t ht
      exact ⟨dropWhile_recent hl _ t ht, hpast t ((List.dropWhile_sublist _).subset ht)⟩

/-- The step: the window is the recent one exactly where the call prunes. -/
theorem Timely.recent_iff (h : c.Timely x.nowMs) :
    (x.Observes → (c.call x).1.Recent x.nowMs) ↔ c.Prunes x := by
  cases x with
  | note p capture nowMs =>
    have h : c.Timely nowMs := h
    have hpast : ∀ t ∈ c.window ++ [nowMs], t ≤ nowMs := by
      intro t ht
      rcases List.mem_append.1 ht with ht | ht
      · exact h.past t ht
      · exact Nat.le_of_eq (List.mem_singleton.1 ht)
    have hiff := c.pruned_recent h.arrival hpast
    rw [← (note_window h.mode p capture nowMs).2] at hiff
    refine ⟨fun hrecent => (hiff.1 (hrecent trivial)).imp id fun hall t ht => ?_, fun hp _ => ?_⟩
    · exact hall t (List.mem_append_left _ ht)
    · refine hiff.2 (hp.imp id fun hall t ht => ?_)
      rcases List.mem_append.1 ht with ht | ht
      · exact hall t ht
      · rw [List.mem_singleton.1 ht]
        exact Nat.sub_le _ _
  | signals depth nowMs =>
    have h : c.Timely nowMs := h
    have hiff := c.pruned_recent h.ordered h.past
    rw [← (signals_window h.mode depth nowMs).2] at hiff
    exact ⟨fun hrecent => hiff.1 (hrecent trivial), fun hp _ => hiff.2 hp⟩
  | pollDue nowMs => exact ⟨fun _ => trivial, fun _ h => h.elim⟩

theorem decide_counted (h : c.stagedBytes = c.hinted) (p : RelPath) (capture : CaptureInput)
    (nowMs interval : Nat) (hfits : (c.decide p capture nowMs interval).1.hinted ≤ u64Max) :
    (c.decide p capture nowMs interval).1.stagedBytes =
      (c.decide p capture nowMs interval).1.hinted := by
  rw [decide] at hfits ⊢
  split at hfits
  next hfree =>
    rw [if_pos hfree]
    exact h
  next hfree =>
    rw [if_neg hfree]
    rw [hinted, Tally.insert] at hfits ⊢
    cases hold : c.staging[p]? with
    | none =>
      have herase := Tally.erase_none (f := StagedCapture.sizeHint) hold
      dsimp only at hfits ⊢
      rw [hinted] at h
      rw [saturatingAdd]
      omega
    | some old =>
      have herase := Tally.erase_some (f := StagedCapture.sizeHint) hold
      dsimp only at hfits ⊢
      rw [hinted] at h
      rw [saturatingAdd]
      omega

theorem pollDue_counted (h : c.stagedBytes = c.hinted) (nowMs : Nat) :
    (c.pollDue nowMs).1.stagedBytes = (c.pollDue nowMs).1.hinted := by
  have hkeys : ((c.staging.toList.filter fun e => e.2.dueAtMs ≤ nowMs).map Prod.fst).Nodup := by
    apply List.Nodup.sublist ((List.filter_sublist).map Prod.fst)
    rw [Std.ExtTreeMap.map_fst_toList_eq_keys]
    exact Std.ExtTreeMap.nodup_keys
  have hsum := Tally.erase_all (f := StagedCapture.sizeHint) hkeys fun e he =>
    Tally.mem_entries.1 (List.mem_of_mem_filter he)
  have hsub : ∀ (l : List (RelPath × StagedCapture)) (n : Nat),
      l.foldl (fun n e => n - e.2.sizeHint) n = n - (l.map fun e => e.2.sizeHint).sum := by
    intro l
    induction l with
    | nil => exact fun n => rfl
    | cons e l ih =>
      intro n
      rw [List.foldl_cons, ih, List.map_cons, List.sum_cons, Nat.sub_sub]
  have hbytes : (c.pollDue nowMs).1.stagedBytes = c.stagedBytes -
      ((c.staging.toList.filter fun e => e.2.dueAtMs ≤ nowMs).map fun e => e.2.sizeHint).sum := by
    obtain ⟨rung, anchor, hdecay⟩ := c.decay_cases nowMs
    rw [← hsub, pollDue]
    split
    · rw [hdecay]
    · rfl
  rw [hbytes, hinted, (pollDue_eq c nowMs).1, h, hinted]
  omega

/-- The step: the bytes are counted where they fit. -/
theorem call_counted (h : c.stagedBytes = c.hinted) (x : PressureCall)
    (hfits : (c.call x).1.hinted ≤ u64Max) : (c.call x).1.stagedBytes = (c.call x).1.hinted := by
  cases x with
  | note p capture nowMs =>
    cases hmode : c.mode with
    | off | everyChange =>
      simp only [PressureController.call, PressureController.note, hmode]
      exact h
    | intervalMs interval =>
      simp only [PressureController.call, note_interval hmode] at hfits ⊢
      exact decide_counted h p capture nowMs interval hfits
    | adaptive =>
      simp only [PressureController.call, note_adaptive hmode] at hfits ⊢
      refine decide_counted ?_ p capture nowMs _ hfits
      obtain ⟨rung, anchor, hdecay⟩ := c.decay_cases nowMs
      obtain ⟨rung', hclimb⟩ := escalate_cases
        { c.decay nowMs with window := (c.decay nowMs).window ++ [nowMs] } nowMs false
      rw [hinted, staging_noted, noted, hclimb, hdecay]
      exact h
  | signals depth nowMs =>
    cases hmode : c.mode with
    | off | everyChange | intervalMs =>
      simp only [PressureController.call, PressureController.signals, hmode]
      exact h
    | adaptive =>
      simp only [PressureController.call, PressureController.signals, hmode]
      obtain ⟨rung, anchor, hdecay⟩ := c.decay_cases nowMs
      obtain ⟨rung', hclimb⟩ := (c.decay nowMs).escalate_cases nowMs (queueHighWater < depth)
      rw [hclimb, hdecay]
      exact h
  | pollDue nowMs => exact pollDue_counted h nowMs

theorem run_counted (h : c.stagedBytes = c.hinted) (calls : List PressureCall)
    (hfits : ∀ l, l <+: calls → (c.run l).1.hinted ≤ u64Max) :
    (c.run calls).1.stagedBytes = (c.run calls).1.hinted := by
  induction calls generalizing c with
  | nil => exact h
  | cons x calls ih =>
    have hx := hfits [x] ⟨calls, rfl⟩
    refine ih (call_counted h x hx) fun l hl => ?_
    exact hfits (x :: l) ((List.prefix_cons_inj x).2 hl)

/-- The memory of an adaptive controller is bounded after every call of a run exactly where every
call prunes the window or finds nothing to prune. -/
theorem memory_bounded_iff (config : PressureConfig) (calls : List PressureCall)
    (htimes : (calls.map PressureCall.nowMs).Pairwise (· ≤ ·)) :
    (∀ before x, before ++ [x] <+: calls → MemoryBounded (new .adaptive config) before x) ↔
      ∀ before x, before ++ [x] <+: calls →
        ((new .adaptive config).run before).1.Prunes x := by
  have hstep : ∀ before x, before ++ [x] <+: calls →
      ((x.Observes → ((new .adaptive config).run (before ++ [x])).1.Recent x.nowMs) ↔
        ((new .adaptive config).run before).1.Prunes x) := by
    intro before x hbefore
    have hstart : (new .adaptive config).Timely 0 := ⟨rfl, .nil, nofun⟩
    have htimely : (((new .adaptive config).run before).1).Timely x.nowMs := by
      apply hstart.run
      apply List.pairwise_cons.2
      refine ⟨fun t _ => Nat.zero_le t, ?_⟩
      have hsub := htimes.sublist (hbefore.sublist.map PressureCall.nowMs)
      rwa [List.map_append] at hsub
    rw [run_append]
    exact htimely.recent_iff
  constructor
  · intro h before x hbefore
    exact (hstep before x hbefore).1 (h before x hbefore).recent
  · intro h before x hbefore
    constructor
    case recent => exact (hstep before x hbefore).2 (h before x hbefore)
    case counted => exact run_counted rfl _
    case single =>
      rw [Std.ExtTreeMap.map_fst_toList_eq_keys]
      exact Std.ExtTreeMap.nodup_keys

/-- A note at the start and the signals of five seconds later. -/
theorem memory_bounded_pause :
    MemoryBounded (new .adaptive {}) [.note onePath oneCapture 0] (.signals 3 5000) := by
  apply (memory_bounded_iff {} [.note onePath oneCapture 0, .signals 3 5000] (by decide)).2
  · rintro before x ⟨rest, he⟩
    cases before with
    | nil =>
      cases he
      exact .inl (by decide +kernel)
    | cons y before =>
      cases before with
      | nil =>
        cases he
        exact .inl (by decide +kernel)
      | cons z before => cases before <;> cases he
  · exact List.prefix_refl _

def oneRung : PressureConfig := { ladderMs := [1000] }

/-- With one rung the first arrival is still in the window after two seconds. -/
theorem one_rung_keeps_all :
    ¬ ∀ before x, before ++ [x] <+: [.note onePath oneCapture 0, .note onePath oneCapture 2000] →
      MemoryBounded (new .adaptive oneRung) before x := by
  intro h
  have hrecent := (h [.note onePath oneCapture 0] (.note onePath oneCapture 2000)
    (List.prefix_refl _)).recent trivial
  have hwindow : ((new .adaptive oneRung).run
      ([.note onePath oneCapture 0] ++ [.note onePath oneCapture 2000])).1.window = [0, 2000] := by
    rfl
  have hold := (hrecent 0 (hwindow ▸ List.mem_cons_self)).1
  exact absurd hold (by decide)

end PressureController

end Tomo
