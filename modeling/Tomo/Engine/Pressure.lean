import Tomo.Engine.Index

namespace Tomo
set_option autoImplicit true

def rateWindowMs : Nat := 1000

def queueHighWater : Nat := 64

/-- Tuning of the adaptive capture controller. No rate is above a threshold of `none`, which stands
for the infinite one and for what is not a number. -/
structure PressureConfig where
  ladderMs : List Nat := [0, 250, 1000, 5000]
  escalateEventsPerSec : Option Rat := some 20
  decayIdleMs : Nat := 2000
  maxStagedBytes : Nat := 8 * 1024 * 1024
  minCaptureWindowMs : Nat := 75

inductive HistoryMode where
  | adaptive
  | everyChange
  | off
  | intervalMs (interval : Nat)
deriving DecidableEq

/-- A version to record, with the hints the controller needs. -/
structure CaptureInput where
  state : EntryState
  version : VectorClock
  originIsLocal : Bool
  sizeHint : Nat

/-- A capture waiting for its deadline. -/
structure StagedCapture where
  state : EntryState
  version : VectorClock
  originIsLocal : Bool
  stagedAtMs : Nat
  dueAtMs : Nat
  sizeHint : Nat

inductive CaptureDecision where
  | immediate
  | deferred (dueAtMs : Nat)
  | dropped
deriving DecidableEq

/-- The history pressure controller. Times are the ones it is fed. -/
structure PressureController where
  mode : HistoryMode
  config : PressureConfig
  rung : Nat
  staging : Std.ExtTreeMap RelPath StagedCapture
  stagedBytes : Nat
  window : List Nat
  decayAnchorMs : Nat

/-- The comparison of a rate with the threshold. -/
def exceeds (rate : Nat) : Option Rat → Bool
  | none => false
  | some threshold => decide (threshold < rate)

namespace PressureController

def new (mode : HistoryMode) (config : PressureConfig) : PressureController where
  mode
  config := if config.ladderMs = [] then { config with ladderMs := [0] } else config
  rung := 0
  staging := ∅
  stagedBytes := 0
  window := []
  decayAnchorMs := 0

/-- Stage `capture`, or record it at once when its interval is zero and nothing is staged. -/
def decide (c : PressureController) (p : RelPath) (capture : CaptureInput) (nowMs interval : Nat) :
    PressureController × CaptureDecision :=
  if interval = 0 ∧ c.staging[p]?.isNone then (c, .immediate)
  else
    let ladderDue := saturatingAdd nowMs interval
    let (dueAtMs, prevBytes) := match c.staging[p]? with
      | some existing => (min existing.dueAtMs ladderDue, existing.sizeHint)
      | none => (ladderDue, 0)
    ({ c with
        stagedBytes := saturatingAdd (c.stagedBytes - prevBytes) capture.sizeHint
        staging := c.staging.insert p ⟨capture.state, capture.version, capture.originIsLocal,
          nowMs, dueAtMs, capture.sizeHint⟩ }, .deferred dueAtMs)

/-- Drop one rung for each whole idle period since the anchor. -/
def decay (c : PressureController) (nowMs : Nat) : PressureController :=
  if c.config.decayIdleMs = 0 ∨ nowMs ≤ c.decayAnchorMs then c
  else
    let steps := (nowMs - c.decayAnchorMs) / c.config.decayIdleMs
    if steps = 0 then c
    else { c with
      rung := c.rung - steps
      decayAnchorMs := saturatingAdd c.decayAnchorMs (min (steps * c.config.decayIdleMs) u64Max) }

/-- Prune the window of arrivals; its length is the rate. -/
def observedRate (c : PressureController) (nowMs : Nat) : PressureController × Nat :=
  let window := c.window.dropWhile fun t => t < nowMs - rateWindowMs
  ({ c with window }, window.length)

def escalate (c : PressureController) (nowMs : Nat) (queueHigh : Bool) : PressureController :=
  if c.config.ladderMs.length ≤ c.rung + 1 then c
  else
    let (c, rate) := c.observedRate nowMs
    if exceeds rate c.config.escalateEventsPerSec ∨ c.config.maxStagedBytes < c.stagedBytes ∨ queueHigh
    then { c with rung := c.rung + 1 }
    else c

/-- Stage, replace or pass through the capture of one recorded version. -/
def note (c : PressureController) (p : RelPath) (capture : CaptureInput) (nowMs : Nat) :
    PressureController × CaptureDecision :=
  match c.mode with
  | .off => (c, .dropped)
  | .everyChange => (c, .immediate)
  | .intervalMs interval => c.decide p capture nowMs interval
  | .adaptive =>
    let c := c.decay nowMs
    let c := { c with window := c.window ++ [nowMs] }
    let c := c.escalate nowMs false
    let c := { c with decayAnchorMs := nowMs }
    let interval := max (c.config.ladderMs.getD c.rung 0) c.config.minCaptureWindowMs
    c.decide p capture nowMs interval

/-- Feed the queue depth; it may climb one rung. -/
def signals (c : PressureController) (historyQueueDepth nowMs : Nat) : PressureController :=
  match c.mode with
  | .adaptive => (c.decay nowMs).escalate nowMs (queueHighWater < historyQueueDepth)
  | _ => c

/-- Whether one due capture goes before another: by deadline, then by path. -/
def dueBefore (a b : RelPath × StagedCapture) : Bool :=
  a.2.dueAtMs < b.2.dueAtMs || (a.2.dueAtMs == b.2.dueAtMs && (compare a.1 b.1).isLE)

/-- Take out every capture whose deadline has come. -/
def pollDue (c : PressureController) (nowMs : Nat) :
    PressureController × List (RelPath × StagedCapture) :=
  let c := match c.mode with
    | .adaptive => c.decay nowMs
    | _ => c
  let due := c.staging.toList.filter fun e => e.2.dueAtMs ≤ nowMs
  ({ c with
      staging := due.foldl (fun m e => m.erase e.1) c.staging
      stagedBytes := due.foldl (fun n e => n - e.2.sizeHint) c.stagedBytes },
    due.insertionSort fun a b => dueBefore a b = true)

def nextDueMs (c : PressureController) : Option Nat :=
  (c.staging.toList.map fun e => e.2.dueAtMs).min?

theorem staging_decay (c : PressureController) (nowMs : Nat) :
    (c.decay nowMs).staging = c.staging := by
  rw [decay]
  split
  · rfl
  · dsimp only
    split <;> rfl

theorem staging_escalate (c : PressureController) (nowMs : Nat) (high : Bool) :
    (c.escalate nowMs high).staging = c.staging := by
  rw [escalate]
  split
  · rfl
  · dsimp only [observedRate]
    split <;> rfl

theorem staging_signals (c : PressureController) (depth nowMs : Nat) :
    (c.signals depth nowMs).staging = c.staging := by
  rw [signals]
  split
  · rw [staging_escalate, staging_decay]
  · rfl

theorem foldl_erase_getElem? (l : List (RelPath × StagedCapture))
    (m : Std.ExtTreeMap RelPath StagedCapture) (p : RelPath) :
    (l.foldl (fun m e => m.erase e.1) m)[p]? = if p ∈ l.map Prod.fst then none else m[p]? := by
  induction l generalizing m with
  | nil => rfl
  | cons e l ih =>
    rw [List.foldl_cons, ih, Std.ExtTreeMap.getElem?_erase, List.map_cons]
    by_cases hl : p ∈ l.map Prod.fst
    · rw [if_pos hl, if_pos (List.mem_cons_of_mem _ hl)]
    · by_cases he : p = e.1
      · subst he
        simp
      · have hne : compare e.1 p ≠ .eq := by
          rw [Ne, Std.compare_eq_iff_eq]
          exact Ne.symm he
        rw [if_neg hl, if_neg hne, if_neg]
        exact fun hmem => (List.mem_cons.mp hmem).elim he hl

theorem pollDue_eq (c : PressureController) (nowMs : Nat) :
    let due := c.staging.toList.filter fun e => e.2.dueAtMs ≤ nowMs
    (c.pollDue nowMs).1.staging = due.foldl (fun m e => m.erase e.1) c.staging ∧
      (c.pollDue nowMs).2 = due.insertionSort fun a b => dueBefore a b = true := by
  rw [pollDue]
  split
  · simp only [staging_decay]
    exact ⟨trivial, trivial⟩
  · exact ⟨rfl, rfl⟩

/-- What a poll returns is what is staged and due. -/
theorem mem_pollDue (c : PressureController) (nowMs : Nat) {p : RelPath} {cap : StagedCapture} :
    (p, cap) ∈ (c.pollDue nowMs).2 ↔ c.staging[p]? = some cap ∧ cap.dueAtMs ≤ nowMs := by
  rw [(pollDue_eq c nowMs).2, (List.perm_insertionSort _ _).mem_iff, List.mem_filter,
    Std.ExtTreeMap.mem_toList_iff_getElem?_eq_some]
  simp

/-- A poll leaves what is not due yet. -/
theorem pollDue_staging (c : PressureController) (nowMs : Nat) (p : RelPath) :
    (c.pollDue nowMs).1.staging[p]? = c.staging[p]?.filter fun cap => nowMs < cap.dueAtMs := by
  have hkeys : p ∈ (c.staging.toList.filter fun e => e.2.dueAtMs ≤ nowMs).map Prod.fst ↔
      ∃ cap, c.staging[p]? = some cap ∧ cap.dueAtMs ≤ nowMs := by
    simp [Std.ExtTreeMap.mem_toList_iff_getElem?_eq_some]
  rw [(pollDue_eq c nowMs).1, foldl_erase_getElem?]
  cases hcap : c.staging[p]? with
  | none => split <;> rfl
  | some cap =>
    by_cases hdue : cap.dueAtMs ≤ nowMs
    · have hmem := hkeys.mpr ⟨cap, hcap, hdue⟩
      have hle : ¬nowMs < cap.dueAtMs := by omega
      simp [hmem, hle, Option.filter]
    · have hmem : p ∉ (c.staging.toList.filter fun e => e.2.dueAtMs ≤ nowMs).map Prod.fst := by
        rw [hkeys, hcap]
        rintro ⟨cap', heq, hle⟩
        cases heq
        exact hdue hle
      have hlt : nowMs < cap.dueAtMs := by omega
      simp [hmem, hlt, Option.filter]

/-- A poll returns a path at most once. -/
theorem pollDue_nodup (c : PressureController) (nowMs : Nat) :
    ((c.pollDue nowMs).2.map Prod.fst).Nodup := by
  rw [(pollDue_eq c nowMs).2, ((List.perm_insertionSort _ _).map Prod.fst).nodup_iff]
  apply List.Nodup.sublist ((List.filter_sublist).map Prod.fst)
  rw [Std.ExtTreeMap.map_fst_toList_eq_keys]
  exact Std.ExtTreeMap.nodup_keys

end PressureController

end Tomo
