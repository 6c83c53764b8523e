import Tomo.History.Content
import Tomo.Session.Recording
import Tomo.Session.Upkeep

namespace Tomo
set_option autoImplicit true

namespace PressureController

/-- A controller stages captures of allowed paths only. -/
def Stages (allowed : RelPath → Prop) (c : PressureController) : Prop :=
  ∀ p, (c.staging[p]?).isSome = true → allowed p

variable {allowed : RelPath → Prop} {c : PressureController}

theorem decide_stages (h : c.Stages allowed) (hp : allowed p) (capture : CaptureInput)
    (nowMs interval : Nat) : (c.decide p capture nowMs interval).1.Stages allowed := by
  rw [decide]
  split
  · exact h
  · intro q hq
    simp only [Std.ExtTreeMap.getElem?_insert, Std.compare_eq_iff_eq] at hq
    split at hq
    next he =>
      subst he
      exact hp
    next => exact h q hq

theorem note_stages (h : c.Stages allowed) (hp : allowed p) (capture : CaptureInput)
    (nowMs : Nat) : (c.note p capture nowMs).1.Stages allowed := by
  rw [note]
  split
  · exact h
  · exact h
  · exact decide_stages h hp capture nowMs _
  · apply decide_stages _ hp
    intro q hq
    apply h
    rw [← staging_decay c nowMs]
    simp only [staging_escalate] at hq
    exact hq

theorem signals_stages (h : c.Stages allowed) (depth nowMs : Nat) :
    (c.signals depth nowMs).Stages allowed := by
  rw [signals]
  split
  · intro q hq
    rw [staging_escalate, staging_decay] at hq
    exact h q hq
  · exact h

/-- What is taken out was staged. -/
theorem pollDue_stages (h : c.Stages allowed) (nowMs : Nat) :
    (c.pollDue nowMs).1.Stages allowed ∧ ∀ e ∈ (c.pollDue nowMs).2, allowed e.1 := by
  constructor
  · intro p hp
    rw [pollDue_staging] at hp
    apply h
    cases hcap : c.staging[p]? with
    | none => simp [hcap] at hp
    | some cap => rfl
  · intro e he
    apply h
    rw [((mem_pollDue c nowMs).mp he).1]
    rfl

end PressureController

/-- The tables begin with the given rows, and all others are about allowed paths. -/
structure Appended (allowed : RelPath → Prop) (vs : List VersionRow)
    (cs : List ConflictRow) (h : HistoryStore) : Prop where
  versions : ∃ l, h.versions = vs ++ l ∧ ∀ r ∈ l, allowed r.path
  conflicts : ∃ l, h.conflicts = cs ++ l ∧ ∀ r ∈ l, allowed r.path

/-- Whatever is recorded, or is about to be, is about allowed paths. -/
structure Ledger (allowed : RelPath → Prop) (vs : List VersionRow) (cs : List ConflictRow)
    (h : HistoryStore) (pressure : PressureController) : Prop where
  rows : Appended allowed vs cs h
  staged : pressure.Stages allowed

theorem Appended.recordVersion [Platform] {allowed : RelPath → Prop}
    (h : Appended allowed vs cs hist) (hp : allowed p) {content : Option Bytes}
    (hr : hist.recordVersion p state clock replica origin wallMs content = .ok (hist', n)) :
    Appended allowed vs cs hist' := by
  obtain ⟨hc, l, hl, hpath⟩ := HistoryStore.recordVersion_adds hr
  obtain ⟨l', hl', hall⟩ := h.versions
  constructor
  · refine ⟨l' ++ l, by rw [hl, hl', List.append_assoc], fun r hr => ?_⟩
    rcases List.mem_append.1 hr with hr | hr
    · exact hall r hr
    · rw [hpath r hr]
      exact hp
  · rw [hc]
    exact h.conflicts

theorem Appended.recordVersions [Platform] {allowed : RelPath → Prop}
    {records : List HistoryStore.VersionRecord} (h : Appended allowed vs cs hist)
    (hp : ∀ r ∈ records, allowed r.path) (hr : hist.recordVersions records = .ok r) :
    Appended allowed vs cs r.1 := by
  rw [HistoryStore.recordVersions] at hr
  generalize hst : (hist, ([] : List Nat)) = st at hr
  have h : Appended allowed vs cs st.1 := by
    rw [← hst]
    exact h
  clear hst
  induction records generalizing st with
  | nil =>
    cases hr
    exact h
  | cons d rest ih =>
    rw [List.foldlM_cons] at hr
    cases hd : st.1.recordVersion d.path d.state d.clock d.replica d.origin d.wallMs d.bytes with
    | error e =>
      simp only [hd] at hr
      cases hr
    | ok r' =>
      simp only [hd] at hr
      exact ih (fun b hb => hp b (List.mem_cons_of_mem d hb)) _ hr
        (h.recordVersion (hp d List.mem_cons_self) hd)

namespace Session
open Eff
variable {allowed : RelPath → Prop} {vs : List VersionRow} {cs : List ConflictRow}
  {s : Session} {p : RelPath}

def Filed (allowed : RelPath → Prop) (vs : List VersionRow) (cs : List ConflictRow)
    (s : Session) : Prop :=
  Ledger allowed vs cs s.history s.pressure

section
variable [Platform]

theorem storeVersion_upholds (hp : allowed p) (state : EntryState) (version : VectorClock)
    (l : Bool) (bytes : Option Bytes) (s : Session) :
    Upholds (Filed allowed vs cs) (storeVersion p state version l bytes) s := by
  constructor
  intro h
  simp only [storeVersion, exec_get_bind]
  cases hr : s.history.recordVersion p state version (s.attribution l).2 (s.attribution l).1
      s.wallMs bytes with
  | error e => exact h
  | ok r => exact ⟨h.rows.recordVersion hp hr, h.staged⟩

theorem dueRecords_path {due : List (RelPath × StagedCapture)} (hp : ∀ e ∈ due, allowed e.1) :
    ∀ r ∈ s.dueRecords due, allowed r.path := by
  intro r hr
  obtain ⟨⟨q, cap⟩, he, hr⟩ := List.mem_filterMap.1 hr
  have hq : r.path = q := by
    dsimp only at hr
    split at hr
    · obtain ⟨b, _, rfl⟩ := Option.map_eq_some_iff.1 hr
      rfl
    · cases hr
      rfl
  rw [hq]
  exact hp _ he

theorem recordDueVersions_upholds {due : List (RelPath × StagedCapture)}
    (hp : ∀ e ∈ due, allowed e.1) (s : Session) :
    Upholds (Filed allowed vs cs) (recordDueVersions due) s := by
  refine .get <| .ite (.pure _ s) ⟨fun h => ?_⟩
  cases hr : s.history.recordVersions (s.dueRecords due) with
  | error e => exact h
  | ok r => exact ⟨h.rows.recordVersions (dueRecords_path hp) hr, h.staged⟩

theorem pumpHistory_upholds (s : Session) : Upholds (Filed allowed vs cs) pumpHistory s := by
  refine .assuming fun h => ?_
  have hs := PressureController.signals_stages h.staged s.pressure.staging.size s.nowMs
  obtain ⟨hpoll, hdue⟩ := PressureController.pollDue_stages hs s.nowMs
  refine .get <| Upholds.bind (.set fun _ => ⟨h.rows, hpoll⟩) fun _ s' => ?_
  exact recordDueVersions_upholds hdue s'

theorem drainHistory_upholds (s : Session) : Upholds (Filed allowed vs cs) drainHistory s := by
  apply drainHistory_keeps
  intro nowMs s h
  obtain ⟨hpoll, hdue⟩ := PressureController.pollDue_stages h.staged nowMs
  exact ⟨⟨h.rows, hpoll⟩, recordDueVersions_upholds hdue⟩

theorem filed_recorder :
    Recorder (fun p _ _ => allowed p) (Filed allowed vs cs) where
  indifferent {s s'} h hh hp := by
    rw [Filed, hh, hp]
    exact h
  store hp l bytes s := storeVersion_upholds hp _ _ l bytes s
  stage hp l hint nowMs _ h := ⟨h.rows, PressureController.note_stages h.staged hp _ nowMs⟩
  conflict {p _ _} hp winner loser s h := by
    obtain ⟨l, hl, hall⟩ := h.rows.conflicts
    let row : ConflictRow := ⟨s.history.lastConflict + 1, p, winner, loser, s.wallMs⟩
    have hrow : (s.history.recordConflict p winner loser s.wallMs).1.conflicts =
        cs ++ (l ++ [row]) := by
      rw [HistoryStore.recordConflict, hl, List.append_assoc]
    refine ⟨⟨h.rows.versions, l ++ [row], hrow, fun r hr => ?_⟩, h.staged⟩
    rcases List.mem_append.1 hr with hr | hr
    · exact hall r hr
    · rw [List.mem_singleton.1 hr]
      exact hp

theorem doApply_filed (hp : Within allowed p) (target : Expectation) (bytes : Option Bytes)
    (s : Session) : Upholds (Filed allowed vs cs) (doApply p target bytes) s := by
  refine filed_recorder.doApply (fun _ _ _ => hp.self) (fun rel hrel _ _ => ?_) target bytes
  exact hp rel (hrel.trans (List.dropLast_prefix _))

/-- What is filed is kept up by every operation of a session. -/
theorem filed_kept : Tacit allowed (Filed allowed vs cs) where
  tacit {s s'} h hs := by
    have hh : s'.stake.history = s.stake.history := by rw [hs]
    have hp : s'.stake.pressure = s.stake.pressure := by rw [hs]
    exact filed_recorder.indifferent h hh hp
  unstage h := h
  flush := filed_recorder.flushInstalls
  store hp := storeVersion_upholds hp
  note hp _ _ l nowMs s := filed_recorder.noteVersion hp l nowMs s
  conflict hp s := filed_recorder.recordConflictCapture hp hp s
  apply hp target bytes s _ := doApply_filed hp target bytes s
  pump := pumpHistory_upholds
  drain := drainHistory_upholds

end

end Session

end Tomo
