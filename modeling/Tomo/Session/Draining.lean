import Tomo.Engine.Staging
import Tomo.Session.Pump

namespace Tomo
set_option autoImplicit true

/-- The replica with the highest counter; the last of them where several have it. -/
def VectorClock.author (c : VectorClock) : Option ReplicaId :=
  (c.iter.foldl (fun best e => match best with
    | some b => if b.2 ≤ e.2 then some e else best
    | none => some e) (none : Option (ReplicaId × Nat))).map Prod.fst

namespace Session
open Eff
variable [Platform]

/-- The versions that due captures stand for, as far as the disk still shows them. -/
def dueRecords (s : Session) (due : List (RelPath × StagedCapture)) :
    List HistoryStore.VersionRecord :=
  due.filterMap fun (p, cap) =>
    let (origin, replica) := s.attribution cap.originIsLocal
    match cap.state with
    | .present sig => (readVerified s.tree s.root p sig).map fun bytes =>
      ⟨p, cap.state, cap.version, replica, origin, s.wallMs, some bytes⟩
    | .tombstone => some ⟨p, cap.state, cap.version, replica, origin, s.wallMs, none⟩

def recordDueVersions (due : List (RelPath × StagedCapture)) : SessionM Unit := do
  let s ← get
  let records := s.dueRecords due
  if records.isEmpty then pure ()
  else
    let (history, _) ← liftHistory (s.history.recordVersions records)
    modify fun s => { s with history }

/-- Record every capture whose deadline has come. -/
def pumpHistory : SessionM Unit := do
  let s ← get
  let pressure := s.pressure.signals s.pressure.staging.size s.nowMs
  let (pressure, due) := pressure.pollDue s.nowMs
  set { s with pressure }
  recordDueVersions due

/-- Poll at each next deadline; a poll takes out a capture at least, so their number bounds the
polls. -/
def drainFrom : Nat → Nat → SessionM Unit
  | 0, _ => pure ()
  | n + 1, nowMs => do
    let s ← get
    match s.pressure.nextDueMs with
    | none => pure ()
    | some dueMs =>
      let nowMs := max nowMs dueMs
      let (pressure, due) := s.pressure.pollDue nowMs
      set { s with pressure }
      recordDueVersions due
      drainFrom n nowMs

/-- Record everything that is staged, at shutdown. -/
def drainHistory : SessionM Unit := do
  let s ← get
  drainFrom s.pressure.staging.size s.nowMs

/-- What each poll keeps, with the recording of what it takes out, the drain keeps. -/
theorem drainHistory_keeps {I : Session → Prop}
    (hpoll : ∀ nowMs s, I s → I { s with pressure := (s.pressure.pollDue nowMs).1 } ∧
      ∀ s', Upholds I (recordDueVersions (s.pressure.pollDue nowMs).2) s') (s : Session) :
    Upholds I drainHistory s := by
  have hdrain (n nowMs : Nat) (s : Session) : Upholds I (drainFrom n nowMs) s := by
    induction n generalizing nowMs s with
    | zero => exact .pure _ s
    | succ n ih =>
      refine .assuming fun h => .get ?_
      split
      · exact .pure _ s
      next dueMs _ =>
        obtain ⟨hset, hrecord⟩ := hpoll (max nowMs dueMs) s h
        refine Upholds.bind (.set fun _ => hset) fun _ s' => ?_
        exact (hrecord s').bind fun _ s' => ih _ s'
  exact .get <| hdrain _ _ s

theorem recordDueVersions_pressure (due : List (RelPath × StagedCapture)) (s : Session) :
    Leaves Session.pressure (recordDueVersions due) s := by
  apply Leaves.get
  dsimp only
  split
  · exact .pure _ _ s
  · apply Leaves.bind
    · cases s.history.recordVersions (s.dueRecords due) with
      | ok a => exact .pure _ a s
      | error e => exact .throw _ _ s
    · intro a s' hs'
      exact .modify rfl

/-- The loop takes the controller through the polls of `drain`. -/
theorem drainFrom_pressure {n nowMs : Nat} {s s' : Session}
    (h : (drainFrom n nowMs).exec s = (.ok (), s')) :
    s'.pressure = PressureController.drain n nowMs s.pressure := by
  induction n generalizing nowMs s with
  | zero =>
    cases h
    rfl
  | succ n ih =>
    rw [drainFrom, exec_get_bind] at h
    rw [PressureController.drain]
    cases hdue : s.pressure.nextDueMs with
    | none =>
      rw [hdue] at h
      cases h
      rfl
    | some dueMs =>
      simp only [hdue, exec_set_bind] at h
      obtain ⟨_, s₁, hrecord, hrest⟩ := ok_of_bind h
      have hkept := recordDueVersions_pressure (s.pressure.pollDue (max nowMs dueMs)).2
        { s with pressure := (s.pressure.pollDue (max nowMs dueMs)).1 }
      rw [Leaves, hrecord] at hkept
      exact (ih hrest).trans (congrArg _ hkept)

/-- After a drain that met no error nothing is staged. -/
theorem drainHistory_empties {s s' : Session} (h : drainHistory.exec s = (.ok (), s')) :
    s'.pressure.staging.size = 0 := by
  rw [drainHistory, exec_get_bind] at h
  rw [drainFrom_pressure h]
  exact PressureController.drain_empty (Nat.le_refl _) _

/-- The winners of the index that history has no version of. -/
def missingVersions (s : Session) : List (RelPath × EntryState × VectorClock × Bool) :=
  s.engine.index.iter.filterMap fun (p, entry) =>
    let head := entry.winner
    let present := match head.state with
      | .present _ => true
      | .tombstone => false
    if s.history.hasIdentity p head.version present then none
    else some (p, head.state, head.version,
      (head.version.author.map fun a => decide (a = s.engine.replica)).getD true)

/-- The first replica but ours that the index knows of. -/
def indexPeer (s : Session) : Option ReplicaId :=
  (s.engine.index.iter.flatMap fun e => e.2.heads.flatMap fun h => h.version.iter.map Prod.fst).find?
    fun r => decide (r ≠ s.engine.replica)

/-- Stage a capture for every winner that a crash left out of history. -/
def reconcileHistoryCompleteness : SessionM Unit := do
  modify fun s => { s with peerReplica := s.peerReplica.or s.indexPeer }
  let s ← get
  s.missingVersions.forM fun (p, state, version, originIsLocal) =>
    noteVersion p state version originIsLocal s.nowMs

end Session

end Tomo
