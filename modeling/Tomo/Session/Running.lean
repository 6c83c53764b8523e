import Tomo.Session.Upkeep

namespace Tomo
set_option autoImplicit true

/-- What others may change around a session between two passes of its loop. -/
structure Surroundings where
  tree : Tree
  diskFull : Bool
  nowMs : Nat
  wallMs : Nat
  paused : Bool
  linkBroken : Bool

/-- What the loop of a session does, one at a time and in any order. -/
inductive Pass where
  | startupScan
  | completeHistory
  | connect
  | burst (batch : List Arrival)
  | shipBulk
  | rescan
  | pumpHistory
  | retryStall
  | drainHistory
  | around (w : Surroundings)

/-- Where everything is allowed, every item is. -/
theorem Incoming.admitted_all (cfg : Config) (item : Incoming) :
    item.Admitted cfg (fun _ => True) := by
  cases item with
  | watch signal =>
    cases signal with
    | pending rel kind => exact fun _ _ => trivial
    | needsRescan => trivial
  | message msg =>
    cases msg with
    | change c bytes => exact fun _ _ _ => trivial
    | changeManifest c total manifest => exact fun _ _ _ => trivial
    | _ => trivial
  | _ => trivial

namespace Session
open Eff

/-- A session as its surroundings have become. -/
def amid (w : Surroundings) (s : Session) : Session :=
  { s with
    tree := w.tree
    diskFull := w.diskFull
    nowMs := w.nowMs
    wallMs := w.wallMs
    paused := w.paused
    transport := s.transport.map fun t => ⟨t.broken || w.linkBroken⟩ }

section
variable [Platform]

def work : Pass → SessionM Unit
  | .startupScan => startupScan
  | .completeHistory => reconcileHistoryCompleteness
  | .connect => onConnected
  | .burst batch => discard (processBurst batch)
  | .shipBulk => shipBulkSubbatch
  | .rescan => maybeRescan
  | .pumpHistory => pumpHistory
  | .retryStall => maybeRetryStall
  | .drainHistory => drainHistory
  | .around w => modify (amid w)

/-- The session after a pass, also one that fails. -/
def after (s : Session) (pass : Pass) : Session := ((work pass).exec s).2

/-- Whatever a pass takes up is allowed. -/
def PassAdmitted (allowed : RelPath → Prop) (s : Session) : Pass → Prop
  | .startupScan | .rescan => s.ScanAdmitted allowed
  | .completeHistory => ∀ e ∈ s.missingVersions, allowed e.1
  | .burst batch => ∀ a ∈ batch, a.item.Admitted s.config allowed
  | _ => True

def Step (s s' : Session) : Prop := ∃ pass, s' = s.after pass

def AdmittedStep (allowed : RelPath → Prop) (s s' : Session) : Prop :=
  ∃ pass, s.PassAdmitted allowed pass ∧ s' = s.after pass

variable {cfg : Config} {allowed assembled : RelPath → Prop} {I : Session → Prop} {s s' : Session}

/-- A session that an item has reached, and with it perhaps the news that the link is broken. -/
def reached (a : Arrival) (s : Session) : Session :=
  if a.linkBreaks then { s with transport := s.transport.map fun _ => ⟨true⟩ } else s

/-- What is left to do once an item has been processed. -/
def goOn (a : Arrival) (rest : List Arrival) : SessionM Bool := do
  let s ← get
  if s.repushRequested then pure true
  else
    if s.installBatchFull a.elapsedMs then flushInstalls
    processItems rest

theorem processItems_cons (a : Arrival) (rest : List Arrival) (s : Session) :
    (processItems (a :: rest)).exec s = Eff.exec (do
      if ← processIncoming a.item then pure true else goOn a rest) (s.reached a) := by
  rw [processItems, reached]
  split <;> rfl

theorem goOn_append (a : Arrival) (pre post : List Arrival) (s : Session)
    (ih : ∀ s, (processItems (pre ++ post)).exec s = Eff.exec (do
      if ← processItems pre then pure true else processItems post) s) :
    (goOn a (pre ++ post)).exec s = Eff.exec (do
      if ← goOn a pre then pure true else processItems post) s := by
  rw [exec_bind]
  simp only [goOn, exec_get_bind, exec_ite]
  split
  · rfl
  · split
    · rw [exec_bind, exec_bind]
      rcases flushInstalls.exec s with ⟨r, u⟩
      cases r with
      | error e => rfl
      | ok _ => exact (ih u).trans (exec_bind ..)
    · exact (ih s).trans (exec_bind ..)

theorem processItems_append (pre post : List Arrival) (s : Session) :
    (processItems (pre ++ post)).exec s = Eff.exec (do
      if ← processItems pre then pure true else processItems post) s := by
  induction pre generalizing s with
  | nil => rfl
  | cons a pre ih =>
    rw [List.cons_append, processItems_cons, exec_bind, exec_bind, processItems_cons, exec_bind]
    rcases (processIncoming a.item).exec (s.reached a) with ⟨r, u⟩
    cases r with
    | error e => rfl
    | ok leave =>
      cases leave with
      | true => rfl
      | false => exact (goOn_append a pre post u ih).trans (exec_bind ..)

/-- A burst that goes through has processed its items and installed what was staged. -/
theorem processBurst_ok (hok : ((processBurst batch).exec s).1 = .ok leave) :
    ∃ u, (processItems (coalesceBurst batch)).exec s = (.ok leave, u) ∧
      flushInstalls.exec u = (.ok ⟨⟩, s.after (.burst batch)) := by
  rcases hi : (processItems (coalesceBurst batch)).exec s with ⟨r, u⟩
  rcases hf : flushInstalls.exec u with ⟨f, v⟩
  have hleave : Eff.exec (try Except.ok <$> processItems (coalesceBurst batch)
      catch e => pure (.error e)) s = (.ok r, u) := by
    rw [exec_tryCatch, map_eq_pure_bind, exec_bind, hi]
    cases r <;> rfl
  have hflush : Eff.exec (try Except.ok <$> flushInstalls catch e => pure (.error e)) u =
      (.ok f, v) := by
    rw [exec_tryCatch, map_eq_pure_bind, exec_bind, hf]
    cases f <;> rfl
  rw [processBurst, exec_bind_ok hleave, exec_bind_ok hflush] at hok
  cases r with
  | error e => cases hok
  | ok l =>
    cases f with
    | error e => cases hok
    | ok _ =>
      cases hok
      have hx : (processBurst batch).exec s = (.ok leave, v) := by
        rw [processBurst, exec_bind_ok hleave, exec_bind_ok hflush]
        rfl
      have hafter : s.after (.burst batch) = v := by
        change (((fun _ => PUnit.unit) <$> processBurst batch : SessionM PUnit).exec s).2 = v
        rw [map_eq_pure_bind, exec_bind_ok hx]
        rfl
      rw [hafter]
      exact ⟨u, rfl, hf⟩

theorem passAdmitted_all (s : Session) (pass : Pass) : s.PassAdmitted (fun _ => True) pass := by
  cases pass with
  | startupScan => exact fun _ _ _ _ _ _ => trivial
  | rescan => exact fun _ _ _ _ _ _ => trivial
  | completeHistory => exact fun _ _ => trivial
  | burst batch => exact fun a _ => a.item.admitted_all s.config
  | _ => trivial

theorem Tacit.onConnected (hk : Tacit allowed I) (s : Session) :
    Upholds (Steady cfg allowed I) onConnected s :=
  Upholds.bind (.modify fun h => h.tacit hk rfl rfl) fun _ s' => .get <| hk.ship _ s'

theorem Tended.reconcileHistoryCompleteness (hk : Tended allowed I)
    (hm : ∀ e ∈ s.missingVersions, allowed e.1) :
    Upholds (Steady cfg assembled I) reconcileHistoryCompleteness s :=
  Upholds.bind_exec (hk.modifies rfl rfl rfl) fun _ s' he => by
    cases he
    refine .get <| .forM (fun e hm' s' => ?_) _
    exact (noteVersion_files ..).books.works.upholds (hk.note (hm e hm') ..)

theorem recordDueVersions_books (due : List (RelPath × StagedCapture)) (s : Session) :
    Books (recordDueVersions due) s := by
  refine .get <| .ite (.pure _ s) ((liftHistory_books _ s).bind fun _ s' _ => .modify rfl rfl)

theorem pumpHistory_books (s : Session) : Books pumpHistory s :=
  .get <| Books.bind (.set rfl rfl) fun _ s' _ => recordDueVersions_books _ s'

theorem drainHistory_books (s : Session) : Books drainHistory s := by
  have hdrain (n nowMs : Nat) (s : Session) : Books (drainFrom n nowMs) s := by
    induction n generalizing nowMs s with
    | zero => exact .pure _ s
    | succ n ih =>
      apply Books.get
      split
      · exact .pure _ s
      · exact Books.bind (.set rfl rfl) fun _ s' _ =>
          (recordDueVersions_books _ s').bind fun _ s' _ => ih _ s'
  exact .get <| hdrain _ _ s

/-- A pass that takes up nothing but what is allowed keeps the invariant. -/
theorem Tacit.after (hk : Tacit allowed I) (pass : Pass) (hp : s.PassAdmitted allowed pass)
    (hw : ∀ w, pass = .around w → I s → I (s.amid w)) (h : Steady cfg allowed I s) :
    Steady cfg allowed I (s.after pass) := by
  have hc := h.config
  subst hc
  cases pass with
  | startupScan => exact (hk.startupScan hp).after h
  | completeHistory => exact (hk.reconcileHistoryCompleteness hp).after h
  | connect => exact (hk.onConnected s).after h
  | burst batch => exact (hk.processBurst hp s).map.after h
  | shipBulk => exact (hk.shipBulkSubbatch s).after h
  | rescan => exact (hk.maybeRescan hp).after h
  | pumpHistory => exact ((pumpHistory_books s).works.upholds (hk.pump s)).after h
  | retryStall => exact (hk.maybeRetryStall s).after h
  | drainHistory => exact ((drainHistory_books s).works.upholds (hk.drain s)).after h
  | around w => exact ⟨hw w rfl h.holds, h.config, h.assembling⟩

theorem Tacit.goOn (hk : Tacit allowed I) (a : Arrival) {rest : List Arrival}
    (hr : ∀ b ∈ rest, b.item.Admitted cfg allowed) (s : Session) :
    Upholds (Steady cfg allowed I) (goOn a rest) s := by
  have hrest := hk.processItems hr
  refine .get <| .ite (.pure _ s) (.ite ?_ (hrest s))
  exact (hk.flushInstalls s).bind fun _ s' => hrest s'

/-- What every pass keeps, and the surroundings with it, every run keeps. -/
theorem Tacit.run (hk : Tacit (fun _ => True) I) (hw : ∀ w s, I s → I (s.amid w)) (h : I s)
    (hrun : Relation.ReflTransGen Step s s') : I s' := by
  induction hrun with
  | refl => exact h
  | tail _ hstep ih =>
    obtain ⟨pass, rfl⟩ := hstep
    exact (hk.after pass (passAdmitted_all _ pass) (fun w _ => hw w _)
      ⟨ih, rfl, fun _ _ _ _ _ => trivial⟩).holds

end

end Session

end Tomo
