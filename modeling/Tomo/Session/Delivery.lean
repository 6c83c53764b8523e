import Tomo.Session.Rewiring

namespace Tomo
set_option autoImplicit true

namespace Session
open Eff
variable [Platform] {s s' : Session} {p : RelPath} {c : RemoteChange} {bytes : Option Bytes}
  {disk : Expectation} {d : Disk}

/-- Whether the engine has to be told of what disk holds before a change is absorbed. -/
def unobserved (s : Session) (p : RelPath) (disk : Expectation) : Bool :=
  needsLocalReconcile disk (s.priorExpectation p) (s.engine.isExpectedEcho p disk)

/-- The session once the engine knows what disk holds. -/
def observed (s : Session) (p : RelPath) (disk : Expectation) : Session :=
  if s.unobserved p disk then
    { s with engine := (s.engine.handleLocal ⟨p, observedKind disk⟩).1 }
  else s

/-- What is filed and sent about an edit found on disk. -/
def fileObserved (s : Session) (p : RelPath) (disk : Expectation) : SessionM Unit :=
  if s.unobserved p disk then do
    markDirty
    execute (s.engine.handleLocal ⟨p, observedKind disk⟩).2 none none
  else pure ()

theorem reconcile_exec (hd : s.diskExpectation p = .ok disk) :
    (reconcileUnobservedLocal p).exec s = (s.fileObserved p disk).exec (s.observed p disk) := by
  simp only [reconcileUnobservedLocal, exec_get_bind, hd, fileObserved, observed]
  rw [← unobserved]
  by_cases hu : s.unobserved p disk = true
  · simp only [hu, ↓reduceIte, handleEvent, bind_assoc, exec_get_bind]
    rfl
  · simp only [hu, ↓reduceIte, exec_pure, Bool.false_eq_true]

theorem reconcile_error (hd : s.diskExpectation p = .error e) :
    (reconcileUnobservedLocal p).exec s = (.error e, s) := by
  simp only [reconcileUnobservedLocal, exec_get_bind, hd, exec_throw]

theorem fileObserved_files (hs : s'.Healthy) (p : RelPath) (disk : Expectation) :
    Files (s.fileObserved p disk) s' := by
  rw [fileObserved]
  split
  · refine (markDirty_files s').bind fun _ u hc => ?_
    exact execute_files (hs.of_core hc) _ _ fun a ha =>
      (Engine.handleLocal_paper s.engine _ a ha).1
  · exact .pure _ _

theorem fileObserved_commutes (hs : s'.Healthy) (h : SameRead d s' p) (disk : Expectation) :
    Commutes (on d) (s.fileObserved p disk) s' := by
  rw [fileObserved]
  split
  · refine Commutes.bind (.modify rfl) fun _ u he => ?_
    have hc := (markDirty_files s').books.core
    rw [he] at hc
    exact execute_commutes (hs.of_core hc) (h.of_core hc) _ _
      (fun a ha => (Engine.handleLocal_paper s.engine _ a ha).1)
      fun a ha => (Engine.handleLocal_paper s.engine _ a ha).2
  · rfl

/-- The session once the engine has absorbed a change. -/
def absorbed (s : Session) (c : RemoteChange) : Session :=
  { s with engine := (s.engine.handleRemote c).1, indexDirty := true }

def carryOut (p : RelPath) (target : Option Expectation) (bytes : Option Bytes) : SessionM Unit :=
  match target with
  | some t => doApply p t bytes
  | none => pure ()

/-- What is filed about an absorbed change. -/
def fileAbsorbed (s : Session) (c : RemoteChange) (bytes : Option Bytes) : SessionM Unit :=
  let captures := (s.absorbed c).conflictCaptures bytes (some c.version) (s.engine.handleRemote c).2
  executeActions bytes (some c.version) s.nowMs (captures.flatMap fun k =>
    [(k.path, k.winnerVersion), (k.path, k.loserVersion)]) (s.engine.paperwork c) captures

theorem absorbAndExecute_exec (s : Session) (c : RemoteChange) (bytes : Option Bytes) :
    (absorbAndExecute c bytes).exec s = Eff.exec (do
      carryOut c.path (s.engine.applyTarget c) bytes
      s.fileAbsorbed c bytes) (s.absorbed c) := by
  have he : (absorbAndExecute c bytes).exec s =
      (execute (s.engine.handleRemote c).2 bytes (some c.version)).exec (s.absorbed c) := by
    simp only [absorbAndExecute, handleEvent, markDirty, bind_assoc, exec_get_bind]
    rfl
  rw [he, fileAbsorbed]
  simp only [execute, exec_get_bind]
  cases ht : s.engine.applyTarget c with
  | none =>
    rw [(Engine.applyTarget_none ht).1]
    rfl
  | some t =>
    rw [(Engine.applyTarget_some ht).1]
    rfl

theorem fileAbsorbed_files (hs : s'.Healthy) (c : RemoteChange) (bytes : Option Bytes) :
    Files (s.fileAbsorbed c bytes) s' :=
  executeActions_files hs _ _ _ _ (fun a ha => (Engine.paperwork_paper s.engine c a ha).1)
    (conflictCaptures_apt _ _ _ _)

theorem fileAbsorbed_commutes (hs : s'.Healthy) (h : SameRead d s' c.path)
    (bytes : Option Bytes) : Commutes (on d) (s.fileAbsorbed c bytes) s' :=
  executeActions_commutes hs h _ _ _ _ (fun a ha => (Engine.paperwork_paper s.engine c a ha).1)
    (fun a ha => (Engine.paperwork_paper s.engine c a ha).2) _

/-- What every content frame ends with. -/
def deliver (c : RemoteChange) (bytes : Option Bytes) : SessionM Unit := do
  reconcileUnobservedLocal c.path
  absorbAndExecute c bytes

end Session

end Tomo
