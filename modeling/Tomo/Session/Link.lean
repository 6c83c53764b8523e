import Tomo.Session.Delivery

namespace Tomo
set_option autoImplicit true

namespace Session
open Eff
variable {s s' : Session} {x : SessionM α} {f : α → SessionM β}

/-- What a session keeps of its link: neither disk nor records nor engine. -/
def wire (s : Session) : Session := { s.frame with engine := .new ⟨0⟩ .new }

theorem wire_of_frame (h : s'.frame = s.frame) : s'.wire = s.wire := by rw [wire, wire, h]

theorem Healthy.of_wire (h : s'.wire = s.wire) (hs : s.Healthy) : s'.Healthy := by
  intro t ht
  have he : s'.wire.transport = s.wire.transport := by rw [h]
  exact hs t (he.symm.trans ht)

/-- A computation that leaves the link alone but for the changes it announces. -/
structure Aside (x : SessionM α) (s : Session) : Prop where
  leaves : Leaves wire x s
  emits : Emits announces x s

namespace Aside

theorem pure (a : α) (s : Session) : Aside (pure a) s := ⟨rfl, .silent rfl⟩

theorem get {f : Session → SessionM β} (h : Aside (f s) s) : Aside (get >>= f) s :=
  ⟨h.leaves, h.emits⟩

theorem bind (hx : Aside x s) (hf : ∀ a s', s'.wire = s.wire → Aside (f a) s') :
    Aside (x >>= f) s := by
  refine ⟨hx.leaves.bind fun a s' hl => (hf a s' hl).leaves, hx.emits.bind fun a s' he => ?_⟩
  have hl := hx.leaves
  rw [Leaves, he] at hl
  exact (hf a s' hl).emits

theorem of_exec {y : SessionM α} (h : Aside y s') (he : x.exec s = y.exec s')
    (hw : s'.wire = s.wire) (hs : s'.sent = s.sent) : Aside x s := by
  constructor
  · rw [Leaves, he]
    exact h.leaves.trans hw
  · obtain ⟨l, hl, hk⟩ := h.emits
    rw [Emits, he]
    exact ⟨l, by rw [hl, hs], hk⟩

end Aside

theorem Works.aside (h : Works x s) : Aside x s := ⟨wire_of_frame h.leaves, h.emits⟩

theorem Books.aside (h : Books x s) : Aside x s := h.works.aside

section
variable [Platform]

theorem reconcileUnobservedLocal_aside (hs : s.Healthy) (p : RelPath) :
    Aside (reconcileUnobservedLocal p) s := by
  cases hd : s.diskExpectation p with
  | error e =>
    have he := reconcile_error hd
    exact ⟨by rw [Leaves, he], .silent (by rw [he])⟩
  | ok disk =>
    have hw : (s.observed p disk).wire = s.wire := by
      rw [observed]
      split <;> rfl
    have hsent : (s.observed p disk).sent = s.sent := by
      rw [observed]
      split <;> rfl
    exact .of_exec (fileObserved_files (hs.of_wire hw) p disk).books.aside (reconcile_exec hd) hw
      hsent

theorem absorbAndExecute_aside (hs : s.Healthy) (c : RemoteChange) (bytes : Option Bytes) :
    Aside (absorbAndExecute c bytes) s := by
  have hs' : (s.absorbed c).Healthy := hs
  have h : Aside (do
      carryOut c.path (s.engine.applyTarget c) bytes
      s.fileAbsorbed c bytes) (s.absorbed c) := by
    refine Aside.bind ?_ fun _ s' hw => ?_
    · cases s.engine.applyTarget c with
      | some target => exact (doApply_works ..).aside
      | none => exact ⟨rfl, .silent rfl⟩
    · exact (fileAbsorbed_files (hs'.of_wire hw) c bytes).books.aside
  exact h.of_exec (absorbAndExecute_exec s c bytes) rfl rfl

theorem flushQueuedSend_aside (hs : s.Healthy) (p : RelPath) : Aside (flushQueuedSend p) s :=
  (flushQueuedSend_files hs p).books.aside

theorem deliver_aside (hs : s.Healthy) (c : RemoteChange) (bytes : Option Bytes) :
    Aside (deliver c bytes) s :=
  (reconcileUnobservedLocal_aside hs c.path).bind fun _ _ hw =>
    absorbAndExecute_aside (hs.of_wire hw) c bytes

end

end Session

end Tomo
