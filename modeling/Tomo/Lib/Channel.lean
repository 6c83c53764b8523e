import Mathlib.Data.List.Infix
import Mathlib.Tactic.Common

namespace Tomo
set_option autoImplicit true

/-- A bounded channel: what is queued, and which of its two ends are still held. -/
structure Channel (α : Type) (cap : Nat) where
  queue : List α
  sender : Bool
  receiver : Bool
  bounded : queue.length ≤ cap

/-- Why something could not be queued. -/
inductive TrySendError where
  | full
  | disconnected
  deriving DecidableEq

namespace Channel
variable {α : Type} {cap : Nat}

def new : Channel α cap := ⟨[], true, true, Nat.zero_le cap⟩

/-- Queue one more; a channel nobody reads from refuses it first, a full one next. -/
def trySend (c : Channel α cap) (x : α) : Except TrySendError (Channel α cap) :=
  if c.receiver = false then .error .disconnected
  else if h : c.queue.length < cap then
    .ok { c with queue := c.queue ++ [x], bounded := by rw [List.length_append]; exact h }
  else .error .full

/-- Take the next one out. `none` while it has to wait; an empty channel nobody sends on ends. -/
def recv (c : Channel α cap) : Option (Option α × Channel α cap) :=
  match h : c.queue with
  | x :: rest =>
    have hle : rest.length + 1 ≤ cap := by
      have hbounded := c.bounded
      rwa [h] at hbounded
    some (some x, { c with queue := rest, bounded := Nat.le_of_succ_le hle })
  | [] => if c.sender then none else some (none, c)

def dropSender (c : Channel α cap) : Channel α cap := { c with sender := false }

/-- What was queued for a reader that goes away goes with it. -/
def dropReceiver (c : Channel α cap) : Channel α cap :=
  ⟨[], c.sender, false, Nat.zero_le cap⟩

theorem ext (c d : Channel α cap) (hqueue : c.queue = d.queue) (hsender : c.sender = d.sender)
    (hreceiver : c.receiver = d.receiver) : c = d := by
  cases c
  cases d
  simp only at hqueue hsender hreceiver
  subst hqueue hsender hreceiver
  rfl

@[simp] theorem dropSender_queue (c : Channel α cap) : c.dropSender.queue = c.queue := rfl

@[simp] theorem dropSender_sender (c : Channel α cap) : c.dropSender.sender = false := rfl

@[simp] theorem dropSender_receiver (c : Channel α cap) :
    c.dropSender.receiver = c.receiver := rfl

theorem dropSender_of_gone {c : Channel α cap} (h : c.sender = false) : c.dropSender = c :=
  ext _ _ rfl h.symm rfl

theorem trySend_ok {c d : Channel α cap} {x : α} (h : c.trySend x = .ok d) :
    c.receiver = true ∧ c.queue.length < cap ∧
      d.queue = c.queue ++ [x] ∧ d.sender = c.sender ∧ d.receiver = c.receiver := by
  rw [trySend] at h
  split at h
  · cases h
  next hreceiver =>
    split at h
    next hroom =>
      cases h
      exact ⟨by simpa using hreceiver, hroom, rfl, rfl, rfl⟩
    next => cases h

theorem trySend_full_iff (c : Channel α cap) (x : α) :
    c.trySend x = .error .full ↔ c.receiver = true ∧ c.queue.length = cap := by
  have hle := c.bounded
  rw [trySend]
  cases hreceiver : c.receiver with
  | false => simp
  | true =>
    by_cases hroom : c.queue.length < cap
    · have hne : c.queue.length ≠ cap := Nat.ne_of_lt hroom
      simp [hroom, hne]
    · have heq : c.queue.length = cap := by omega
      simp [heq]

theorem trySend_disconnected_iff (c : Channel α cap) (x : α) :
    c.trySend x = .error .disconnected ↔ c.receiver = false := by
  rw [trySend]
  cases hreceiver : c.receiver with
  | false => simp
  | true =>
    by_cases hroom : c.queue.length < cap
    · simp [hroom]
    · simp [hroom]

theorem recv_some {c d : Channel α cap} {x : α} (h : c.recv = some (some x, d)) :
    c.queue = x :: d.queue ∧ d.sender = c.sender ∧ d.receiver = c.receiver := by
  rw [recv] at h
  split at h
  next y rest hqueue =>
    cases h
    exact ⟨hqueue, rfl, rfl⟩
  next =>
    split at h
    · cases h
    · cases h

theorem recv_none {c d : Channel α cap} (h : c.recv = some (none, d)) :
    d = c ∧ c.queue = [] ∧ c.sender = false := by
  rw [recv] at h
  split at h
  · cases h
  next hqueue =>
    split at h
    · cases h
    next hsender =>
      cases h
      exact ⟨rfl, hqueue, by simpa using hsender⟩

end Channel
end Tomo
