import Mathlib.Tactic.Common
import Mathlib.Logic.Relation
import Mathlib.Algebra.GroupWithZero.Nat
import Mathlib.Algebra.Order.BigOperators.Group.List
import Tomo.Session.State

namespace Tomo
set_option autoImplicit true

/-- The window of content bytes that a reader may have handed on and the pump not yet released. -/
structure InFlight where
  outstanding : Nat
  window : Nat
deriving DecidableEq

namespace InFlight

/-- The condition on which `acquire` goes on. -/
def admits (w : InFlight) (cost : Nat) : Prop :=
  cost = 0 ∨ ¬ (0 < w.outstanding ∧ w.window < w.outstanding + cost)

instance (w : InFlight) (cost : Nat) : Decidable (w.admits cost) := inferInstanceAs (Decidable (_ ∨ _))

def acquire (w : InFlight) (cost : Nat) : InFlight := { w with outstanding := w.outstanding + cost }

def release (w : InFlight) (cost : Nat) : InFlight := { w with outstanding := w.outstanding - cost }

end InFlight

def defaultSendWindowBytes : Nat := 16 * 1024 * 1024

def burstDrainLimit : Nat := 16384

/-- The reader's buffer for one read. -/
def readBuf : Nat := 64 * 1024

/-- A frame by the content it carries and its bytes on the wire. -/
structure ContentFrame where
  cost : Nat
  size : Nat
  small : cost < inlineThreshold
  fits : cost ≤ size
deriving DecidableEq

/-- The bytes of frames on the wire. -/
def wire (frames : List ContentFrame) : Nat := (frames.map ContentFrame.size).sum

/-- The content that frames carry. -/
def content (frames : List ContentFrame) : Nat := (frames.map ContentFrame.cost).sum

/-- A frame that the reader has acquired: where it ends in the stream, and how much both pumps had
put into their pipes by then. -/
structure Acquired where
  frame : ContentFrame
  stop : Nat
  own : Nat
  heard : Nat
deriving DecidableEq

inductive Phase where
  | ready
  | wrote
  | burst
deriving DecidableEq

/-- One session's end of the transport. -/
structure Endpoint where
  /-- The frames whose writing has begun, and how many of their bytes are in the pipe. -/
  sent : List ContentFrame
  pushed : Nat
  /-- The bytes the reader has read, and the other's frames it has acquired, with their bytes. -/
  popped : Nat
  acquired : Nat
  position : Nat
  /-- An acquired frame that is not in the channel yet. -/
  inHand : Bool
  /-- The acquired frames that are not released: the pump has processed some, and has the next of
  them in its burst, and the next are in the channel. -/
  held : List Acquired
  queue : Nat
  burst : Nat
  processed : Nat
  pendingRelease : Nat
  inflight : InFlight
  phase : Phase
deriving DecidableEq

namespace Endpoint

def start (window : Nat) : Endpoint :=
  ⟨[], 0, 0, 0, 0, false, [], 0, 0, 0, 0, ⟨0, window⟩, .ready⟩

def writing (e : Endpoint) : Prop := e.pushed < wire e.sent

instance (e : Endpoint) : Decidable e.writing := inferInstanceAs (Decidable (_ < _))

/-- The decoder has the whole of the next frame. -/
def whole (e peer : Endpoint) : Prop :=
  ∃ f ∈ peer.sent[e.acquired]?, e.position + f.size ≤ e.popped

instance (e peer : Endpoint) : Decidable (e.whole peer) :=
  inferInstanceAs (Decidable (∃ f ∈ peer.sent[e.acquired]?, _))

def write (e : Endpoint) (frames : List ContentFrame) : Endpoint :=
  { e with sent := e.sent ++ frames }

def take (e peer : Endpoint) (f : ContentFrame) : Endpoint :=
  { e with
    acquired := e.acquired + 1
    position := e.position + f.size
    inHand := true
    held := e.held ++ [⟨f, e.position + f.size, e.pushed, peer.pushed⟩]
    inflight := e.inflight.acquire f.cost }

def flushInstalls (e : Endpoint) : Endpoint :=
  { e with
    held := e.held.drop e.processed
    processed := 0
    pendingRelease := 0
    inflight := e.inflight.release e.pendingRelease }

end Endpoint

/-- Two sessions, joined by two pipes. -/
structure Duplex where
  left : Endpoint
  right : Endpoint
deriving DecidableEq

def Duplex.swap (d : Duplex) : Duplex := ⟨d.right, d.left⟩

inductive PumpMove where
  | batch (frames : List ContentFrame)
  | single (frame : ContentFrame)
  | push (n : Nat)
  | read (n : Nat)
  | acquire
  | forward
  | drain (n : Nat)
  | process
  | flush
  | finish
deriving DecidableEq

namespace Duplex

def start (window : Nat) : Duplex := ⟨.start window, .start window⟩

/-- The left session's moves. Its pump does nothing else while it writes, and drains the channel
between two batches; its reader reads on only when it has no whole frame left. -/
def moveLeft (capacity : Nat) (d : Duplex) : PumpMove → Option Duplex
  | .batch frames =>
    if ¬ d.left.writing ∧ d.left.phase = .ready ∧ frames ≠ [] ∧ frames.length ≤ sendBatchFrames then
      some { d with left := { d.left.write frames with phase := .wrote } }
    else none
  | .single frame =>
    if ¬ d.left.writing then some { d with left := d.left.write [frame] } else none
  | .push n =>
    if d.left.pushed + n ≤ wire d.left.sent ∧ d.left.pushed + n ≤ d.right.popped + capacity then
      some { d with left := { d.left with pushed := d.left.pushed + n } }
    else none
  | .read n =>
    if d.left.inHand = false ∧ ¬ d.left.whole d.right ∧ n ≤ readBuf ∧
        d.left.popped + n ≤ d.right.pushed then
      some { d with left := { d.left with popped := d.left.popped + n } }
    else none
  | .acquire =>
    match d.right.sent[d.left.acquired]? with
    | some f =>
      if d.left.inHand = false ∧ d.left.position + f.size ≤ d.left.popped ∧
          d.left.inflight.admits f.cost then
        some { d with left := d.left.take d.right f }
      else none
    | none => none
  | .forward =>
    if d.left.inHand = true then
      some { d with left := { d.left with inHand := false, queue := d.left.queue + 1 } }
    else none
  | .drain n =>
    if ¬ d.left.writing ∧ d.left.phase ≠ .burst ∧ n ≤ d.left.queue ∧ n ≤ burstDrainLimit then
      some { d with left :=
        { d.left with queue := d.left.queue - n, burst := d.left.burst + n, phase := .burst } }
    else none
  | .process =>
    match d.left.held[d.left.processed]? with
    | some t =>
      if ¬ d.left.writing ∧ 0 < d.left.burst then
        some { d with left :=
          { d.left with
            burst := d.left.burst - 1
            processed := d.left.processed + 1
            pendingRelease := d.left.pendingRelease + t.frame.cost } }
      else none
    | none => none
  | .flush =>
    if ¬ d.left.writing then some { d with left := d.left.flushInstalls } else none
  | .finish =>
    if ¬ d.left.writing ∧ d.left.phase = .burst ∧ d.left.burst = 0 ∧ d.left.processed = 0 then
      some { d with left := { d.left with phase := .ready } }
    else none

/-- A move of the left session, or of the right one. -/
def move (capacity : Nat) (onLeft : Bool) (m : PumpMove) (d : Duplex) : Option Duplex :=
  if onLeft then d.moveLeft capacity m else (d.swap.moveLeft capacity m).map swap

def Step (capacity : Nat) (d d' : Duplex) : Prop := ∃ onLeft m, d.move capacity onLeft m = some d'

/-- The left pump waits for room in its pipe. -/
def leftStuck (capacity : Nat) (d : Duplex) : Prop :=
  d.left.writing ∧ d.left.pushed = d.right.popped + capacity

/-- The left reader waits for its window. -/
def leftThrottled (d : Duplex) : Prop :=
  d.left.inHand = false ∧
    ∃ f ∈ d.right.sent[d.left.acquired]?, d.left.position + f.size ≤ d.left.popped ∧
      ¬ d.left.inflight.admits f.cost

def Deadlocked (capacity : Nat) (d : Duplex) : Prop :=
  (d.leftStuck capacity ∧ d.leftThrottled) ∧ d.swap.leftStuck capacity ∧ d.swap.leftThrottled

instance (capacity : Nat) (d : Duplex) : Decidable (d.Deadlocked capacity) :=
  inferInstanceAs (Decidable (((_ ∧ _) ∧ _ ∧ ∃ f ∈ d.right.sent[d.left.acquired]?, _) ∧
    (_ ∧ _) ∧ _ ∧ ∃ f ∈ d.left.sent[d.right.acquired]?, _))

end Duplex

end Tomo
