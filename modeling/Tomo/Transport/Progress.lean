import Tomo.Transport.Pumps

namespace Tomo
set_option autoImplicit true

theorem wire_append (a b : List ContentFrame) : wire (a ++ b) = wire a + wire b := by
  simp only [wire, List.map_append, List.sum_append]

theorem wire_single (f : ContentFrame) : wire [f] = f.size := by
  simp only [wire, List.map_cons, List.map_nil, List.sum_cons, List.sum_nil, Nat.add_zero]

theorem content_append (a b : List ContentFrame) : content (a ++ b) = content a + content b := by
  simp only [content, List.map_append, List.sum_append]

theorem content_single (f : ContentFrame) : content [f] = f.cost := by
  simp only [content, List.map_cons, List.map_nil, List.sum_cons, List.sum_nil, Nat.add_zero]

theorem content_le_wire (frames : List ContentFrame) : content frames ≤ wire frames := by
  induction frames with
  | nil => exact Nat.le_refl _
  | cons f frames ih =>
    simp only [content, wire, List.map_cons, List.sum_cons] at ih ⊢
    exact Nat.add_le_add f.fits ih

/-- What a window needs beyond the bytes that a pump writes in one go: the reader may be one read
ahead, and one frame. -/
def slack : Nat := readBuf + inlineThreshold

/-- The frames that an end holds. -/
def heldFrames (held : List Acquired) : List ContentFrame := held.map Acquired.frame

namespace Endpoint

/-- The bytes that the pump writes from the coming in of its oldest frame that is not released to
the end of this write are within the window, and what was to come in during the write with them. -/
def Fits (e : Endpoint) (frames : List ContentFrame) : Prop :=
  wire frames + slack ≤ e.inflight.window ∧
    ∀ t ∈ e.held, wire e.sent + wire frames + slack ≤ t.own + e.inflight.window

/-- What each end keeps by itself. -/
structure Sound (window : Nat) (e : Endpoint) : Prop where
  window_eq : e.inflight.window = window
  pushed_le : e.pushed ≤ wire e.sent
  outstanding : e.inflight.outstanding = content (heldFrames e.held)
  processed_le : e.processed ≤ e.held.length
  pending : e.pendingRelease = content (heldFrames (e.held.take e.processed))
  own_le : ∀ t ∈ e.held, t.own ≤ e.pushed
  spaced : e.writing → ∃ begun ≤ e.pushed, wire e.sent + slack ≤ begun + window ∧
    ∀ t ∈ e.held, wire e.sent + slack ≤ t.own + window

/-- What is between a writer and the other's reader. -/
structure Stream (capacity : Nat) (w r : Endpoint) : Prop where
  acquired_le : r.acquired ≤ w.sent.length
  position : r.position = wire (w.sent.take r.acquired)
  position_le : r.position ≤ r.popped
  popped_le : r.popped ≤ w.pushed
  room : w.pushed ≤ r.popped + capacity
  ahead : ∀ f, w.sent[r.acquired]? = some f → r.popped < r.position + f.size + readBuf
  heard_le : ∀ t ∈ r.held, t.heard ≤ w.pushed
  heard_lt : ∀ t ∈ r.held, t.heard < t.stop + readBuf + capacity
  stops : ∀ before t after, r.held = before ++ t :: after →
    t.stop + wire (heldFrames after) = r.position

end Endpoint

/-- One of two acquired frames came in first. -/
def Crossed (a b : Endpoint) : Prop :=
  ∀ s ∈ a.held, ∀ t ∈ b.held, s.own ≤ t.heard ∨ t.own ≤ s.heard

namespace Duplex

structure Inv (capacity window : Nat) (d : Duplex) : Prop where
  left : d.left.Sound window
  right : d.right.Sound window
  toRight : Endpoint.Stream capacity d.left d.right
  toLeft : Endpoint.Stream capacity d.right d.left
  crossed : Crossed d.left d.right

end Duplex

theorem Crossed.symm {a b : Endpoint} (h : Crossed a b) : Crossed b a :=
  fun s hs t ht => (h t ht s hs).symm

theorem Duplex.Inv.swap {d : Duplex} (h : d.Inv capacity window) : d.swap.Inv capacity window :=
  ⟨h.right, h.left, h.toLeft, h.toRight, h.crossed.symm⟩

namespace Endpoint

theorem Sound.start (window : Nat) : (start window).Sound window where
  window_eq := rfl
  pushed_le := Nat.le_refl _
  outstanding := rfl
  processed_le := Nat.le_refl _
  pending := rfl
  own_le _ ht := by cases ht
  spaced h := absurd h (Nat.lt_irrefl _)

theorem Stream.start (capacity window : Nat) : Stream capacity (start window) (start window) where
  acquired_le := Nat.le_refl _
  position := rfl
  position_le := Nat.le_refl _
  popped_le := Nat.le_refl _
  room := Nat.zero_le _
  ahead _ h := by cases h
  heard_le _ ht := by cases ht
  heard_lt _ ht := by cases ht
  stops before t after h := by cases before <;> cases h

variable {e peer : Endpoint}

theorem Sound.write (h : e.Sound window) (hidle : ¬ e.writing) (hfits : e.Fits frames) :
    (e.write frames).Sound window where
  window_eq := h.window_eq
  pushed_le := by
    rw [Endpoint.write, wire_append]
    exact Nat.le_add_right_of_le h.pushed_le
  outstanding := h.outstanding
  processed_le := h.processed_le
  pending := h.pending
  own_le := h.own_le
  spaced _ := by
    have hpushed : e.pushed = wire e.sent := Nat.le_antisymm h.pushed_le (Nat.not_lt.mp hidle)
    obtain ⟨hfits, hheld⟩ := hfits
    rw [h.window_eq] at hfits hheld
    refine ⟨e.pushed, Nat.le_refl _, ?_, fun t ht => ?_⟩
    · rw [Endpoint.write, wire_append, hpushed]
      omega
    · rw [Endpoint.write, wire_append]
      exact hheld t ht

theorem Stream.write (h : Stream capacity e peer) (hpushed : e.pushed ≤ wire e.sent)
    (frames : List ContentFrame) :
    Stream capacity (e.write frames) peer where
  acquired_le := by
    rw [Endpoint.write, List.length_append]
    exact Nat.le_add_right_of_le h.acquired_le
  position := by
    rw [Endpoint.write, List.take_append_of_le_length h.acquired_le]
    exact h.position
  position_le := h.position_le
  popped_le := h.popped_le
  room := h.room
  ahead f hf := by
    by_cases hlt : peer.acquired < e.sent.length
    · apply h.ahead f
      rw [← hf, Endpoint.write, List.getElem?_append_left hlt]
    · -- the reader has nothing of the new frames yet
      have hall : e.sent.take peer.acquired = e.sent := List.take_of_length_le (Nat.not_lt.mp hlt)
      have hposition := h.position
      have hpopped := h.popped_le
      rw [hall] at hposition
      simp only [readBuf]
      omega
  heard_le := h.heard_le
  heard_lt := h.heard_lt
  stops := h.stops

theorem Sound.push (h : e.Sound window) (hn : e.pushed + n ≤ wire e.sent) :
    Sound window { e with pushed := e.pushed + n } :=
  { h with
    pushed_le := hn
    own_le := fun t ht => Nat.le_add_right_of_le (h.own_le t ht)
    spaced := fun hw => by
      have hbefore : e.writing := Nat.lt_of_le_of_lt (Nat.le_add_right _ _) hw
      obtain ⟨begun, hle, hrest⟩ := h.spaced hbefore
      exact ⟨begun, Nat.le_add_right_of_le hle, hrest⟩ }

theorem Stream.push (h : Stream capacity e peer) (hn : e.pushed + n ≤ peer.popped + capacity) :
    Stream capacity { e with pushed := e.pushed + n } peer :=
  { h with
    popped_le := Nat.le_add_right_of_le h.popped_le
    room := hn
    heard_le := fun t ht => Nat.le_add_right_of_le (h.heard_le t ht) }

theorem Stream.read (h : Stream capacity peer e) (hwhole : ¬ e.whole peer) (hn : n ≤ readBuf)
    (havail : e.popped + n ≤ peer.pushed) :
    Stream capacity peer { e with popped := e.popped + n } :=
  { h with
    position_le := Nat.le_add_right_of_le h.position_le
    popped_le := havail
    room := by
      have hroom := h.room
      simp only
      omega
    ahead := fun f hf => by
      have hpart : ¬ e.position + f.size ≤ e.popped := fun hle => hwhole ⟨f, hf, hle⟩
      simp only
      omega }

theorem Sound.take (h : e.Sound window) (f : ContentFrame) : (e.take peer f).Sound window where
  window_eq := h.window_eq
  pushed_le := h.pushed_le
  outstanding := by
    simp only [Endpoint.take, InFlight.acquire, heldFrames, List.map_append, content_append,
      List.map_cons, List.map_nil, content_single, h.outstanding]
  processed_le := by
    rw [Endpoint.take, List.length_append]
    exact Nat.le_add_right_of_le h.processed_le
  pending := by
    rw [Endpoint.take, List.take_append_of_le_length h.processed_le]
    exact h.pending
  own_le t ht := by
    rcases List.mem_append.mp ht with ht | ht
    · exact h.own_le t ht
    · rw [List.mem_singleton.mp ht]
      exact Nat.le_refl _
  spaced hw := by
    obtain ⟨begun, hle, hbegun, hheld⟩ := h.spaced hw
    refine ⟨begun, hle, hbegun, fun t ht => ?_⟩
    rcases List.mem_append.mp ht with ht | ht
    · exact hheld t ht
    · rw [List.mem_singleton.mp ht]
      exact Nat.le_trans hbegun (Nat.add_le_add_right hle _)

theorem Stream.take (h : Stream capacity peer e) (hf : peer.sent[e.acquired]? = some f)
    (hwhole : e.position + f.size ≤ e.popped) : Stream capacity peer (e.take peer f) where
  acquired_le := (List.getElem?_eq_some_iff.mp hf).1
  position := by
    rw [Endpoint.take, List.take_add_one, hf, Option.toList_some, wire_append, wire_single,
      ← h.position]
  position_le := hwhole
  popped_le := h.popped_le
  room := h.room
  ahead f' _ := by
    have hahead := h.ahead f hf
    simp only [Endpoint.take]
    omega
  heard_le t ht := by
    rcases List.mem_append.mp ht with ht | ht
    · exact h.heard_le t ht
    · rw [List.mem_singleton.mp ht]
  heard_lt t ht := by
    rcases List.mem_append.mp ht with ht | ht
    · exact h.heard_lt t ht
    · have hahead := h.ahead f hf
      have hroom := h.room
      rw [List.mem_singleton.mp ht]
      show peer.pushed < e.position + f.size + readBuf + capacity
      omega
  stops before t after heq := by
    simp only [Endpoint.take] at heq ⊢
    rcases List.eq_nil_or_concat after with rfl | ⟨front, last, rfl⟩
    · obtain ⟨_, hlast⟩ := List.append_inj' heq rfl
      cases hlast
      rfl
    · rw [List.concat_eq_append, ← List.cons_append, ← List.append_assoc] at heq
      obtain ⟨hheld, hlast⟩ := List.append_inj' heq rfl
      cases hlast
      have hstop := h.stops before t front hheld
      rw [List.concat_eq_append, heldFrames, List.map_append, wire_append, List.map_cons,
        List.map_nil, wire_single, ← Nat.add_assoc]
      exact congrArg (· + f.size) hstop

theorem Sound.process (h : e.Sound window) (ht : e.held[e.processed]? = some t) :
    Sound window { e with
      burst := e.burst - 1
      processed := e.processed + 1
      pendingRelease := e.pendingRelease + t.frame.cost } :=
  { h with
    processed_le := (List.getElem?_eq_some_iff.mp ht).1
    pending := by
      simp only [List.take_add_one, ht, Option.toList_some, heldFrames, List.map_append,
        content_append, List.map_cons, List.map_nil, content_single, h.pending] }

theorem Sound.flush (h : e.Sound window) : (e.flushInstalls).Sound window where
  window_eq := h.window_eq
  pushed_le := h.pushed_le
  outstanding := by
    have hsplit := content_append (heldFrames (e.held.take e.processed))
      (heldFrames (e.held.drop e.processed))
    rw [heldFrames, heldFrames, ← List.map_append, List.take_append_drop] at hsplit
    simp only [flushInstalls, InFlight.release, h.outstanding, h.pending, heldFrames] at hsplit ⊢
    omega
  processed_le := Nat.zero_le _
  pending := rfl
  own_le t ht := h.own_le t (List.mem_of_mem_drop ht)
  spaced hw := by
    obtain ⟨begun, hle, hbegun, hheld⟩ := h.spaced hw
    exact ⟨begun, hle, hbegun, fun t ht => hheld t (List.mem_of_mem_drop ht)⟩

theorem Stream.flush (h : Stream capacity peer e) : Stream capacity peer e.flushInstalls :=
  { h with
    heard_le := fun t ht => h.heard_le t (List.mem_of_mem_drop ht)
    heard_lt := fun t ht => h.heard_lt t (List.mem_of_mem_drop ht)
    stops := fun before t after heq => by
      apply h.stops (e.held.take e.processed ++ before) t after
      rw [List.append_assoc, ← heq]
      exact (List.take_append_drop _ _).symm }

end Endpoint

theorem Crossed.take {e peer : Endpoint} (h : Crossed e peer)
    (hown : ∀ t ∈ peer.held, t.own ≤ peer.pushed) (f : ContentFrame) :
    Crossed (e.take peer f) peer := by
  intro s hs t ht
  rcases List.mem_append.mp hs with hs | hs
  · exact h s hs t ht
  · rw [List.mem_singleton.mp hs]
    exact .inr (hown t ht)

namespace Duplex

/-- The pump that begins to write has room for it in the other's window. -/
def Spaced (d : Duplex) : PumpMove → Prop
  | .batch frames => d.left.Fits frames
  | .single frame => d.left.Fits [frame]
  | _ => True

theorem Inv.start (capacity window : Nat) : (start window).Inv capacity window where
  left := .start window
  right := .start window
  toRight := .start capacity window
  toLeft := .start capacity window
  crossed _ hs := by cases hs

variable {d d' : Duplex}

theorem Inv.moveLeft (h : d.Inv capacity window) {m : PumpMove} (hspaced : d.Spaced m)
    (hm : d.moveLeft capacity m = some d') : d'.Inv capacity window := by
  cases m with
  | batch frames =>
    rw [Duplex.moveLeft, Option.ite_none_right_eq_some] at hm
    obtain ⟨⟨hidle, _⟩, heq⟩ := hm
    cases heq
    exact {
      left := { h.left.write hidle hspaced with }
      right := h.right
      toRight := { h.toRight.write h.left.pushed_le frames with }
      toLeft := { h.toLeft with }
      crossed := h.crossed }
  | single frame =>
    rw [Duplex.moveLeft, Option.ite_none_right_eq_some] at hm
    obtain ⟨hidle, heq⟩ := hm
    cases heq
    exact {
      left := h.left.write hidle hspaced
      right := h.right
      toRight := h.toRight.write h.left.pushed_le [frame]
      toLeft := { h.toLeft with }
      crossed := h.crossed }
  | push n =>
    rw [Duplex.moveLeft, Option.ite_none_right_eq_some] at hm
    obtain ⟨⟨hle, hroom⟩, heq⟩ := hm
    cases heq
    exact {
      left := h.left.push hle
      right := h.right
      toRight := h.toRight.push hroom
      toLeft := { h.toLeft with }
      crossed := h.crossed }
  | read n =>
    rw [Duplex.moveLeft, Option.ite_none_right_eq_some] at hm
    obtain ⟨⟨_, hwhole, hn, havail⟩, heq⟩ := hm
    cases heq
    exact {
      left := { h.left with }
      right := h.right
      toRight := { h.toRight with }
      toLeft := h.toLeft.read hwhole hn havail
      crossed := h.crossed }
  | acquire =>
    rw [Duplex.moveLeft] at hm
    split at hm
    next f hf =>
      rw [Option.ite_none_right_eq_some] at hm
      obtain ⟨⟨_, hwhole, _⟩, heq⟩ := hm
      cases heq
      exact {
        left := h.left.take f
        right := h.right
        toRight := { h.toRight with }
        toLeft := h.toLeft.take hf hwhole
        crossed := Crossed.take h.crossed h.right.own_le f }
    · cases hm
  | forward =>
    rw [Duplex.moveLeft, Option.ite_none_right_eq_some] at hm
    cases hm.2
    exact ⟨{ h.left with }, h.right, { h.toRight with }, { h.toLeft with }, h.crossed⟩
  | drain n =>
    rw [Duplex.moveLeft, Option.ite_none_right_eq_some] at hm
    cases hm.2
    exact ⟨{ h.left with }, h.right, { h.toRight with }, { h.toLeft with }, h.crossed⟩
  | process =>
    rw [Duplex.moveLeft] at hm
    split at hm
    next t ht =>
      rw [Option.ite_none_right_eq_some] at hm
      cases hm.2
      exact ⟨h.left.process ht, h.right, { h.toRight with }, { h.toLeft with }, h.crossed⟩
    · cases hm
  | flush =>
    rw [Duplex.moveLeft, Option.ite_none_right_eq_some] at hm
    cases hm.2
    exact {
      left := h.left.flush
      right := h.right
      toRight := { h.toRight with }
      toLeft := h.toLeft.flush
      crossed := fun s hs t ht => h.crossed s (List.mem_of_mem_drop hs) t ht }
  | finish =>
    rw [Duplex.moveLeft, Option.ite_none_right_eq_some] at hm
    cases hm.2
    exact ⟨{ h.left with }, h.right, { h.toRight with }, { h.toLeft with }, h.crossed⟩

/-- A move of either session, where its writing has room in the other's window. -/
def SpacedStep (capacity : Nat) (d d' : Duplex) : Prop :=
  ∃ onLeft m, (if onLeft then d else d.swap).Spaced m ∧ d.move capacity onLeft m = some d'

theorem Inv.step (h : d.Inv capacity window) (hstep : SpacedStep capacity d d') :
    d'.Inv capacity window := by
  obtain ⟨onLeft, m, hspaced, hmove⟩ := hstep
  cases onLeft with
  | true => exact h.moveLeft hspaced hmove
  | false =>
    obtain ⟨d'', hmove', rfl⟩ := Option.map_eq_some_iff.mp hmove
    exact (h.swap.moveLeft hspaced hmove').swap

/-- The oldest frame that a throttled reader holds lies a window before the bytes it has read. -/
theorem throttled_behind (h : d.Inv capacity window) (hblocked : d.leftThrottled) :
    ∃ t ∈ d.left.held, t.stop + window < d.left.popped + inlineThreshold := by
  obtain ⟨_, f, hf, hwhole, hfull⟩ := hblocked
  simp only [InFlight.admits, not_or, not_not] at hfull
  obtain ⟨_, hsome, hover⟩ := hfull
  rw [h.left.outstanding] at hsome hover
  rw [h.left.window_eq] at hover
  cases hheld : d.left.held with
  | nil =>
    rw [hheld] at hsome
    cases hsome
  | cons t rest =>
    have hstop := h.toLeft.stops [] t rest hheld
    have hrest := content_le_wire (heldFrames rest)
    have hcost : content (heldFrames (t :: rest)) = t.frame.cost + content (heldFrames rest) := by
      simp only [heldFrames, content, List.map_cons, List.sum_cons]
    have hsmall := t.frame.small
    have hfits := f.fits
    rw [hheld, hcost] at hover
    exact ⟨t, List.mem_cons_self, by omega⟩

/-- A stuck pump has not written as much since its oldest frame came in as the other, throttled,
has read since its own did. -/
theorem stuck_throttled (h : d.Inv capacity window) (hstuck : d.leftStuck capacity)
    (ht : t ∈ d.right.held) (hbehind : t.stop + window < d.right.popped + inlineThreshold)
    (hs : s ∈ d.left.held) (hfirst : s.own ≤ t.heard) : False := by
  obtain ⟨hwriting, hfull⟩ := hstuck
  obtain ⟨_, _, _, hheld⟩ := h.left.spaced hwriting
  have hroom := hheld s hs
  have hlt := h.toRight.heard_lt t ht
  have hwriting : d.left.pushed < wire d.left.sent := hwriting
  simp only [slack] at hroom
  omega

theorem Inv.not_deadlocked (h : d.Inv capacity window) : ¬ d.Deadlocked capacity := by
  intro ⟨⟨hstuck, hthrottled⟩, hstuck', hthrottled'⟩
  obtain ⟨s, hs, hbehind⟩ := throttled_behind h hthrottled
  obtain ⟨t, ht, hbehind'⟩ := throttled_behind h.swap hthrottled'
  rcases h.crossed s hs t ht with hfirst | hfirst
  · exact stuck_throttled h hstuck ht hbehind' hs hfirst
  · exact stuck_throttled h.swap hstuck' hs hbehind ht hfirst

/-- Where every write has room in the window, the two pumps never block each other, whatever the
pipes hold and however the threads are scheduled. -/
theorem Run.never_both_blocked {capacity window : Nat}
    (hrun : Relation.ReflTransGen (SpacedStep capacity) (.start window) d) :
    ¬ d.Deadlocked capacity := by
  have hinv : d.Inv capacity window := by
    induction hrun with
    | refl => exact .start capacity window
    | tail _ hstep ih => exact ih.step hstep
  exact hinv.not_deadlocked

def smallFrame : ContentFrame := ⟨3, 40, by decide, by decide⟩

/-- One frame has come over. -/
def delivered : Duplex where
  left := { Endpoint.start defaultSendWindowBytes with
    sent := [smallFrame], pushed := 40, phase := .wrote }
  right := { Endpoint.start defaultSendWindowBytes with
    popped := 40, acquired := 1, position := 40, inHand := true, held := [⟨smallFrame, 40, 0, 40⟩]
    inflight := ⟨3, defaultSendWindowBytes⟩ }

theorem delivered_not_deadlocked : ¬ delivered.Deadlocked 65536 := by
  have hfits : Spaced (start defaultSendWindowBytes) (.batch [smallFrame]) :=
    ⟨by decide, fun t ht => by cases ht⟩
  have hrun : Relation.ReflTransGen (SpacedStep 65536) (start defaultSendWindowBytes) delivered :=
    Relation.ReflTransGen.refl.tail ⟨true, .batch [smallFrame], hfits, rfl⟩ |>.tail
      ⟨true, .push 40, trivial, rfl⟩ |>.tail ⟨false, .read 40, trivial, rfl⟩ |>.tail
      ⟨false, .acquire, trivial, rfl⟩
  exact Run.never_both_blocked hrun

/-- The moves in order, without those that are not possible. -/
def attempts (capacity : Nat) : List (Bool × PumpMove) → Duplex → Duplex
  | [], d => d
  | m :: moves, d =>
    match d.move capacity m.1 m.2 with
    | some d' => attempts capacity moves d'
    | none => attempts capacity moves d

theorem attempts_run (capacity : Nat) (moves : List (Bool × PumpMove)) (d : Duplex) :
    Relation.ReflTransGen (Step capacity) d (attempts capacity moves d) := by
  induction moves generalizing d with
  | nil => exact .refl
  | cons m moves ih =>
    rw [attempts]
    split
    next d' hm => exact .head ⟨m.1, m.2, hm⟩ (ih d')
    · exact ih d

def seedFrame : ContentFrame := ⟨1000000, 1000100, by decide, by decide⟩

/-- Each pump writes what it can into its pipe, each reader reads and acquires what it can. -/
def seedRound : List (Bool × PumpMove) :=
  [(true, .push 65536), (false, .push 65536), (true, .read 65536), (false, .read 65536),
    (true, .acquire), (false, .acquire), (true, .forward), (false, .forward)]

/-- Both sessions have begun a batch of files just under a megabyte. -/
def seeding : Duplex :=
  let batch := PumpMove.batch (List.replicate sendBatchFrames seedFrame)
  attempts 65536 ([(true, batch), (false, batch)] ++ (List.replicate 264 seedRound).flatten)
    (start defaultSendWindowBytes)

theorem seeding_deadlocked :
    ∃ d, Relation.ReflTransGen (Step 65536) (start defaultSendWindowBytes) d ∧
      d.Deadlocked 65536 :=
  ⟨seeding, attempts_run _ _ _, by decide +kernel⟩

end Duplex

end Tomo
