import Tomo.Session.Inbound
import Tomo.Transport.Pumps

namespace Tomo
set_option autoImplicit true

namespace InFlight

def new (windowBytes : Nat) : InFlight := ⟨0, max windowBytes 1⟩

def reset (w : InFlight) : InFlight := { w with outstanding := 0 }

end InFlight

/-- Where a reader thread is: between two frames, at the window with a decoded frame, through it, or
about to send the frame on after it has found its transport alive. -/
inductive ReaderStage where
  | reading
  | acquiring (msg : Message)
  | acquired (msg : Message)
  | sending (msg : Message)
  | returned
deriving DecidableEq

structure ReaderThread where
  alive : Bool
  stage : ReaderStage
deriving DecidableEq

/-- The frame that a reader has acquired and not forwarded. -/
def ReaderThread.hand (r : ReaderThread) : List Message :=
  match r.stage with
  | .acquired msg | .sending msg => [msg]
  | _ => []

/-- A frame in the session's channel, with the transport whose reader sent it. The session sees the
frame only. -/
structure Forwarded where
  transport : Nat
  msg : Message
deriving DecidableEq

/-- The receiving side of a session: the readers of all its transports so far, oldest first, the one
window they share, and the pump. -/
structure Receiving where
  inflight : InFlight
  readers : List ReaderThread
  current : Option Nat
  channel : List Forwarded
  burst : List Forwarded
  pendingRelease : Nat
  /-- The frames behind `pendingRelease`. -/
  processed : List Forwarded
deriving DecidableEq

inductive WindowMove where
  | connect
  | decode (reader : Nat) (msg : Message)
  | acquire (reader : Nat)
  | check (reader : Nat)
  | forward (reader : Nat)
  | stop (reader : Nat)
  | drain (n : Nat)
  | process
  | flush
  | suspend
  | goOffline
  | retrySsh
deriving DecidableEq

namespace Receiving

def start (windowBytes : Nat) : Receiving := ⟨.new windowBytes, [], none, [], [], 0, []⟩

/-- A reader goes on to another stage. -/
def goOn (f : Receiving) (g : Nat) (r : ReaderThread) (stage : ReaderStage) : Receiving :=
  { f with readers := f.readers.set g { r with stage } }

/-- The transport is marked dead and dropped. -/
def retire (f : Receiving) : Receiving :=
  match f.current with
  | none => f
  | some g =>
    match f.readers[g]? with
    | none => { f with current := none }
    | some r => { f with readers := f.readers.set g { r with alive := false }, current := none }

def suspendTransfers (f : Receiving) : Receiving :=
  { f with pendingRelease := 0, processed := [], inflight := f.inflight.reset }

def move (f : Receiving) : WindowMove → Option Receiving
  | .connect =>
    if f.current = none then
      some { f with readers := f.readers ++ [⟨true, .reading⟩], current := some f.readers.length }
    else none
  | .decode g msg =>
    match f.readers[g]? with
    | some r => if r.stage = .reading then some (f.goOn g r (.acquiring msg)) else none
    | none => none
  | .acquire g =>
    match f.readers[g]? with
    | some r =>
      match r.stage with
      | .acquiring msg =>
        if f.inflight.admits (inflightCost msg) then
          some { f.goOn g r (.acquired msg) with
            inflight := f.inflight.acquire (inflightCost msg) }
        else none
      | _ => none
    | none => none
  | .check g =>
    match f.readers[g]? with
    | some r =>
      match r.stage with
      | .acquired msg => some (f.goOn g r (if r.alive then .sending msg else .returned))
      | _ => none
    | none => none
  | .forward g =>
    match f.readers[g]? with
    | some r =>
      match r.stage with
      | .sending msg => some { f.goOn g r .reading with channel := f.channel ++ [⟨g, msg⟩] }
      | _ => none
    | none => none
  | .stop g =>
    match f.readers[g]? with
    | some r => if r.stage = .reading then some (f.goOn g r .returned) else none
    | none => none
  | .drain n =>
    if f.burst = [] ∧ f.processed = [] ∧ n ≤ burstDrainLimit then
      some { f with burst := f.channel.take n, channel := f.channel.drop n }
    else none
  | .process =>
    match f.burst with
    | p :: rest =>
      some { f with
        burst := rest
        pendingRelease := f.pendingRelease + inflightCost p.msg
        processed := f.processed ++ [p] }
    | [] => none
  | .flush =>
    some { f with
      pendingRelease := 0
      processed := []
      inflight := f.inflight.release f.pendingRelease }
  | .suspend => some f.suspendTransfers
  | .goOffline => if f.current = none then none else some f.retire.suspendTransfers
  -- The pump has left its burst, and flushed on the way out.
  | .retrySsh =>
    if f.current = none ∨ f.processed ≠ [] then none
    else some { f.retire with burst := [], inflight := f.inflight.reset }

/-- What a reader has acquired and not forwarded. -/
def hand (f : Receiving) (g : Nat) : List Message := (f.readers[g]?.map ReaderThread.hand).getD []

/-- The frames that came over a transport. -/
def via (g : Nat) (l : List Forwarded) : List Message :=
  (l.filter fun p => p.transport = g).map Forwarded.msg

/-- What was acquired on a transport and is not processed, oldest first. -/
def waiting (f : Receiving) (g : Nat) : List Message := via g (f.burst ++ f.channel) ++ f.hand g

/-- What the reader of the current transport has acquired and the pump has not released. -/
def held (f : Receiving) : List Message :=
  match f.current with
  | some g => via g f.processed ++ f.waiting g
  | none => []

/-- The content that messages carry. -/
def carried (l : List Message) : Nat := (l.map inflightCost).sum

/-- Those that carry content. -/
def bulk (l : List Message) : List Message := l.filter fun msg => 0 < inflightCost msg

/-- The window counts what is held, is within its size unless it holds one frame that is larger, and
is empty when nothing is held. -/
structure Conserves (f : Receiving) : Prop where
  exact : f.inflight.outstanding = carried f.held
  bounded : f.inflight.outstanding ≤ f.inflight.window ∨
    ∃ msg, bulk f.held = [msg] ∧ f.inflight.window < inflightCost msg
  idle : f.held = [] → f.inflight.outstanding = 0

/-- The reader of a retired transport acquires no content, no reset for a pause leaves content of
the transport that is kept unprocessed, and content of a retired transport is released only
while none of the current one stays behind. -/
def Tidy (f : Receiving) : WindowMove → Prop
  | .acquire g => f.current = some g ∨ ∀ r, f.readers[g]? = some r → ∀ msg,
      r.stage = .acquiring msg → inflightCost msg = 0
  | .suspend => ∀ g, f.current = some g → bulk (f.waiting g) = []
  | .flush => (∀ p ∈ f.processed, f.current ≠ some p.transport → inflightCost p.msg = 0) ∨
      ∀ g, f.current = some g → bulk (f.waiting g) = []
  | _ => True

/-- A property of every state that a run goes through. -/
def Throughout (P : Receiving → Prop) (f : Receiving) : List WindowMove → Prop
  | [] => P f
  | m :: ms => P f ∧ ∀ f', f.move m = some f' → f'.Throughout P ms

/-- Every move that a run makes is tidy. -/
def RunsTidily (f : Receiving) : List WindowMove → Prop
  | [] => True
  | m :: ms => ∀ f', f.move m = some f' → f.Tidy m ∧ f'.RunsTidily ms

variable {f f' : Receiving} {g i : Nat} {m : WindowMove}

theorem carried_append (a b : List Message) : carried (a ++ b) = carried a + carried b := by
  rw [carried, List.map_append, List.sum_append]
  rfl

theorem carried_single (msg : Message) : carried [msg] = inflightCost msg := by
  rw [carried, List.map_singleton, List.sum_singleton]

theorem bulk_append (a b : List Message) : bulk (a ++ b) = bulk a ++ bulk b := List.filter_append ..

theorem via_append (g : Nat) (a b : List Forwarded) : via g (a ++ b) = via g a ++ via g b := by
  rw [via, List.filter_append, List.map_append]
  rfl

/-- Messages carry nothing when none of them does. -/
theorem carried_eq_zero (l : List Message) : carried l = 0 ↔ bulk l = [] := by
  induction l with
  | nil => exact Iff.of_eq (by simp [carried, bulk])
  | cons msg l ih =>
    have hsum : carried (msg :: l) = inflightCost msg + carried l := rfl
    rw [hsum, Nat.add_eq_zero_iff, ih]
    by_cases hc : 0 < inflightCost msg
    · have hbulk : bulk (msg :: l) = msg :: bulk l := List.filter_cons_of_pos (by simpa using hc)
      rw [hbulk]
      simp only [reduceCtorEq, iff_false, not_and]
      intro hz
      omega
    · have hbulk : bulk (msg :: l) = bulk l := List.filter_cons_of_neg (by simpa using hc)
      rw [hbulk]
      constructor
      · exact And.right
      · intro hl
        exact ⟨by omega, hl⟩

/-- The content is within the window, or of one frame larger than the window. -/
def Bounded (window : Nat) (l : List Message) : Prop :=
  carried l ≤ window ∨ ∃ msg, bulk l = [msg] ∧ window < inflightCost msg

/-- Frames that go leave the bound. -/
theorem Bounded.rest {window : Nat} {a b : List Message} (h : Bounded window (a ++ b)) :
    Bounded window b := by
  rcases h with hle | ⟨msg, hbulk, hlt⟩
  · rw [carried_append] at hle
    exact .inl (by omega)
  · rw [bulk_append, List.append_eq_singleton_iff] at hbulk
    rcases hbulk with ⟨_, hb⟩ | ⟨_, hb⟩
    · exact .inr ⟨msg, hb, hlt⟩
    · rw [← carried_eq_zero] at hb
      exact .inl (by omega)

/-- A frame that the window admits keeps the bound. -/
theorem Bounded.take {w : InFlight} {l : List Message} {msg : Message}
    (h : Bounded w.window l) (hw : w.outstanding = carried l) (ha : w.admits (inflightCost msg)) :
    Bounded w.window (l ++ [msg]) := by
  have hsum : carried (l ++ [msg]) = carried l + inflightCost msg := by
    rw [carried_append, carried_single]
  rcases ha with hzero | hroom
  · have hskip : bulk [msg] = [] := by rw [← carried_eq_zero, carried_single, hzero]
    rcases h with hle | ⟨big, hbulk, hlt⟩
    · exact .inl (by omega)
    · exact .inr ⟨big, by rw [bulk_append, hbulk, hskip, List.append_nil], hlt⟩
  · by_cases hle : carried l + inflightCost msg ≤ w.window
    · exact .inl (by omega)
    · have hempty : carried l = 0 := by
        by_contra hne
        exact hroom ⟨by omega, by omega⟩
      have hbig : bulk [msg] = [msg] := List.filter_cons_of_pos (by simp; omega)
      have hnone := (carried_eq_zero l).1 hempty
      exact .inr ⟨msg, by rw [bulk_append, hnone, hbig, List.nil_append], by omega⟩

theorem conserves_iff : f.Conserves ↔
    f.inflight.outstanding = carried f.held ∧ Bounded f.inflight.window f.held := by
  constructor
  · intro h
    have hb := h.bounded
    rw [h.exact] at hb
    exact ⟨h.exact, hb⟩
  · intro h
    obtain ⟨he, hb⟩ := h
    refine ⟨he, by rw [he]; exact hb, ?_⟩
    intro hnil
    rw [he, hnil]
    rfl

/-- What holds whatever the window counts. -/
structure Sound (f : Receiving) : Prop where
  pending : f.pendingRelease = carried (f.processed.map Forwarded.msg)
  known : ∀ p ∈ f.processed ++ (f.burst ++ f.channel), p.transport < f.readers.length
  live : ∀ g, f.current = some g → ∃ r, f.readers[g]? = some r ∧ r.alive = true

theorem sound_start (windowBytes : Nat) : (start windowBytes).Sound where
  pending := rfl
  known p hp := by cases hp
  live g hg := by cases hg

/-- A reader that goes on changes its own hand only. -/
theorem hand_goOn (hr : f.readers[g]? = some r) (stage : ReaderStage) (i : Nat) :
    (f.goOn g r stage).hand i = if g = i then ReaderThread.hand { r with stage } else f.hand i := by
  have hlt : g < f.readers.length := (List.getElem?_eq_some_iff.1 hr).1
  simp only [hand, goOn, List.getElem?_set, hlt, ↓reduceIte]
  split <;> rfl

theorem hand_of_get (hr : f.readers[g]? = some r) : f.hand g = r.hand := by
  rw [hand, hr]
  rfl

theorem Sound.goOn (h : f.Sound) (hr : f.readers[g]? = some r) (stage : ReaderStage) :
    (f.goOn g r stage).Sound where
  pending := h.pending
  known p hp := by
    have hk := h.known p hp
    simpa only [Receiving.goOn, List.length_set] using hk
  live i hi := by
    obtain ⟨r', hr', halive⟩ := h.live i hi
    by_cases hgi : g = i
    · subst hgi
      rw [hr, Option.some.injEq] at hr'
      subst hr'
      exact ⟨_, List.getElem?_set_self (List.getElem?_eq_some_iff.1 hr).1, halive⟩
    · exact ⟨r', by rw [Receiving.goOn, List.getElem?_set_ne hgi, hr'], halive⟩

theorem retire_spec (f : Receiving) : ∃ readers, readers.length = f.readers.length ∧
    f.retire = { f with readers, current := none } := by
  obtain ⟨inflight, readers, current, channel, burst, pendingRelease, processed⟩ := f
  cases current with
  | none => exact ⟨readers, rfl, rfl⟩
  | some g =>
    simp only [retire]
    cases readers[g]? with
    | none => exact ⟨readers, rfl, rfl⟩
    | some r => exact ⟨_, List.length_set, rfl⟩

/-! What the moves of a reader do. -/

theorem move_decode (h : f.move (.decode g msg) = some f') :
    ∃ r, f.readers[g]? = some r ∧ r.stage = .reading ∧ f' = f.goOn g r (.acquiring msg) := by
  cases hr : f.readers[g]? with
  | none =>
    rw [move, hr] at h
    cases h
  | some r =>
    simp only [move, hr, Option.ite_none_right_eq_some, Option.some.injEq] at h
    exact ⟨r, rfl, h.1, h.2.symm⟩

theorem move_acquire (h : f.move (.acquire g) = some f') :
    ∃ r msg, f.readers[g]? = some r ∧ r.stage = .acquiring msg ∧
      f.inflight.admits (inflightCost msg) ∧
      f' = { f.goOn g r (.acquired msg) with
        inflight := f.inflight.acquire (inflightCost msg) } := by
  cases hr : f.readers[g]? with
  | none =>
    rw [move, hr] at h
    cases h
  | some r =>
    cases hs : r.stage with
    | acquiring msg =>
      simp only [move, hr, hs, Option.ite_none_right_eq_some, Option.some.injEq] at h
      exact ⟨r, msg, rfl, hs, h.1, h.2.symm⟩
    | reading | acquired msg | sending msg | returned =>
      simp only [move, hr, hs, reduceCtorEq] at h

theorem move_check (h : f.move (.check g) = some f') :
    ∃ r msg, f.readers[g]? = some r ∧ r.stage = .acquired msg ∧
      f' = f.goOn g r (if r.alive then .sending msg else .returned) := by
  cases hr : f.readers[g]? with
  | none =>
    rw [move, hr] at h
    cases h
  | some r =>
    cases hs : r.stage with
    | acquired msg =>
      simp only [move, hr, hs, Option.some.injEq] at h
      exact ⟨r, msg, rfl, hs, h.symm⟩
    | reading | acquiring msg | sending msg | returned =>
      simp only [move, hr, hs, reduceCtorEq] at h

theorem move_forward (h : f.move (.forward g) = some f') :
    ∃ r msg, f.readers[g]? = some r ∧ r.stage = .sending msg ∧
      f' = { f.goOn g r .reading with channel := f.channel ++ [⟨g, msg⟩] } := by
  cases hr : f.readers[g]? with
  | none =>
    rw [move, hr] at h
    cases h
  | some r =>
    cases hs : r.stage with
    | sending msg =>
      simp only [move, hr, hs, Option.some.injEq] at h
      exact ⟨r, msg, rfl, hs, h.symm⟩
    | reading | acquiring msg | acquired msg | returned =>
      simp only [move, hr, hs, reduceCtorEq] at h

theorem move_stop (h : f.move (.stop g) = some f') :
    ∃ r, f.readers[g]? = some r ∧ r.stage = .reading ∧ f' = f.goOn g r .returned := by
  cases hr : f.readers[g]? with
  | none =>
    rw [move, hr] at h
    cases h
  | some r =>
    simp only [move, hr, Option.ite_none_right_eq_some, Option.some.injEq] at h
    exact ⟨r, rfl, h.1, h.2.symm⟩

theorem Sound.step (hs : f.Sound) (h : f.move m = some f') : f'.Sound := by
  cases m with
  | connect =>
    simp only [move, Option.ite_none_right_eq_some, Option.some.injEq] at h
    obtain ⟨_, rfl⟩ := h
    refine ⟨hs.pending, ?_, ?_⟩
    · intro p hp
      have hk := hs.known p hp
      simp only [List.length_append, List.length_singleton]
      omega
    · intro g hg
      simp only [Option.some.injEq] at hg
      subst hg
      exact ⟨_, List.getElem?_concat_length, rfl⟩
  | decode g msg =>
    obtain ⟨r, hr, _, rfl⟩ := move_decode h
    exact hs.goOn hr _
  | acquire g =>
    obtain ⟨r, msg, hr, _, _, rfl⟩ := move_acquire h
    obtain ⟨hp, hk, hl⟩ := hs.goOn hr (.acquired msg)
    exact ⟨hp, hk, hl⟩
  | check g =>
    obtain ⟨r, msg, hr, _, rfl⟩ := move_check h
    exact hs.goOn hr _
  | forward g =>
    obtain ⟨r, msg, hr, _, rfl⟩ := move_forward h
    obtain ⟨hp, hk, hl⟩ := hs.goOn hr .reading
    refine ⟨hp, ?_, hl⟩
    intro p hp
    rw [← List.append_assoc, ← List.append_assoc, List.mem_append, List.append_assoc,
      List.mem_singleton] at hp
    rcases hp with hp | rfl
    · exact hk p hp
    · have hlt := (List.getElem?_eq_some_iff.1 hr).1
      simpa only [Receiving.goOn, List.length_set] using hlt
  | stop g =>
    obtain ⟨r, hr, _, rfl⟩ := move_stop h
    exact hs.goOn hr _
  | drain n =>
    simp only [move, Option.ite_none_right_eq_some, Option.some.injEq] at h
    obtain ⟨⟨hb, hp, _⟩, rfl⟩ := h
    refine ⟨hs.pending, ?_, hs.live⟩
    have hk := hs.known
    rw [hb, List.nil_append] at hk
    rwa [List.take_append_drop]
  | process =>
    cases hb : f.burst with
    | nil =>
      rw [move, hb] at h
      cases h
    | cons p rest =>
      simp only [move, hb, Option.some.injEq] at h
      subst h
      refine ⟨?_, ?_, hs.live⟩
      · rw [List.map_append, carried_append, ← hs.pending, List.map_singleton, carried_single]
      · have hk := hs.known
        rw [hb] at hk
        rwa [List.append_assoc, List.singleton_append]
  | flush =>
    simp only [move, Option.some.injEq] at h
    subst h
    exact ⟨rfl, fun p hp => hs.known p (List.mem_append_right _ hp), hs.live⟩
  | suspend =>
    simp only [move, Option.some.injEq] at h
    subst h
    exact ⟨rfl, fun p hp => hs.known p (List.mem_append_right _ hp), hs.live⟩
  | goOffline =>
    obtain ⟨readers, hlen, hretire⟩ := f.retire_spec
    simp only [move, Option.ite_none_left_eq_some, Option.some.injEq, hretire] at h
    obtain ⟨_, rfl⟩ := h
    refine ⟨rfl, ?_, fun g hg => by cases hg⟩
    intro p hp
    have hk := hs.known p (List.mem_append_right _ hp)
    rwa [← hlen] at hk
  | retrySsh =>
    obtain ⟨readers, hlen, hretire⟩ := f.retire_spec
    simp only [move, Option.ite_none_left_eq_some, Option.some.injEq, hretire] at h
    obtain ⟨_, rfl⟩ := h
    refine ⟨hs.pending, ?_, fun g hg => by cases hg⟩
    intro p hp
    have hk := hs.known p (by
      rcases List.mem_append.1 hp with hp | hp
      · exact List.mem_append_left _ hp
      · exact List.mem_append_right _ (List.mem_append_right _ hp))
    rwa [← hlen] at hk

theorem held_of_current (h : f.current = some g) :
    f.held = via g f.processed ++ f.waiting g := by
  rw [held, h]

theorem held_of_none (h : f.current = none) : f.held = [] := by
  rw [held, h]

theorem via_eq_nil {l : List Forwarded} (h : ∀ p ∈ l, p.transport ≠ g) : via g l = [] := by
  rw [via, List.map_eq_nil_iff, List.filter_eq_nil_iff]
  intro p hp
  rw [decide_eq_true_eq]
  exact h p hp

theorem via_single (p : Forwarded) :
    via g [p] = if p.transport = g then [p.msg] else [] := by
  by_cases h : p.transport = g <;> simp [via, h]

theorem Conserves.steady (hc : f.Conserves) (hh : f'.held = f.held)
    (hi : f'.inflight = f.inflight) : f'.Conserves := by
  rw [conserves_iff] at hc ⊢
  rwa [hh, hi]

/-- A new transport has nothing yet. -/
theorem held_connect (hs : f.Sound) (h : f.move .connect = some f') :
    f'.held = f.held ∧ f'.inflight = f.inflight := by
  simp only [move, Option.ite_none_right_eq_some, Option.some.injEq] at h
  obtain ⟨hc, rfl⟩ := h
  have hnew (l : List Forwarded) (hl : ∀ p ∈ l, p ∈ f.processed ++ (f.burst ++ f.channel)) :
      via f.readers.length l = [] := by
    apply via_eq_nil
    intro p hp
    exact (hs.known p (hl p hp)).ne
  have hhand : hand { f with
      readers := f.readers ++ [⟨true, .reading⟩]
      current := some f.readers.length } f.readers.length = [] := by
    simp only [hand, List.getElem?_concat_length]
    rfl
  constructor
  · rw [held_of_none hc, held_of_current rfl, waiting, hhand]
    simp only [List.append_nil]
    rw [hnew _ fun p hp => List.mem_append_left _ hp, hnew _ fun p hp => List.mem_append_right _ hp]
    rfl
  · rfl

/-- What is held is the same when it is on the transport that stays the current one. -/
theorem held_congr (hcurrent : f'.current = f.current) (hheld : ∀ i, f.current = some i →
    via i f'.processed ++ f'.waiting i = via i f.processed ++ f.waiting i) :
    f'.held = f.held := by
  cases hc : f.current with
  | none => rw [held_of_none hc, held_of_none (hcurrent.trans hc)]
  | some i => rw [held_of_current hc, held_of_current (hcurrent.trans hc), hheld i hc]

/-- A reader that goes on with what it has leaves what is held. -/
theorem held_goOn (hr : f.readers[g]? = some r) (stage : ReaderStage)
    (hs : f.current = some g → ReaderThread.hand { r with stage } = r.hand) :
    (f.goOn g r stage).held = f.held := by
  have hcurrent : (f.goOn g r stage).current = f.current := rfl
  apply held_congr hcurrent
  intro i hc
  have hhand : (f.goOn g r stage).hand i = f.hand i := by
    rw [hand_goOn hr]
    split
    case isTrue h =>
      subst h
      rw [hs hc, hand_of_get hr]
    case isFalse => rfl
  rw [waiting, waiting, hhand]
  rfl

theorem hand_of_stage {r : ReaderThread} (h : r.stage = stage) :
    r.hand = ReaderThread.hand ⟨r.alive, stage⟩ := by
  rw [← h]

theorem held_check (hs : f.Sound) (h : f.move (.check g) = some f') :
    f'.held = f.held ∧ f'.inflight = f.inflight := by
  obtain ⟨r, msg, hr, hstage, rfl⟩ := move_check h
  constructor
  · apply held_goOn hr
    intro hc
    obtain ⟨r', hr', halive⟩ := hs.live g hc
    rw [hr, Option.some.injEq] at hr'
    subst hr'
    rw [hand_of_stage hstage, if_pos halive]
    rfl
  · rfl

/-- A frame goes from the hand of its reader into the channel. -/
theorem held_forward (h : f.move (.forward g) = some f') :
    f'.held = f.held ∧ f'.inflight = f.inflight := by
  obtain ⟨r, msg, hr, hstage, rfl⟩ := move_forward h
  let sent : Receiving := { f.goOn g r .reading with channel := f.channel ++ [⟨g, msg⟩] }
  have hsent (i : Nat) : sent.waiting i = f.waiting i := by
    have hhand : sent.hand i = if g = i then [] else f.hand i := hand_goOn hr .reading i
    have hvia : via i (sent.burst ++ sent.channel) =
        via i (f.burst ++ f.channel) ++ if g = i then [msg] else [] := by
      have hchannel : sent.burst ++ sent.channel = f.burst ++ f.channel ++ [⟨g, msg⟩] :=
        (List.append_assoc ..).symm
      rw [hchannel, via_append, via_single]
    rw [waiting, waiting, hhand, hvia]
    by_cases hgi : g = i
    · subst hgi
      have hold : f.hand g = [msg] := by
        rw [hand_of_get hr, hand_of_stage hstage]
        rfl
      rw [if_pos rfl, if_pos rfl, hold, List.append_nil]
    · rw [if_neg hgi, if_neg hgi, List.append_nil]
  have hcurrent : sent.current = f.current := rfl
  constructor
  · apply held_congr hcurrent
    intro i hc
    rw [hsent]
    rfl
  · rfl

/-- The pump takes frames from the channel into its burst, and from there. -/
theorem held_drain (h : f.move (.drain n) = some f') :
    f'.held = f.held ∧ f'.inflight = f.inflight := by
  simp only [move, Option.ite_none_right_eq_some, Option.some.injEq] at h
  obtain ⟨⟨hb, _, _⟩, rfl⟩ := h
  constructor
  · apply held_congr (f := f)
    case hcurrent => rfl
    intro i hc
    rw [waiting, waiting, List.take_append_drop, hb, List.nil_append]
    rfl
  · rfl

theorem held_process (h : f.move .process = some f') :
    f'.held = f.held ∧ f'.inflight = f.inflight := by
  cases hb : f.burst with
  | nil =>
    rw [move, hb] at h
    cases h
  | cons p rest =>
    simp only [move, hb, Option.some.injEq] at h
    subst h
    constructor
    · apply held_congr (f := f)
      case hcurrent => rfl
      intro i hc
      have hsplit : f.burst ++ f.channel = [p] ++ (rest ++ f.channel) := by
        rw [hb]
        rfl
      change via i (f.processed ++ [p]) ++ (via i (rest ++ f.channel) ++ f.hand i) = _
      rw [waiting, hsplit, via_append, via_append i [p], List.append_assoc, List.append_assoc]
    · rfl

/-- The reader of the current transport adds a frame that the window admits. -/
theorem acquire_conserves (hc : f.Conserves) (hcurrent : f.current = some g)
    (h : f.move (.acquire g) = some f') : f'.Conserves := by
  obtain ⟨r, msg, hr, hstage, hadmits, rfl⟩ := move_acquire h
  let taken : Receiving := { f.goOn g r (.acquired msg) with
    inflight := f.inflight.acquire (inflightCost msg) }
  have hold : f.hand g = [] := by
    rw [hand_of_get hr, hand_of_stage hstage]
    rfl
  have hnew : taken.hand g = [msg] := by
    have hhand : taken.hand g = if g = g then [msg] else f.hand g := hand_goOn hr _ g
    rwa [if_pos rfl] at hhand
  have htaken : taken.current = some g := hcurrent
  have hheld : taken.held = f.held ++ [msg] := by
    rw [held_of_current htaken, held_of_current hcurrent, waiting, waiting, hold, hnew,
      List.append_nil, List.append_assoc]
    rfl
  rw [conserves_iff] at hc ⊢
  change taken.inflight.outstanding = carried taken.held ∧ Bounded f.inflight.window taken.held
  rw [hheld, carried_append, carried_single, ← hc.1]
  exact ⟨rfl, hc.2.take hc.1 hadmits⟩

/-- A retired reader takes room that nothing gives back. -/
theorem acquire_retired (hc : f.Conserves) (hcurrent : f.current ≠ some g)
    (h : f.move (.acquire g) = some f') : f'.Conserves ↔ ∀ r, f.readers[g]? = some r →
      ∀ msg, r.stage = .acquiring msg → inflightCost msg = 0 := by
  obtain ⟨r, msg, hr, hstage, hadmits, rfl⟩ := move_acquire h
  have hheld : held { f.goOn g r (.acquired msg) with
      inflight := f.inflight.acquire (inflightCost msg) } = f.held :=
    held_goOn hr (.acquired msg) fun hcur => absurd hcur hcurrent
  rw [conserves_iff] at hc ⊢
  rw [hheld]
  simp only [InFlight.acquire]
  constructor
  · intro hnew r' hr' msg' hstage'
    rw [hr, Option.some.injEq] at hr'
    subst hr'
    rw [hstage, ReaderStage.acquiring.injEq] at hstage'
    subst hstage'
    omega
  · intro hzero
    have hcost := hzero r hr msg hstage
    exact ⟨by omega, hc.2⟩

/-- Nothing is counted any more, which is right when nothing is kept that waits. -/
theorem suspend_conserves (hc : f.Conserves) :
    f.suspendTransfers.Conserves ↔ ∀ g, f.current = some g → bulk (f.waiting g) = [] := by
  cases hcur : f.current with
  | none =>
    have hnone : f.suspendTransfers.current = none := hcur
    rw [conserves_iff, held_of_none hnone]
    constructor
    · intro _ g hg
      cases hg
    · intro _
      exact ⟨rfl, .inl (Nat.zero_le _)⟩
  | some i =>
    have hsome : f.suspendTransfers.current = some i := hcur
    have hheld : f.suspendTransfers.held = f.waiting i := held_of_current hsome
    rw [conserves_iff] at hc ⊢
    rw [hheld]
    constructor
    · intro hnew g hg
      rw [Option.some.injEq] at hg
      subst hg
      rw [← carried_eq_zero]
      exact hnew.1.symm
    · intro hempty
      have hzero := (carried_eq_zero _).2 (hempty i rfl)
      have hbound := hc.2
      rw [held_of_current hcur] at hbound
      exact ⟨hzero.symm, hbound.rest⟩

theorem idle_conserves (hcur : f.current = none) (hzero : f.inflight.outstanding = 0) :
    f.Conserves := by
  rw [conserves_iff, held_of_none hcur, hzero]
  exact ⟨rfl, .inl (Nat.zero_le _)⟩

/-- What came over one transport, and what over the others. -/
theorem carried_via (g : Nat) (l : List Forwarded) : carried (l.map Forwarded.msg) =
    carried (via g l) + carried ((l.filter fun p => p.transport ≠ g).map Forwarded.msg) := by
  induction l with
  | nil => rfl
  | cons p l ih =>
    have hsum : carried ((p :: l).map Forwarded.msg) =
        inflightCost p.msg + carried (l.map Forwarded.msg) := rfl
    rw [hsum, ih, via, via]
    by_cases hp : p.transport = g
    · rw [List.filter_cons_of_pos (by simpa using hp), List.filter_cons_of_neg (by simpa using hp)]
      have hhead : carried ((p :: l.filter fun p => p.transport = g).map Forwarded.msg) =
        inflightCost p.msg + carried ((l.filter fun p => p.transport = g).map Forwarded.msg) := rfl
      omega
    · rw [List.filter_cons_of_neg (by simpa using hp), List.filter_cons_of_pos (by simpa using hp)]
      have hhead : carried ((p :: l.filter fun p => p.transport ≠ g).map Forwarded.msg) =
        inflightCost p.msg + carried ((l.filter fun p => p.transport ≠ g).map Forwarded.msg) := rfl
      omega

/-- The release is of what is held and processed, and of what came over other transports. -/
theorem flush_conserves (hs : f.Sound) (hc : f.Conserves) (h : f.move .flush = some f') :
    f'.Conserves ↔ f.Tidy .flush := by
  simp only [move, Option.some.injEq] at h
  subst h
  rcases Option.eq_none_or_eq_some f.current with hcur | ⟨i, hcur⟩
  · rw [conserves_iff] at hc
    have hzero : f.inflight.outstanding - f.pendingRelease = 0 := by
      rw [hc.1, held_of_none hcur]
      exact Nat.zero_sub _
    constructor
    · intro _
      refine .inr ?_
      intro g hg
      rw [hcur] at hg
      cases hg
    · intro _
      exact idle_conserves hcur hzero
  · let stale := (f.processed.filter fun p => p.transport ≠ i).map Forwarded.msg
    have hpending : f.pendingRelease = carried (via i f.processed) + carried stale := by
      rw [hs.pending, carried_via i]
    have hheld : f.held = via i f.processed ++ f.waiting i := held_of_current hcur
    have hstale : carried stale = 0 ↔
        ∀ p ∈ f.processed, f.current ≠ some p.transport → inflightCost p.msg = 0 := by
      rw [hcur, carried_eq_zero, bulk, List.filter_eq_nil_iff]
      simp only [stale, List.mem_map, List.mem_filter, ne_eq, decide_not, Bool.not_eq_eq_eq_not,
        Bool.not_true, decide_eq_false_iff_not, Option.some.injEq, decide_eq_true_eq,
        forall_exists_index, and_imp]
      constructor
      · intro hall p hp hne
        have hcost := hall p.msg p hp (fun he => hne he.symm) rfl
        omega
      · intro hall msg p hp hne he
        have hcost := hall p hp (fun hi => hne hi.symm)
        rw [← he]
        omega
    have hwait : (∀ g, f.current = some g → bulk (f.waiting g) = []) ↔
        carried (f.waiting i) = 0 := by
      rw [carried_eq_zero]
      constructor
      · intro hall
        exact hall i hcur
      · intro hempty g hg
        rw [hcur, Option.some.injEq] at hg
        rwa [← hg]
    have hnew : held { f with
        pendingRelease := 0
        processed := []
        inflight := f.inflight.release f.pendingRelease } = f.waiting i :=
      held_of_current hcur
    rw [Tidy, ← hstale, hwait, conserves_iff, hnew]
    rw [conserves_iff, hheld, carried_append] at hc
    obtain ⟨hexact, hbound⟩ := hc
    have hrest := hbound.rest
    simp only [InFlight.release]
    constructor
    · intro hafter
      omega
    · intro htidy
      exact ⟨by omega, hrest⟩

theorem Conserves.step_iff (hs : f.Sound) (hc : f.Conserves) (h : f.move m = some f') :
    f'.Conserves ↔ f.Tidy m := by
  have hsteady (hkeeps : f'.held = f.held ∧ f'.inflight = f.inflight) :
      f'.Conserves ↔ True := iff_of_true (hc.steady hkeeps.1 hkeeps.2) trivial
  cases m with
  | connect => exact hsteady (held_connect hs h)
  | decode g msg =>
    obtain ⟨r, hr, hstage, rfl⟩ := move_decode h
    exact hsteady ⟨held_goOn hr _ fun _ => (hand_of_stage hstage).symm, rfl⟩
  | acquire g =>
    by_cases hcur : f.current = some g
    · exact iff_of_true (acquire_conserves hc hcur h) (.inl hcur)
    · rw [acquire_retired hc hcur h, Tidy, or_iff_right hcur]
  | check g => exact hsteady (held_check hs h)
  | forward g => exact hsteady (held_forward h)
  | stop g =>
    obtain ⟨r, hr, hstage, rfl⟩ := move_stop h
    exact hsteady ⟨held_goOn hr _ fun _ => (hand_of_stage hstage).symm, rfl⟩
  | drain n => exact hsteady (held_drain h)
  | process => exact hsteady (held_process h)
  | flush => exact flush_conserves hs hc h
  | suspend =>
    simp only [move, Option.some.injEq] at h
    subst h
    exact suspend_conserves hc
  | goOffline =>
    obtain ⟨readers, _, hretire⟩ := f.retire_spec
    simp only [move, Option.ite_none_left_eq_some, Option.some.injEq, hretire] at h
    obtain ⟨_, rfl⟩ := h
    exact iff_of_true (idle_conserves rfl rfl) trivial
  | retrySsh =>
    obtain ⟨readers, _, hretire⟩ := f.retire_spec
    simp only [move, Option.ite_none_left_eq_some, Option.some.injEq, hretire] at h
    obtain ⟨_, rfl⟩ := h
    exact iff_of_true (idle_conserves rfl rfl) trivial

/-- From a state that is right, a run stays right when its moves are tidy, and only then. -/
theorem Conserves.run_iff (hs : f.Sound) (hc : f.Conserves) (ms : List WindowMove) :
    f.Throughout Conserves ms ↔ f.RunsTidily ms := by
  induction ms generalizing f with
  | nil => exact iff_of_true hc trivial
  | cons m ms ih =>
    simp only [Throughout, RunsTidily]
    constructor
    · intro hall f' hm
      have hrest := hall.2 f' hm
      have hc' : f'.Conserves := by
        cases ms with
        | nil => exact hrest
        | cons => exact hrest.1
      exact ⟨(hc.step_iff hs hm).1 hc', (ih (hs.step hm) hc').1 hrest⟩
    · intro hall
      refine ⟨hc, ?_⟩
      intro f' hm
      obtain ⟨htidy, hrest⟩ := hall f' hm
      exact (ih (hs.step hm) ((hc.step_iff hs hm).2 htidy)).2 hrest

/-- The window of any run is right throughout exactly when every move is tidy. -/
theorem conserves_iff_tidy (windowBytes : Nat) (ms : List WindowMove) :
    (start windowBytes).Throughout Conserves ms ↔ (start windowBytes).RunsTidily ms :=
  Conserves.run_iff (sound_start windowBytes) (idle_conserves rfl rfl) ms

/-- The peer goes while its reader has a frame more, at the window. -/
def leakingRun : List WindowMove :=
  [.connect, .decode 0 (.chunkData ⟨List.replicate 32 0, rfl⟩ [0]), .goOffline, .acquire 0,
    .check 0, .connect]

/-- The next transport starts with the window of a frame that nothing will release. -/
theorem leakingRun_leaks : ¬ (start defaultSendWindowBytes).Throughout Conserves leakingRun := by
  intro h
  have h₁ := h.2 _ rfl
  have h₂ := h₁.2 _ rfl
  have h₃ := h₂.2 _ rfl
  have h₄ := h₃.2 _ rfl
  have h₅ := h₄.2 _ rfl
  have hlast : Conserves _ := h₅.2 _ rfl
  have hidle := hlast.idle rfl
  exact absurd hidle (by decide)

end Receiving

end Tomo
