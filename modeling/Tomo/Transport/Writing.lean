import Tomo.Transport.Reading

namespace Tomo
set_option autoImplicit true

/-- How writing and flushing a buffer ends: done, or failed after some of its bytes. -/
inductive WriteResult where
  | done
  | failed (taken : Nat)
deriving DecidableEq

inductive SendError (ε : Type) where
  | proto (e : ProtoError ε)
  | io

/-- The writable half of a transport: the bytes it has put on the wire, and its counters. -/
structure FrameWriter where
  stream : Bytes
  framesSent : Nat
  bytesSent : Nat
deriving DecidableEq

/-- What the session asks of it. -/
inductive SendCall where
  | send (msg : Message)
  | sendBatch (msgs : List Message)
deriving DecidableEq

def SendCall.msgs : SendCall → List Message
  | .send msg => [msg]
  | .sendBatch msgs => msgs

section
variable [Postcard ε]

/-- The frames of a batch in one buffer; the first that cannot be encoded fails them all. -/
def encodeBatch : List Message → Except (ProtoError ε) Bytes
  | [] => .ok []
  | msg :: msgs =>
    match encode msg with
    | .error e => .error e
    | .ok frame =>
      match encodeBatch msgs with
      | .error e => .error e
      | .ok buf => .ok (frame ++ buf)

end

namespace FrameWriter

def new : FrameWriter := ⟨[], 0, 0⟩

/-- Write and flush a buffer of `frames` frames. -/
def put (w : FrameWriter) (buf : Bytes) (frames : Nat) :
    WriteResult → Except (SendError ε) Nat × FrameWriter
  | .done =>
    (.ok buf.length, ⟨w.stream ++ buf, w.framesSent + frames, w.bytesSent + buf.length⟩)
  | .failed taken => (.error .io, { w with stream := w.stream ++ buf.take taken })

section
variable [Postcard ε]

def send (w : FrameWriter) (msg : Message) (r : WriteResult) :
    Except (SendError ε) Nat × FrameWriter :=
  match encode msg with
  | .error e => (.error (.proto e), w)
  | .ok frame => w.put frame 1 r

def sendBatch (w : FrameWriter) (msgs : List Message) (r : WriteResult) :
    Except (SendError ε) Nat × FrameWriter :=
  if msgs = [] then (.ok 0, w)
  else
    match encodeBatch msgs with
    | .error e => (.error (.proto e), w)
    | .ok buf => w.put buf msgs.length r

def call (w : FrameWriter) : SendCall → WriteResult → Except (SendError ε) Nat × FrameWriter
  | .send msg, r => w.send msg r
  | .sendBatch msgs, r => w.sendBatch msgs r

/-- The messages of the calls that return, and the writer after all calls, where no write fails. -/
def run (ε : Type) [Postcard ε] (w : FrameWriter) : List SendCall → List Message × FrameWriter
  | [] => ([], w)
  | c :: calls =>
    let (result, w) := w.call (ε := ε) c .done
    let (msgs, w) := run ε w calls
    ((if result.isOk then c.msgs else []) ++ msgs, w)

end

end FrameWriter

section
variable [Postcard ε]

theorem encodeBatch_ok {msgs : List Message} {buf : Bytes} (h : encodeBatch msgs = .ok buf) :
    ∃ frames, List.Forall₂ (fun msg f => encode (ε := ε) msg = .ok f) msgs frames ∧
      buf = frames.flatten := by
  induction msgs generalizing buf with
  | nil =>
    cases h
    exact ⟨[], .nil, rfl⟩
  | cons msg msgs ih =>
    rw [encodeBatch] at h
    split at h
    · cases h
    next frame hframe =>
      split at h
      · cases h
      next buf' hbuf =>
        cases h
        obtain ⟨frames, hall, rfl⟩ := ih hbuf
        exact ⟨frame :: frames, .cons hframe hall, rfl⟩

namespace FrameWriter
variable {w w' : FrameWriter} {c : SendCall} {r : WriteResult}

omit [Postcard ε] in
theorem put_nil (w : FrameWriter) : w.put (ε := ε) [] 0 .done = (.ok 0, w) := by
  rw [put, List.append_nil]
  rfl

/-- A call that fails to encode writes nothing; any other writes the frames of its messages, or
where its write fails, a first part of them. -/
theorem call_cases (w : FrameWriter) (c : SendCall) (r : WriteResult) :
    (∃ e, w.call (ε := ε) c r = (.error (.proto e), w)) ∨
      ∃ frames r', List.Forall₂ (fun msg f => encode (ε := ε) msg = .ok f) c.msgs frames ∧
        w.call (ε := ε) c r = w.put frames.flatten frames.length r' ∧ (r = .done → r' = .done) := by
  cases c with
  | send msg =>
    rw [call, send]
    cases hmsg : encode (ε := ε) msg with
    | error e => exact .inl ⟨e, rfl⟩
    | ok frame =>
      refine .inr ⟨[frame], r, .cons hmsg .nil, ?_, id⟩
      rw [List.flatten_singleton]
      rfl
  | sendBatch msgs =>
    rw [call, sendBatch]
    by_cases hnil : msgs = []
    · subst hnil
      exact .inr ⟨[], .done, .nil, (w.put_nil).symm, fun _ => rfl⟩
    · rw [if_neg hnil]
      cases hbuf : encodeBatch (ε := ε) msgs with
      | error e => exact .inl ⟨e, rfl⟩
      | ok buf =>
        obtain ⟨frames, hall, rfl⟩ := encodeBatch_ok hbuf
        refine .inr ⟨frames, r, hall, ?_, id⟩
        rw [← hall.length_eq]

omit [Postcard ε] in
theorem put_stream (w : FrameWriter) (buf : Bytes) (n : Nat) (r : WriteResult) :
    (w.put (ε := ε) buf n r).2.stream <+: w.stream ++ buf := by
  cases r with
  | done => exact List.prefix_rfl
  | failed taken => exact (List.prefix_append_right_inj _).2 (List.take_prefix taken buf)

/-- While no write fails, the wire carries the frames of the calls that returned, and the counters
count them. -/
theorem run_spec (w : FrameWriter) (calls : List SendCall) :
    ∃ frames, List.Forall₂ (fun msg f => encode (ε := ε) msg = .ok f) (w.run ε calls).1 frames ∧
      (w.run ε calls).2.stream = w.stream ++ frames.flatten ∧
      (w.run ε calls).2.framesSent = w.framesSent + (w.run ε calls).1.length ∧
      (w.run ε calls).2.bytesSent = w.bytesSent + frames.flatten.length := by
  induction calls generalizing w with
  | nil => exact ⟨[], .nil, (List.append_nil _).symm, rfl, rfl⟩
  | cons c calls ih =>
    rw [run]
    rcases w.call_cases (ε := ε) c .done with ⟨e, hcall⟩ | ⟨frames, r, hall, hcall, hr⟩
    · rw [hcall]
      exact ih w
    · rw [hr rfl, put] at hcall
      rw [hcall]
      obtain ⟨frames', hall', hstream, hframes, hbytes⟩ :=
        ih ⟨w.stream ++ frames.flatten, w.framesSent + frames.length,
          w.bytesSent + frames.flatten.length⟩
      refine ⟨frames ++ frames', List.rel_append hall hall', ?_, ?_, ?_⟩
      · rw [List.flatten_append, ← List.append_assoc]
        exact hstream
      · dsimp only at hframes ⊢
        rw [hframes, ← hall.length_eq]
        simp only [Except.isOk, Except.toBool, if_true, List.length_append, Nat.add_assoc]
      · rw [List.flatten_append, List.length_append, ← Nat.add_assoc]
        exact hbytes

end FrameWriter

omit [Postcard ε] in
/-- Frames that have come as a whole are complete. -/
theorem le_completed {α : Type} (fs gs : List (List α)) {n : Nat} (h : fs.flatten.length ≤ n) :
    fs.length ≤ completed (fs ++ gs) n := by
  obtain ⟨m, rfl⟩ := Nat.exists_eq_add_of_le h
  rw [completed_append]
  exact Nat.le_add_right _ _

namespace ReadLoop

/-- Whatever calls one end makes, the last of them failing anywhere in its write or not, and however
the bytes of the stream come to the other end: the session there is sent the messages in order,
each once, then at most one signal; it has all those of calls that returned, once their bytes have
come and the loop reads on or has ended with a signal. -/
theorem conveyed [LawfulPostcard ε] (calls : List SendCall) (last : SendCall) (r : WriteResult)
    (moves : List ReadMove) (l : ReadLoop) (hrun : start.run (ε := ε) moves = some l)
    (hrecv : received moves <+: ((FrameWriter.new.run ε calls).2.call (ε := ε) last r).2.stream) :
    ∃ k tail, l.sent = forwarded (((FrameWriter.new.run ε calls).1 ++ last.msgs).take k) ++ tail ∧
      Closing moves tail ∧
      ((FrameWriter.new.run ε calls).2.stream.length ≤ (received moves).length →
        tail ≠ [] ∨ l.stage = .reading → (FrameWriter.new.run ε calls).1.length ≤ k) := by
  obtain ⟨frames, hall, hstream, _, _⟩ := FrameWriter.new.run_spec (ε := ε) calls
  have hnew : (FrameWriter.new.run ε calls).2.stream = frames.flatten := hstream
  rw [hnew]
  rcases (FrameWriter.new.run ε calls).2.call_cases (ε := ε) last r with
    ⟨e, hcall⟩ | ⟨frames', r', hall', hcall, _⟩
  · rw [hcall, hnew] at hrecv
    obtain ⟨k, tail, hl, hclosing, hle, hk⟩ := arrives hall hrun hrecv
    have hfew : k ≤ (FrameWriter.new.run ε calls).1.length := by
      rw [hall.length_eq]
      exact hle.trans (completed_le _ _)
    refine ⟨k, tail, ?_, hclosing, fun hlen hend => ?_⟩
    · rw [List.take_append_of_le_length hfew]
      exact hl
    · have hwhole := le_completed frames [] hlen
      rw [List.append_nil, ← hall.length_eq] at hwhole
      rw [hk hend]
      exact hwhole
  · have hput := (FrameWriter.new.run ε calls).2.put_stream (ε := ε) frames'.flatten
      frames'.length r'
    rw [hcall] at hrecv
    rw [hnew, ← List.flatten_append] at hput
    obtain ⟨k, tail, hl, hclosing, _, hk⟩ :=
      arrives (List.rel_append hall hall') hrun (hrecv.trans hput)
    refine ⟨k, tail, hl, hclosing, fun hlen hend => ?_⟩
    rw [hk hend, hall.length_eq]
    exact le_completed frames frames' hlen

end ReadLoop

end

/-- A ping comes whole, then a batch of which the writer fails in the second frame. -/
def tornMoves : List ReadMove :=
  [.read (.data [2, 0, 0, 0, 6, 7, 1, 0]), .next, .acquire, .check, .send, .next,
    .read (.data [0, 0, 8, 1]), .next, .acquire, .check, .send, .next, .read .eof, .check, .send]

theorem torn_conveyed :
    letI := shortPostcard
    ∃ l, ReadLoop.start.run (ε := Unit) tornMoves = some l ∧
      ∃ k tail, l.sent =
          ReadLoop.forwarded (([Message.ping 7] ++ [Message.pause, .resume]).take k) ++ tail ∧
        ReadLoop.Closing tornMoves tail ∧
        (6 ≤ (ReadLoop.received tornMoves).length → tail ≠ [] ∨ l.stage = .reading → 1 ≤ k) := by
  letI := shortPostcard
  letI := shortPostcard_lawful
  have hrun : (ReadLoop.start.run (ε := Unit) tornMoves).isSome = true := rfl
  obtain ⟨l, hl⟩ := Option.isSome_iff_exists.1 hrun
  exact ⟨l, hl, ReadLoop.conveyed [.send (.ping 7)] (.sendBatch [.pause, .resume]) (.failed 6)
    tornMoves l hl (by decide)⟩

end Tomo
