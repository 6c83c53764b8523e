import Tomo.Session.Inbound
import Tomo.Transport.Pumps
import Tomo.Wire.Frame

namespace Tomo
set_option autoImplicit true

/-- What a read of the transport gives: bytes, the end of the stream, or an error. -/
inductive ReadResult where
  | data (bytes : Bytes)
  | eof
  | error
deriving DecidableEq

/-- Where the read loop is: at a read, at the decoder, with a decoded message before the window, before
and after the look at `alive`, with the signal that ends it before and after that look, or back. -/
inductive ReadStage where
  | reading
  | decoding
  | acquiring (msg : Message)
  | acquired (msg : Message)
  | sending (msg : Message)
  | ending (signal : Incoming)
  | signalling (signal : Incoming)
  | returned
deriving DecidableEq

/-- The thread that runs `read_loop`, with what it has sent to the session and counted. -/
structure ReadLoop where
  decoder : FrameDecoder
  stage : ReadStage
  alive : Bool
  hungUp : Bool
  bytesRecv : Nat
  framesRecv : Nat
  sent : List Incoming

/-- A step of the loop, or of the session beside it: it retires the transport, or is gone. -/
inductive ReadMove where
  | read (result : ReadResult)
  | next
  | acquire
  | check
  | send
  | deactivate
  | hangUp
deriving DecidableEq

namespace ReadLoop

def start : ReadLoop := ⟨.new, .reading, true, false, 0, 0, []⟩

section
variable [Postcard ε]

def step (l : ReadLoop) : ReadMove → Option ReadLoop
  | .read (.data bytes) =>
    if l.stage = .reading ∧ bytes ≠ [] ∧ bytes.length ≤ readBuf then
      some { l with
        stage := .decoding
        bytesRecv := l.bytesRecv + bytes.length
        decoder := l.decoder.push bytes }
    else none
  | .read .eof => if l.stage = .reading then some { l with stage := .ending .peerEof } else none
  | .read .error =>
    if l.stage = .reading then some { l with stage := .ending .protoError } else none
  | .next =>
    if l.stage = .decoding then
      match l.decoder.next with
      | (.ok (some msg), decoder) =>
        some { l with decoder, stage := .acquiring msg, framesRecv := l.framesRecv + 1 }
      | (.ok none, decoder) => some { l with decoder, stage := .reading }
      | (.error _, decoder) => some { l with decoder, stage := .ending .protoError }
    else none
  | .acquire =>
    match l.stage with
    | .acquiring msg => some { l with stage := .acquired msg }
    | _ => none
  | .check =>
    match l.stage with
    | .acquired msg => some { l with stage := if l.alive then .sending msg else .returned }
    | .ending signal => some { l with stage := if l.alive then .signalling signal else .returned }
    | _ => none
  | .send =>
    match l.stage with
    | .sending msg =>
      if l.hungUp then some { l with stage := .returned }
      else some { l with stage := .decoding, sent := l.sent ++ [.message msg] }
    | .signalling signal =>
      if l.hungUp then some { l with stage := .returned }
      else some { l with stage := .returned, sent := l.sent ++ [signal] }
    | _ => none
  | .deactivate => some { l with alive := false }
  | .hangUp => some { l with hungUp := true }

def run (l : ReadLoop) : List ReadMove → Option ReadLoop
  | [] => some l
  | m :: ms => (l.step m).bind fun l' => run l' ms

end

/-- What the moves do with the decoder. -/
def feeds (ms : List ReadMove) : List (Feed UInt8) :=
  ms.filterMap fun
    | .read (.data bytes) => some (.push bytes)
    | .next => some .next
    | _ => none

/-- The bytes that the moves read. -/
def received (ms : List ReadMove) : Bytes := pushed (feeds ms)

theorem feeds_append (a b : List ReadMove) : feeds (a ++ b) = feeds a ++ feeds b :=
  List.filterMap_append

/-- Messages as the session gets them. -/
abbrev forwarded (msgs : List Message) : List Incoming := msgs.map .message

end ReadLoop

theorem completed_le (fs : List (List α)) (n : Nat) : completed fs n ≤ fs.length := by
  induction fs generalizing n with
  | nil => exact le_rfl
  | cons f fs ih =>
    rw [completed]
    split
    · exact Nat.succ_le_succ (ih _)
    · exact Nat.zero_le _

namespace FrameDecoder
variable [Postcard ε]

theorem run_append (d : FrameDecoder) (a b : List (Feed UInt8)) :
    d.run (ε := ε) (a ++ b) = ((d.run (ε := ε) a).1 ++ ((d.run (ε := ε) a).2.run (ε := ε) b).1,
      ((d.run (ε := ε) a).2.run (ε := ε) b).2) := by
  induction a generalizing d with
  | nil => rfl
  | cons feed a ih =>
    cases feed with
    | push piece => exact ih (d.push piece)
    | next =>
      have hi := ih (d.next (ε := ε)).2
      simp only [List.cons_append, run, hi]

/-- Only a message moves the decoder on. -/
theorem next_stays {d : FrameDecoder} (h : ∀ msg, (d.next (ε := ε)).1 ≠ .ok (some msg)) :
    (d.next (ε := ε)).2 = d := by
  revert h
  rw [next]
  split
  · exact fun _ => rfl
  · exact fun _ => rfl
  next msg n _ => exact fun h => absurd rfl (h msg)

end FrameDecoder

namespace ReadLoop
variable [Postcard ε]

/-- Nothing whole is left in the decoder. -/
def Drained (ε : Type) [Postcard ε] (l : ReadLoop) : Prop := (l.decoder.next (ε := ε)).1 = .ok none

/-- Why the loop ends with a signal. -/
inductive Ends (ε : Type) [Postcard ε] (ms : List ReadMove) (l : ReadLoop) : Incoming → Prop where
  | eof (h : l.Drained ε) (hm : .read .eof ∈ ms) : Ends ε ms l .peerEof
  | failed (h : l.Drained ε) (hm : .read .error ∈ ms) : Ends ε ms l .protoError
  | garbled (e : ProtoError ε) (h : (l.decoder.next (ε := ε)).1 = .error e) : Ends ε ms l .protoError

theorem Ends.mono {l l' : ReadLoop} (h : Ends ε ms l signal) (hd : l'.decoder = l.decoder)
    (hm : ms ⊆ ms') : Ends ε ms' l' signal := by
  cases h with
  | eof h hin =>
    refine .eof ?_ (hm hin)
    rw [Drained, hd]
    exact h
  | failed h hin =>
    refine .failed ?_ (hm hin)
    rw [Drained, hd]
    exact h
  | garbled e h =>
    refine .garbled e ?_
    rw [hd]
    exact h

/-- What the session has been sent, where the decoder has returned the messages `msgs`. -/
def Sends (ε : Type) [Postcard ε] (ms : List ReadMove) (l : ReadLoop) (msgs : List Message) : Prop :=
  match l.stage with
  | .reading => l.sent = forwarded msgs ∧ l.Drained ε
  | .decoding => l.sent = forwarded msgs
  | .acquiring msg | .acquired msg | .sending msg =>
    ∃ before, msgs = before ++ [msg] ∧ l.sent = forwarded before
  | .ending signal | .signalling signal => l.sent = forwarded msgs ∧ Ends ε ms l signal
  | .returned => (∃ before, before <+: msgs ∧ l.sent = forwarded before) ∨
      ∃ signal, l.sent = forwarded msgs ++ [signal] ∧ Ends ε ms l signal

/-- The decoder stands where the reads and its own calls have brought it, and all it has returned
went to the session. -/
structure Inv (ε : Type) [Postcard ε] (ms : List ReadMove) (l : ReadLoop) : Prop where
  decoder : (FrameDecoder.new.run (ε := ε) (feeds ms)).2 = l.decoder
  sends : l.Sends ε ms (yielded (FrameDecoder.new.run (ε := ε) (feeds ms)).1)

/-- A move that feeds nothing to the decoder keeps its part of the invariant. -/
theorem Inv.quiet {l l' : ReadLoop} (h : Inv ε ms l) (hm : feeds [m] = [])
    (hd : l'.decoder = l.decoder)
    (hs : ∀ msgs, l.Sends ε ms msgs → l'.Sends ε (ms ++ [m]) msgs) : Inv ε (ms ++ [m]) l' := by
  have hf : feeds (ms ++ [m]) = feeds ms := by rw [feeds_append, hm, List.append_nil]
  constructor
  · rw [hf, hd]
    exact h.decoder
  · rw [hf]
    exact hs _ h.sends

theorem Sends.mono {l l' : ReadLoop} (h : l.Sends ε ms msgs) (hst : l'.stage = l.stage)
    (hsent : l'.sent = l.sent) (hd : l'.decoder = l.decoder) (hm : ms ⊆ ms') :
    l'.Sends ε ms' msgs := by
  rw [Sends, hst, hsent]
  rw [Sends] at h
  cases hs : l.stage with
  | reading =>
    rw [hs] at h
    refine ⟨h.1, ?_⟩
    rw [Drained, hd]
    exact h.2
  | decoding | acquiring msg | acquired msg | sending msg =>
    rw [hs] at h
    exact h
  | ending signal | signalling signal =>
    rw [hs] at h
    exact ⟨h.1, h.2.mono hd hm⟩
  | returned =>
    rw [hs] at h
    rcases h with hbefore | ⟨signal, hl, he⟩
    · exact .inl hbefore
    · exact .inr ⟨signal, hl, he.mono hd hm⟩

theorem Inv.start : Inv ε [] .start := by
  refine ⟨rfl, rfl, ?_⟩
  rw [Drained, FrameDecoder.next]
  rfl

theorem Inv.read {l l' : ReadLoop} (h : Inv ε ms l)
    (hstep : l.step (ε := ε) (.read result) = some l') : Inv ε (ms ++ [.read result]) l' := by
  have hlast : .read result ∈ ms ++ [.read result] :=
    List.mem_append_right ms (List.mem_singleton_self _)
  cases result with
  | data bytes =>
    rw [ReadLoop.step] at hstep
    split at hstep
    next hc =>
      cases hstep
      have hs := h.sends
      rw [Sends, hc.1] at hs
      have hf : feeds (ms ++ [.read (.data bytes)]) = feeds ms ++ [.push bytes] := feeds_append _ _
      constructor
      · rw [hf, FrameDecoder.run_append, h.decoder]
        rfl
      · rw [hf, FrameDecoder.run_append, yielded_append]
        have hnone : yielded (((FrameDecoder.new.run (ε := ε) (feeds ms)).2.run (ε := ε)
            [.push bytes]).1) = [] := rfl
        rw [hnone, List.append_nil]
        exact hs.1
    · cases hstep
  | eof =>
    rw [ReadLoop.step] at hstep
    split at hstep
    next hc =>
      cases hstep
      refine h.quiet rfl rfl fun msgs hs => ?_
      rw [Sends, hc] at hs
      exact ⟨hs.1, .eof hs.2 hlast⟩
    · cases hstep
  | error =>
    rw [ReadLoop.step] at hstep
    split at hstep
    next hc =>
      cases hstep
      refine h.quiet rfl rfl fun msgs hs => ?_
      rw [Sends, hc] at hs
      exact ⟨hs.1, .failed hs.2 hlast⟩
    · cases hstep

theorem Inv.next {l l' : ReadLoop} (h : Inv ε ms l) (hstep : l.step (ε := ε) .next = some l') :
    Inv ε (ms ++ [.next]) l' := by
  have hf : feeds (ms ++ [.next]) = feeds ms ++ [.next] := feeds_append _ _
  have hrun : FrameDecoder.new.run (ε := ε) (feeds (ms ++ [.next])) =
      ((FrameDecoder.new.run (ε := ε) (feeds ms)).1 ++ [(l.decoder.next (ε := ε)).1],
        (l.decoder.next (ε := ε)).2) := by
    rw [hf, FrameDecoder.run_append, h.decoder]
    rfl
  have hs := h.sends
  rw [ReadLoop.step] at hstep
  split at hstep
  next hc =>
    rw [Sends, hc] at hs
    have hstays := FrameDecoder.next_stays (ε := ε) (d := l.decoder)
    cases hx : l.decoder.next (ε := ε) with
    | mk outcome d =>
      rw [hx] at hstep hrun hstays
      cases outcome with
      | error e =>
        cases hstep
        have hd : d = l.decoder := hstays fun msg hm => by cases hm
        refine ⟨congrArg Prod.snd hrun, ?_⟩
        rw [hrun, yielded_append]
        refine ⟨hs.trans (congrArg forwarded (List.append_nil _).symm), .garbled e ?_⟩
        dsimp only
        rw [hd, hx]
      | ok o =>
        cases o with
        | none =>
          cases hstep
          have hd : d = l.decoder := hstays fun msg hm => by cases hm
          refine ⟨congrArg Prod.snd hrun, ?_⟩
          rw [hrun, yielded_append]
          refine ⟨hs.trans (congrArg forwarded (List.append_nil _).symm), ?_⟩
          rw [Drained]
          dsimp only
          rw [hd, hx]
        | some msg =>
          cases hstep
          refine ⟨congrArg Prod.snd hrun, ?_⟩
          rw [hrun, yielded_append]
          exact ⟨_, rfl, hs⟩
  · cases hstep

theorem Inv.step {l l' : ReadLoop} (h : Inv ε ms l) (hstep : l.step (ε := ε) m = some l') :
    Inv ε (ms ++ [m]) l' := by
  have hsub : ms ⊆ ms ++ [m] := List.subset_append_left ms [m]
  cases m with
  | read result => exact h.read hstep
  | next => exact h.next hstep
  | acquire =>
    rw [ReadLoop.step] at hstep
    split at hstep
    next msg hst =>
      cases hstep
      refine h.quiet rfl rfl fun msgs hs => ?_
      rw [Sends, hst] at hs
      exact hs
    · cases hstep
  | check =>
    rw [ReadLoop.step] at hstep
    split at hstep
    next msg hst =>
      cases hstep
      refine h.quiet rfl rfl fun msgs hs => ?_
      rw [Sends, hst] at hs
      rw [Sends]
      cases l.alive with
      | true => exact hs
      | false =>
        obtain ⟨before, rfl, hl⟩ := hs
        exact .inl ⟨before, List.prefix_append _ _, hl⟩
    next signal hst =>
      cases hstep
      refine h.quiet rfl rfl fun msgs hs => ?_
      rw [Sends, hst] at hs
      rw [Sends]
      cases l.alive with
      | true => exact ⟨hs.1, hs.2.mono rfl hsub⟩
      | false => exact .inl ⟨msgs, List.prefix_rfl, hs.1⟩
    · cases hstep
  | send =>
    rw [ReadLoop.step] at hstep
    split at hstep
    next msg hst =>
      split at hstep
      · cases hstep
        refine h.quiet rfl rfl fun msgs hs => ?_
        rw [Sends, hst] at hs
        obtain ⟨before, rfl, hl⟩ := hs
        exact .inl ⟨before, List.prefix_append _ _, hl⟩
      · cases hstep
        refine h.quiet rfl rfl fun msgs hs => ?_
        rw [Sends, hst] at hs
        obtain ⟨before, rfl, hl⟩ := hs
        rw [Sends]
        dsimp only
        rw [hl, forwarded, forwarded, List.map_append]
        rfl
    next signal hst =>
      split at hstep
      · cases hstep
        refine h.quiet rfl rfl fun msgs hs => ?_
        rw [Sends, hst] at hs
        exact .inl ⟨msgs, List.prefix_rfl, hs.1⟩
      · cases hstep
        refine h.quiet rfl rfl fun msgs hs => ?_
        rw [Sends, hst] at hs
        refine .inr ⟨signal, ?_, hs.2.mono rfl hsub⟩
        dsimp only
        rw [hs.1]
    · cases hstep
  | deactivate =>
    cases hstep
    exact h.quiet rfl rfl fun msgs hs => hs.mono rfl rfl rfl hsub
  | hangUp =>
    cases hstep
    exact h.quiet rfl rfl fun msgs hs => hs.mono rfl rfl rfl hsub

theorem Inv.run {l l' : ReadLoop} (h : Inv ε ms l) (hrun : l.run (ε := ε) moves = some l') :
    Inv ε (ms ++ moves) l' := by
  induction moves generalizing l ms with
  | nil =>
    cases hrun
    rw [List.append_nil]
    exact h
  | cons m moves ih =>
    obtain ⟨l₁, hm, hrest⟩ := Option.bind_eq_some_iff.1 hrun
    have hall := ih (h.step hm) hrest
    rw [List.append_assoc] at hall
    exact hall

/-- Where the loop has come to on a stream of frames. -/
theorem Inv.place [LawfulPostcard ε] {msgs : List Message} {frames : List Bytes} {l : ReadLoop}
    (h : Inv ε ms l) (henc : List.Forall₂ (fun msg f => encode (ε := ε) msg = .ok f) msgs frames)
    (hrecv : received ms <+: frames.flatten) :
    ∃ k, yielded (FrameDecoder.new.run (ε := ε) (feeds ms)).1 = msgs.take k ∧
      k ≤ completed frames (received ms).length ∧
      (∀ e, (l.decoder.next (ε := ε)).1 ≠ .error e) ∧
      (l.Drained ε → k = completed frames (received ms).length) := by
  obtain ⟨rest, hrest⟩ := hrecv
  have hall : pushed (feeds ms ++ [.push rest]) = frames.flatten := by
    rw [pushed_append, ← hrest]
    exact congrArg (received ms ++ ·) (List.append_nil rest)
  obtain ⟨k, hy, hle, hnext⟩ := (FrameDecoder.delivers henc hall).inOrder (feeds ms) [.push rest] rfl
  rw [h.decoder] at hnext
  refine ⟨k, hy, hle, fun e he => ?_, fun hd => ?_⟩
  · rw [he] at hnext
    cases hnext
  · rw [Drained, hnext] at hd
    rcases hle.lt_or_eq with hlt | heq
    · have hlt' : k < completed frames (pushed (feeds ms)).length := hlt
      have hfew := completed_le frames (pushed (feeds ms)).length
      rw [← henc.length_eq] at hfew
      rw [if_pos hlt', List.getElem?_eq_getElem (hlt'.trans_le hfew)] at hd
      cases hd
    · exact heq

/-- The signals that may follow the messages, and the reads that they come from. -/
inductive Closing (moves : List ReadMove) : List Incoming → Prop where
  | nothing : Closing moves []
  | eof (h : .read .eof ∈ moves) : Closing moves [.peerEof]
  | failed (h : .read .error ∈ moves) : Closing moves [.protoError]

/-- Of a stream of frames the session is sent the messages in order, each once, and after them at most
one signal; none is held back when that signal comes, or when the loop reads on. -/
theorem arrives [LawfulPostcard ε] {msgs : List Message} {frames : List Bytes}
    (henc : List.Forall₂ (fun msg f => encode (ε := ε) msg = .ok f) msgs frames)
    {moves : List ReadMove} {l : ReadLoop} (hrun : start.run (ε := ε) moves = some l)
    (hrecv : received moves <+: frames.flatten) :
    ∃ k tail, l.sent = forwarded (msgs.take k) ++ tail ∧ Closing moves tail ∧
      k ≤ completed frames (received moves).length ∧
      (tail ≠ [] ∨ l.stage = .reading → k = completed frames (received moves).length) := by
  have hinv : Inv ε moves l := Inv.start.run hrun
  obtain ⟨k, hy, hle, herr, hdrained⟩ := hinv.place henc hrecv
  have hends {signal : Incoming} (he : Ends ε moves l signal) :
      Closing moves [signal] ∧ k = completed frames (received moves).length := by
    cases he with
    | eof hd hm => exact ⟨.eof hm, hdrained hd⟩
    | failed hd hm => exact ⟨.failed hm, hdrained hd⟩
    | garbled e he => exact absurd he (herr e)
  have hbefore {before : List Message} (hb : before <+: msgs.take k)
      (hl : l.sent = forwarded before) (hst : l.stage ≠ .reading) :
      ∃ k tail, l.sent = forwarded (msgs.take k) ++ tail ∧ Closing moves tail ∧
        k ≤ completed frames (received moves).length ∧
        (tail ≠ [] ∨ l.stage = .reading → k = completed frames (received moves).length) := by
    rw [List.prefix_iff_eq_take.1 hb, List.take_take] at hl
    refine ⟨_, [], hl.trans (List.append_nil _).symm, .nothing, (Nat.min_le_right _ _).trans hle, ?_⟩
    rintro (hne | hr)
    · exact absurd rfl hne
    · exact absurd hr hst
  have hs := hinv.sends
  rw [hy, Sends] at hs
  cases hst : l.stage with
  | reading =>
    rw [hst] at hs
    exact ⟨k, [], hs.1.trans (List.append_nil _).symm, .nothing, hle, fun _ => hdrained hs.2⟩
  | decoding =>
    rw [hst] at hs
    rw [← hst]
    exact hbefore List.prefix_rfl hs (by rw [hst]; decide)
  | acquiring msg | acquired msg | sending msg =>
    rw [hst] at hs
    obtain ⟨before, heq, hl⟩ := hs
    rw [← hst]
    refine hbefore (heq ▸ List.prefix_append _ _) hl fun h => ?_
    rw [hst] at h
    cases h
  | ending signal | signalling signal =>
    rw [hst] at hs
    rw [← hst]
    refine hbefore List.prefix_rfl hs.1 fun h => ?_
    rw [hst] at h
    cases h
  | returned =>
    rw [hst] at hs
    rcases hs with ⟨before, hb, hl⟩ | ⟨signal, hl, he⟩
    · rw [← hst]
      exact hbefore hb hl (by rw [hst]; decide)
    · obtain ⟨hclosing, hk⟩ := hends he
      exact ⟨k, [signal], hl, hclosing, hle, fun _ => hk⟩

/-- What the loop is about to send, after it has found its transport alive. -/
def poised (l : ReadLoop) : List Incoming :=
  match l.stage with
  | .sending msg => [.message msg]
  | .signalling signal => [signal]
  | _ => []

theorem step_silent {l l' : ReadLoop} (hdead : l.alive = false)
    (hstep : l.step (ε := ε) m = some l') :
    l'.alive = false ∧ ∃ tail, l'.sent = l.sent ++ tail ∧ tail ++ l'.poised <+: l.poised := by
  have hquiet : l'.alive = l.alive → l'.sent = l.sent → l'.poised <+: l.poised →
      l'.alive = false ∧ ∃ tail, l'.sent = l.sent ++ tail ∧ tail ++ l'.poised <+: l.poised :=
    fun ha hs hp => ⟨ha.trans hdead, [], hs.trans (List.append_nil _).symm, hp⟩
  cases m with
  | read result =>
    cases result with
    | data bytes | eof | error =>
      rw [ReadLoop.step] at hstep
      split at hstep
      · cases hstep
        exact hquiet rfl rfl List.nil_prefix
      · cases hstep
  | next =>
    rw [ReadLoop.step] at hstep
    split at hstep
    · split at hstep <;> cases hstep <;> exact hquiet rfl rfl List.nil_prefix
    · cases hstep
  | acquire =>
    rw [ReadLoop.step] at hstep
    split at hstep
    · cases hstep
      exact hquiet rfl rfl List.nil_prefix
    · cases hstep
  | check =>
    rw [ReadLoop.step, hdead] at hstep
    split at hstep <;> cases hstep
    · exact ⟨rfl, [], (List.append_nil _).symm, List.nil_prefix⟩
    · exact ⟨rfl, [], (List.append_nil _).symm, List.nil_prefix⟩
  | send =>
    rw [ReadLoop.step] at hstep
    split at hstep
    next msg hst =>
      split at hstep
      · cases hstep
        exact hquiet rfl rfl List.nil_prefix
      · cases hstep
        refine ⟨hdead, [.message msg], rfl, ?_⟩
        rw [poised, poised, hst]
        exact List.prefix_rfl
    next signal hst =>
      split at hstep
      · cases hstep
        exact hquiet rfl rfl List.nil_prefix
      · cases hstep
        refine ⟨hdead, [signal], rfl, ?_⟩
        rw [poised, poised, hst]
        exact List.prefix_rfl
    · cases hstep
  | deactivate =>
    cases hstep
    exact ⟨rfl, [], (List.append_nil _).symm, List.prefix_rfl⟩
  | hangUp =>
    cases hstep
    exact hquiet rfl rfl List.prefix_rfl

theorem run_silent {l l' : ReadLoop} (hdead : l.alive = false)
    (hrun : l.run (ε := ε) moves = some l') :
    ∃ tail, l'.sent = l.sent ++ tail ∧ tail ++ l'.poised <+: l.poised := by
  induction moves generalizing l with
  | nil =>
    cases hrun
    exact ⟨[], (List.append_nil _).symm, List.prefix_rfl⟩
  | cons m moves ih =>
    obtain ⟨l₁, hm, hrest⟩ := Option.bind_eq_some_iff.1 hrun
    obtain ⟨hdead₁, t₁, hs₁, hp₁⟩ := step_silent hdead hm
    obtain ⟨t₂, hs₂, hp₂⟩ := ih hdead₁ hrest
    refine ⟨t₁ ++ t₂, by rw [hs₂, hs₁, List.append_assoc], ?_⟩
    rw [List.append_assoc]
    exact ((List.prefix_append_right_inj t₁).2 hp₂).trans hp₁

/-- Once its transport is retired, the loop sends no more than what it had looked at before. -/
theorem silenced (l l' : ReadLoop) (moves : List ReadMove)
    (hrun : l.run (ε := ε) (.deactivate :: moves) = some l') :
    ∃ tail, l'.sent = l.sent ++ tail ∧ tail <+: l.poised := by
  have hrest : ({ l with alive := false } : ReadLoop).run (ε := ε) moves = some l' := hrun
  obtain ⟨tail, hs, hp⟩ := run_silent rfl hrest
  exact ⟨tail, hs, (List.prefix_append _ _).trans hp⟩

/-- A message that the loop had looked at goes out; the end of the stream does not. -/
theorem retired_silenced :
    letI := shortPostcard
    ∃ l, ({ start with stage := .sending .pause } : ReadLoop).run (ε := Unit)
        [.deactivate, .send, .next, .read .eof, .check] = some l ∧
      ∃ tail, l.sent = [] ++ tail ∧ tail <+: [.message .pause] := by
  letI := shortPostcard
  have hrun : (({ start with stage := .sending .pause } : ReadLoop).run (ε := Unit)
      [.deactivate, .send, .next, .read .eof, .check]).isSome = true := rfl
  obtain ⟨l, hl⟩ := Option.isSome_iff_exists.1 hrun
  exact ⟨l, hl, silenced _ l _ hl⟩

end ReadLoop

end Tomo
