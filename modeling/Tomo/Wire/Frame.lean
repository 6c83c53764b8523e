import Tomo.Lib.Stream
import Tomo.Session.State

namespace Tomo
set_option autoImplicit true

/-- The third-party serializer of messages, with its errors. -/
class Postcard (ε : outParam Type) where
  toAllocvec : Message → Except ε Bytes
  fromBytes : Bytes → Except ε Message

/-- What was encoded is decoded again. -/
class LawfulPostcard (ε : outParam Type) [Postcard ε] : Prop where
  fromBytes_toAllocvec : ∀ msg bytes, Postcard.toAllocvec msg = .ok bytes →
    Postcard.fromBytes bytes = .ok msg

inductive ProtoError (ε : Type) where
  | frameTooLarge (len : Nat)
  | decode (e : ε)
  | encode (e : ε)

/-- The number of bytes in the length prefix. -/
def lenPrefix : Nat := 4

/-- The bound on the payload of one frame. -/
def maxFrameLen : Nat := 256 * 1024 * 1024

/-- The four bytes of a `u32`, the lowest first. -/
def leBytes (n : Nat) : Bytes :=
  [UInt8.ofNat n, UInt8.ofNat (n / 256), UInt8.ofNat (n / 65536), UInt8.ofNat (n / 16777216)]

def ofLeBytes (a b c d : UInt8) : Nat :=
  a.toNat + 256 * b.toNat + 65536 * c.toNat + 16777216 * d.toNat

theorem ofLeBytes_leBytes {n : Nat} (h : n < 4294967296) :
    ofLeBytes (UInt8.ofNat n) (UInt8.ofNat (n / 256)) (UInt8.ofNat (n / 65536))
      (UInt8.ofNat (n / 16777216)) = n := by
  simp only [ofLeBytes, UInt8.toNat_ofNat']
  omega

section
variable [Postcard ε]

/-- The whole frame of a message: the length of its payload, then the payload. -/
def encode (msg : Message) : Except (ProtoError ε) Bytes :=
  match Postcard.toAllocvec msg with
  | .error e => .error (.encode e)
  | .ok payload =>
    if 4294967296 ≤ payload.length then .error (.frameTooLarge 4294967295)
    else if maxFrameLen < payload.length then .error (.frameTooLarge payload.length)
    else .ok (leBytes payload.length ++ payload)

/-- The length that the front of the bytes declares, once the prefix is there. -/
def declaredLen : Bytes → Option Nat
  | a :: b :: c :: d :: _ => some (ofLeBytes a b c d)
  | _ => none

/-- What the decoder finds in the bytes that are available. -/
def peelFrame (avail : Bytes) : Except (ProtoError ε) (Option (Message × Nat)) :=
  match declaredLen avail with
  | none => .ok none
  | some len =>
    if maxFrameLen < len then .error (.frameTooLarge len)
    else if avail.length < lenPrefix + len then .ok none
    else match Postcard.fromBytes ((avail.take (lenPrefix + len)).drop lenPrefix) with
      | .error e => .error (.decode e)
      | .ok msg => .ok (some (msg, lenPrefix + len))

theorem peelFrame_bound {avail : Bytes} {msg : Message}
    (h : peelFrame avail = .ok (some (msg, n))) : n ≤ avail.length := by
  rw [peelFrame] at h
  split at h
  · cases h
  · split at h
    · cases h
    · split at h
      · cases h
      next hlen =>
        split at h
        · cases h
        · cases h
          exact Nat.not_lt.1 hlen

end

/-- Received bytes, of which the first `pos` have been consumed. -/
structure FrameDecoder where
  buf : Bytes
  pos : Nat
  bound : pos ≤ buf.length

namespace FrameDecoder

def new : FrameDecoder := ⟨[], 0, le_rfl⟩

/-- The bytes that no message has consumed. -/
def unread (d : FrameDecoder) : Bytes := d.buf.drop d.pos

/-- Drop what has been consumed, then append what was received. -/
def push (d : FrameDecoder) (bytes : Bytes) : FrameDecoder :=
  if 0 < d.pos then ⟨d.buf.drop d.pos ++ bytes, 0, Nat.zero_le _⟩
  else ⟨d.buf ++ bytes, d.pos, d.bound.trans (by simp)⟩

variable [Postcard ε]

/-- Pop the next message if its frame is complete; an error consumes nothing. -/
def next (d : FrameDecoder) : Except (ProtoError ε) (Option Message) × FrameDecoder :=
  match h : peelFrame (d.buf.drop d.pos) with
  | .error e => (.error e, d)
  | .ok none => (.ok none, d)
  | .ok (some (msg, n)) => (.ok (some msg), ⟨d.buf, d.pos + n, by
      have hn := peelFrame_bound h
      have hb := d.bound
      rw [List.length_drop] at hn
      omega⟩)

/-- The outcomes of all calls of `next` between the pushes, and the decoder after them. -/
def run : FrameDecoder → List (Feed UInt8) →
    List (Except (ProtoError ε) (Option Message)) × FrameDecoder
  | d, [] => ([], d)
  | d, .push piece :: feeds => run (d.push piece) feeds
  | d, .next :: feeds =>
    let (outcome, d) := d.next
    let (outcomes, d) := run d feeds
    (outcome :: outcomes, d)

end FrameDecoder

section
variable [Postcard ε] {avail : Bytes} {msg : Message} {n : Nat}

omit [Postcard ε] in
theorem declaredLen_append (more : Bytes) (h : declaredLen avail = some n) :
    declaredLen (avail ++ more) = some n := by
  unfold declaredLen at h
  split at h
  · cases h
    rfl
  · cases h

/-- A frame that is complete is read the same whatever follows. -/
theorem peelFrame_append (more : Bytes) (h : peelFrame avail = .ok (some (msg, n))) :
    peelFrame (avail ++ more) = .ok (some (msg, n)) := by
  have hb := peelFrame_bound h
  rw [peelFrame] at h ⊢
  cases hd : declaredLen avail with
  | none =>
    rw [hd] at h
    cases h
  | some len =>
    rw [hd] at h
    rw [declaredLen_append more hd]
    dsimp only at h ⊢
    split at h
    · cases h
    next hmax =>
      split at h
      · cases h
      next hlen =>
        have hle : lenPrefix + len ≤ avail.length := Nat.not_lt.1 hlen
        have hlen' : ¬(avail ++ more).length < lenPrefix + len := by
          rw [List.length_append]
          omega
        rw [if_neg hmax, if_neg hlen', List.take_append_of_le_length hle]
        exact h

theorem peelFrame_error_append {e : ProtoError ε} (more : Bytes) (h : peelFrame avail = .error e) :
    peelFrame (avail ++ more) = .error e := by
  rw [peelFrame] at h ⊢
  cases hd : declaredLen avail with
  | none =>
    rw [hd] at h
    cases h
  | some len =>
    rw [hd] at h
    rw [declaredLen_append more hd]
    dsimp only at h ⊢
    split at h
    next hmax =>
      rw [if_pos hmax]
      exact h
    next hmax =>
      split at h
      · cases h
      next hlen =>
        have hle : lenPrefix + len ≤ avail.length := Nat.not_lt.1 hlen
        have hlen' : ¬(avail ++ more).length < lenPrefix + len := by
          rw [List.length_append]
          omega
        rw [if_neg hmax, if_neg hlen', List.take_append_of_le_length hle]
        exact h

/-- Frames, as a stream of bytes is read. -/
def frameReader (ε : Type) [Postcard ε] : Reader UInt8 Message (ProtoError ε) where
  peel := peelFrame
  peel_append := peelFrame_append
  error_append := peelFrame_error_append

/-- What `encode` accepts has its length in front, within the bound. -/
theorem encode_ok {f : Bytes} (h : encode msg = .ok f) :
    ∃ payload, Postcard.toAllocvec msg = .ok payload ∧ payload.length ≤ maxFrameLen ∧
      f = leBytes payload.length ++ payload := by
  rw [encode] at h
  split at h
  · cases h
  next payload hp =>
    split at h
    · cases h
    · split at h
      · cases h
      next hmax =>
        cases h
        exact ⟨payload, hp, Nat.not_lt.1 hmax, rfl⟩

omit [Postcard ε] in
theorem declaredLen_frame {payload : Bytes} (h : payload.length ≤ maxFrameLen) :
    declaredLen (leBytes payload.length ++ payload) = some payload.length := by
  have hlt : payload.length < 4294967296 := by
    rw [maxFrameLen] at h
    omega
  simp only [leBytes, List.cons_append, declaredLen, ofLeBytes_leBytes hlt]

/-- The prefix that `encode` writes passes the length check of the decoder. -/
theorem declaredLen_encode {f : Bytes} (h : encode msg = .ok f) :
    ∃ len, declaredLen f = some len ∧ len ≤ maxFrameLen ∧ f.length = lenPrefix + len := by
  obtain ⟨payload, _, hmax, rfl⟩ := encode_ok h
  refine ⟨payload.length, declaredLen_frame hmax, hmax, ?_⟩
  rw [List.length_append]
  rfl

theorem encode_frames [LawfulPostcard ε] {f : Bytes} (h : encode msg = .ok f) :
    (frameReader ε).Frames msg f := by
  obtain ⟨payload, hp, hmax, rfl⟩ := encode_ok h
  have hd := declaredLen_frame hmax
  have hlen : (leBytes payload.length ++ payload).length = lenPrefix + payload.length := by
    rw [List.length_append]
    rfl
  have hnmax : ¬maxFrameLen < payload.length := Nat.not_lt.2 hmax
  have hpeel : (frameReader ε).peel = peelFrame := rfl
  constructor
  · rw [hpeel, peelFrame, hd]
    dsimp only
    have hnlt : ¬(leBytes payload.length ++ payload).length < lenPrefix + payload.length := by
      omega
    have hdrop : (leBytes payload.length ++ payload).drop lenPrefix = payload := rfl
    rw [if_neg hnmax, if_neg hnlt, List.take_of_length_le hlen.le, hdrop,
      LawfulPostcard.fromBytes_toAllocvec msg payload hp, hlen]
  · intro l hl hne
    have hshort : l.length < lenPrefix + payload.length := by
      rw [← hlen]
      refine lt_of_le_of_ne hl.length_le fun he => hne (hl.eq_of_length he)
    rw [hpeel, peelFrame]
    cases hdl : declaredLen l with
    | none => rfl
    | some len =>
      obtain ⟨rest, hrest⟩ := hl
      have hsame := declaredLen_append rest hdl
      rw [hrest, hd] at hsame
      cases hsame
      dsimp only
      rw [if_neg hnmax, if_pos hshort]

end

namespace FrameDecoder
variable [Postcard ε] {d : FrameDecoder}

omit [Postcard ε] in
theorem unread_push (d : FrameDecoder) (bytes : Bytes) :
    (d.push bytes).unread = d.unread ++ bytes := by
  rw [push, unread]
  split
  · rfl
  · exact List.drop_append_of_le_length d.bound

theorem next_unread (d : FrameDecoder) :
    (d.next.1, d.next.2.unread) = (frameReader ε).next d.unread := by
  have hpeel : (frameReader ε).peel d.unread = peelFrame (d.buf.drop d.pos) := rfl
  rw [Reader.next, hpeel, next]
  split
  next e h => rw [h]
  next h => rw [h]
  next msg n h => simp only [h, unread, List.drop_drop]

/-- The decoder reads its buffer as a stream, whatever it has compacted away. -/
theorem run_unread (d : FrameDecoder) (feeds : List (Feed UInt8)) :
    ((d.run feeds).1, (d.run feeds).2.unread) = (frameReader ε).run d.unread feeds := by
  induction feeds generalizing d with
  | nil => rfl
  | cons feed feeds ih =>
    cases feed with
    | push piece =>
      rw [run, Reader.run, ← unread_push]
      exact ih (d.push piece)
    | next =>
      have hn := next_unread (ε := ε) d
      have hi := ih (d.next (ε := ε)).2
      rw [Reader.run, ← hn]
      dsimp only
      rw [← hi]
      rfl

/-- Every message comes out once, in order, at the first call of `next` that can return it; and in
the end nothing is left. -/
structure Delivers (ε : Type) [Postcard ε] (msgs : List Message) (frames : List Bytes)
    (feeds : List (Feed UInt8)) : Prop where
  inOrder : ∀ pre post, feeds = pre ++ post → ∃ k,
    yielded ((new.run (ε := ε) pre).1) = msgs.take k ∧ k ≤ completed frames (pushed pre).length ∧
      ((new.run (ε := ε) pre).2.next (ε := ε)).1 =
        .ok (if k < completed frames (pushed pre).length then msgs[k]? else none)
  atLast : ∀ n, msgs.length ≤ n →
    yielded ((new.run (ε := ε) (feeds ++ List.replicate n .next)).1) = msgs ∧
      (new.run (ε := ε) (feeds ++ List.replicate n .next)).2.unread = []

theorem delivers [LawfulPostcard ε] {msgs : List Message} {frames : List Bytes}
    (henc : List.Forall₂ (fun msg f => encode msg = .ok f) msgs frames)
    {feeds : List (Feed UInt8)} (hp : pushed feeds = frames.flatten) :
    Delivers ε msgs frames feeds := by
  have hn : (frameReader ε).peel [] = .ok none := rfl
  have hf : (frameReader ε).FramesAll msgs frames := henc.imp fun _ _ h => encode_frames h
  have hrun (feeds : List (Feed UInt8)) := run_unread (ε := ε) new feeds
  constructor
  · intro pre post hsplit
    have hpre : pushed pre <+: frames.flatten := by
      rw [← hp, hsplit, pushed_append]
      exact List.prefix_append _ _
    obtain ⟨k, hk⟩ := Reader.stands hn hf pre hpre
    have hpair := hrun pre
    have hfst : (new.run (ε := ε) pre).1 = ((frameReader ε).run [] pre).1 :=
      congrArg Prod.fst hpair
    have hsnd : (new.run (ε := ε) pre).2.unread = ((frameReader ε).run [] pre).2 :=
      congrArg Prod.snd hpair
    have hnext := congrArg Prod.fst (next_unread (ε := ε) (new.run (ε := ε) pre).2)
    dsimp only at hnext
    rw [hsnd] at hnext
    refine ⟨k, ?_, ?_, ?_⟩
    · rw [hfst]
      exact hk.taken
    · rw [hk.completed hf]
      exact Nat.le_add_right _ _
    · rw [hnext]
      rcases hk.next hn hf hpre with ⟨hle, hx⟩ | ⟨m, f, rest, hlt, hm, _, _, hx⟩
      · rw [hx, if_neg (Nat.not_lt.2 hle)]
      · rw [hx, if_pos hlt, hm]
  · intro n hl
    obtain ⟨k, hk⟩ := Reader.stands hn hf feeds (by rw [hp])
    obtain ⟨hy, hu⟩ := hk.finish hn hf hp hl
    have hpair := hrun (feeds ++ List.replicate n .next)
    have hfst := congrArg Prod.fst hpair
    have hsnd := congrArg Prod.snd hpair
    dsimp only at hfst hsnd
    refine ⟨?_, hsnd.trans hu⟩
    rw [hfst]
    exact hy

/-- Framing is lossless however the stream is cut up, and what is wrong with it stays wrong. -/
theorem lossless (ε : Type) [Postcard ε] [LawfulPostcard ε] :
    (∀ msgs frames, List.Forall₂ (fun msg f => encode (ε := ε) msg = .ok f) msgs frames →
      ∀ feeds : List (Feed UInt8), pushed feeds = frames.flatten → Delivers ε msgs frames feeds) ∧
    (∀ msg f, encode (ε := ε) msg = .ok f →
      ∃ len, declaredLen f = some len ∧ len ≤ maxFrameLen ∧ f.length = lenPrefix + len) ∧
    ∀ (d : FrameDecoder) (e : ProtoError ε), d.next.1 = .error e →
      ∀ feeds : List (Feed UInt8), ∀ o ∈ (d.next (ε := ε)).2.run feeds |>.1, o = .error e := by
  refine ⟨fun msgs frames henc feeds hp => delivers henc hp, fun msg f h => declaredLen_encode h, ?_⟩
  intro d e he feeds o ho
  have hpair := next_unread (ε := ε) d
  rw [Reader.next] at hpair
  split at hpair
  next e' hpeel =>
    have hfst : d.next.1 = .error e' := congrArg Prod.fst hpair
    rw [he] at hfst
    cases hfst
    have hsnd : (d.next (ε := ε)).2.unread = d.unread := congrArg Prod.snd hpair
    have hrun := congrArg Prod.fst (run_unread (ε := ε) (d.next (ε := ε)).2 feeds)
    dsimp only at hrun
    rw [hrun, hsnd] at ho
    exact Reader.error_stays hpeel feeds o ho
  · have hfst : d.next.1 = .ok none := congrArg Prod.fst hpair
    rw [he] at hfst
    cases hfst
  next m n _ =>
    have hfst : d.next.1 = .ok (some m) := congrArg Prod.fst hpair
    rw [he] at hfst
    cases hfst

end FrameDecoder

/-- What the serializer does with pings of small numbers, and with messages that have no fields. -/
def shortPostcard : Postcard Unit where
  toAllocvec
    | .ping nonce => if nonce < 128 then .ok [6, UInt8.ofNat nonce] else .error ()
    | .pause => .ok [8]
    | .resume => .ok [9]
    | _ => .error ()
  fromBytes
    | [6, b] => if b.toNat < 128 then .ok (.ping b.toNat) else .error ()
    | [8] => .ok .pause
    | [9] => .ok .resume
    | _ => .error ()

theorem shortPostcard_lawful : @LawfulPostcard Unit shortPostcard := by
  letI := shortPostcard
  have hbyte {n : Nat} (h : n < 128) : (UInt8.ofNat n).toNat = n := by
    rw [UInt8.toNat_ofNat']
    omega
  constructor
  intro msg bytes h
  cases msg with
  | ping nonce =>
    by_cases hn : nonce < 128
    · have he : (if nonce < 128 then .ok [6, UInt8.ofNat nonce] else .error () : Except Unit Bytes) =
          .ok bytes := h
      rw [if_pos hn] at he
      cases he
      change (if (UInt8.ofNat nonce).toNat < 128 then .ok (.ping (UInt8.ofNat nonce).toNat)
        else .error () : Except Unit Message) = _
      rw [hbyte hn, if_pos hn]
    · have he : (if nonce < 128 then .ok [6, UInt8.ofNat nonce] else .error () : Except Unit Bytes) =
          .ok bytes := h
      rw [if_neg hn] at he
      cases he
  | pause =>
    cases h
    rfl
  | resume =>
    cases h
    rfl
  | _ => cases h

/-- Two frames, cut inside their prefixes and pushed together in part. -/
def cutFeeds : List (Feed UInt8) :=
  [.push [2, 0], .next, .push [], .push [0, 0, 6, 7, 1, 0, 0], .next, .next, .push [0, 8], .next]

theorem cut_delivered :
    letI := shortPostcard
    FrameDecoder.Delivers Unit [.ping 7, .pause] [[2, 0, 0, 0, 6, 7], [1, 0, 0, 0, 8]] cutFeeds := by
  letI := shortPostcard
  letI := shortPostcard_lawful
  exact (FrameDecoder.lossless Unit).1 _ _ (.cons rfl (.cons rfl .nil)) _ rfl

end Tomo
