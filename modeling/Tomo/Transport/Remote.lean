import Tomo.Wire.Frame

namespace Tomo
set_option autoImplicit true

/-- What comes in over an SSH channel. -/
inductive ChannelMsg where
  | data (bytes : Bytes)
  | extendedData (bytes : Bytes) (ext : Nat)
  | eof
  | close
  | other
deriving DecidableEq

def stderrCap : Nat := 16 * 1024

def stderrPush (tail data : Bytes) : Bytes :=
  let bytes := tail ++ data
  if stderrCap < bytes.length then bytes.drop (bytes.length - stderrCap) else bytes

/-- The reading side of a remote channel: what the SSH library holds, the task that forwards it and the
queue it fills, and the blocking reader behind. -/
structure RemoteChannel where
  arriving : List ChannelMsg
  forwarding : Bool
  stderr : Bytes
  queue : List Bytes
  buf : Bytes
  pos : Nat

/-- What a step is: the peer sends, the task takes the next message, finds the channel gone or is
aborted, or the session reads into so many bytes. -/
inductive ChannelMove where
  | sends (msg : ChannelMsg)
  | takes
  | lost
  | abort
  | read (room : Nat)
deriving DecidableEq

namespace RemoteChannel

def start : RemoteChannel := ⟨[], true, [], [], [], 0⟩

/-- The task's loop body. -/
def take (c : RemoteChannel) : ChannelMsg → RemoteChannel
  | .data bytes => { c with queue := c.queue ++ [bytes] }
  | .extendedData bytes 1 => { c with stderr := stderrPush c.stderr bytes }
  | .eof | .close => { c with forwarding := false }
  | .extendedData .. | .other => c

/-- The loop of `read`: from the buffer if something is left in it, else on to the next chunk. It blocks
while the queue is empty and its sender is there. -/
def readLoop (forwarding : Bool) (room : Nat) :
    List Bytes → Bytes → Nat → Option (Bytes × List Bytes × Bytes × Nat)
  | queue, buf, pos =>
    if pos < buf.length then
      let n := min (buf.length - pos) room
      some ((buf.drop pos).take n, queue, buf, pos + n)
    else
      match queue with
      | chunk :: queue => readLoop forwarding room queue chunk 0
      | [] => if forwarding then none else some ([], [], buf, pos)

def read (c : RemoteChannel) (room : Nat) : Option (Bytes × RemoteChannel) :=
  (readLoop c.forwarding room c.queue c.buf c.pos).map fun (bytes, queue, buf, pos) =>
    (bytes, { c with queue, buf, pos })

/-- A step, and what it reads. -/
def step (c : RemoteChannel) : ChannelMove → Option (Bytes × RemoteChannel)
  | .sends msg => some ([], { c with arriving := c.arriving ++ [msg] })
  | .takes =>
    match c.arriving with
    | msg :: arriving => if c.forwarding then some ([], { c with arriving }.take msg) else none
    | [] => none
  | .lost | .abort => some ([], { c with forwarding := false })
  | .read room => c.read room

/-- A run, with all that it reads. -/
def run (c : RemoteChannel) : List ChannelMove → Option (Bytes × RemoteChannel)
  | [] => some ([], c)
  | m :: ms => do
    let (bytes, c) ← c.step m
    let (more, c) ← run c ms
    some (bytes ++ more, c)

end RemoteChannel

/-- What the peer has sent. -/
def sentBy (moves : List ChannelMove) : List ChannelMsg :=
  moves.filterMap fun
    | .sends msg => some msg
    | _ => none

def ChannelMsg.ends : ChannelMsg → Bool
  | .eof | .close => true
  | _ => false

/-- The messages up to the one that ends the stream. -/
def untilEnd (msgs : List ChannelMsg) : List ChannelMsg := msgs.takeWhile fun m => !m.ends

def stdoutOf (msgs : List ChannelMsg) : Bytes :=
  (msgs.filterMap fun
    | .data bytes => some bytes
    | _ => none).flatten

def stderrOf (msgs : List ChannelMsg) : Bytes :=
  (msgs.filterMap fun
    | .extendedData bytes 1 => some bytes
    | _ => none).flatten

theorem stdoutOf_append (a b : List ChannelMsg) : stdoutOf (a ++ b) = stdoutOf a ++ stdoutOf b := by
  rw [stdoutOf, List.filterMap_append, List.flatten_append]
  rfl

theorem stderrOf_append (a b : List ChannelMsg) : stderrOf (a ++ b) = stderrOf a ++ stderrOf b := by
  rw [stderrOf, List.filterMap_append, List.flatten_append]
  rfl

theorem sentBy_append (a b : List ChannelMove) : sentBy (a ++ b) = sentBy a ++ sentBy b :=
  List.filterMap_append

/-- The last part of a stream, as much of it as is kept. -/
def lastOf (n : Nat) (bytes : Bytes) : Bytes := bytes.drop (bytes.length - n)

theorem length_lastOf (n : Nat) (bytes : Bytes) : (lastOf n bytes).length = min bytes.length n := by
  rw [lastOf, List.length_drop]
  omega

/-- Keeping the last part of what was kept and what comes is keeping the last part of all. -/
theorem lastOf_append (n : Nat) (all data : Bytes) :
    lastOf n (lastOf n all ++ data) = lastOf n (all ++ data) := by
  have hsplit : lastOf n all ++ data = (all ++ data).drop (all.length - n) := by
    rw [lastOf, List.drop_append_of_le_length (Nat.sub_le _ _)]
  have hlen : (lastOf n all ++ data).length = min all.length n + data.length := by
    rw [List.length_append, length_lastOf]
  have hall : (all ++ data).length = all.length + data.length := List.length_append
  rw [lastOf, hlen, hsplit, List.drop_drop, lastOf, hall,
    show all.length - n + (min all.length n + data.length - n) =
      all.length + data.length - n by omega]

theorem stderrPush_eq (tail data : Bytes) : stderrPush tail data = lastOf stderrCap (tail ++ data) := by
  unfold stderrPush lastOf
  dsimp only
  split
  next => rfl
  next h => rw [Nat.sub_eq_zero_of_le (Nat.le_of_not_lt h), List.drop_zero]

namespace RemoteChannel

theorem take_unread {pos : Nat} {buf : Bytes} (room : Nat) (rest : Bytes) (hlt : pos < buf.length) :
    (buf.drop pos).take (min (buf.length - pos) room) ++
        (buf.drop (pos + min (buf.length - pos) room) ++ rest) = buf.drop pos ++ rest ∧
      (0 < room → (buf.drop pos).take (min (buf.length - pos) room) ≠ []) := by
  constructor
  · rw [← List.append_assoc, ← List.drop_drop, List.take_append_drop]
  · intro hroom hnil
    have hlen := congrArg List.length hnil
    rw [List.length_take, List.length_drop, List.length_nil] at hlen
    omega

/-- A read takes the front of what is buffered and queued; it takes nothing, given room, only when
nothing is left and nothing more can come. -/
theorem readLoop_spec {forwarding : Bool} {room : Nat} {queue queue' : List Bytes}
    {buf buf' : Bytes} {pos pos' : Nat} {bytes : Bytes}
    (h : readLoop forwarding room queue buf pos = some (bytes, queue', buf', pos')) :
    bytes ++ (buf'.drop pos' ++ queue'.flatten) = buf.drop pos ++ queue.flatten ∧
      (0 < room → bytes = [] → forwarding = false ∧ buf.drop pos ++ queue.flatten = []) := by
  induction queue generalizing buf pos with
  | nil =>
    rw [readLoop] at h
    split at h
    next hlt =>
      cases h
      obtain ⟨heq, hsome⟩ := take_unread room _ hlt
      exact ⟨heq, fun hroom hnil => (hsome hroom hnil).elim⟩
    next hge =>
      have hdrop : buf.drop pos = [] := List.drop_eq_nil_of_le (Nat.le_of_not_lt hge)
      cases forwarding with
      | true => cases h
      | false =>
        cases h
        exact ⟨rfl, fun _ _ => ⟨rfl, by rw [hdrop]; rfl⟩⟩
  | cons chunk queue ih =>
    rw [readLoop] at h
    split at h
    next hlt =>
      cases h
      obtain ⟨heq, hsome⟩ := take_unread room _ hlt
      exact ⟨heq, fun hroom hnil => (hsome hroom hnil).elim⟩
    next hge =>
      obtain ⟨hread, hempty⟩ := ih h
      have hdrop : buf.drop pos = [] := List.drop_eq_nil_of_le (Nat.le_of_not_lt hge)
      rw [hdrop, List.nil_append, List.flatten_cons]
      exact ⟨hread, hempty⟩

/-- What holds after some moves that read so many bytes: the task has taken these messages, and after them
the one that ended the stream if it has met that. -/
structure Inv (moves : List ChannelMove) (bytes : Bytes) (c : RemoteChannel)
    (msgs : List ChannelMsg) (last : Option ChannelMsg) : Prop where
  sent : sentBy moves = msgs ++ last.toList ++ c.arriving
  plain : ∀ m ∈ msgs, m.ends = false
  ended : ∀ m ∈ last, m.ends = true ∧ c.forwarding = false
  stopped : c.forwarding = false → last.isSome ∨ .lost ∈ moves ∨ .abort ∈ moves
  stdout : stdoutOf msgs = bytes ++ (c.buf.drop c.pos ++ c.queue.flatten)
  stderr : c.stderr = lastOf stderrCap (stderrOf msgs)

theorem Inv.start : Inv [] [] start [] none where
  sent := rfl
  plain _ h := absurd h List.not_mem_nil
  ended _ h := (Option.not_mem_none _ h).elim
  stopped h := Bool.noConfusion h
  stdout := rfl
  stderr := rfl

variable {moves : List ChannelMove} {bytes : Bytes} {c c' : RemoteChannel}
  {msgs : List ChannelMsg} {last : Option ChannelMsg}

/-- Moves that send nothing. -/
theorem sentBy_snoc {m : ChannelMove} (hm : ∀ msg, m ≠ .sends msg) :
    sentBy (moves ++ [m]) = sentBy moves := by
  rw [sentBy_append]
  cases m with
  | sends msg => exact absurd rfl (hm msg)
  | _ => exact List.append_nil _

theorem Inv.stop (h : Inv moves bytes c msgs last) {m : ChannelMove} (hm : m = .lost ∨ m = .abort) :
    Inv (moves ++ [m]) bytes { c with forwarding := false } msgs last := by
  refine ⟨?_, h.plain, ?_, ?_, h.stdout, h.stderr⟩
  · rw [sentBy_snoc, h.sent]
    intro msg
    rcases hm with rfl | rfl <;> exact ChannelMove.noConfusion
  · intro x hx
    exact ⟨(h.ended x hx).1, rfl⟩
  · intro _
    rcases hm with rfl | rfl
    · exact .inr (.inl (List.mem_append_right _ (List.mem_singleton_self _)))
    · exact .inr (.inr (List.mem_append_right _ (List.mem_singleton_self _)))

/-- The reasons to have stopped stay. -/
theorem Inv.stays (h : Inv moves bytes c msgs last) (m : ChannelMove) (hf : c.forwarding = false) :
    last.isSome ∨ .lost ∈ moves ++ [m] ∨ .abort ∈ moves ++ [m] := by
  rcases h.stopped hf with hl | hl | hl
  · exact .inl hl
  · exact .inr (.inl (List.mem_append_left _ hl))
  · exact .inr (.inr (List.mem_append_left _ hl))

theorem Inv.takes (h : Inv moves bytes c msgs none) {msg : ChannelMsg} {arriving : List ChannelMsg}
    (ha : c.arriving = msg :: arriving) :
    ∃ msgs' last', Inv (moves ++ [.takes]) bytes ({ c with arriving }.take msg) msgs' last' := by
  have hsent : sentBy (moves ++ [.takes]) = msgs ++ [msg] ++ arriving := by
    rw [sentBy_snoc (fun _ => ChannelMove.noConfusion), h.sent, ha, Option.toList_none,
      List.append_nil, List.append_assoc]
    rfl
  have hplain (hm : msg.ends = false) : ∀ m ∈ msgs ++ [msg], m.ends = false := by
    intro m hmem
    rcases List.mem_append.1 hmem with hmem | hmem
    · exact h.plain m hmem
    · rw [List.mem_singleton.1 hmem]
      exact hm
  have hnone (m : ChannelMsg) (hm : m ∈ (none : Option ChannelMsg)) :
      m.ends = true ∧ c.forwarding = false := (Option.not_mem_none _ hm).elim
  have hend (hm : msg.ends = true) :
      Inv (moves ++ [.takes]) bytes { c with arriving, forwarding := false } msgs (some msg) := by
    refine ⟨hsent, h.plain, ?_, fun _ => .inl rfl, h.stdout, h.stderr⟩
    intro m hmem
    rw [Option.mem_def] at hmem
    obtain rfl := Option.some.inj hmem
    exact ⟨hm, rfl⟩
  have hidle (hm : msg.ends = false) (hout : stdoutOf [msg] = []) (herr : stderrOf [msg] = []) :
      Inv (moves ++ [.takes]) bytes { c with arriving } (msgs ++ [msg]) none := by
    refine ⟨?_, hplain hm, hnone, h.stays _, ?_, ?_⟩
    · rw [hsent, Option.toList_none, List.append_nil]
    · rw [stdoutOf_append, hout, List.append_nil]
      exact h.stdout
    · rw [stderrOf_append, herr, List.append_nil]
      exact h.stderr
  cases msg with
  | data chunk =>
    refine ⟨msgs ++ [.data chunk], none, ?_, hplain rfl, hnone, h.stays _, ?_, ?_⟩
    · rw [hsent, Option.toList_none, List.append_nil]
      rfl
    · rw [stdoutOf_append, h.stdout]
      change _ = bytes ++ (c.buf.drop c.pos ++ (c.queue ++ [chunk]).flatten)
      rw [List.flatten_append, List.append_assoc, List.append_assoc]
      rfl
    · rw [stderrOf_append]
      exact h.stderr.trans (congrArg _ (List.append_nil _).symm)
  | extendedData chunk ext =>
    by_cases hext : ext = 1
    · subst hext
      refine ⟨msgs ++ [.extendedData chunk 1], none, ?_, hplain rfl, hnone, h.stays _, ?_, ?_⟩
      · rw [hsent, Option.toList_none, List.append_nil]
        rfl
      · rw [stdoutOf_append]
        exact (List.append_nil _).trans h.stdout
      · change stderrPush c.stderr chunk = _
        rw [stderrPush_eq, h.stderr, lastOf_append, stderrOf_append]
        congr 2
        exact (List.append_nil _).symm
    · have htake : ({ c with arriving }.take (.extendedData chunk ext)) = { c with arriving } := by
        unfold take
        split
        next heq => cases heq
        next heq =>
          cases heq
          exact absurd rfl hext
        next heq => cases heq
        next heq => cases heq
        next => rfl
        next => rfl
      have herr : stderrOf [.extendedData chunk ext] = [] := by
        unfold stderrOf
        rw [List.filterMap_cons_none]
        · rfl
        · split
          next heq =>
            cases heq
            exact absurd rfl hext
          next => rfl
      rw [htake]
      exact ⟨_, _, hidle rfl rfl herr⟩
  | eof => exact ⟨_, _, hend rfl⟩
  | close => exact ⟨_, _, hend rfl⟩
  | other => exact ⟨_, _, hidle rfl rfl rfl⟩

theorem Inv.step (h : Inv moves bytes c msgs last) {m : ChannelMove} {more : Bytes}
    (hstep : c.step m = some (more, c')) :
    ∃ msgs' last', Inv (moves ++ [m]) (bytes ++ more) c' msgs' last' := by
  cases m with
  | sends msg =>
    cases hstep
    refine ⟨msgs, last, ?_, h.plain, h.ended, h.stays _, ?_, h.stderr⟩
    · rw [sentBy_append, h.sent, List.append_assoc]
      rfl
    · rw [List.append_nil]
      exact h.stdout
  | takes =>
    dsimp only [RemoteChannel.step] at hstep
    split at hstep
    next msg arriving ha =>
      split at hstep
      next hf =>
        cases hstep
        have hlast : last = none := by
          cases hl : last with
          | none => rfl
          | some m =>
            have hm := (h.ended m hl).2
            rw [hf] at hm
            cases hm
        subst hlast
        rw [List.append_nil]
        exact h.takes ha
      next => cases hstep
    next => cases hstep
  | lost =>
    cases hstep
    rw [List.append_nil]
    exact ⟨msgs, last, h.stop (.inl rfl)⟩
  | abort =>
    cases hstep
    rw [List.append_nil]
    exact ⟨msgs, last, h.stop (.inr rfl)⟩
  | read room =>
    obtain ⟨⟨taken, queue, buf, pos⟩, hread, heq⟩ := Option.map_eq_some_iff.1 hstep
    cases heq
    obtain ⟨htaken, -⟩ := readLoop_spec hread
    refine ⟨msgs, last, ?_, h.plain, h.ended, h.stays _, ?_, h.stderr⟩
    · rw [sentBy_snoc (fun _ => ChannelMove.noConfusion), h.sent]
    · rw [h.stdout, List.append_assoc, htaken]

theorem Inv.run {more : List ChannelMove} {read : Bytes} (h : Inv moves bytes c msgs last)
    (hrun : c.run more = some (read, c')) :
    ∃ msgs' last', Inv (moves ++ more) (bytes ++ read) c' msgs' last' := by
  induction more generalizing moves bytes c msgs last read with
  | nil =>
    cases hrun
    rw [List.append_nil, List.append_nil]
    exact ⟨msgs, last, h⟩
  | cons m more ih =>
    obtain ⟨⟨b, d⟩, hstep, hrest⟩ := Option.bind_eq_some_iff.1 hrun
    obtain ⟨⟨b', d'⟩, hrest, heq⟩ := Option.bind_eq_some_iff.1 hrest
    cases heq
    obtain ⟨msgs', last', h'⟩ := h.step hstep
    have hall := ih h' hrest
    rwa [List.append_assoc, List.append_assoc, List.singleton_append] at hall

theorem untilEnd_plain {a : List ChannelMsg} (ha : ∀ m ∈ a, m.ends = false) (b : List ChannelMsg) :
    untilEnd (a ++ b) = a ++ untilEnd b := by
  apply List.takeWhile_append_of_pos
  intro m hm
  rw [ha m hm]
  rfl

/-- However the peer's messages, the task and the reads are interleaved, the session reads what the
peer's program wrote to its standard output, in order, and meets the end only after all of it. -/
theorem reads_whole (h : start.run moves = some (bytes, c)) :
    ∃ msgs, msgs <+: untilEnd (sentBy moves) ∧ bytes <+: stdoutOf msgs ∧
      c.stderr = lastOf stderrCap (stderrOf msgs) ∧
      ∀ room c', 0 < room → c.read room = some ([], c') →
        bytes = stdoutOf msgs ∧
          (.lost ∉ moves → .abort ∉ moves → msgs = untilEnd (sentBy moves)) := by
  obtain ⟨msgs, last, hinv⟩ := Inv.start.run h
  rw [List.nil_append, List.nil_append] at hinv
  have hsent : untilEnd (sentBy moves) = msgs ++ untilEnd (last.toList ++ c.arriving) := by
    rw [hinv.sent, List.append_assoc, untilEnd_plain hinv.plain]
  refine ⟨msgs, ?_, ?_, hinv.stderr, ?_⟩
  · rw [hsent]
    exact List.prefix_append _ _
  · rw [hinv.stdout]
    exact List.prefix_append _ _
  · intro room c' hroom hread
    obtain ⟨⟨taken, queue, buf, pos⟩, hloop, heq⟩ := Option.map_eq_some_iff.1 hread
    cases heq
    obtain ⟨-, hempty⟩ := readLoop_spec hloop
    obtain ⟨hf, hrest⟩ := hempty hroom rfl
    constructor
    · rw [hinv.stdout, hrest, List.append_nil]
    · intro hlost habort
      rw [hsent]
      rcases hinv.stopped hf with hl | hl | hl
      · obtain ⟨m, rfl⟩ := Option.isSome_iff_exists.1 hl
        have hm := (hinv.ended m rfl).1
        rw [Option.toList_some, List.singleton_append, untilEnd, List.takeWhile_cons_of_neg,
          List.append_nil]
        rw [hm]
        exact Bool.false_ne_true
      · exact absurd hl hlost
      · exact absurd hl habort

def chunked : List ChannelMove :=
  [.sends (.data [1, 2]), .sends (.data []), .sends (.extendedData [9] 1), .sends .eof, .takes, .read 1,
    .takes, .takes, .takes, .read 1, .read 1]

/-- Two chunks, one of them empty, an error line and the end, read a byte at a time. -/
theorem chunked_reads_whole :
    ∃ msgs, msgs <+: untilEnd (sentBy chunked) ∧ [1, 2] <+: stdoutOf msgs ∧
      [9] = lastOf stderrCap (stderrOf msgs) ∧
      ∀ room c', 0 < room → RemoteChannel.read ⟨[], false, [9], [], [], 0⟩ room = some ([], c') →
        [1, 2] = stdoutOf msgs ∧
          (.lost ∉ chunked → .abort ∉ chunked → msgs = untilEnd (sentBy chunked)) :=
  reads_whole (c := ⟨[], false, [9], [], [], 0⟩)
    (by simp [chunked, run, step, take, read, readLoop, stderrPush, stderrCap, start])

end RemoteChannel

end Tomo
