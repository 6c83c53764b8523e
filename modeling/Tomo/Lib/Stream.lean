import Mathlib.Data.List.Forall2
import Mathlib.Data.List.Infix
import Mathlib.Tactic.Common

namespace Tomo
set_option autoImplicit true

/-- What is done with a stream that comes in pieces. -/
inductive Feed (α : Type) where
  | push (piece : List α)
  | next

/-- All that has been pushed, in order. -/
def pushed : List (Feed α) → List α
  | [] => []
  | .push piece :: feeds => piece ++ pushed feeds
  | .next :: feeds => pushed feeds

theorem pushed_append (a b : List (Feed α)) : pushed (a ++ b) = pushed a ++ pushed b := by
  induction a with
  | nil => rfl
  | cons feed a ih =>
    cases feed with
    | push piece => rw [List.cons_append, pushed, pushed, ih, List.append_assoc]
    | next => rw [List.cons_append, pushed, pushed, ih]

theorem pushed_nexts (n : Nat) : pushed (List.replicate n (.next : Feed α)) = [] := by
  induction n with
  | zero => rfl
  | succ n ih => rw [List.replicate_succ, pushed, ih]

/-- The messages among what the calls of `next` have returned. -/
def yielded (outcomes : List (Except ε (Option β))) : List β :=
  outcomes.filterMap fun r => (r.toOption).join

theorem yielded_append (a b : List (Except ε (Option β))) :
    yielded (a ++ b) = yielded a ++ yielded b := List.filterMap_append

/-- How many of the frames lie whole in the first `n` symbols. -/
def completed : List (List α) → Nat → Nat
  | [], _ => 0
  | f :: fs, n => if f.length ≤ n then completed fs (n - f.length) + 1 else 0

theorem completed_append (fs gs : List (List α)) (n : Nat) :
    completed (fs ++ gs) (fs.flatten.length + n) = fs.length + completed gs n := by
  induction fs with
  | nil => simp
  | cons f fs ih =>
    have hle : f.length ≤ (f :: fs).flatten.length + n := by
      rw [List.flatten_cons, List.length_append]
      omega
    have hsub : (f :: fs).flatten.length + n - f.length = fs.flatten.length + n := by
      rw [List.flatten_cons, List.length_append]
      omega
    rw [List.cons_append, completed, if_pos hle, hsub, ih, List.length_cons]
    omega

/-- What can be found at the front of a stream: a message with its length, an error, or nothing
yet. What is found stays, whatever follows. -/
structure Reader (α β ε : Type) where
  peel : List α → Except ε (Option (β × Nat))
  peel_append : ∀ {l m n} (more : List α), peel l = .ok (some (m, n)) →
    peel (l ++ more) = .ok (some (m, n))
  error_append : ∀ {l e} (more : List α), peel l = .error e → peel (l ++ more) = .error e

namespace Reader
variable {α β ε : Type} (r : Reader α β ε)

/-- Take the first message off what is unread; after an error nothing moves. -/
def next (unread : List α) : Except ε (Option β) × List α :=
  match r.peel unread with
  | .error e => (.error e, unread)
  | .ok none => (.ok none, unread)
  | .ok (some (m, n)) => (.ok (some m), unread.drop n)

/-- The outcomes of all calls of `next`, and what is left unread. -/
def run : List α → List (Feed α) → List (Except ε (Option β)) × List α
  | unread, [] => ([], unread)
  | unread, .push piece :: feeds => run (unread ++ piece) feeds
  | unread, .next :: feeds =>
    let (outcome, rest) := r.next unread
    let (outcomes, last) := run rest feeds
    (outcome :: outcomes, last)

theorem run_append (unread : List α) (a b : List (Feed α)) :
    r.run unread (a ++ b) =
      ((r.run unread a).1 ++ (r.run (r.run unread a).2 b).1, (r.run (r.run unread a).2 b).2) := by
  induction a generalizing unread with
  | nil => rfl
  | cons feed a ih =>
    cases feed with
    | push piece => exact ih (unread ++ piece)
    | next =>
      have hi := ih (r.next unread).2
      simp only [List.cons_append, run, hi]

/-- A frame of one message: complete as a whole, and not before. -/
structure Frames (m : β) (f : List α) : Prop where
  whole : r.peel f = .ok (some (m, f.length))
  part : ∀ l, l <+: f → l ≠ f → r.peel l = .ok none

/-- A list of messages and a frame for each. -/
abbrev FramesAll (ms : List β) (fs : List (List α)) : Prop := List.Forall₂ r.Frames ms fs

variable {r} {ms : List β} {fs : List (List α)} {m : β} {f : List α}

theorem Frames.ne_nil (h : r.Frames m f) (hn : r.peel [] = .ok none) : f ≠ [] := by
  rintro rfl
  have hw := h.whole
  rw [hn] at hw
  cases hw

theorem Frames.next_whole (h : r.Frames m f) (more : List α) :
    r.next (f ++ more) = (.ok (some m), more) := by
  rw [next, r.peel_append more h.whole]
  exact congrArg (Prod.mk _) List.drop_left

theorem Frames.next_part (h : r.Frames m f) {l : List α} (hl : l <+: f) (hne : l ≠ f) :
    r.next l = (.ok none, l) := by
  rw [next, h.part l hl hne]

/-- What is unread lies at the front of the frames that are still to come: a call of `next` takes
the first of them if it is complete. -/
theorem next_front (hn : r.peel [] = .ok none) (h : r.FramesAll ms fs) {unread : List α}
    (hu : unread <+: fs.flatten) :
    (completed fs unread.length = 0 ∧ r.next unread = (.ok none, unread)) ∨
      ∃ m ms' f fs' rest, ms = m :: ms' ∧ fs = f :: fs' ∧ unread = f ++ rest ∧
        0 < completed fs unread.length ∧ r.next unread = (.ok (some m), rest) := by
  cases h with
  | nil =>
    rw [List.flatten_nil, List.prefix_nil] at hu
    subst hu
    exact .inl ⟨rfl, by rw [next, hn]⟩
  | @cons m f ms' fs' hf htail =>
    rw [List.flatten_cons] at hu
    rcases Nat.lt_or_ge unread.length f.length with hlt | hge
    · left
      have hpart : unread <+: f := List.prefix_of_prefix_length_le hu (List.prefix_append _ _) hlt.le
      refine ⟨if_neg (Nat.not_le.2 hlt), hf.next_part hpart ?_⟩
      rintro rfl
      exact Nat.lt_irrefl _ hlt
    · right
      obtain ⟨rest, rfl⟩ := List.prefix_of_prefix_length_le (List.prefix_append f _) hu hge
      refine ⟨m, ms', f, fs', rest, rfl, rfl, rfl, ?_, hf.next_whole rest⟩
      rw [completed, if_pos hge]
      exact Nat.succ_pos _

theorem completed_front {k n : Nat} {fs : List (List α)} :
    completed fs ((fs.take k).flatten.length + n) =
      (fs.take k).length + completed (fs.drop k) n := by
  rw [← completed_append, List.take_append_drop]

/-- Where a run stands: the messages it has returned, and what is unread. -/
structure Stands (r : Reader α β ε) (ms : List β) (fs : List (List α)) (feeds : List (Feed α))
    (k : Nat) : Prop where
  few : k ≤ ms.length
  taken : yielded (r.run [] feeds).1 = ms.take k
  unread : pushed feeds = (fs.take k).flatten ++ (r.run [] feeds).2

theorem Stands.front (h : r.Stands ms fs feeds k) (hp : pushed feeds <+: fs.flatten) :
    (r.run [] feeds).2 <+: (fs.drop k).flatten := by
  have hall : fs.flatten = (fs.take k).flatten ++ (fs.drop k).flatten := by
    rw [← List.flatten_append, List.take_append_drop]
  rw [h.unread, hall] at hp
  exact (List.prefix_append_right_inj _).1 hp

theorem Stands.completed (hf : r.FramesAll ms fs) (h : r.Stands ms fs feeds k) :
    completed fs (pushed feeds).length =
      k + Tomo.completed (fs.drop k) (r.run [] feeds).2.length := by
  have hk : (fs.take k).length = k := by
    rw [List.length_take, ← hf.length_eq]
    exact Nat.min_eq_left h.few
  rw [h.unread, List.length_append, completed_front, hk]

/-- Each call of `next` takes one message, if one more frame is complete. -/
theorem Stands.next (hn : r.peel [] = .ok none) (hf : r.FramesAll ms fs)
    (h : r.Stands ms fs feeds k) (hp : pushed feeds <+: fs.flatten) :
    (Tomo.completed fs (pushed feeds).length ≤ k ∧
        r.next (r.run [] feeds).2 = (.ok none, (r.run [] feeds).2)) ∨
      ∃ m f rest, k < Tomo.completed fs (pushed feeds).length ∧ ms[k]? = some m ∧ fs[k]? = some f ∧
        (r.run [] feeds).2 = f ++ rest ∧ r.next (r.run [] feeds).2 = (.ok (some m), rest) := by
  have hc := h.completed hf
  rw [hc]
  rcases next_front hn (List.forall₂_drop k hf) (h.front hp) with
    ⟨h0, hx⟩ | ⟨m, ms', f, fs', rest, hm, hfs, hu, hpos, hx⟩
  · left
    exact ⟨by omega, hx⟩
  · right
    refine ⟨m, f, rest, by omega, ?_, ?_, hu, hx⟩
    · rw [← List.head?_drop, hm]
      rfl
    · rw [← List.head?_drop, hfs]
      rfl

/-- However a stream is cut up and read, its messages come out in order. -/
theorem stands (hn : r.peel [] = .ok none) (hf : r.FramesAll ms fs) (feeds : List (Feed α))
    (hp : pushed feeds <+: fs.flatten) : ∃ k, r.Stands ms fs feeds k := by
  induction feeds using List.reverseRecOn with
  | nil => exact ⟨0, Nat.zero_le _, rfl, rfl⟩
  | append_singleton feeds feed ih =>
    rw [pushed_append] at hp
    have hpre : pushed feeds <+: fs.flatten := (List.prefix_append _ _).trans hp
    obtain ⟨k, h⟩ := ih hpre
    have hrun := r.run_append [] feeds [feed]
    cases feed with
    | push piece =>
      have hone : r.run (r.run [] feeds).2 [.push piece] = ([], (r.run [] feeds).2 ++ piece) := rfl
      rw [hone, List.append_nil] at hrun
      refine ⟨k, h.few, ?_, ?_⟩
      · rw [hrun]
        exact h.taken
      · rw [hrun, pushed_append, h.unread, List.append_assoc]
        exact congrArg _ (congrArg _ (List.append_nil piece))
    | next =>
      have hone : r.run (r.run [] feeds).2 [.next] =
          ([(r.next (r.run [] feeds).2).1], (r.next (r.run [] feeds).2).2) := rfl
      rw [hone] at hrun
      have hsame : pushed (feeds ++ [.next]) = pushed feeds := by
        rw [pushed_append]
        exact List.append_nil _
      rcases h.next hn hf hpre with ⟨_, hx⟩ | ⟨m, f, rest, _, hm, hfk, hu, hx⟩
      · rw [hx] at hrun
        refine ⟨k, h.few, ?_, ?_⟩
        · rw [hrun, yielded_append, h.taken]
          exact List.append_nil _
        · rw [hrun, hsame]
          exact h.unread
      · rw [hx] at hrun
        have hlt : k < ms.length := (List.getElem?_eq_some_iff.1 hm).1
        refine ⟨k + 1, hlt, ?_, ?_⟩
        · rw [hrun, yielded_append, h.taken, List.take_add_one, hm]
          rfl
        · rw [hrun, hsame, h.unread, hu, List.take_add_one, hfk, List.flatten_append]
          simp

/-- What has come whole is read by as many calls of `next`. -/
theorem drain (hn : r.peel [] = .ok none) (hf : r.FramesAll ms fs) {n : Nat} (hl : ms.length ≤ n) :
    r.run fs.flatten (List.replicate n .next) =
      (ms.map (fun m => .ok (some m)) ++ List.replicate (n - ms.length) (.ok none), []) := by
  induction hf generalizing n with
  | nil =>
    induction n with
    | zero => rfl
    | succ n ih =>
      have hx : r.next [] = (.ok none, []) := by rw [next, hn]
      have hi := ih (Nat.zero_le n)
      rw [List.flatten_nil] at hi ⊢
      rw [List.replicate_succ, run, hx]
      dsimp only
      rw [hi]
      rfl
  | @cons m f ms fs hmf _ ih =>
    cases n with
    | zero => cases hl
    | succ n =>
      have hx := hmf.next_whole fs.flatten
      rw [List.replicate_succ, run, List.flatten_cons, hx]
      dsimp only
      rw [ih (Nat.le_of_succ_le_succ hl), List.length_cons, Nat.succ_sub_succ]
      rfl

theorem yielded_drained (ms : List β) (n : Nat) :
    yielded (ms.map (fun m => (.ok (some m) : Except ε (Option β))) ++
      List.replicate n (.ok none)) = ms := by
  have hms : yielded (ms.map fun m => (.ok (some m) : Except ε (Option β))) = ms := by
    induction ms with
    | nil => rfl
    | cons m ms ih => exact congrArg (m :: ·) ih
  have hnone : yielded (List.replicate n (.ok none : Except ε (Option β))) = [] := by
    induction n with
    | zero => rfl
    | succ n ih => exact ih
  rw [yielded_append, hms, hnone, List.append_nil]

/-- Once all has been pushed, enough calls of `next` return the rest and leave nothing. -/
theorem Stands.finish (hn : r.peel [] = .ok none) (hf : r.FramesAll ms fs)
    (h : r.Stands ms fs feeds k) (hp : pushed feeds = fs.flatten) {n : Nat} (hl : ms.length ≤ n) :
    yielded (r.run [] (feeds ++ List.replicate n .next)).1 = ms ∧
      (r.run [] (feeds ++ List.replicate n .next)).2 = [] := by
  have hu : (r.run [] feeds).2 = (fs.drop k).flatten := by
    have hall : fs.flatten = (fs.take k).flatten ++ (fs.drop k).flatten := by
      rw [← List.flatten_append, List.take_append_drop]
    have hrest := h.unread
    rw [hp, hall] at hrest
    exact (List.append_cancel_left hrest).symm
  have hlen : (ms.drop k).length ≤ n := by
    rw [List.length_drop]
    omega
  rw [run_append, hu, drain hn (List.forall₂_drop k hf) hlen, yielded_append, h.taken,
    yielded_drained, List.take_append_drop]
  exact ⟨rfl, rfl⟩

/-- An error repeats, whatever comes. -/
theorem error_stays {unread : List α} {e : ε} (h : r.peel unread = .error e)
    (feeds : List (Feed α)) : ∀ o ∈ (r.run unread feeds).1, o = .error e := by
  induction feeds generalizing unread with
  | nil => exact fun o ho => by cases ho
  | cons feed feeds ih =>
    cases feed with
    | push piece => exact ih (r.error_append piece h)
    | next =>
      have hx : r.next unread = (.error e, unread) := by rw [Reader.next, h]
      rw [run, hx]
      intro o ho
      rcases List.mem_cons.1 ho with rfl | ho
      · rfl
      · exact ih h o ho

/-- Where each message that can be found has a frame no longer than what it was found in, those of a
whole run have frames no longer, together, than what the run has taken. -/
theorem run_reframed {P : β → List α → Prop}
    (h : ∀ l m n, r.peel l = .ok (some (m, n)) → n ≤ l.length ∧ ∃ f, P m f ∧ f.length ≤ n)
    (unread : List α) (feeds : List (Feed α)) :
    ∃ fs, List.Forall₂ P (yielded (r.run unread feeds).1) fs ∧
      fs.flatten.length + (r.run unread feeds).2.length ≤
        unread.length + (pushed feeds).length := by
  induction feeds generalizing unread with
  | nil => exact ⟨[], .nil, (Nat.zero_add _).le⟩
  | cons feed feeds ih =>
    cases feed with
    | push piece =>
      obtain ⟨fs, hfs, hle⟩ := ih (unread ++ piece)
      refine ⟨fs, hfs, hle.trans ?_⟩
      rw [pushed, List.length_append, List.length_append, Nat.add_assoc]
    | next =>
      rw [run, pushed, next]
      cases hpeel : r.peel unread with
      | error e => exact ih unread
      | ok o =>
        cases o with
        | none => exact ih unread
        | some x =>
          obtain ⟨hn, f, hf, hlen⟩ := h unread x.1 x.2 hpeel
          obtain ⟨fs, hfs, hle⟩ := ih (unread.drop x.2)
          refine ⟨f :: fs, .cons hf hfs, ?_⟩
          rw [List.length_drop] at hle
          rw [List.flatten_cons, List.length_append]
          dsimp only
          omega

end Reader

end Tomo
