import Mathlib.Logic.Relation
import Tomo.Engine.Actions
import Tomo.Session.Inbound

namespace Tomo
set_option autoImplicit true

/-- Whether the disk shows what the index holds of a path. -/
def agrees (entry : Option Entry) (disk : Expectation) : Bool :=
  match entry with
  | some e => (expectationFromState e.winner.state).eq disk
  | none => disk.eq .absent

theorem Expectation.eq_refl (o : Expectation) : o.eq o = true := by
  cases o <;> simp [Expectation.eq, ContentSig.eq]

theorem expectation_eq (s s' : EntryState) :
    (expectationFromState s).eq (expectationFromState s') = s.eq s' := by
  cases s <;> cases s' <;> rfl

theorem expectation_state (o : Expectation) : ∃ s, expectationFromState s = o := by
  cases o with
  | present sig => exact ⟨.present sig, rfl⟩
  | absent => exact ⟨.tombstone, rfl⟩

namespace Engine
open Session
variable {e : Engine} {p : RelPath} {disk : Expectation}

/-- The engine once the watcher has reported what the disk holds. -/
def report (e : Engine) (p : RelPath) (disk : Expectation) : Engine × List Action :=
  e.handle (.local ⟨p, observedKind disk⟩)

/-- An expected report changes no entry and asks for nothing. -/
theorem report_echo (h : e.isExpectedEcho p disk = true) :
    (e.report p disk).1.index = e.index ∧ (e.report p disk).2 = [] := by
  rw [isExpectedEcho, ← EchoJournal.retire_contains] at h
  cases disk with
  | present sig =>
    simp only [report, handle, handleLocal, observedKind]
    rcases hr : e.echo.retire p (.present sig) with ⟨j, b⟩
    rw [hr] at h
    obtain rfl : b = true := h
    exact ⟨rfl, rfl⟩
  | absent =>
    simp only [report, handle, handleLocal, observedKind]
    rcases hr : e.echo.retire p .absent with ⟨j, b⟩
    rw [hr] at h
    obtain rfl : b = true := h
    exact ⟨rfl, rfl⟩

/-- A report nobody expected says nothing new, or is minted and sent. -/
theorem report_fresh (h : e.isExpectedEcho p disk = false) :
    (agrees (e.index.get p) disk = true ∧ (e.report p disk).1.index = e.index ∧
      (e.report p disk).2 = []) ∨
      (agrees (e.index.get p) disk = false ∧
        agrees ((e.report p disk).1.index.get p) disk = true ∧
        (∀ q, q ≠ p → (e.report p disk).1.index.get q = e.index.get q) ∧
        ∃ v, .send ⟨p, observedKind disk, v⟩ ∈ (e.report p disk).2) := by
  rw [isExpectedEcho, ← EchoJournal.retire_contains] at h
  have hmint (base : VectorClock) (s : EntryState) (hs : expectationFromState s = disk)
      (hk : kindFromState s = observedKind disk) :
      agrees ((e.mint p base s).1.index.get p) disk = true ∧
        (∀ q, q ≠ p → (e.mint p base s).1.index.get q = e.index.get q) ∧
        ∃ v, .send ⟨p, observedKind disk, v⟩ ∈ (e.mint p base s).2 := by
    refine ⟨?_, fun q hq => ?_, base.tick e.replica, ?_⟩
    · simp only [mint, Index.get_upsert, ↓reduceIte, agrees, Entry.single, Entry.winner,
        List.foldl_nil, hs, Expectation.eq_refl]
    · simp only [mint, Index.get_upsert, if_neg (Ne.symm hq)]
    · rw [← hk]
      exact List.mem_cons_self
  cases disk with
  | present sig =>
    simp only [report, handle, handleLocal, observedKind]
    rcases hr : e.echo.retire p (.present sig) with ⟨j, b⟩
    rw [hr] at h
    obtain rfl : b = false := h
    simp only [localModified]
    cases hg : e.index.get p with
    | none => exact .inr ⟨rfl, hmint _ (.present sig) rfl rfl⟩
    | some entry =>
      simp only [agrees]
      have he := expectation_eq entry.winner.state (.present sig)
      rw [expectationFromState] at he
      rw [he]
      cases hw : entry.winner.state.eq (.present sig) with
      | true => exact .inl ⟨rfl, rfl, rfl⟩
      | false => exact .inr ⟨rfl, hmint _ (.present sig) rfl rfl⟩
  | absent =>
    simp only [report, handle, handleLocal, observedKind]
    rcases hr : e.echo.retire p .absent with ⟨j, b⟩
    rw [hr] at h
    obtain rfl : b = false := h
    simp only [localRemoved]
    cases hg : e.index.get p with
    | none => exact .inl ⟨rfl, rfl, rfl⟩
    | some entry =>
      simp only [agrees]
      have he := expectation_eq entry.winner.state .tombstone
      rw [expectationFromState] at he
      rw [he]
      cases hw : entry.winner.state.eq .tombstone with
      | true => exact .inl ⟨rfl, rfl, rfl⟩
      | false => exact .inr ⟨rfl, hmint _ .tombstone rfl rfl⟩

theorem agrees_some (h : e.winnerState p = some w) :
    agrees (e.index.get p) disk = (expectationFromState w).eq disk := by
  rw [winnerState, Option.map_eq_some_iff] at h
  obtain ⟨entry, hg, rfl⟩ := h
  rw [hg, agrees]

theorem agrees_none (h : e.winnerState p = none) :
    agrees (e.index.get p) disk = disk.eq .absent := by
  rw [winnerState, Option.map_eq_none_iff] at h
  rw [h, agrees]

/-- Absorbing a change touches one path, and asks for the winner to be written where it
changes. -/
theorem handleRemote_agrees (e : Engine) (c : RemoteChange) (disk : Expectation) :
    (∀ q, q ≠ c.path → (e.handleRemote c).1.index.get q = e.index.get q) ∧
      (e.applyTarget c = none → agrees (e.index.get c.path) disk = true →
        agrees ((e.handleRemote c).1.index.get c.path) disk = true) ∧
      ∀ t, e.applyTarget c = some t → agrees ((e.handleRemote c).1.index.get c.path) t = true := by
  refine ⟨fun q hq => ?_, fun ht ha => ?_, fun t ht => ?_⟩
  · obtain ⟨_, hget, _⟩ := absorbRemote_spec e c.path (stateFromKind c.kind) c.version
    rw [handleRemote, hget, if_neg (Ne.symm hq)]
  · obtain ⟨_, ⟨hw', hw⟩ | ⟨w, w', hw, hw', heq⟩⟩ := applyTarget_none ht
    · rw [agrees_none hw] at ha
      rw [agrees_some hw']
      cases disk with
      | present sig => cases ha
      | absent => rfl
    · rw [agrees_some hw] at ha
      rw [agrees_some hw']
      rw [EntryState.eq_iff] at heq
      obtain ⟨s, rfl⟩ := expectation_state disk
      rw [expectation_eq, EntryState.eq_iff] at ha ⊢
      rw [← heq, ha]
  · obtain ⟨_, w, hw, rfl⟩ := applyTarget_some ht
    rw [agrees_some hw, Expectation.eq_refl]

end Engine

/-- An engine over a disk that its applies reach at once, and the paths written by the user
since their last report. -/
structure Mirror where
  engine : Engine
  disk : RelPath → Expectation
  unreported : RelPath → Bool

namespace Mirror

/-- What an action leaves on disk. -/
def applied (disk : RelPath → Expectation) : Action → RelPath → Expectation
  | .apply p target => Function.update disk p target
  | .send _ | .recordVersion .. | .conflictResolved .. => disk

/-- The user writes or deletes a file. -/
def write (s : Mirror) (p : RelPath) (content : Expectation) : Mirror :=
  { s with
    disk := Function.update s.disk p content
    unreported := Function.update s.unreported p true }

/-- A change of the peer is absorbed, and what it asks for is applied. -/
def remote (s : Mirror) (c : RemoteChange) : Mirror :=
  { s with
    engine := (s.engine.handle (.remote c)).1
    disk := (s.engine.handle (.remote c)).2.foldl applied s.disk }

/-- The watcher reports what a path holds now, however often it was written. -/
def report (s : Mirror) (p : RelPath) : Mirror :=
  { s with
    engine := (s.engine.report p (s.disk p)).1
    unreported := Function.update s.unreported p false }

/-- The report of a path is sent on if it differs from the index, and the index shows the disk
after it. -/
def Heard (s : Mirror) (p : RelPath) : Prop :=
  agrees ((s.report p).engine.index.get p) (s.disk p) = true ∧
    (agrees (s.engine.index.get p) (s.disk p) = false →
      ∃ v, .send ⟨p, Session.observedKind (s.disk p), v⟩ ∈ (s.engine.report p (s.disk p)).2)

/-- A report that would be swallowed shows what the index has as the winner. -/
def Fresh (s : Mirror) (p : RelPath) : Prop :=
  s.engine.isExpectedEcho p (s.disk p) = true → agrees (s.engine.index.get p) (s.disk p) = true

inductive Step : Mirror → Mirror → Prop where
  | write (s : Mirror) (p : RelPath) (content : Expectation) : Step s (s.write p content)
  | remote (s : Mirror) (c : RemoteChange) : Step s (s.remote c)
  | report (s : Mirror) (p : RelPath) : Step s (s.report p)

/-- The steps whose reports are fresh. -/
inductive FreshStep : Mirror → Mirror → Prop where
  | write (s : Mirror) (p : RelPath) (content : Expectation) : FreshStep s (s.write p content)
  | remote (s : Mirror) (c : RemoteChange) : FreshStep s (s.remote c)
  | report (s : Mirror) (p : RelPath) (h : s.Fresh p) : FreshStep s (s.report p)

/-- Nothing is tracked and no file exists. -/
def init (id : ReplicaId) : Mirror := ⟨.new id .new, fun _ => .absent, fun _ => false⟩

/-- Every path that is not waiting for a report shows its winner. -/
def Settled (s : Mirror) : Prop :=
  ∀ p, s.unreported p = false → agrees (s.engine.index.get p) (s.disk p) = true

variable {s s' : Mirror}

/-- What an absorbed change writes. -/
theorem remote_disk (s : Mirror) (c : RemoteChange) :
    (s.remote c).disk = match s.engine.applyTarget c with
      | some t => Function.update s.disk c.path t
      | none => s.disk := by
  have hpaper (disk : RelPath → Expectation) (l : List Action)
      (hl : ∀ a ∈ l, a.isPaper = true) : l.foldl applied disk = disk := by
    induction l with
    | nil => rfl
    | cons a l ih =>
      have ha : applied disk a = disk := by
        cases a with
        | apply p target => cases hl _ List.mem_cons_self
        | send => rfl
        | recordVersion => rfl
        | conflictResolved => rfl
      rw [List.foldl_cons, ha]
      exact ih fun b hb => hl b (List.mem_cons_of_mem a hb)
  have hl (a : Action) (ha : a ∈ s.engine.paperwork c) : a.isPaper = true :=
    (Engine.paperwork_paper s.engine c a ha).1
  cases ht : s.engine.applyTarget c with
  | none =>
    simp only [remote, Engine.handle, (Engine.applyTarget_none ht).1]
    exact hpaper _ _ hl
  | some t =>
    simp only [remote, Engine.handle, (Engine.applyTarget_some ht).1, List.foldl_cons]
    exact hpaper _ _ hl

/-- A report is heard exactly when it is fresh. -/
theorem heard_iff (s : Mirror) (p : RelPath) : s.Heard p ↔ s.Fresh p := by
  rw [Heard, Fresh]
  cases he : s.engine.isExpectedEcho p (s.disk p) with
  | true =>
    obtain ⟨hidx, hact⟩ := Engine.report_echo he
    simp only [report, hidx, hact, List.not_mem_nil, exists_false, imp_false, forall_const]
    exact ⟨And.left, fun h => ⟨h, by simp [h]⟩⟩
  | false =>
    refine iff_of_true ?_ fun h => by cases h
    rcases Engine.report_fresh he with ⟨ha, hidx, _⟩ | ⟨_, ha, _, hsend⟩
    · refine ⟨?_, fun h => ?_⟩
      · rw [report, hidx]
        exact ha
      · rw [ha] at h
        cases h
    · exact ⟨ha, fun _ => hsend⟩

theorem settled_init (id : ReplicaId) : (init id).Settled := by
  intro p _
  have hg : (init id).engine.index.get p = none := Index.get_new p
  rw [hg]
  rfl

theorem FreshStep.settled (hs : s.Settled) (hstep : FreshStep s s') : s'.Settled := by
  intro q hq
  cases hstep with
  | write p content =>
    simp only [Mirror.write] at hq ⊢
    by_cases hqp : q = p
    · subst q
      rw [Function.update_self] at hq
      cases hq
    · rw [Function.update_of_ne hqp] at hq ⊢
      exact hs q hq
  | remote c =>
    obtain ⟨hother, hkeep, hwrite⟩ := s.engine.handleRemote_agrees c (s.disk c.path)
    have hu : s.unreported q = false := hq
    have hd := s.remote_disk c
    rw [hd]
    simp only [Mirror.remote, Engine.handle]
    by_cases hqc : q = c.path
    · subst q
      cases ht : s.engine.applyTarget c with
      | none => exact hkeep ht (hs c.path hu)
      | some t =>
        simp only [Function.update_self]
        exact hwrite t ht
    · rw [hother q hqc]
      cases ht : s.engine.applyTarget c with
      | none => exact hs q hu
      | some t =>
        simp only [Function.update_of_ne hqc]
        exact hs q hu
  | report p hf =>
    simp only [Mirror.report] at hq ⊢
    by_cases hqp : q = p
    · subst q
      exact ((s.heard_iff p).2 hf).1
    · rw [Function.update_of_ne hqp] at hq
      have hg : (s.engine.report p (s.disk p)).1.index.get q = s.engine.index.get q := by
        cases he : s.engine.isExpectedEcho p (s.disk p) with
        | true => rw [(Engine.report_echo he).1]
        | false =>
          rcases Engine.report_fresh he with ⟨_, hidx, _⟩ | ⟨_, _, hidx, _⟩
          · rw [hidx]
          · exact hidx q hqp
      rw [hg]
      exact hs q hq

/-- In a run whose reports are all fresh, the index shows the disk wherever no report is
outstanding, and the next report of a path is heard exactly when it is fresh. -/
theorem FreshRun.follows_disk {id : ReplicaId} (hrun : Relation.ReflTransGen FreshStep (init id) s) :
    s.Settled ∧ ∀ p, s.Heard p ↔ s.Fresh p := by
  refine ⟨?_, s.heard_iff⟩
  induction hrun with
  | refl => exact settled_init id
  | tail _ hstep ih => exact hstep.settled ih

end Mirror

/-- Two versions of the peer are applied and reported as one. -/
def coalesced : Mirror :=
  (((Mirror.init ⟨1⟩).remote ⟨fooPath, .modified oneSig, VectorClock.new.tick ⟨2⟩⟩).remote
    ⟨fooPath, .modified twoSig, (VectorClock.new.tick ⟨2⟩).tick ⟨2⟩⟩).report fooPath

/-- The user puts the first content back. -/
def reverted : Mirror := coalesced.write fooPath (.present oneSig)

/-- The edit is taken for the echo of the first version: it is reported, never sent, and the index
keeps the second one. -/
theorem reverted_swallowed :
    Relation.ReflTransGen Mirror.Step (Mirror.init ⟨1⟩) (reverted.report fooPath) ∧
      (reverted.report fooPath).unreported fooPath = false ∧
      agrees ((reverted.report fooPath).engine.index.get fooPath)
        ((reverted.report fooPath).disk fooPath) = false ∧
      (reverted.engine.report fooPath (reverted.disk fooPath)).2 = [] := by
  refine ⟨?_, by decide, by decide, by decide⟩
  exact .tail (.tail (.tail (.tail (.tail .refl (.remote _ _)) (.remote _ _)) (.report _ _))
    (.write _ _ _)) (.report _ _)

/-- The two versions alone are heard of. -/
theorem coalesced_settled :
    coalesced.Settled ∧ ∀ p, coalesced.Heard p ↔ coalesced.Fresh p := by
  apply Mirror.FreshRun.follows_disk
  refine .tail (.tail (.tail .refl (.remote _ _)) (.remote _ _)) (.report _ _ ?_)
  exact fun _ => by decide

end Tomo
