import Tomo.Engine.Knowledge

namespace Tomo
set_option autoImplicit true

/-- An action that carries out nothing on disk. -/
def Action.isPaper : Action → Bool
  | .apply .. => false
  | .send _ | .recordVersion .. | .conflictResolved .. => true

namespace Engine
variable {e : Engine} {c : RemoteChange} {p : RelPath}

/-- What absorbing a change asks to be applied at its path. -/
def applyTarget (e : Engine) (c : RemoteChange) : Option Expectation :=
  (e.handleRemote c).2.findSome? fun
    | .apply _ target => some target
    | _ => none

/-- What absorbing a change asks for besides. -/
def paperwork (e : Engine) (c : RemoteChange) : List Action :=
  (e.handleRemote c).2.filter Action.isPaper

/-- The state the winner of a path has, if the path has one. -/
def winnerState (e : Engine) (p : RelPath) : Option EntryState :=
  (e.index.get p).map fun entry => entry.winner.state

theorem handleLocal_paper (e : Engine) (change : LocalChange) :
    ∀ a ∈ (e.handleLocal change).2, a.isPaper = true ∧ a.path = change.path := by
  obtain ⟨p, kind⟩ := change
  have hmint (base : VectorClock) (state : EntryState) :
      ∀ a ∈ (e.mint p base state).2, a.isPaper = true ∧ a.path = p := by
    intro a ha
    rcases List.mem_cons.1 ha with rfl | ha
    · exact ⟨rfl, rfl⟩
    · cases List.mem_singleton.1 ha
      exact ⟨rfl, rfl⟩
  cases kind with
  | modified sig =>
    simp only [handleLocal]
    split
    · exact fun a ha => by cases ha
    · unfold localModified
      split
      · split
        · exact fun a ha => by cases ha
        · exact hmint _ _
      · exact hmint _ _
  | removed =>
    simp only [handleLocal]
    split
    · exact fun a ha => by cases ha
    · unfold localRemoved
      split
      · split
        · exact fun a ha => by cases ha
        · exact hmint _ _
      · exact fun a ha => by cases ha

theorem conflictActions_paper (p : RelPath) (entry : Entry) :
    ∀ a ∈ conflictActions p entry, a.isPaper = true ∧ a.path = p := by
  intro a ha
  obtain ⟨h, _, rfl⟩ := List.mem_map.1 ha
  exact ⟨rfl, rfl⟩

/-- Absorbing asks for one apply at most, first, and only where the winner's state changes; the
target is the new winner's state. -/
theorem handleRemote_actions (e : Engine) (c : RemoteChange) :
    ∃ rest, (∀ a ∈ rest, a.isPaper = true ∧ a.path = c.path) ∧
      (((e.handleRemote c).2 = rest ∧
          ((e.handleRemote c).1.winnerState c.path = some .tombstone ∧
              e.winnerState c.path = none ∨
            ∃ w w', e.winnerState c.path = some w ∧
              (e.handleRemote c).1.winnerState c.path = some w' ∧ w.eq w' = true)) ∨
        ∃ w, (e.handleRemote c).1.winnerState c.path = some w ∧
          (e.handleRemote c).2 = .apply c.path (expectationFromState w) :: rest) := by
  obtain ⟨p, kind, v⟩ := c
  have hrec (s : EntryState) : ∀ a ∈ [Action.recordVersion p s v], a.isPaper = true ∧ a.path = p := by
    intro a ha
    cases List.mem_singleton.1 ha
    exact ⟨rfl, rfl⟩
  simp only [handleRemote, winnerState]
  cases hg : e.index.get p with
  | none =>
    refine ⟨[.recordVersion p (stateFromKind kind) v], hrec _, ?_⟩
    cases kind with
    | modified sig =>
      refine .inr ⟨.present sig, ?_, ?_⟩
      · simp [absorbRemote, hg, remoteUnseen, emitApply, stateFromKind, Entry.single, Entry.winner]
      · simp [absorbRemote, hg, remoteUnseen, emitApply, stateFromKind, expectationFromState]
    | removed =>
      refine .inl ⟨by simp only [absorbRemote, hg, remoteUnseen, stateFromKind], .inl ⟨?_, rfl⟩⟩
      simp [absorbRemote, hg, remoteUnseen, stateFromKind, Entry.single, Entry.winner]
  | some entry =>
    rcases absorb_outcome entry v (stateFromKind kind) with ⟨_, he⟩ | ⟨hk, w, n, x, ho⟩
    · refine ⟨[], (fun a ha => by cases ha), .inl ⟨by simp only [absorbRemote, hg, he], .inr ?_⟩⟩
      refine ⟨entry.winner.state, entry.winner.state, rfl, ?_, EntryState.eq_refl _⟩
      simp only [absorbRemote, hg, he, Option.map_some]
    · have he : entry.absorb v (stateFromKind kind) =
          ((entry.absorb v (stateFromKind kind)).1, .absorbed w n x) := by rw [← ho]
      have hw : w = !entry.winner.state.eq (entry.absorb v (stateFromKind kind)).1.winner.state := by
        have h := ho
        rw [Entry.absorb, if_neg (by simp [hk])] at h ⊢
        injection h with h
        exact h.symm
      generalize (entry.absorb v (stateFromKind kind)).1 = entry' at he hw
      refine ⟨(if n then conflictActions p entry' else []) ++
        if x then [.recordVersion p (stateFromKind kind) v] else [], ?_, ?_⟩
      · intro a ha
        rcases List.mem_append.1 ha with ha | ha
        · cases n with
          | true => exact conflictActions_paper p entry' a ha
          | false => cases ha
        · cases x with
          | true => exact hrec _ a ha
          | false => cases ha
      · have hidx : ((e.absorbRemote p (stateFromKind kind) v).1.index.get p) = some entry' := by
          simp only [absorbRemote, hg, he]
          cases w <;> simp [emitApply]
        rw [hidx]
        cases w with
        | true =>
          refine .inr ⟨entry'.winner.state, rfl, ?_⟩
          simp only [absorbRemote, hg, he, emitApply, ↓reduceIte, List.cons_append,
            List.nil_append]
        | false =>
          refine .inl ⟨?_, .inr ⟨entry.winner.state, entry'.winner.state, rfl, rfl, ?_⟩⟩
          · simp only [absorbRemote, hg, he, Bool.false_eq_true, ↓reduceIte, List.nil_append]
          · rw [← Bool.not_eq_false, hw]
            simp

theorem filter_paper {rest : List Action} (h : ∀ a ∈ rest, a.isPaper = true ∧ a.path = p) :
    rest.filter Action.isPaper = rest := List.filter_eq_self.2 fun a ha => (h a ha).1

theorem findSome_paper {rest : List Action} (h : ∀ a ∈ rest, a.isPaper = true ∧ a.path = p) :
    (rest.findSome? fun
      | .apply _ target => some target
      | _ => none : Option Expectation) = none := by
  rw [List.findSome?_eq_none_iff]
  intro a ha
  have hp := (h a ha).1
  cases a with
  | apply => cases hp
  | send => rfl
  | recordVersion => rfl
  | conflictResolved => rfl

theorem paperwork_paper (e : Engine) (c : RemoteChange) :
    ∀ a ∈ e.paperwork c, a.isPaper = true ∧ a.path = c.path := by
  obtain ⟨rest, hrest, ⟨ha, _⟩ | ⟨w, _, ha⟩⟩ := handleRemote_actions e c
  · rw [paperwork, ha, filter_paper hrest]
    exact hrest
  · rw [paperwork, ha, List.filter_cons_of_neg (by simp [Action.isPaper]), filter_paper hrest]
    exact hrest

theorem applyTarget_none (h : e.applyTarget c = none) :
    (e.handleRemote c).2 = e.paperwork c ∧
      ((e.handleRemote c).1.winnerState c.path = some .tombstone ∧ e.winnerState c.path = none ∨
        ∃ w w', e.winnerState c.path = some w ∧
          (e.handleRemote c).1.winnerState c.path = some w' ∧ w.eq w' = true) := by
  obtain ⟨rest, hrest, ⟨ha, hw⟩ | ⟨w, _, ha⟩⟩ := handleRemote_actions e c
  · exact ⟨by rw [paperwork, ha, filter_paper hrest], hw⟩
  · rw [applyTarget, ha] at h
    cases h

theorem applyTarget_some (h : e.applyTarget c = some target) :
    (e.handleRemote c).2 = .apply c.path target :: e.paperwork c ∧
      ∃ w, (e.handleRemote c).1.winnerState c.path = some w ∧ target = expectationFromState w := by
  obtain ⟨rest, hrest, ⟨ha, _⟩ | ⟨w, hw, ha⟩⟩ := handleRemote_actions e c
  · rw [applyTarget, ha, findSome_paper hrest] at h
    cases h
  · rw [applyTarget, ha] at h
    cases h
    refine ⟨?_, w, hw, rfl⟩
    rw [paperwork, ha, List.filter_cons_of_neg (by simp [Action.isPaper]), filter_paper hrest]

theorem handleRemote_path (e : Engine) (c : RemoteChange) :
    ∀ a ∈ (e.handleRemote c).2, a.path = c.path := by
  obtain ⟨rest, hrest, ⟨ha, _⟩ | ⟨w, _, ha⟩⟩ := handleRemote_actions e c
  · rw [ha]
    exact fun a h => (hrest a h).2
  · rw [ha]
    intro a h
    rcases List.mem_cons.1 h with rfl | h
    · rfl
    · exact (hrest a h).2

end Engine

end Tomo
