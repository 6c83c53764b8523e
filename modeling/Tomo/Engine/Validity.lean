import Tomo.Engine.Canonical
import Tomo.Engine.Knowledge

namespace Tomo
set_option autoImplicit true

/-- An entry as the engine documents it: canonical, with no counter stored as zero. -/
structure Entry.Valid (e : Entry) : Prop where
  canonical : e.Canonical
  positive : ∀ h ∈ e.heads, h.version.Positive

def Index.Valid (i : Index) : Prop := ∀ p e, i.get p = some e → e.Valid

/-- The versions an index holds of a path. -/
def Index.held (i : Index) (p : RelPath) : Set Head := {h | ∃ e, i.get p = some e ∧ h ∈ e.heads}

/-- What an event brings from a peer: canonical entries, clocks without zero counters. -/
def Event.Valid : Event → Prop
  | .local _ => True
  | .remote c => c.version.Positive
  | .peerIndex i => i.Valid

section
variable {i : Index} {e : Engine} {ev : Event}

theorem Index.Valid.shows (h : i.Valid) : i.Shows i.held := by
  intro p
  cases hg : i.get p with
  | none =>
    apply Set.eq_empty_iff_forall_notMem.2
    rintro g ⟨e, he, _⟩
    rw [hg] at he
    cases he
  | some e =>
    have hset : i.held p = {g | g ∈ e.heads} := by
      ext g
      simp [Index.held, hg]
    have hc := (h p e hg).canonical
    dsimp only
    rw [hset]
    obtain ⟨g, hm⟩ := List.exists_mem_of_ne_nil _ hc.nonempty
    exact ⟨hc.shows, g, hm⟩

theorem Index.Valid.positive (h : i.Valid) (hg : g ∈ i.held p) : g.version.Positive := by
  obtain ⟨e, he, hm⟩ := hg
  exact (h p e he).positive g hm

/-- An index that shows versions with positive clocks is valid. -/
theorem Index.Shows.valid (h : i.Shows K) (hK : ∀ p, ∀ g ∈ K p, g.version.Positive) :
    i.Valid := by
  intro p e he
  have hp := h p
  rw [he] at hp
  exact ⟨hp.1.canonical hp.2, fun g hg => hK p g (hp.1.frontier.subset hg)⟩

/-- The clock that a local change ticks has no zero counter either. -/
theorem Index.Valid.base (h : i.Valid) (p : RelPath) : (i.base p).Positive := by
  unfold Index.base
  cases hg : i.get p with
  | none => exact VectorClock.positive_new
  | some e => exact Entry.mergedClock_positive (h p e hg).positive

namespace Engine

/-- Handling any event keeps the index valid, as long as the event is. -/
theorem handle_valid (h : e.index.Valid) (hev : ev.Valid) : (e.handle ev).1.index.Valid := by
  have hshows := h.shows
  cases ev with
  | «local» c =>
    rcases (handleLocal_spec e c).2 with ⟨hidx, _⟩ | ⟨hidx, _⟩
    · have hsame : (e.handle (.local c)).1.index = e.index := hidx
      rwa [hsame]
    · have hmint := hshows.mint (VectorClock.le_tick (e.index.base c.path) e.replica)
        (stateFromKind c.kind)
      rw [← hidx] at hmint
      apply hmint.valid
      intro p g hg
      rcases mem_addHead.1 hg with hg | ⟨_, rfl⟩
      · exact h.positive hg
      · exact (h.base c.path).tick e.replica
  | remote c =>
    apply (absorbRemote_shows hshows c.path (stateFromKind c.kind) c.version).valid
    intro p g hg
    rcases mem_addHead.1 hg with hg | ⟨_, rfl⟩
    · exact h.positive hg
    · exact hev
  | peerIndex i =>
    have hlearn := handlePeerIndex_learns (S := i.held) e i fun p entry hp g hg => ⟨entry, hp, hg⟩
    obtain ⟨K, hK, _, hup, _⟩ := hlearn.shows _ hshows
    apply hK.valid
    intro p g hg
    rcases hup p hg with hg | hg
    · exact h.positive hg
    · exact Index.Valid.positive hev hg

end Engine

end

end Tomo
