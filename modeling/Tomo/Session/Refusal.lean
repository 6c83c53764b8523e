import Tomo.Session.Echo
import Tomo.Session.EveryChange
import Tomo.Session.Scanning

namespace Tomo
set_option autoImplicit true

namespace Engine
variable {e : Engine} {p q : RelPath}

/-- An entry is as it was, or its file has become one tombstone, minted above all its heads. -/
def Retains (replica : ReplicaId) (before after : Option Entry) : Prop :=
  after = before ∨ ∃ entry sig, before = some entry ∧ entry.winner.state = .present sig ∧
    after = some (.single (entry.mergedClock.tick replica) .tombstone)

/-- A tombstone is the last thing that becomes of an entry. -/
theorem Retains.trans (h : Retains r a b) (h' : Retains r b c) : Retains r a c := by
  rcases h' with rfl | ⟨entry, sig, rfl, hw, rfl⟩
  · exact h
  · rcases h with h | ⟨entry', sig', _, _, h⟩
    · exact .inr ⟨entry, sig, h.symm, hw, rfl⟩
    · cases h
      cases hw

/-- Nothing becomes of a tombstone. -/
theorem Retains.of_tombstone (h : Retains r (some entry) after)
    (hw : entry.winner.state = .tombstone) : after = some entry := by
  rcases h with h | ⟨entry', sig, he, hw', _⟩
  · exact h
  · cases he
    rw [hw] at hw'
    cases hw'

theorem handleLocal_replica (e : Engine) (c : LocalChange) :
    (e.handleLocal c).1.replica = e.replica := (e.handleLocal_spec c).1

theorem handleLocal_other (e : Engine) {c : LocalChange} (h : c.path ≠ p) :
    (e.handleLocal c).1.index.get p = e.index.get p := by
  rcases (e.handleLocal_spec c).2 with ⟨hidx, _⟩ | ⟨hidx, _⟩
  · rw [hidx]
  · rw [hidx, Index.get_upsert, if_neg h]

/-- A file as the index has it is no news. -/
theorem handleLocal_known (e : Engine) (h : diskDiffers e.index p sig = false) :
    (e.handleLocal ⟨p, .modified sig⟩).1.index = e.index := by
  simp only [handleLocal]
  split
  · rfl
  · rw [diskDiffers] at h
    rw [localModified]
    cases hg : e.index.get p with
    | none =>
      rw [hg] at h
      cases h
    | some entry =>
      rw [hg, Option.map_some] at h
      cases hw : entry.winner.state with
      | tombstone =>
        rw [hw] at h
        cases h
      | present prev =>
        simp only [hw, Bool.not_eq_false'] at h
        simp only [hw, EntryState.eq, h, ↓reduceIte]

/-- An engine has made nothing of a path but the removal of its file. -/
structure Rests (p : RelPath) (e e' : Engine) : Prop where
  replica : e'.replica = e.replica
  entry : Retains e.replica (e.index.get p) (e'.index.get p)

theorem Rests.refl (p : RelPath) (e : Engine) : Rests p e e := ⟨rfl, .inl rfl⟩

theorem Rests.trans (h : Rests p a b) (h' : Rests p b c) : Rests p a c := by
  refine ⟨h'.replica.trans h.replica, h.entry.trans ?_⟩
  have he := h'.entry
  rwa [h.replica] at he

/-- A path shows no file but one that the index has. -/
def Unedited (e : Engine) (p : RelPath) (shown : Option ContentSig) : Prop :=
  ∀ sig, shown = some sig → diskDiffers e.index p sig = false

end Engine

namespace Session
open Eff Engine Collect
variable [Platform] {s s' t u : Session} {p : RelPath} {c : RemoteChange} {bytes : Option Bytes}

/-- What is filed about a local change leaves the engine alone. -/
theorem executeLocal_engine (e : Engine) (c : LocalChange) (s : Session) :
    Leaves engine (execute (e.handleLocal c).2 none none) s :=
  .get <| engine_beside.executeActions _ _ _ _
    (fun a ha => (e.handleLocal_paper c a ha).1) _ s

theorem absorbLocal_engine (c : LocalChange) (s : Session) :
    ((absorbLocal c).exec s).2.engine = (s.engine.handleLocal c).1 := by
  have hl : Leaves engine (do
      if (s.engine.handleLocal c).2 = [] then pure () else markDirty
      execute (s.engine.handleLocal c).2 none none)
      { s with engine := (s.engine.handleLocal c).1 } := by
    refine .ite (executeLocal_engine s.engine c _) ?_
    exact Leaves.bind (.modify rfl) fun _ u _ => executeLocal_engine s.engine c u
  exact hl

/-- What a walk finds at a path. -/
def Walked (s : Session) (p : RelPath) : Prop :=
  ∀ onDisk, walkTree s = .ok onDisk → s.engine.Unedited p onDisk[p]?

theorem Walked.removed (h : s.Walked p) (hs : scanDiff s = .ok changes) :
    ∀ c ∈ changes, c.path = p → c.kind = .removed := by
  intro c hc hp
  cases hw : walkTree s with
  | error e =>
    rw [scanDiff, hw] at hs
    cases hs
  | ok onDisk =>
    rw [scanDiff_collects hw] at hs
    cases hs
    obtain ⟨⟨q, k⟩, hm, rfl⟩ := List.mem_map.1 hc
    obtain rfl : q = p := hp
    rw [Std.ExtTreeMap.mem_toList_iff_getElem?_eq_some] at hm
    rcases (collect_reports q k).1 hm with ⟨sig, rfl, hd, hdiff⟩ | ⟨rfl, _⟩
    · rw [h onDisk hw sig hd] at hdiff
      cases hdiff
    · rfl

end Session

/-- The peer's file `foo`, and its frame. -/
def dirFrame : Arrival := framed (modifiedAt fooPath) [0x31]

end Tomo
