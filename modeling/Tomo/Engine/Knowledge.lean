import Tomo.Engine.Heads
import Tomo.Engine.Transition

namespace Tomo
set_option autoImplicit true

/-- What is known once version `h` of `p` is. -/
def addHead (K : RelPath → Set Head) (p : RelPath) (h : Head) : RelPath → Set Head :=
  Function.update K p (insert h (K p))

theorem mem_addHead {K : RelPath → Set Head} :
    g ∈ addHead K p h q ↔ g ∈ K q ∨ q = p ∧ g = h := by
  by_cases hq : q = p
  · subst q
    simp [addHead, or_comm]
  · simp [addHead, hq]

/-- An index shows, at every path, the versions known there. -/
def Index.Shows (i : Index) (K : RelPath → Set Head) : Prop :=
  ∀ p, match i.get p with
    | none => K p = ∅
    | some e => e.Shows (K p) ∧ (K p).Nonempty

theorem Index.shows_new : Index.new.Shows fun _ => ∅ := fun p => by
  rw [Index.get_new]

/-- The clock a local change of `p` ticks. -/
def Index.base (i : Index) (p : RelPath) : VectorClock :=
  (i.get p).elim .new Entry.mergedClock

section
variable {i j : Index} {K M : RelPath → Set Head}

theorem Index.Shows.none (h : i.Shows K) (hg : i.get p = none) : K p = ∅ := by
  have hp := h p
  rwa [hg] at hp

theorem Index.Shows.some (h : i.Shows K) (hg : i.get p = some e) : e.Shows (K p) := by
  have hp := h p
  rw [hg] at hp
  exact hp.1

theorem Index.Shows.eq_none (h : i.Shows K) (hK : K p = ∅) : i.get p = Option.none := by
  cases hg : i.get p with
  | none => rfl
  | some e =>
    have hp := h p
    rw [hg, hK] at hp
    exact (Set.not_nonempty_empty hp.2).elim

theorem Index.Shows.upsert (h : i.Shows K) (he : Entry.Shows e L) (hL : L.Nonempty) :
    (i.upsert p e).Shows (Function.update K p L) := fun q => by
  by_cases hq : p = q
  · subst q
    simpa only [Index.get_upsert, ↓reduceIte, Function.update_self] using ⟨he, hL⟩
  · rw [Index.get_upsert, if_neg hq, Function.update_of_ne (Ne.symm hq)]
    exact h q

theorem Index.Shows.le_base (h : i.Shows K) (hg : g ∈ K p) : g.version ≤ i.base p := by
  unfold Index.base
  cases he : i.get p with
  | none =>
    rw [h.none he] at hg
    cases hg
  | some e => exact (h.some he).frontier.upper_bound (fun b hb => Entry.le_mergedClock hb) g hg

/-- A version above everything known of its path becomes the only head there. -/
theorem Index.Shows.mint (h : i.Shows K) (hv : i.base p ≤ v) (s : EntryState) :
    (i.upsert p (.single v s)).Shows (addHead K p ⟨v, s⟩) := by
  apply h.upsert _ (Set.insert_nonempty _ _)
  cases hg : i.get p with
  | none =>
    rw [h.none hg, insert_empty_eq]
    exact Entry.shows_single v s
  | some e =>
    rw [Index.base, hg] at hv
    exact (h.some hg).collapse (fun g hm => (Entry.le_mergedClock hm).trans hv) s

/-- Of two indices one may know fewer versions of a path, if it knows newer ones instead. -/
theorem Index.Shows.get_eq (h : i.Shows K) (h' : j.Shows M) (hsub : K p ⊆ M p)
    (hcov : ∀ g ∈ M p, ∃ g' ∈ K p, g.version ≤ g'.version) (hn : Names Head.version (M p))
    (hf : ∀ g ∈ M p, g.version.Fits) : i.get p = j.get p := by
  cases hi : i.get p with
  | none =>
    refine (h'.eq_none (Set.eq_empty_iff_forall_notMem.2 fun g hg => ?_)).symm
    obtain ⟨g', hg', _⟩ := hcov g hg
    rw [h.none hi] at hg'
    exact hg'
  | some e =>
    have hp := h p
    rw [hi] at hp
    obtain ⟨he, hne⟩ := hp
    cases hj : j.get p with
    | none =>
      rw [h'.none hj] at hsub
      exact (Set.not_nonempty_empty (hne.mono hsub)).elim
    | some e' =>
      have hfront := he.frontier.union hcov
      rw [Set.union_eq_self_of_subset_left hsub] at hfront
      rw [Entry.Shows.unique ⟨hfront, he.sorted, he.nodup⟩ (h'.some hj) hn hf]

/-- Two indices that show the same versions are the same index. -/
theorem Index.Shows.unique (h : i.Shows K) (h' : j.Shows K)
    (hn : ∀ p, Names Head.version (K p)) (hf : ∀ p, ∀ g ∈ K p, g.version.Fits) : i = j :=
  Index.ext_get fun p => h.get_eq h' subset_rfl (fun g hg => ⟨g, hg, le_rfl⟩) (hn p) (hf p)

end

/-- The changes an action list ships. -/
def sends (as : List Action) : List RemoteChange :=
  as.filterMap fun
    | .send c => some c
    | _ => none

@[simp] theorem sends_nil : sends [] = [] := rfl

@[simp] theorem sends_append (as bs : List Action) : sends (as ++ bs) = sends as ++ sends bs :=
  List.filterMap_append

/-- The head a change carries. -/
def RemoteChange.head (c : RemoteChange) : Head := ⟨c.version, stateFromKind c.kind⟩

namespace Engine
variable {e : Engine} {K : RelPath → Set Head}

theorem sends_conflictActions (p : RelPath) (entry : Entry) :
    sends (conflictActions p entry) = [] := by
  rw [sends, List.filterMap_eq_nil_iff]
  intro a ha
  obtain ⟨h, _, rfl⟩ := List.mem_map.1 ha
  rfl

theorem absorb_outcome (entry : Entry) (v : VectorClock) (s : EntryState) :
    entry.knows v = true ∧ entry.absorb v s = (entry, .alreadyKnown) ∨
      entry.knows v = false ∧ ∃ w c n, (entry.absorb v s).2 = .absorbed w c n := by
  cases hk : entry.knows v with
  | true => exact .inl ⟨rfl, Entry.absorb_known hk s⟩
  | false =>
    refine .inr ⟨rfl, ?_⟩
    rw [Entry.absorb, if_neg (by simp [hk])]
    exact ⟨_, _, _, rfl⟩

/-- The entry a path holds after absorbing a version. -/
def absorbed (o : Option Entry) (v : VectorClock) (s : EntryState) : Entry :=
  match o with
  | none => .single v s
  | some entry => (entry.absorb v s).1

/-- What absorbing a remote version does: one path's entry joins it, nothing is sent. -/
theorem absorbRemote_spec (e : Engine) (p : RelPath) (s : EntryState) (v : VectorClock) :
    (e.absorbRemote p s v).1.replica = e.replica ∧
      (∀ q, (e.absorbRemote p s v).1.index.get q =
        if p = q then some (absorbed (e.index.get p) v s) else e.index.get q) ∧
      sends (e.absorbRemote p s v).2 = [] := by
  cases hg : e.index.get p with
  | none =>
    cases s with
    | present sig =>
      rw [absorbRemote, hg]
      exact ⟨rfl, fun q => Index.get_upsert .., rfl⟩
    | tombstone =>
      rw [absorbRemote, hg]
      exact ⟨rfl, fun q => Index.get_upsert .., rfl⟩
  | some entry =>
    rcases absorb_outcome entry v s with ⟨_, he⟩ | ⟨_, w, c, n, ho⟩
    · simp only [absorbRemote, hg, he, absorbed, sends_nil, and_true, true_and]
      intro q
      split
      · subst q
        exact hg
      · rfl
    · obtain ⟨entry', rfl⟩ : ∃ entry', (entry.absorb v s).1 = entry' := ⟨_, rfl⟩
      have he : entry.absorb v s = ((entry.absorb v s).1, .absorbed w c n) := by rw [← ho]
      simp only [absorbRemote, hg, absorbed]
      rw [he]
      dsimp only
      refine ⟨?_, ?_, ?_⟩
      · cases w <;> rfl
      · intro q
        cases w <;> simp only [emitApply, Index.get_upsert, Bool.false_eq_true, ↓reduceIte]
      · cases w <;> cases c <;> cases n <;>
          simp only [sends_append, sends_conflictActions, emitApply, List.append_nil,
            Bool.false_eq_true, ↓reduceIte] <;> rfl

theorem absorbRemote_shows (h : e.index.Shows K) (p : RelPath) (s : EntryState)
    (v : VectorClock) :
    (e.absorbRemote p s v).1.index.Shows (addHead K p ⟨v, s⟩) := by
  obtain ⟨_, hget, _⟩ := absorbRemote_spec e p s v
  intro q
  rw [hget q]
  by_cases hq : p = q
  · subst q
    simp only [↓reduceIte, addHead, Function.update_self]
    refine ⟨?_, Set.insert_nonempty _ _⟩
    cases hg : e.index.get p with
    | none =>
      rw [h.none hg]
      simpa [absorbed] using Entry.shows_single v s
    | some entry => exact (h.some hg).absorb v s
  · rw [if_neg hq, addHead, Function.update_of_ne (Ne.symm hq)]
    exact h q

/-- An engine step that only adds versions from `S` to what the engine shows, and sends
nothing it does not show afterwards. -/
structure Learns (e e' : Engine) (as : List Action) (S : RelPath → Set Head) : Prop where
  replica : e'.replica = e.replica
  shows : ∀ K, e.index.Shows K → ∃ K', e'.index.Shows K' ∧ (∀ p, K p ⊆ K' p) ∧
    (∀ p, K' p ⊆ K p ∪ S p) ∧ ∀ c ∈ sends as, c.head ∈ K' c.path

theorem Learns.refl (e : Engine) (S : RelPath → Set Head) : Learns e e [] S where
  replica := rfl
  shows K h := ⟨K, h, fun _ => subset_rfl, fun _ => Set.subset_union_left, fun _ h => by cases h⟩

theorem Learns.append {e e' e'' : Engine} (h : Learns e e' as S) (h' : Learns e' e'' bs S) :
    Learns e e'' (as ++ bs) S where
  replica := h'.replica.trans h.replica
  shows K hK := by
    obtain ⟨K', hs, hlow, hup, hc⟩ := h.shows K hK
    obtain ⟨K'', hs', hlow', hup', hc'⟩ := h'.shows K' hs
    refine ⟨K'', hs', fun p => (hlow p).trans (hlow' p), fun p => ?_, fun c hm => ?_⟩
    · exact (hup' p).trans (Set.union_subset (hup p) Set.subset_union_right)
    · rw [sends_append, List.mem_append] at hm
      rcases hm with hm | hm
      · exact hlow' _ (hc c hm)
      · exact hc' c hm

theorem learns_collect (f : Engine → α → Engine × List Action) (l : List α)
    (hf : ∀ e, ∀ a ∈ l, Learns e (f e a).1 (f e a).2 S) (e : Engine) :
    Learns e (collect f e l).1 (collect f e l).2 S := by
  suffices h : ∀ r : Engine × List Action, Learns e r.1 r.2 S →
      Learns e (l.foldl (fun r a => ((f r.1 a).1, r.2 ++ (f r.1 a).2)) r).1
        (l.foldl (fun r a => ((f r.1 a).1, r.2 ++ (f r.1 a).2)) r).2 S from
    h (e, []) (.refl e S)
  induction l with
  | nil => exact fun r h => h
  | cons a l ih =>
    intro r h
    rw [List.foldl_cons]
    apply ih fun e b hb => hf e b (List.mem_cons_of_mem _ hb)
    exact h.append (hf r.1 a List.mem_cons_self)

theorem absorbRemote_learns (e : Engine) (p : RelPath) (hg : (⟨v, s⟩ : Head) ∈ S p) :
    Learns e (e.absorbRemote p s v).1 (e.absorbRemote p s v).2 S where
  replica := (absorbRemote_spec e p s v).1
  shows K hK := by
    refine ⟨_, absorbRemote_shows hK p s v, fun q g h => ?_, fun q g h => ?_, fun c hc => ?_⟩
    · exact mem_addHead.2 (.inl h)
    · rcases mem_addHead.1 h with h | ⟨rfl, rfl⟩
      · exact .inl h
      · exact .inr hg
    · rw [(absorbRemote_spec e p s v).2.2] at hc
      cases hc

/-- Sending heads of its own entry teaches an engine nothing. -/
theorem learns_sendHeads {l : List Head} (he : e.index.get p = some entry)
    (hs : ∀ h ∈ l, h ∈ entry.heads) : Learns e e (l.map (sendHead p)) S where
  replica := rfl
  shows K hK := by
    refine ⟨K, hK, fun _ => subset_rfl, fun _ => Set.subset_union_left, fun c hc => ?_⟩
    rw [sends, List.filterMap_map, List.mem_filterMap] at hc
    obtain ⟨h, hm, hc⟩ := hc
    cases hc
    simpa [RemoteChange.head] using (hK.some he).frontier.subset (hs h hm)

theorem reconcilePath_learns (remote : Index) (e : Engine) (p : RelPath)
    (hS : ∀ entry, remote.get p = some entry → ∀ h ∈ entry.heads, h ∈ S p) :
    Learns e (reconcilePath remote e p).1 (reconcilePath remote e p).2 S := by
  unfold reconcilePath
  cases hr : remote.get p with
  | none =>
    dsimp only
    cases hl : e.index.get p with
    | none => exact .refl e S
    | some entry => exact learns_sendHeads hl fun _ h => h
  | some remoteEntry =>
    dsimp only
    have habs : Learns e (e.absorbHeads p remoteEntry.heads).1
        (e.absorbHeads p remoteEntry.heads).2 S := by
      apply learns_collect
      intro e h hh
      exact absorbRemote_learns e p (hS remoteEntry hr h hh)
    cases hl : (e.absorbHeads p remoteEntry.heads).1.index.get p with
    | none => exact habs
    | some entry =>
      exact habs.append (learns_sendHeads hl fun h hh => (List.mem_filter.1 hh).1)

/-- Reconciling with a peer index absorbs only heads of that index. -/
theorem handlePeerIndex_learns (e : Engine) (remote : Index)
    (hS : ∀ p entry, remote.get p = some entry → ∀ h ∈ entry.heads, h ∈ S p) :
    Learns e (e.handlePeerIndex remote).1 (e.handlePeerIndex remote).2 S := by
  apply learns_collect
  intro e p _
  exact reconcilePath_learns remote e p (hS p)

/-- A local event either leaves the index alone and sends nothing, or mints one version above
everything the path held. -/
theorem handleLocal_spec (e : Engine) (c : LocalChange) :
    (e.handleLocal c).1.replica = e.replica ∧
      ((e.handleLocal c).1.index = e.index ∧ sends (e.handleLocal c).2 = [] ∨
        (e.handleLocal c).1.index = e.index.upsert c.path
            (.single ((e.index.base c.path).tick e.replica) (stateFromKind c.kind)) ∧
          sends (e.handleLocal c).2 =
            [⟨c.path, c.kind, (e.index.base c.path).tick e.replica⟩]) := by
  obtain ⟨p, kind⟩ := c
  unfold Index.base
  cases kind with
  | modified sig =>
    simp only [handleLocal]
    split
    · exact ⟨rfl, .inl ⟨rfl, rfl⟩⟩
    · unfold localModified
      cases hg : e.index.get p with
      | none => exact ⟨rfl, .inr ⟨rfl, rfl⟩⟩
      | some entry =>
        dsimp only
        split
        · exact ⟨rfl, .inl ⟨rfl, rfl⟩⟩
        · exact ⟨rfl, .inr ⟨rfl, rfl⟩⟩
  | removed =>
    simp only [handleLocal]
    split
    · exact ⟨rfl, .inl ⟨rfl, rfl⟩⟩
    · unfold localRemoved
      cases hg : e.index.get p with
      | none => exact ⟨rfl, .inl ⟨rfl, rfl⟩⟩
      | some entry =>
        dsimp only
        split
        · exact ⟨rfl, .inl ⟨rfl, rfl⟩⟩
        · exact ⟨rfl, .inr ⟨rfl, rfl⟩⟩

end Engine

end Tomo
