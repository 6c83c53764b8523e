import Tomo.Engine.Recovery
import Tomo.Engine.Surfacing

namespace Tomo
set_option autoImplicit true

/-- A path's entry, or its absence, shows a set of versions. -/
def ShowsAt (o : Option Entry) (K : Set Head) : Prop :=
  match o with
  | none => K = ∅
  | some e => e.Shows K ∧ K.Nonempty

namespace ShowsAt
variable {o : Option Entry} {K L : Set Head}

theorem absorbed (h : ShowsAt o K) (v : VectorClock) (s : EntryState) :
    ShowsAt (some (Engine.absorbed o v s)) (insert ⟨v, s⟩ K) := by
  refine ⟨?_, Set.insert_nonempty _ _⟩
  cases o with
  | none =>
    rw [show K = ∅ from h, insert_empty_eq]
    exact Entry.shows_single v s
  | some e => exact h.1.absorb v s

theorem absorbAll (h : ShowsAt o K) (hs : List Head) :
    ShowsAt (Engine.absorbAll o hs) (K ∪ {g | g ∈ hs}) := by
  induction hs generalizing o K with
  | nil =>
    have hempty : {g : Head | g ∈ ([] : List Head)} = ∅ :=
      Set.eq_empty_of_forall_notMem fun _ => List.not_mem_nil
    rw [hempty, Set.union_empty]
    exact h
  | cons g hs ih =>
    have hset : K ∪ {x | x ∈ g :: hs} = insert g K ∪ {x | x ∈ hs} := by
      ext x
      simp only [Set.mem_union, Set.mem_ofPred_eq, Set.mem_insert_iff, List.mem_cons]
      tauto
    rw [hset]
    exact ih (h.absorbed g.version g.state)

theorem reconciled (h : ShowsAt o K) (r : Option Entry) :
    ShowsAt (Engine.reconciled o r) (K ∪ {g | g ∈ r.elim [] Entry.heads}) := by
  cases r with
  | none =>
    have hempty : {g : Head | g ∈ (none : Option Entry).elim [] Entry.heads} = ∅ :=
      Set.eq_empty_of_forall_notMem fun _ => List.not_mem_nil
    rw [hempty, Set.union_empty]
    exact h
  | some r => exact h.absorbAll r.heads

/-- Versions that newer ones cover may be counted in. -/
theorem widen (h : ShowsAt o K) (hsub : K ⊆ L)
    (hcov : ∀ g ∈ L, ∃ g' ∈ K, g.version ≤ g'.version) : ShowsAt o L := by
  cases o with
  | none =>
    change L = ∅
    apply Set.eq_empty_of_forall_notMem
    intro g hg
    obtain ⟨g', hg', -⟩ := hcov g hg
    rw [show K = ∅ from h] at hg'
    cases hg'
  | some e =>
    obtain ⟨he, hne⟩ := h
    have hfront := he.frontier.union hcov
    rw [Set.union_eq_self_of_subset_left hsub] at hfront
    exact ⟨⟨hfront, he.sorted, he.nodup⟩, hne.mono hsub⟩

end ShowsAt

/-- Reconciling with an index is hearing its heads. -/
theorem Engine.handlePeerIndex_shows {e : Engine} {K : RelPath → Set Head} (h : e.index.Shows K)
    (x : Index) :
    (e.handlePeerIndex x).1.index.Shows fun p => K p ∪ {g | g ∈ x.headsAt p} := by
  intro p
  rw [(Engine.handlePeerIndex_spec e x).1 p]
  exact ShowsAt.reconciled (h p) (x.get p)

namespace Net
variable {ι : Type} [DecidableEq ι]

/-- What an event tells a replica of a path: the version it mints, the one it is sent, or the heads
of an index. -/
def news (s : Net ι) (i : ι) (ev : Event) (p : RelPath) : Set Head :=
  match ev with
  | .local _ => {g | ∃ c ∈ sends ((s.engine i).handle ev).2, c.path = p ∧ c.head = g}
  | .remote c => {g | c.path = p ∧ c.head = g}
  | .peerIndex x => {g | g ∈ x.headsAt p}

/-- A run, with all that each replica has made or heard of. -/
inductive HeardRun (ids : ι → ReplicaId) : Net ι → (ι → RelPath → Set Head) → Prop where
  | init : HeardRun ids (init ids) fun _ _ => ∅
  | step (i : ι) (ev : Event) : HeardRun ids s H → s.Open i ev →
      HeardRun ids (s.handle i ev) (Function.update H i fun p => H i p ∪ s.news i ev p)

/-- Once no more local changes are made: changes and snapshots still arrive, in any order and any
number of times, and now and then a replica takes in the present index of another, and with it all
that that one holds. -/
inductive GossipRun (s : Net ι) : Net ι → (ι → Set ι) → Prop where
  | start : GossipRun s s fun i => {i}
  | arrives (i : ι) (ev : Event) : GossipRun s t R → t.Open i ev → (∀ c, ev ≠ .local c) →
      GossipRun s (t.handle i ev) R
  | takes (i j : ι) : GossipRun s t R →
      GossipRun s (t.handle i (.peerIndex (t.engine j).index)) (Function.update R i (R i ∪ R j))

variable {ids : ι → ReplicaId} {s t : Net ι} {K : ι → RelPath → Set Head}

theorem Inv.hear (h : Inv ids s K) (i : ι) {x : Index}
    (hx : ∀ p, ∀ g ∈ x.headsAt p, g ∈ s.Minted p) :
    Inv ids (s.handle i (.peerIndex x))
        (Function.update K i fun p => K i p ∪ {g | g ∈ x.headsAt p}) ∧
      ∀ p, (s.handle i (.peerIndex x)).Minted p = s.Minted p := by
  have hshow := Engine.handlePeerIndex_shows (h.shows i) x
  have hlearns := Engine.handlePeerIndex_learns (s.engine i) x
    (S := fun p => {g | g ∈ x.headsAt p})
    fun p e he g hg => Index.mem_headsAt.2 ⟨e, he, hg⟩
  have hrep : ((s.engine i).handle (.peerIndex x)).1.replica = (s.engine i).replica :=
    hlearns.replica
  apply h.learn hrep hshow
  · exact fun p => Set.subset_union_left
  · exact fun p => Set.union_subset_union_right _ (hx p)
  · intro c hc
    obtain ⟨g, hg, -, hcg⟩ := (Engine.mem_stream (s.engine i) x c).1 hc
    have hsub := (Index.Shows.frontier hshow c.path).subset
    have hhead : c.head = g := by
      rw [hcg, RemoteChange.head, stateFromKind_kindFromState]
    rw [hhead]
    exact hsub hg
  · intro c hc
    cases hc

theorem addHead_eq (K : RelPath → Set Head) (p : RelPath) (h : Head) :
    addHead K p h = fun q => K q ∪ {g | p = q ∧ h = g} := by
  funext q
  ext g
  rw [mem_addHead]
  constructor
  · rintro (hg | ⟨rfl, rfl⟩)
    · exact .inl hg
    · exact .inr ⟨rfl, rfl⟩
  · rintro (hg | ⟨rfl, rfl⟩)
    · exact .inl hg
    · exact .inr ⟨rfl, rfl⟩

theorem HeardRun.inv (hids : Function.Injective ids) (h : HeardRun ids s H) : Inv ids s H := by
  induction h with
  | init => exact inv_init ids
  | @step s H i ev _ ho ih =>
    cases ev with
    | «local» c =>
      rcases ih.local hids i c with ⟨h', hsend⟩ | ⟨h', hsend⟩
      · have hnone : (fun p => H i p ∪ s.news i (.local c) p) = H i := by
          funext p
          rw [Set.union_eq_left]
          rintro g ⟨c', hc', -⟩
          rw [hsend] at hc'
          cases hc'
        rw [hnone, Function.update_eq_self]
        exact h'
      · have hone : (fun p => H i p ∪ s.news i (.local c) p) =
            addHead (H i) c.path (s.minting i c) := by
          rw [addHead_eq]
          funext p
          congr 1
          ext g
          rw [news, Set.mem_ofPred_eq, hsend]
          simp only [List.mem_singleton, exists_eq_left, Set.mem_ofPred_eq]
          rfl
        rw [hone]
        exact h'
    | remote c =>
      obtain ⟨j, _, hc⟩ := ho
      have hone : (fun p => H i p ∪ s.news i (.remote c) p) = addHead (H i) c.path c.head :=
        (addHead_eq _ _ _).symm
      rw [hone]
      exact (ih.deliver i ⟨j, c, hc, rfl, rfl⟩).1
    | peerIndex x =>
      obtain ⟨j, _, hx⟩ := ho
      refine (ih.hear i fun p g hg => ?_).1
      obtain ⟨e, he, hg⟩ := Index.mem_headsAt.1 hg
      exact ih.snapshots j x hx p e he g hg

/-- In every run of any number of replicas, the heads of a path are exactly those of the versions
its replica has made or heard of that no other of them covers. -/
theorem HeardRun.heads (hids : Function.Injective ids) (h : HeardRun ids s H) (i : ι)
    (p : RelPath) (g : Head) :
    g ∈ (s.engine i).index.headsAt p ↔
      g ∈ H i p ∧ ∀ g' ∈ H i p, g.version ≤ g'.version → g' = g := by
  have hinv := h.inv hids
  have hnames := (hinv.names p).mono (hinv.minted i p)
  exact ((hinv.shows i).frontier p).mem_iff hnames

theorem created_heads :
    ∃ H : Side → RelPath → Set Head, ∀ g, g ∈ (((init twinIds).handle .a (.local ⟨twinPath, .modified (twinSig 1)⟩)).engine
        .a).index.headsAt twinPath ↔
      g ∈ H Side.a twinPath ∧ ∀ g' ∈ H Side.a twinPath, g.version ≤ g'.version → g' = g := by
  have hrun := (HeardRun.init : HeardRun twinIds _ _).step .a
    (.local ⟨twinPath, .modified (twinSig 1)⟩) trivial
  exact ⟨_, hrun.heads (by decide) .a twinPath⟩

/-- A replica has, or has newer than, what was known to all those whose knowledge it holds. -/
structure Informed (ids : ι → ReplicaId) (s t : Net ι) (K K' : ι → RelPath → Set Head)
    (R : ι → Set ι) : Prop where
  inv : Inv ids t K'
  minted : ∀ p, t.Minted p = s.Minted p
  holds : ∀ i, ∀ j ∈ R i, ∀ p, ∀ g ∈ K j p, ∃ g' ∈ K' i p, g.version ≤ g'.version

/-- Hearing of an index keeps what is held. -/
theorem Informed.hear (h : Informed ids s t K K' R) (i : ι) {x : Index}
    (hx : ∀ p, ∀ g ∈ x.headsAt p, g ∈ t.Minted p) :
    Informed ids s (t.handle i (.peerIndex x)) K
      (Function.update K' i fun p => K' i p ∪ {g | g ∈ x.headsAt p}) R := by
  obtain ⟨hinv, hm⟩ := h.inv.hear i hx
  refine ⟨hinv, fun p => (hm p).trans (h.minted p), ?_⟩
  intro k j hj p g hg
  obtain ⟨g', hg', hle⟩ := h.holds k j hj p g hg
  exact ⟨g', subset_update (fun _ => Set.subset_union_left) k p hg', hle⟩

theorem Informed.takes (h : Informed ids s t K K' R) (i j : ι) :
    ∃ L, Informed ids s (t.handle i (.peerIndex (t.engine j).index)) K L
      (Function.update R i (R i ∪ R j)) := by
  have hfront (p : RelPath) := (h.inv.shows j).frontier p
  have hkept := h.hear i fun p g hg => h.inv.minted j p ((hfront p).subset hg)
  refine ⟨_, hkept.inv, hkept.minted, ?_⟩
  intro k l hl p g hg
  by_cases hki : k = i
  · subst hki
    rw [Function.update_self] at hl
    rcases hl with hl | hl
    · exact hkept.holds k l hl p g hg
    · obtain ⟨g', hg', hle⟩ := h.holds j l hl p g hg
      obtain ⟨b, hb, hle'⟩ := (hfront p).cofinal g' hg'
      refine ⟨b, ?_, hle.trans hle'⟩
      rw [Function.update_self]
      exact .inr hb
  · rw [Function.update_of_ne hki] at hl
    exact hkept.holds k l hl p g hg

theorem GossipRun.informed (h : Inv ids s K) (hrun : GossipRun s t R) :
    ∃ K', Informed ids s t K K' R := by
  induction hrun with
  | start =>
    refine ⟨K, h, fun _ => rfl, ?_⟩
    intro i j hj p g hg
    rw [Set.mem_singleton_iff] at hj
    subst hj
    exact ⟨g, hg, le_rfl⟩
  | @arrives t R i ev _ ho hev ih =>
    obtain ⟨K', h'⟩ := ih
    cases ev with
    | «local» c => exact (hev c rfl).elim
    | remote c =>
      obtain ⟨j, _, hc⟩ := ho
      obtain ⟨hinv, hm⟩ := h'.inv.deliver i ⟨j, c, hc, rfl, rfl⟩
      refine ⟨_, hinv, fun p => (hm p).trans (h'.minted p), ?_⟩
      intro k l hl p g hg
      obtain ⟨g', hg', hle⟩ := h'.holds k l hl p g hg
      exact ⟨g', subset_update (fun p g hg => mem_addHead.2 (.inl hg)) k p hg', hle⟩
    | peerIndex x =>
      obtain ⟨j, _, hx⟩ := ho
      refine ⟨_, h'.hear i fun p g hg => ?_⟩
      obtain ⟨e, he, hg⟩ := Index.mem_headsAt.1 hg
      exact h'.inv.snapshots j x hx p e he g hg
  | @takes t R i j _ ih =>
    obtain ⟨K', h'⟩ := ih
    exact h'.takes i j

/-- Once every replica holds, at first hand or through others, what each of them knew when the last
local change was made, all have the same index. -/
theorem GossipRun.indexes_equal [Fintype ι] (hids : Function.Injective ids)
    (hcard : Fintype.card ι < 2 ^ 64) (hs : Run ids s) (hfit : s.CountersFit)
    (hrun : GossipRun s t R) (hall : ∀ i j, j ∈ R i) (i j : ι) :
    (t.engine i).index = (t.engine j).index := by
  obtain ⟨K, h⟩ := hs.inv hids
  obtain ⟨K', h'⟩ := hrun.informed h
  have hshow (k : ι) : (t.engine k).index.Shows s.Minted := by
    intro p
    have hsub : K' k p ⊆ s.Minted p := by
      rw [← h'.minted p]
      exact h'.inv.minted k p
    apply ShowsAt.widen (h'.inv.shows k p) hsub
    rintro _ ⟨l, c, hc, rfl, rfl⟩
    exact h'.holds k l (hall k l) c.path c.head (h.sent l c hc)
  exact (hshow i).unique (hshow j) h.names fun p g hg => h.fits hcard hfit hg

end Net

/-- Both sides create the same path and lose each other's version; then each takes in the index of
the other. -/
def toldRun : Net Side :=
  let s := lostRun.handle .b (.peerIndex (lostRun.engine .a).index)
  s.handle .a (.peerIndex (s.engine .b).index)

theorem told_agree : (toldRun.engine .a).index = (toldRun.engine .b).index := by
  have hsent (i : Side) : lostRun.sent i = [twinChange i] := by
    cases i <;> decide
  have hrun := ((Net.GossipRun.start (s := lostRun)).takes .b .a).takes .a .b
  have hids : Function.Injective twinIds := Side.injective (by decide)
  refine Net.GossipRun.indexes_equal hids (by decide) ?_ ?_ hrun ?_ .a .b
  · have ha := Net.Step.local (Net.init twinIds) .a ⟨twinPath, .modified (twinSig 1)⟩
    exact .tail (.single ha) (.local _ Side.b ⟨twinPath, .modified (twinSig 2)⟩)
  · intro i c hc r
    rw [hsent, List.mem_singleton] at hc
    subst c
    cases i <;> simp only [twinChange, VectorClock.get_tick, VectorClock.get_new] <;> split <;>
      decide
  · intro i j
    cases i <;> cases j <;> simp [Function.update]

end Tomo
