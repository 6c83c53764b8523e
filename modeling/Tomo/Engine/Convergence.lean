import Mathlib.Data.Fintype.Card
import Mathlib.Logic.Relation
import Tomo.Engine.Knowledge

namespace Tomo
set_option autoImplicit true

/-- The change an event delivers from a peer, if it is one. -/
def Event.received : Event → List RemoteChange
  | .remote c => [c]
  | .local _ | .peerIndex _ => []

/-- Replicas that exchange changes and index snapshots, with everything each one has ever
sent, handled from a peer, and held as an index. -/
structure Net (ι : Type) where
  engine : ι → Engine
  sent : ι → List RemoteChange
  delivered : ι → List RemoteChange
  snapshots : ι → List Index

namespace Net

/-- The versions of a path that any replica has sent. -/
def Minted (s : Net ι) (p : RelPath) : Set Head :=
  {h | ∃ i, ∃ c ∈ s.sent i, c.path = p ∧ c.head = h}

/-- Every change a replica sent has reached every other one. -/
def AllDelivered (s : Net ι) : Prop := ∀ i j, i ≠ j → ∀ c ∈ s.sent j, c ∈ s.delivered i

/-- No clock that was ever sent holds a counter outside `u64`. -/
def CountersFit (s : Net ι) : Prop := ∀ i, ∀ c ∈ s.sent i, ∀ r, c.version.get r < 2 ^ 64

def init (ids : ι → ReplicaId) : Net ι where
  engine i := .new (ids i) .new
  sent _ := []
  delivered _ := []
  snapshots _ := [.new]

/-- What holds along every run: replica `i` shows exactly the versions `K i`. -/
structure Inv (ids : ι → ReplicaId) (s : Net ι) (K : ι → RelPath → Set Head) : Prop where
  replica : ∀ i, (s.engine i).replica = ids i
  shows : ∀ i, (s.engine i).index.Shows (K i)
  minted : ∀ i p, K i p ⊆ s.Minted p
  names : ∀ p, Names Head.version (s.Minted p)
  sent : ∀ i, ∀ c ∈ s.sent i, c.head ∈ K i c.path
  delivered : ∀ i, ∀ c ∈ s.delivered i, c.head ∈ K i c.path
  snapshots : ∀ i, ∀ x ∈ s.snapshots i, ∀ p e, x.get p = some e → ∀ h ∈ e.heads, h ∈ s.Minted p
  /-- A replica knows a version with any counter of its own that somebody uses. -/
  own : ∀ i p, ∀ h ∈ s.Minted p, 0 < h.version.get (ids i) →
    ∃ g ∈ K i p, h.version.get (ids i) ≤ g.version.get (ids i)
  positive : ∀ p, ∀ h ∈ s.Minted p, h.version.Positive
  support : ∀ p, ∀ h ∈ s.Minted p, ∀ r, 0 < h.version.get r → r ∈ Set.range ids

section
variable {ids : ι → ReplicaId} {s : Net ι} {K : ι → RelPath → Set Head}

theorem minted_init (p : RelPath) : (init ids).Minted p = ∅ :=
  Set.eq_empty_of_forall_notMem fun _ ⟨_, _, hc, _⟩ => by cases hc

theorem inv_init (ids : ι → ReplicaId) : Inv ids (init ids) fun _ _ => ∅ where
  replica _ := rfl
  shows _ := Index.shows_new
  minted _ _ := Set.empty_subset _
  names p := by simp [minted_init, Names]
  sent _ _ h := by cases h
  delivered _ _ h := by cases h
  snapshots _ x hx p e he := by
    rw [init, List.mem_singleton] at hx
    subst x
    rw [Index.get_new] at he
    cases he
  own p := by simp [minted_init]
  positive p := by simp [minted_init]
  support p := by simp [minted_init]

/-- The heads a replica shows have been minted. -/
theorem Inv.heads_minted (h : Inv ids s K) (he : (s.engine i).index.get p = some e)
    (hg : g ∈ e.heads) : g ∈ s.Minted p :=
  h.minted i p (((h.shows i).some he).frontier.subset hg)

/-- What replica `i` stamps next dominates all it knows of the path. -/
theorem Inv.le_base (h : Inv ids s K) (hg : g ∈ K i p) :
    g.version ≤ (s.engine i).index.base p := (h.shows i).le_base hg

/-- Every counter of that stamp comes from a version that was minted. -/
theorem Inv.base_attained (h : Inv ids s K) (i : ι) (p : RelPath) (r : ReplicaId)
    (hr : 0 < ((s.engine i).index.base p).get r) :
    ∃ g ∈ s.Minted p, ((s.engine i).index.base p).get r = g.version.get r := by
  unfold Index.base at hr ⊢
  cases he : (s.engine i).index.get p with
  | none => simp [he] at hr
  | some e =>
    rw [he] at hr
    obtain ⟨g, hg, heq⟩ := Entry.mergedClock_attained hr
    exact ⟨g, h.heads_minted he hg, heq⟩

theorem Inv.base_positive (h : Inv ids s K) (i : ι) (p : RelPath) :
    ((s.engine i).index.base p).Positive := by
  unfold Index.base
  cases he : (s.engine i).index.get p with
  | none => exact VectorClock.positive_new
  | some e => exact Entry.mergedClock_positive fun g hg => h.positive p g (h.heads_minted he hg)

end

variable [DecidableEq ι]

/-- One replica handles one event. -/
def handle (s : Net ι) (i : ι) (ev : Event) : Net ι where
  engine := Function.update s.engine i ((s.engine i).handle ev).1
  sent := Function.update s.sent i (s.sent i ++ sends ((s.engine i).handle ev).2)
  delivered := Function.update s.delivered i (s.delivered i ++ ev.received)
  snapshots := Function.update s.snapshots i
    (s.snapshots i ++ [((s.engine i).handle ev).1.index])

/-- The user edits anywhere; the link delivers anything a peer ever sent, in any order and any
number of times, and may hand over any index a peer ever held. -/
inductive Step : Net ι → Net ι → Prop where
  | local (s : Net ι) (i : ι) (c : LocalChange) : Step s (s.handle i (.local c))
  | deliver (s : Net ι) (i j : ι) (c : RemoteChange) (hij : i ≠ j) (hc : c ∈ s.sent j) :
    Step s (s.handle i (.remote c))
  | peerIndex (s : Net ι) (i j : ι) (x : Index) (hij : i ≠ j) (hx : x ∈ s.snapshots j) :
    Step s (s.handle i (.peerIndex x))

def Run (ids : ι → ReplicaId) (s : Net ι) : Prop := Relation.ReflTransGen Step (init ids) s

variable {ids : ι → ReplicaId} {s : Net ι} {K : ι → RelPath → Set Head} {i : ι} {ev : Event}

theorem mem_update_append {f : ι → List α} :
    a ∈ Function.update f i (f i ++ l) j ↔ a ∈ f j ∨ j = i ∧ a ∈ l := by
  by_cases hj : j = i
  · subst j
    simp
  · simp [hj]

theorem minted_handle (p : RelPath) :
    (s.handle i ev).Minted p =
      s.Minted p ∪ {h | ∃ c ∈ sends ((s.engine i).handle ev).2, c.path = p ∧ c.head = h} := by
  ext h
  simp only [Minted, handle, mem_update_append, Set.mem_union, Set.mem_ofPred_eq]
  constructor
  · rintro ⟨j, c, hc | ⟨_, hc⟩, hp⟩
    · exact .inl ⟨j, c, hc, hp⟩
    · exact .inr ⟨c, hc, hp⟩
  · rintro (⟨j, c, hc, hp⟩ | ⟨c, hc, hp⟩)
    · exact ⟨j, c, .inl hc, hp⟩
    · exact ⟨i, c, .inr ⟨rfl, hc⟩, hp⟩

theorem subset_update {K : ι → RelPath → Set Head} {L : RelPath → Set Head}
    (hlow : ∀ p, K i p ⊆ L p) (j : ι) (p : RelPath) :
    K j p ⊆ Function.update K i L j p := by
  by_cases hj : j = i
  · subst j
    rw [Function.update_self]
    exact hlow p
  · rw [Function.update_of_ne hj]

/-- One event keeps the invariant when replica `i` then shows `L` and the minted versions,
old and new, are still named by their clocks. -/
theorem Inv.handle {L : RelPath → Set Head} (h : Inv ids s K)
    (hrep : ((s.engine i).handle ev).1.replica = (s.engine i).replica)
    (hshow : ((s.engine i).handle ev).1.index.Shows L) (hlow : ∀ p, K i p ⊆ L p)
    (hsend : ∀ c ∈ sends ((s.engine i).handle ev).2, c.head ∈ L c.path)
    (hrecv : ∀ c ∈ ev.received, c.head ∈ L c.path)
    (hup : ∀ p, L p ⊆ (s.handle i ev).Minted p)
    (hnames : ∀ p, Names Head.version ((s.handle i ev).Minted p))
    (hown : ∀ j p, ∀ g ∈ (s.handle i ev).Minted p, 0 < g.version.get (ids j) →
      ∃ g' ∈ Function.update K i L j p, g.version.get (ids j) ≤ g'.version.get (ids j))
    (hpos : ∀ p, ∀ g ∈ (s.handle i ev).Minted p, g.version.Positive)
    (hsupp : ∀ p, ∀ g ∈ (s.handle i ev).Minted p, ∀ r, 0 < g.version.get r → r ∈ Set.range ids) :
    Inv ids (s.handle i ev) (Function.update K i L) where
  replica j := by
    by_cases hj : j = i
    · subst j
      simpa [Net.handle] using hrep.trans (h.replica i)
    · simpa [Net.handle, hj] using h.replica j
  shows j := by
    by_cases hj : j = i
    · subst j
      simpa [Net.handle] using hshow
    · simpa [Net.handle, hj] using h.shows j
  minted j p := by
    by_cases hj : j = i
    · subst j
      simpa using hup p
    · rw [Function.update_of_ne hj, minted_handle]
      exact (h.minted j p).trans Set.subset_union_left
  names := hnames
  sent j c hc := by
    rcases mem_update_append.1 hc with hc | ⟨rfl, hc⟩
    · exact subset_update hlow j _ (h.sent j c hc)
    · simpa using hsend c hc
  delivered j c hc := by
    rcases mem_update_append.1 hc with hold | ⟨rfl, hnew⟩
    · exact subset_update hlow j _ (h.delivered j c hold)
    · simpa using hrecv c hnew
  snapshots j x hx p e he g hg := by
    rcases mem_update_append.1 hx with hx | ⟨rfl, hx⟩
    · rw [minted_handle]
      exact .inl (h.snapshots j x hx p e he g hg)
    · rw [List.mem_singleton.1 hx] at he
      exact hup p ((hshow.some he).frontier.subset hg)
  own := hown
  positive := hpos
  support := hsupp

/-- A step that only learns versions already minted keeps the invariant. -/
theorem Inv.learn {L : RelPath → Set Head} (h : Inv ids s K)
    (hrep : ((s.engine i).handle ev).1.replica = (s.engine i).replica)
    (hshow : ((s.engine i).handle ev).1.index.Shows L) (hlow : ∀ p, K i p ⊆ L p)
    (hup : ∀ p, L p ⊆ K i p ∪ s.Minted p)
    (hsend : ∀ c ∈ sends ((s.engine i).handle ev).2, c.head ∈ L c.path)
    (hrecv : ∀ c ∈ ev.received, c.head ∈ L c.path) :
    Inv ids (s.handle i ev) (Function.update K i L) ∧
      ∀ p, (s.handle i ev).Minted p = s.Minted p := by
  have hL (p : RelPath) : L p ⊆ s.Minted p :=
    (hup p).trans (Set.union_subset (h.minted i p) subset_rfl)
  have hm (p : RelPath) : (s.handle i ev).Minted p = s.Minted p := by
    rw [minted_handle, Set.union_eq_left]
    rintro _ ⟨c, hc, rfl, rfl⟩
    exact hL _ (hsend c hc)
  refine ⟨h.handle hrep hshow hlow hsend hrecv ?_ ?_ ?_ ?_ ?_, hm⟩
  · intro p
    rw [hm p]
    exact hL p
  · intro p
    rw [hm p]
    exact h.names p
  · intro j p g hg hpos
    rw [hm p] at hg
    obtain ⟨g', hg', hle⟩ := h.own j p g hg hpos
    exact ⟨g', subset_update hlow j p hg', hle⟩
  · intro p g hg
    rw [hm p] at hg
    exact h.positive p g hg
  · intro p g hg
    rw [hm p] at hg
    exact h.support p g hg

/-- The version that replica `i` mints for a local change. -/
def minting (s : Net ι) (i : ι) (c : LocalChange) : Head :=
  ⟨((s.engine i).index.base c.path).tick (s.engine i).replica, stateFromKind c.kind⟩

omit [DecidableEq ι] in
/-- The counter of a new version is fresh: whoever used it would be known at its replica. -/
theorem Inv.fresh (h : Inv ids s K) (i : ι) (hg : g ∈ s.Minted p) :
    ¬((s.engine i).index.base p).tick (ids i) ≤ g.version := by
  intro hle
  have hlt : ((s.engine i).index.base p).get (ids i) < g.version.get (ids i) := by
    have hr := hle (ids i)
    rw [VectorClock.get_tick, if_pos rfl] at hr
    exact hr
  obtain ⟨g', hg', hle'⟩ := h.own i p g hg (Nat.zero_lt_of_lt hlt)
  have hbase := h.le_base hg' (ids i)
  omega

/-- A minted version dominates the whole path with a counter nobody else has used there. -/
theorem Inv.mint (h : Inv ids s K) (hids : Function.Injective ids) (c : LocalChange)
    (hidx : ((s.engine i).handle (.local c)).1.index = (s.engine i).index.upsert c.path
      (.single (((s.engine i).index.base c.path).tick (ids i)) (stateFromKind c.kind)))
    (hsend : sends ((s.engine i).handle (.local c)).2 =
      [⟨c.path, c.kind, ((s.engine i).index.base c.path).tick (ids i)⟩]) :
    Inv ids (s.handle i (.local c)) (Function.update K i (addHead (K i) c.path (s.minting i c))) := by
  rw [minting, h.replica i]
  obtain ⟨p, kind⟩ := c
  obtain ⟨base, hb⟩ : ∃ base, base = (s.engine i).index.base p := ⟨_, rfl⟩
  obtain ⟨n, hn⟩ : ∃ n : Head, n = ⟨base.tick (ids i), stateFromKind kind⟩ := ⟨_, rfl⟩
  have hm (q : RelPath) (g : Head) : g ∈ (s.handle i (.local ⟨p, kind⟩)).Minted q ↔
      g ∈ s.Minted q ∨ q = p ∧ g = n := by
    rw [minted_handle, hsend, hn, hb]
    simp [RemoteChange.head, eq_comm]
  have hfresh (g : Head) (hg : g ∈ s.Minted p) : ¬n.version ≤ g.version := by
    rw [hn, hb]
    exact h.fresh i hg
  have hshow : ((s.engine i).handle (.local ⟨p, kind⟩)).1.index.Shows (addHead (K i) p n) := by
    rw [hidx, ← hb, hn]
    exact (h.shows i).mint (by rw [← hb]; exact base.le_tick _) _
  have hlow (q : RelPath) : K i q ⊆ addHead (K i) p n q := fun g hg => mem_addHead.2 (.inl hg)
  have hnew : n ∈ addHead (K i) p n p := mem_addHead.2 (.inr ⟨rfl, rfl⟩)
  dsimp only
  rw [← hb, ← hn]
  refine h.handle (Engine.handleLocal_spec _ _).1 hshow hlow ?_ ?_ ?_ ?_ ?_ ?_ ?_
  · intro c hc
    rw [hsend, List.mem_singleton] at hc
    subst c
    rwa [RemoteChange.head, ← hb, ← hn]
  · intro c hc
    cases hc
  · intro q g hg
    rw [hm]
    exact (mem_addHead.1 hg).imp_left fun hg => h.minted i q hg
  · intro q a ha b hb' hab hba
    rw [hm] at ha hb'
    rcases ha with ha | ⟨rfl, rfl⟩
    · rcases hb' with hb' | ⟨rfl, rfl⟩
      · exact h.names q a ha b hb' hab hba
      · exact (hfresh a ha hba).elim
    · rcases hb' with hb' | ⟨_, rfl⟩
      · exact (hfresh b hb' hab).elim
      · rfl
  · intro j q g hg hpos
    rw [hm] at hg
    rcases hg with hg | ⟨rfl, rfl⟩
    · obtain ⟨g', hg', hle⟩ := h.own j q g hg hpos
      exact ⟨g', subset_update hlow j q hg', hle⟩
    · by_cases hj : j = i
      · subst j
        exact ⟨g, by rwa [Function.update_self], le_rfl⟩
      · have hne : ids i ≠ ids j := fun he => hj (hids he).symm
        have heq : g.version.get (ids j) = ((s.engine i).index.base q).get (ids j) := by
          rw [hn, VectorClock.get_tick, if_neg hne, hb]
        rw [heq] at hpos ⊢
        obtain ⟨g', hg', heq'⟩ := h.base_attained i q (ids j) hpos
        rw [heq'] at hpos ⊢
        obtain ⟨g'', hg'', hle⟩ := h.own j q g' hg' hpos
        exact ⟨g'', subset_update hlow j q hg'', hle⟩
  · intro q g hg
    rw [hm] at hg
    rcases hg with hg | ⟨rfl, rfl⟩
    · exact h.positive q g hg
    · rw [hn, hb]
      exact (h.base_positive i q).tick _
  · intro q g hg r hr
    rw [hm] at hg
    rcases hg with hg | ⟨rfl, rfl⟩
    · exact h.support q g hg r hr
    · rw [hn, VectorClock.get_tick] at hr
      split at hr
      · rename_i he
        exact ⟨i, he⟩
      · rw [hb] at hr
        obtain ⟨g', hg', heq⟩ := h.base_attained i q r hr
        rw [heq] at hr
        exact h.support q g' hg' r hr

/-- A local event changes nothing known, or mints one version. -/
theorem Inv.local (h : Inv ids s K) (hids : Function.Injective ids) (i : ι) (c : LocalChange) :
    Inv ids (s.handle i (.local c)) K ∧ sends ((s.engine i).handle (.local c)).2 = [] ∨
      Inv ids (s.handle i (.local c))
          (Function.update K i (addHead (K i) c.path (s.minting i c))) ∧
        sends ((s.engine i).handle (.local c)).2 =
          [⟨c.path, c.kind, (s.minting i c).version⟩] := by
  obtain ⟨hrep, ⟨hidx, hsend⟩ | ⟨hidx, hsend⟩⟩ := Engine.handleLocal_spec (s.engine i) c
  · have hrep' : ((s.engine i).handle (.local c)).1.replica = (s.engine i).replica := hrep
    have hshow : ((s.engine i).handle (.local c)).1.index.Shows (K i) := by
      rw [Engine.handle, hidx]
      exact h.shows i
    have hlearn := h.learn hrep' hshow (fun _ => subset_rfl) (fun _ => Set.subset_union_left)
      (by
        intro c hc
        rw [Engine.handle, hsend] at hc
        cases hc)
      (fun c hc => by cases hc)
    rw [Function.update_eq_self] at hlearn
    exact .inl ⟨hlearn.1, hsend⟩
  · refine .inr ⟨?_, hsend⟩
    rw [h.replica i] at hidx hsend
    exact h.mint hids c hidx hsend

/-- A delivered version becomes known. -/
theorem Inv.deliver (h : Inv ids s K) (i : ι) {c : RemoteChange} (hm : c.head ∈ s.Minted c.path) :
    Inv ids (s.handle i (.remote c)) (Function.update K i (addHead (K i) c.path c.head)) ∧
      ∀ p, (s.handle i (.remote c)).Minted p = s.Minted p := by
  obtain ⟨hrep, _, hsend⟩ := Engine.absorbRemote_spec (s.engine i) c.path
    (stateFromKind c.kind) c.version
  have hrep' : ((s.engine i).handle (.remote c)).1.replica = (s.engine i).replica := hrep
  apply h.learn hrep' (Engine.absorbRemote_shows (h.shows i) _ _ _)
  · exact fun q g hg => mem_addHead.2 (.inl hg)
  · rintro q g hg
    rcases mem_addHead.1 hg with hg | ⟨rfl, rfl⟩
    · exact .inl hg
    · exact .inr hm
  · intro c' hc'
    rw [Engine.handle, Engine.handleRemote, hsend] at hc'
    cases hc'
  · intro c' hc'
    rw [Event.received, List.mem_singleton] at hc'
    subst c'
    exact mem_addHead.2 (.inr ⟨rfl, rfl⟩)

/-- A peer's index adds heads of its own, all of them minted. -/
theorem Inv.peerIndex (h : Inv ids s K) (i : ι) {x : Index}
    (hx : ∀ p e, x.get p = some e → ∀ g ∈ e.heads, g ∈ s.Minted p) :
    ∃ L, (∀ p, K i p ⊆ L p) ∧ (∀ p, ∀ g ∈ L p, g ∈ K i p ∨ ∃ e, x.get p = some e ∧ g ∈ e.heads) ∧
      Inv ids (s.handle i (.peerIndex x)) (Function.update K i L) ∧
      ∀ p, (s.handle i (.peerIndex x)).Minted p = s.Minted p := by
  obtain ⟨hrep, hs⟩ := Engine.handlePeerIndex_learns (s.engine i) x
    (S := fun p => {g | ∃ e, x.get p = some e ∧ g ∈ e.heads})
    fun p e he g hg => ⟨e, he, hg⟩
  obtain ⟨L, hshow, hlow, hup, hsend⟩ := hs _ (h.shows i)
  have hrep' : ((s.engine i).handle (.peerIndex x)).1.replica = (s.engine i).replica := hrep
  refine ⟨L, hlow, fun p g hg => hup p hg, h.learn hrep' hshow hlow ?_ hsend fun c hc => by cases hc⟩
  intro p
  exact (hup p).trans (Set.union_subset_union_right _ fun g ⟨e, he, hg⟩ => hx p e he g hg)

/-- Every step keeps the invariant. -/
theorem Step.inv (hids : Function.Injective ids) (h : Inv ids s K) (hstep : Step s s') :
    ∃ K', Inv ids s' K' ∧ ∀ i p, K i p ⊆ K' i p := by
  cases hstep with
  | «local» i c =>
    rcases h.local hids i c with ⟨h', _⟩ | ⟨h', _⟩
    · exact ⟨K, h', fun _ _ => subset_rfl⟩
    · exact ⟨_, h', subset_update fun p g hg => mem_addHead.2 (.inl hg)⟩
  | deliver i j c hij hc =>
    have hm : c.head ∈ s.Minted c.path := ⟨j, c, hc, rfl, rfl⟩
    exact ⟨_, (h.deliver i hm).1, subset_update fun p g hg => mem_addHead.2 (.inl hg)⟩
  | peerIndex i j x hij hx =>
    obtain ⟨L, hlow, _, h', _⟩ := h.peerIndex i (h.snapshots j x hx)
    exact ⟨_, h', subset_update hlow⟩

theorem Run.inv (hids : Function.Injective ids) (hrun : Run ids s) : ∃ K, Inv ids s K := by
  induction hrun with
  | refl => exact ⟨_, inv_init ids⟩
  | tail _ hstep ih =>
    obtain ⟨K, h⟩ := ih
    obtain ⟨K', h', _⟩ := hstep.inv hids h
    exact ⟨K', h'⟩

omit [DecidableEq ι] in
/-- A clock of a run has at most one counter for each replica. -/
theorem Inv.fits [Fintype ι] (h : Inv ids s K) (hcard : Fintype.card ι < 2 ^ 64)
    (hfit : s.CountersFit) (hg : g ∈ s.Minted p) : g.version.Fits where
  counters e he := by
    obtain ⟨i, c, hc, _, rfl⟩ := hg
    rw [← VectorClock.get_eq_of_mem _ he]
    exact hfit i c hc e.1
  size := by
    have hnodup : (g.version.iter.map Prod.fst).Nodup := by
      rw [List.nodup_iff_pairwise_ne, List.pairwise_map]
      exact g.version.iter_distinct
    have hsub : (g.version.iter.map Prod.fst).toFinset ⊆ Finset.univ.image ids := by
      intro r hr
      simp only [List.mem_toFinset, List.mem_map] at hr
      obtain ⟨e, he, rfl⟩ := hr
      have hpos := (h.positive p g hg).of_mem he
      rw [← VectorClock.get_eq_of_mem _ he] at hpos
      obtain ⟨i, hi⟩ := h.support p g hg e.1 hpos
      exact Finset.mem_image.2 ⟨i, Finset.mem_univ i, hi⟩
    calc g.version.iter.length = (g.version.iter.map Prod.fst).toFinset.card := by
          rw [List.toFinset_card_of_nodup hnodup, List.length_map]
      _ ≤ (Finset.univ.image ids).card := Finset.card_le_card hsub
      _ ≤ Fintype.card ι := Finset.card_image_le
      _ < 2 ^ 64 := hcard

/-- Once everything sent is delivered, every replica knows every minted version. -/
theorem Inv.knows_all (h : Inv ids s K) (hall : s.AllDelivered) (i : ι) : K i = s.Minted := by
  funext p
  apply Set.Subset.antisymm (h.minted i p)
  rintro _ ⟨j, c, hc, rfl, rfl⟩
  by_cases hij : i = j
  · subst j
    exact h.sent i c hc
  · exact h.delivered i c (hall i j hij c hc)

theorem Run.index_eq [Fintype ι] (hids : Function.Injective ids) (hcard : Fintype.card ι < 2 ^ 64)
    (hrun : Run ids s) (hfit : s.CountersFit) (hall : s.AllDelivered) (i j : ι) :
    (s.engine i).index = (s.engine j).index := by
  obtain ⟨K, h⟩ := hrun.inv hids
  have hi := h.shows i
  have hj := h.shows j
  rw [h.knows_all hall] at hi hj
  exact hi.unique hj h.names fun p g hg => h.fits hcard hfit hg

end Net

/-- The two ends of a sync pair. -/
inductive Side where
  | a
  | b
deriving DecidableEq

instance : Fintype Side := ⟨{.a, .b}, fun s => by cases s <;> decide⟩

theorem Side.injective {ids : Side → ReplicaId} (hids : ids .a ≠ ids .b) :
    Function.Injective ids := by
  intro i j hij
  cases i <;> cases j <;> first | rfl | exact (hids hij).elim | exact (hids hij.symm).elim

/-- Two replicas that started empty and have delivered every change either one sent agree. -/
theorem Net.Run.converges {ids : Side → ReplicaId} {s : Net Side} (hids : ids .a ≠ ids .b)
    (hrun : Net.Run ids s) (hfit : s.CountersFit) (hall : s.AllDelivered) :
    (∀ p, (s.engine .a).index.get p = (s.engine .b).index.get p) ∧
      (s.engine .a).index.canonicalBytes = (s.engine .b).index.canonicalBytes ∧
      ∀ p, ((s.engine .a).index.get p).map Entry.winner =
        ((s.engine .b).index.get p).map Entry.winner := by
  have he := hrun.index_eq (Side.injective hids) (by decide) hfit hall .a .b
  rw [he]
  exact ⟨fun _ => rfl, rfl, fun _ => rfl⟩

def twinPath : RelPath := ⟨['f'], by decide⟩

def twinSig (b : UInt8) : ContentSig := ⟨⟨List.replicate 32 b, by simp⟩, 1, false, 5⟩

def twinIds : Side → ReplicaId
  | .a => ⟨1⟩
  | .b => ⟨2⟩

/-- The version a side mints when it creates the path. -/
def twinChange : Side → RemoteChange
  | .a => ⟨twinPath, .modified (twinSig 1), VectorClock.new.tick ⟨1⟩⟩
  | .b => ⟨twinPath, .modified (twinSig 2), VectorClock.new.tick ⟨2⟩⟩

/-- Both sides create the same path, and each then hears of the other's version. -/
def twinRun : Net Side :=
  let s := (Net.init twinIds).handle .a (.local ⟨twinPath, .modified (twinSig 1)⟩)
  let s := s.handle .b (.local ⟨twinPath, .modified (twinSig 2)⟩)
  let s := s.handle .a (.remote (twinChange .b))
  s.handle .b (.remote (twinChange .a))

theorem twinRun_sent (i : Side) : twinRun.sent i = [twinChange i] := by
  cases i <;> decide

theorem twinRun_run : Net.Run twinIds twinRun := by
  have ha := Net.Step.local (Net.init twinIds) .a ⟨twinPath, .modified (twinSig 1)⟩
  refine .tail (.tail (.tail (.single ha) (.local _ .b ⟨twinPath, .modified (twinSig 2)⟩))
    (.deliver _ Side.a Side.b (twinChange .b) ?_ ?_))
    (.deliver _ Side.b Side.a (twinChange .a) ?_ ?_)
  all_goals decide

theorem twinRun_fits : twinRun.CountersFit := by
  intro i c hc r
  rw [twinRun_sent, List.mem_singleton] at hc
  subst c
  cases i <;> simp only [twinChange, VectorClock.get_tick, VectorClock.get_new] <;> split <;>
    decide

theorem Net.Run.converges_twin :
    (∀ p, (twinRun.engine .a).index.get p = (twinRun.engine .b).index.get p) ∧
      (twinRun.engine .a).index.canonicalBytes = (twinRun.engine .b).index.canonicalBytes ∧
      ∀ p, ((twinRun.engine .a).index.get p).map Entry.winner =
        ((twinRun.engine .b).index.get p).map Entry.winner := by
  apply Net.Run.converges (by decide) twinRun_run twinRun_fits
  intro i j hij c hc
  rw [twinRun_sent, List.mem_singleton] at hc
  subst c
  cases i <;> cases j <;> first | exact (hij rfl).elim | decide

end Tomo
