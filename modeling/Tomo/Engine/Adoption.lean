import Mathlib.Data.List.Pairwise
import Tomo.Engine.Recovery
import Tomo.Engine.Surfacing

namespace Tomo
set_option autoImplicit true

theorem disjointSupport_iff {a b : VectorClock} :
    disjointSupport a b = true ↔ ∀ r, ¬(r ∈ a.iter.map Prod.fst ∧ 0 < b.get r) := by
  simp [disjointSupport]

/-- Clocks with disjoint support share no positive counter. -/
theorem disjointSupport_get {a b : VectorClock} (h : disjointSupport a b = true) (r : ReplicaId) :
    ¬(0 < a.get r ∧ 0 < b.get r) := by
  rintro ⟨ha, hb⟩
  refine disjointSupport_iff.1 h r ⟨?_, hb⟩
  by_contra hm
  have hk : r ∉ a.counters.keys := by
    rwa [VectorClock.iter, Std.ExtTreeMap.map_fst_toList_eq_keys] at hm
  rw [a.get_of_not_mem hk] at ha
  exact absurd ha (Nat.lt_irrefl 0)

theorem disjointSupport_of_get {a b : VectorClock} (ha : a.Positive)
    (h : ∀ r, 0 < a.get r → ¬0 < b.get r) : disjointSupport a b = true := by
  rw [disjointSupport_iff]
  rintro r ⟨hr, hb⟩
  obtain ⟨⟨_, n⟩, hm, rfl⟩ := List.mem_map.1 hr
  refine h _ ?_ hb
  rw [a.get_eq_of_mem hm]
  exact ha.of_mem hm

namespace Entry

theorem disjointHeads_iff (hs : List Head) :
    disjointHeads hs = true ↔ hs.Pairwise fun a b => disjointSupport a.version b.version = true := by
  induction hs with
  | nil => simp [disjointHeads]
  | cons h hs ih =>
    rw [disjointHeads, Bool.and_eq_true, List.all_eq_true, ih, List.pairwise_cons]

/-- Two heads that share a replica keep an entry out of adoption mode. -/
theorem adoptionMode_of_shared {e : Entry} (hg : g ∈ e.heads) (hh : h ∈ e.heads) (hne : g ≠ h)
    (hgr : 0 < g.version.get r) (hhr : 0 < h.version.get r) : e.adoptionMode = false := by
  rw [adoptionMode]
  split
  · rfl
  · by_contra hd
    rw [Bool.not_eq_false, disjointHeads_iff] at hd
    have hpair : e.heads.Pairwise fun a b => ¬(0 < a.version.get r ∧ 0 < b.version.get r) :=
      hd.imp fun hab => disjointSupport_get hab r
    have _ : Std.Symm fun a b : Head => ¬(0 < a.version.get r ∧ 0 < b.version.get r) :=
      ⟨fun a b hab hba => hab hba.symm⟩
    exact hpair.forall hg hh hne ⟨hgr, hhr⟩

/-- Different heads that share no replica put an entry in adoption mode. -/
theorem adoptionMode_of_disjoint {e : Entry} (hn : e.heads.Nodup) (hg : g ∈ e.heads)
    (hh : h ∈ e.heads) (hne : g ≠ h) (hd : ∀ a ∈ e.heads, ∀ b ∈ e.heads, a ≠ b →
      disjointSupport a.version b.version = true) : e.adoptionMode = true := by
  have hlen : ¬e.heads.length < 2 := by
    intro hlt
    apply hne
    match hs : e.heads with
    | [] =>
      rw [hs] at hg
      cases hg
    | [a] =>
      rw [hs, List.mem_singleton] at hg hh
      rw [hg, hh]
    | _ :: _ :: _ =>
      rw [hs, List.length_cons, List.length_cons] at hlt
      omega
  rw [adoptionMode, if_neg hlen, disjointHeads_iff]
  exact hn.pairwise_of_forall_ne hd

end Entry

/-- A state with another mtime. -/
def EntryState.retime (n : Nat) : EntryState → EntryState
  | .present sig => .present { sig with mtimeMs := n }
  | .tombstone => .tombstone

def Head.retime (f : Head → Nat) (h : Head) : Head := { h with state := h.state.retime (f h) }

/-- The entry with other mtimes on its heads. -/
def Entry.retime (f : Head → Nat) (e : Entry) : Entry := ⟨e.heads.map (Head.retime f)⟩

theorem winnerCmp_retime (f : Head → Nat) (a b : Head) :
    winnerCmp (a.retime f) (b.retime f) false = winnerCmp a b false := by
  obtain ⟨_, sa⟩ := a
  obtain ⟨_, sb⟩ := b
  cases sa <;> cases sb <;> rfl

theorem Entry.adoptionMode_retime (f : Head → Nat) (e : Entry) :
    (e.retime f).adoptionMode = e.adoptionMode := by
  have hd (hs : List Head) : disjointHeads (hs.map (Head.retime f)) = disjointHeads hs := by
    induction hs with
    | nil => rfl
    | cons h hs ih =>
      rw [List.map_cons, disjointHeads, ih, disjointHeads, List.all_map]
      rfl
  rw [adoptionMode, adoptionMode, retime, List.length_map, hd]

/-- Outside adoption mode no mtime has a say in who wins. -/
theorem Entry.winner_retime {e : Entry} (h : e.adoptionMode = false) (f : Head → Nat) :
    (e.retime f).winner = e.winner.retime f := by
  have hm : (e.retime f).adoptionMode = false := by rw [e.adoptionMode_retime, h]
  unfold winner
  rw [hm, h]
  cases hs : e.heads with
  | nil =>
    rw [retime, hs]
    rfl
  | cons best rest =>
    rw [retime, hs]
    dsimp only [List.map_cons]
    clear hs
    induction rest generalizing best with
    | nil => rfl
    | cons a rest ih =>
      simp only [List.map_cons, List.foldl_cons, winnerCmp_retime]
      split
      · exact ih a
      · exact ih best

namespace Engine

/-- Nothing is minted for the removal of a path the index does not hold. -/
theorem sends_removed_none {e : Engine} (hg : e.index.get p = none) :
    sends (e.handle (.local ⟨p, .removed⟩)).2 = [] := by
  rw [handle, handleLocal]
  dsimp only
  split
  · rfl
  · rw [localRemoved, hg]
    rfl

/-- A change of a path the index does not hold is minted, unless an echo was expected. -/
theorem sends_modified_none {e : Engine} (hg : e.index.get p = none)
    (hecho : e.isExpectedEcho p (.present sig) = false) :
    sends (e.handle (.local ⟨p, .modified sig⟩)).2 ≠ [] := by
  rw [isExpectedEcho, ← EchoJournal.retire_contains] at hecho
  rw [handle, handleLocal]
  dsimp only
  split
  next hr =>
    rw [hr] at hecho
    cases hecho
  next =>
    rw [localModified, hg]
    exact List.cons_ne_nil _ _

end Engine

namespace Net

/-- A path the side does not hold is written there only if the other side does not hold it. -/
def Unclaimed (s : Net Side) (i : Side) : Event → Prop
  | .local ⟨p, .modified _⟩ =>
    (s.engine i).index.get p = none → (s.engine i.other).index.get p = none
  | .local ⟨_, .removed⟩ | .remote _ | .peerIndex _ => True

/-- A step at which no side creates a path that the other side has created. -/
def WaryStep (s s' : Net Side) : Prop :=
  ∃ i ev, s.Open i ev ∧ s.Unclaimed i ev ∧ s' = s.handle i ev

section
variable {ids : Side → ReplicaId} {s t : Net Side} {K : Side → RelPath → Set Head}

theorem WaryStep.step (h : WaryStep s t) : Step s t := by
  obtain ⟨i, ev, ho, _, ht⟩ := h
  exact step_iff.2 ⟨i, ev, ho, ht⟩

/-- Every version ever sent counts some change. -/
theorem Run.minted_pos (hids : Function.Injective ids) (hrun : Run ids s) :
    ∀ p, ∀ h ∈ s.Minted p, ∃ r, 0 < h.version.get r := by
  induction hrun with
  | refl =>
    intro p h hh
    rw [minted_init] at hh
    cases hh
  | @tail s s' hrun hstep ih =>
    obtain ⟨K, hinv⟩ := Run.inv hids hrun
    cases hstep with
    | «local» i c =>
      intro p h hh
      rw [minted_handle] at hh
      rcases hh with hh | ⟨c', hc', _, rfl⟩
      · exact ih p h hh
      · rcases hinv.local hids i c with ⟨_, hsend⟩ | ⟨_, hsend⟩
        · rw [hsend] at hc'
          cases hc'
        · rw [hsend, List.mem_singleton] at hc'
          subst c'
          exact ⟨(s.engine i).replica, by simp [RemoteChange.head, minting]⟩
    | deliver i j c hij hc =>
      intro p h hh
      rw [(hinv.deliver i ⟨j, c, hc, rfl, rfl⟩).2 p] at hh
      exact ih p h hh
    | peerIndex i j x hij hx =>
      obtain ⟨_, _, _, _, hm⟩ := hinv.peerIndex i (hinv.snapshots j x hx)
      intro p h hh
      rw [hm p] at hh
      exact ih p h hh

/-- Since `s` all new versions of a path share a replica, which both sides have heard of unless
the path is younger than `s`. -/
def Rooted (s t : Net Side) (K : Side → RelPath → Set Head) (p : RelPath) : Prop :=
  ∃ r, (∀ h ∈ t.Minted p, h ∉ s.Minted p → 0 < h.version.get r) ∧
    ((∀ i, ∃ h ∈ K i p, 0 < h.version.get r) ∨ s.Minted p = ∅)

theorem Rooted.mono {t' : Net Side} {K' : Side → RelPath → Set Head} (h : Rooted s t K p)
    (hm : t'.Minted p = t.Minted p) (hK : ∀ i, K i p ⊆ K' i p) : Rooted s t' K' p := by
  obtain ⟨r, hnew, hheard⟩ := h
  refine ⟨r, ?_, hheard.imp_left fun hheard i => ?_⟩
  · rwa [hm]
  · obtain ⟨h, hh, hr⟩ := hheard i
    exact ⟨h, hK i hh, hr⟩

/-- Where both indices are equal, every path is rooted. -/
theorem Inv.rooted (h : Inv ids s K) (hsame : (s.engine .a).index = (s.engine .b).index)
    (hpos : ∀ p, ∀ h ∈ s.Minted p, ∃ r, 0 < h.version.get r) (p : RelPath) : Rooted s s K p := by
  have hnone (r : ReplicaId) : ∀ h ∈ s.Minted p, h ∉ s.Minted p → 0 < h.version.get r :=
    fun h hh hn => (hn hh).elim
  have hall (i : Side) : (s.engine i).index = (s.engine .a).index := by
    cases i with
    | a => rfl
    | b => exact hsame.symm
  by_cases hm : s.Minted p = ∅
  · exact ⟨ids .a, hnone _, .inr hm⟩
  · obtain ⟨_, j, c, hc, rfl, rfl⟩ := Set.nonempty_iff_ne_empty.2 hm
    have hj := h.sent j c hc
    obtain ⟨g, hg, _⟩ := ((h.shows j).frontier c.path).cofinal c.head hj
    obtain ⟨r, hr⟩ := hpos _ g (h.minted j _ (((h.shows j).frontier c.path).subset hg))
    refine ⟨r, hnone r, .inl fun i => ⟨g, ((h.shows i).frontier c.path).subset ?_, hr⟩⟩
    rw [hall i, ← hall j]
    exact hg

/-- Whoever holds no version of a path that no other side holds either finds it unminted. -/
theorem Inv.unminted (h : Inv ids s K) {i : Side} (hi : (s.engine i).index.get p = none)
    (hj : (s.engine i.other).index.get p = none) : s.Minted p = ∅ := by
  apply Set.eq_empty_of_forall_notMem
  rintro _ ⟨j, c, hc, rfl, rfl⟩
  have hk := h.sent j c hc
  have hnone : (s.engine j).index.get c.path = none := by
    by_cases hij : i = j
    · rwa [← hij]
    · rwa [Side.eq_other hij]
  rw [(h.shows j).none hnone] at hk
  cases hk

/-- A wary step keeps every path rooted. -/
theorem WaryStep.rooted (hids : Function.Injective ids) (hstep : WaryStep t t') (h : Inv ids t K)
    (hr : ∀ p, Rooted s t K p) : ∃ K', Inv ids t' K' ∧ ∀ p, Rooted s t' K' p := by
  obtain ⟨i, ev, ho, hu, rfl⟩ := hstep
  cases ev with
  | «local» c =>
    rcases h.local hids i c with ⟨hinv, hsend⟩ | ⟨hinv, hsend⟩
    · refine ⟨K, hinv, fun p => (hr p).mono ?_ fun _ => subset_rfl⟩
      rw [minted_handle, hsend]
      simp
    · refine ⟨_, hinv, fun p => ?_⟩
      have hlow := subset_update (K := K) (i := i) (L := addHead (K i) c.path (t.minting i c))
        fun q g hg => mem_addHead.2 (.inl hg)
      have hminted (g : Head) : g ∈ (t.handle i (.local c)).Minted p ↔
          g ∈ t.Minted p ∨ p = c.path ∧ g = t.minting i c := by
        rw [minted_handle, hsend]
        simp [RemoteChange.head, minting, eq_comm]
      by_cases hp : p = c.path
      · subst p
        obtain ⟨r, hnew, hheard⟩ := hr c.path
        have hbase {g : Head} (hg : g ∈ K i c.path) : g.version ≤ (t.minting i c).version :=
          (h.le_base hg).trans (VectorClock.le_tick _ _)
        by_cases hex : ∃ g ∈ K i c.path, 0 < g.version.get r
        · obtain ⟨g, hg, hgr⟩ := hex
          have hmint : 0 < (t.minting i c).version.get r := hgr.trans_le (hbase hg r)
          refine ⟨r, fun f hf hs => ?_, hheard.imp_left fun hheard j => ?_⟩
          · rcases (hminted f).1 hf with hf | ⟨_, rfl⟩
            · exact hnew f hf hs
            · exact hmint
          · obtain ⟨f, hf, hfr⟩ := hheard j
            exact ⟨f, hlow j _ hf, hfr⟩
        · -- nothing is held here, so the path is born in this step
          have hs : s.Minted c.path = ∅ := hheard.resolve_left fun hheard => hex (hheard i)
          have hempty : K i c.path = ∅ := by
            apply Set.eq_empty_of_forall_notMem
            intro g hg
            refine hex ⟨g, hg, hnew g (h.minted i _ hg) ?_⟩
            rw [hs]
            exact Set.notMem_empty g
          have hnone := (h.shows i).eq_none hempty
          have hminted' : t.Minted c.path = ∅ := by
            obtain ⟨q, kind⟩ := c
            cases kind with
            | modified sig => exact h.unminted hnone (hu hnone)
            | removed =>
              rw [Engine.sends_removed_none hnone] at hsend
              cases hsend
          refine ⟨ids i, fun f hf _ => ?_, .inr hs⟩
          rcases (hminted f).1 hf with hf | ⟨_, rfl⟩
          · rw [hminted'] at hf
            cases hf
          · rw [minting, h.replica i, VectorClock.get_tick, if_pos rfl]
            exact Nat.succ_pos _
      · refine (hr p).mono ?_ fun j => hlow j p
        ext g
        rw [hminted, or_iff_left fun hg => hp hg.1]
  | remote c =>
    obtain ⟨j, _, hc⟩ := ho
    obtain ⟨hinv, hm⟩ := h.deliver i (c := c) ⟨j, c, hc, rfl, rfl⟩
    refine ⟨_, hinv, fun p => (hr p).mono (hm p) fun j => ?_⟩
    exact subset_update (fun q g hg => mem_addHead.2 (.inl hg)) j p
  | peerIndex x =>
    obtain ⟨j, _, hx⟩ := ho
    obtain ⟨L, hlow, _, hinv, hm⟩ := h.peerIndex i (h.snapshots j x hx)
    exact ⟨_, hinv, fun p => (hr p).mono (hm p) fun j => subset_update hlow j p⟩

/-- A path that both sides create is in adoption mode once a version has crossed. -/
theorem Inv.collides (hids : Function.Injective ids) (h : Inv ids t K)
    (hpos : ∀ p, ∀ h ∈ t.Minted p, ∃ r, 0 < h.version.get r) {i : Side}
    (hi : (t.engine i).index.get p = none) (hj : (t.engine i.other).index.get p ≠ none)
    (hecho : (t.engine i).isExpectedEcho p (.present sig) = false) :
    ∃ d ∈ t.sent i.other, ∃ e,
      (((t.handle i (.local ⟨p, .modified sig⟩)).handle i (.remote d)).engine i).index.get p =
        some e ∧ e.adoptionMode = true ∧ ∃ g ∈ e.heads, ∃ h ∈ e.heads, g ≠ h := by
  have hempty : K i p = ∅ := (h.shows i).none hi
  -- what the other side holds it minted itself, with no counter of this side
  obtain ⟨d, hd, rfl⟩ : ∃ d ∈ t.sent i.other, d.path = p := by
    obtain ⟨e, he⟩ := Option.ne_none_iff_exists'.1 hj
    obtain ⟨g, hg⟩ : (K i.other p).Nonempty := by
      have hp := h.shows i.other p
      rw [he] at hp
      exact hp.2
    obtain ⟨k, d, hd, hdp, _⟩ := h.minted i.other p hg
    refine ⟨d, ?_, hdp⟩
    by_cases hk : i = k
    · subst k
      have hkn := h.sent i d hd
      rw [hdp, hempty] at hkn
      cases hkn
    · rwa [← Side.eq_other hk]
  have hdm : d.head ∈ t.Minted d.path := ⟨i.other, d, hd, rfl, rfl⟩
  have hzero : d.version.get (ids i) = 0 := by
    by_contra hne
    obtain ⟨g, hg, _⟩ := h.own i d.path d.head hdm (Nat.pos_of_ne_zero hne)
    rw [hempty] at hg
    cases hg
  obtain ⟨n, hn⟩ : ∃ n, n = t.minting i ⟨d.path, .modified sig⟩ := ⟨_, rfl⟩
  have hbase : (t.engine i).index.base d.path = .new := by
    rw [Index.base, hi]
    rfl
  have hnget (r : ReplicaId) : n.version.get r = if ids i = r then 1 else 0 := by
    rw [hn, minting, hbase, h.replica i, VectorClock.get_tick, VectorClock.get_new,
      VectorClock.get_new]
  obtain ⟨hinv, _⟩ := (h.local hids i ⟨d.path, .modified sig⟩).resolve_left fun hno =>
    Engine.sends_modified_none hi hecho hno.2
  rw [← hn] at hinv
  refine ⟨d, hd, ?_⟩
  have hdm' : d.head ∈ (t.handle i (.local ⟨d.path, .modified sig⟩)).Minted d.path := by
    rw [minted_handle]
    exact .inl hdm
  obtain ⟨hinv', _⟩ := hinv.deliver i hdm'
  rw [Function.update_self, Function.update_idem] at hinv'
  have hshow := hinv'.shows i
  rw [Function.update_self] at hshow
  have hknown (g : Head) : g ∈ addHead (addHead (K i) d.path n) d.path d.head d.path ↔
      g = n ∨ g = d.head := by
    rw [mem_addHead, mem_addHead, hempty]
    simp only [Set.mem_empty_iff_false, true_and, false_or]
  have hpos' : ∃ r, 0 < d.version.get r := hpos d.path d.head hdm
  have hapart (r : ReplicaId) (hr : 0 < n.version.get r) : ¬0 < d.version.get r := by
    rw [hnget] at hr
    split at hr
    next he =>
      rw [← he, hzero]
      exact Nat.lt_irrefl 0
    next => exact absurd hr (Nat.lt_irrefl 0)
  cases he : (((t.handle i (.local ⟨d.path, .modified sig⟩)).handle i (.remote d)).engine i).index.get
      d.path with
  | none =>
    have hno := hshow.none he
    rw [Set.eq_empty_iff_forall_notMem] at hno
    exact (hno n ((hknown n).2 (.inl rfl))).elim
  | some e =>
    obtain ⟨hfront, _, hnodup⟩ := hshow.some he
    have hmem (b : Head) (hb : b ∈ e.heads) : b = n ∨ b = d.head :=
      (hknown b).1 (hfront.subset hb)
    have hne : n ≠ d.head := by
      intro heq
      have hone := hnget (ids i)
      rw [heq, if_pos rfl, RemoteChange.head, hzero] at hone
      cases hone
    have hnh : n ∈ e.heads := by
      obtain ⟨b, hb, hle⟩ := hfront.cofinal n ((hknown n).2 (.inl rfl))
      rcases hmem b hb with rfl | rfl
      · exact hb
      · have hone := hle (ids i)
        rw [hnget, if_pos rfl, RemoteChange.head, hzero] at hone
        exact absurd hone (Nat.not_succ_le_zero 0)
    have hdh : d.head ∈ e.heads := by
      obtain ⟨b, hb, hle⟩ := hfront.cofinal d.head ((hknown d.head).2 (.inr rfl))
      rcases hmem b hb with rfl | rfl
      · obtain ⟨r, hr⟩ := hpos'
        exact (hapart r (hr.trans_le (hle r)) hr).elim
      · exact hb
    refine ⟨e, rfl, ?_, n, hnh, d.head, hdh, hne⟩
    apply Entry.adoptionMode_of_disjoint hnodup hnh hdh hne
    intro a ha b hb hab
    have hapos := hinv'.positive d.path a (hinv'.heads_minted he ha)
    rcases hmem a ha with rfl | rfl
    · obtain rfl := (hmem b hb).resolve_left hab.symm
      exact disjointSupport_of_get hapos hapart
    · obtain rfl := (hmem b hb).resolve_right hab.symm
      exact disjointSupport_of_get hapos fun r hd hr => hapart r hr hd

/-- No entry is in adoption mode with two versions younger than `s`, so no mtime decides
between them. -/
def GenesisOnly (s t : Net Side) : Prop :=
  ∀ i p e, (t.engine i).index.get p = some e → ∀ g ∈ e.heads, ∀ h ∈ e.heads, g ≠ h →
    g ∉ s.Minted p → h ∉ s.Minted p →
      e.adoptionMode = false ∧ ∀ f, (e.retime f).winner = e.winner.retime f

theorem Inv.genesisOnly (h : Inv ids t K) (hr : ∀ p, Rooted s t K p) : GenesisOnly s t := by
  intro i p e he g hg g' hg' hne hnew hnew'
  obtain ⟨r, hroot, _⟩ := hr p
  have hmode := Entry.adoptionMode_of_shared hg hg' hne
    (hroot g (h.heads_minted he hg) hnew) (hroot g' (h.heads_minted he hg') hnew')
  exact ⟨hmode, fun f => Entry.winner_retime hmode f⟩

/-- A run of wary steps from a synced pair keeps every path rooted. -/
theorem rooted_run (hids : Function.Injective ids) (hrun : Run ids s)
    (hsame : (s.engine .a).index = (s.engine .b).index)
    (hwary : Relation.ReflTransGen WaryStep s t) :
    ∃ K, Inv ids t K ∧ ∀ p, Rooted s t K p := by
  induction hwary with
  | refl =>
    obtain ⟨K, h⟩ := hrun.inv hids
    exact ⟨K, h, h.rooted hsame (hrun.minted_pos hids)⟩
  | tail _ hstep ih =>
    obtain ⟨K, h, hr⟩ := ih
    exact hstep.rooted hids h hr

end

/-- After a sync, adoption stays away in every run in which no side creates a path that the other
side holds; and wherever a side does create one, a single delivery brings adoption back. -/
theorem Run.genesis_only {ids : Side → ReplicaId} {s : Net Side} (hids : ids .a ≠ ids .b)
    (hrun : Run ids s) (hsame : (s.engine .a).index = (s.engine .b).index) (t : Net Side)
    (hwary : Relation.ReflTransGen WaryStep s t) :
    GenesisOnly s t ∧ ∀ i p sig, ¬t.Unclaimed i (.local ⟨p, .modified sig⟩) →
      (t.engine i).isExpectedEcho p (.present sig) = false → ∃ d ∈ t.sent i.other,
        ¬GenesisOnly s ((t.handle i (.local ⟨p, .modified sig⟩)).handle i (.remote d)) := by
  have hinj := Side.injective hids
  obtain ⟨K, h, hr⟩ := rooted_run hinj hrun hsame hwary
  refine ⟨h.genesisOnly hr, fun i p sig hclaim hecho => ?_⟩
  rw [Unclaimed, Classical.not_imp] at hclaim
  obtain ⟨hi, hj⟩ := hclaim
  have hrun' : Run ids t :=
    hrun.trans (hwary.lift (fun u => u) fun _ _ hstep => WaryStep.step hstep)
  obtain ⟨d, hd, e, he, hmode, g, hg, g', hg', hne⟩ :=
    h.collides hinj (hrun'.minted_pos hinj) hi hj hecho
  refine ⟨d, hd, fun hgen => ?_⟩
  -- the path is younger than `s`: one of the two sides does not hold it even now
  have hyoung : s.Minted p = ∅ := by
    obtain ⟨r, _, hheard | hs⟩ := hr p
    · obtain ⟨f, hf, _⟩ := hheard i
      rw [(h.shows i).none hi] at hf
      cases hf
    · exact hs
  have hout (f : Head) : f ∉ s.Minted p := by
    rw [hyoung]
    exact Set.notMem_empty f
  have hoff := (hgen i p e he g hg g' hg' hne (hout g) (hout g')).1
  rw [hmode] at hoff
  cases hoff

end Net

/-- A path that both sides agree on. -/
def sharedPath : RelPath := ⟨['g'], by decide⟩

/-- One side creates a path and the other hears of it. -/
def syncedRun : Net Side :=
  ((Net.init twinIds).handle .a (.local ⟨sharedPath, .modified (twinSig 1)⟩)).handle .b
    (.remote ⟨sharedPath, .modified (twinSig 1), VectorClock.new.tick ⟨1⟩⟩)

theorem syncedRun_run : Net.Run twinIds syncedRun := by
  have ha := Net.Step.local (Net.init twinIds) .a ⟨sharedPath, .modified (twinSig 1)⟩
  refine .tail (.single ha) (.deliver _ Side.b Side.a _ ?_ ?_)
  all_goals decide

/-- The second side's file, older by content and younger by mtime. -/
def recentSig : ContentSig := { twinSig 1 with mtimeMs := 9 }

/-- After that the first side creates another path. -/
def youngRun : Net Side := syncedRun.handle .a (.local ⟨twinPath, .modified (twinSig 2)⟩)

/-- The second side creates it too, and the first side hears of that. -/
def crossedRun : Net Side :=
  (youngRun.handle .b (.local ⟨twinPath, .modified recentSig⟩)).handle .a
    (.remote ⟨twinPath, .modified recentSig, VectorClock.new.tick ⟨2⟩⟩)

def crossedEntry : Entry :=
  ((Entry.single (VectorClock.new.tick ⟨1⟩) (.present (twinSig 2))).absorb
    (VectorClock.new.tick ⟨2⟩) (.present recentSig)).1

/-- Two versions minted after the sync meet in adoption mode, and the younger mtime wins against
the content order. -/
theorem crossed_adopts :
    Net.Run twinIds syncedRun ∧ (syncedRun.engine .a).index = (syncedRun.engine .b).index ∧
      Relation.ReflTransGen Net.Step syncedRun crossedRun ∧
      ¬Net.GenesisOnly syncedRun crossedRun ∧
      (crossedRun.engine .a).index.get twinPath = some crossedEntry ∧
      crossedEntry.winner.state = .present recentSig ∧
      (crossedEntry.retime fun _ => 5).winner.state = .present (twinSig 2) := by
  have hget : (crossedRun.engine .a).index.get twinPath = some crossedEntry := by decide
  have hyoung (h : Head) : h ∉ syncedRun.Minted twinPath := by
    rintro ⟨i, c, hc, hp, _⟩
    have hold : ∀ c ∈ syncedRun.sent i, c.path ≠ twinPath := by
      cases i <;> decide
    exact hold c hc hp
  refine ⟨syncedRun_run, by decide, ?_, fun hgen => ?_, hget, by decide, by decide⟩
  · have ha := Net.Step.local syncedRun .a ⟨twinPath, .modified (twinSig 2)⟩
    refine .tail (.tail (.single ha) (.local _ Side.b ⟨twinPath, .modified recentSig⟩))
      (.deliver _ Side.a Side.b _ ?_ ?_)
    all_goals decide
  · have hoff := (hgen .a twinPath crossedEntry hget
      ⟨VectorClock.new.tick ⟨1⟩, .present (twinSig 2)⟩ (by decide)
      ⟨VectorClock.new.tick ⟨2⟩, .present recentSig⟩ (by decide) (by decide)
      (hyoung _) (hyoung _)).1
    exact absurd hoff (by decide)

theorem young_genesis_only :
    Net.GenesisOnly syncedRun youngRun ∧
      ∀ i p sig, ¬youngRun.Unclaimed i (.local ⟨p, .modified sig⟩) →
        (youngRun.engine i).isExpectedEcho p (.present sig) = false →
          ∃ d ∈ youngRun.sent i.other, ¬Net.GenesisOnly syncedRun
            ((youngRun.handle i (.local ⟨p, .modified sig⟩)).handle i (.remote d)) := by
  refine @Net.Run.genesis_only twinIds syncedRun (by decide) syncedRun_run (by decide) youngRun ?_
  have hclaim : syncedRun.Unclaimed .a (.local ⟨twinPath, .modified (twinSig 2)⟩) :=
    fun _ => by decide
  exact .single ⟨.a, .local ⟨twinPath, .modified (twinSig 2)⟩, trivial, hclaim, rfl⟩

end Tomo
