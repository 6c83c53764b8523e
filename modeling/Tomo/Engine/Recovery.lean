import Tomo.Engine.Convergence
import Tomo.Engine.Reconciling

namespace Tomo
set_option autoImplicit true

/-- The heads an index holds for a path. -/
def Index.headsAt (x : Index) (p : RelPath) : List Head := (x.get p).elim [] Entry.heads

theorem Index.mem_headsAt {x : Index} : h ∈ x.headsAt p ↔ ∃ e, x.get p = some e ∧ h ∈ e.heads := by
  unfold headsAt
  cases x.get p with
  | none => simp
  | some e => simp

/-- The heads of a path are the frontier of what is known of it. -/
theorem Index.Shows.frontier {x : Index} {K : RelPath → Set Head} (h : x.Shows K) (p : RelPath) :
    Frontier Head.version {g | g ∈ x.headsAt p} (K p) := by
  unfold Index.headsAt
  cases he : x.get p with
  | none =>
    rw [h.none he]
    simpa using Frontier.empty Head.version
  | some e => exact (h.some he).frontier

namespace Engine
variable {e : Engine} {x : Index}

theorem covered_iff (v : VectorClock) (peer : List Head) :
    covered v peer = true ↔ ∃ h ∈ peer, v ≤ h.version := by
  simp only [covered, List.any_eq_true]
  apply exists_congr
  intro h
  rw [VectorClock.le_iff_compare]
  cases v.compare h.version <;> simp

/-- A reconcile stream holds the heads that no head of the peer's index covers. -/
theorem mem_stream (e : Engine) (x : Index) (c : RemoteChange) :
    c ∈ sends (e.handle (.peerIndex x)).2 ↔
      ∃ h ∈ (e.handle (.peerIndex x)).1.index.headsAt c.path,
        (∀ g ∈ x.headsAt c.path, ¬h.version ≤ g.version) ∧
          c = ⟨c.path, kindFromState h.state, h.version⟩ := by
  obtain ⟨hget, hsend⟩ := handlePeerIndex_spec e x
  rw [handle, hsend c, Index.headsAt, hget c.path]
  have hmem (h : Head) : h ∈ missing (e.index.get c.path) (x.get c.path) ↔
      h ∈ (reconciled (e.index.get c.path) (x.get c.path)).elim [] Entry.heads ∧
        ∀ g ∈ x.headsAt c.path, ¬h.version ≤ g.version := by
    unfold Index.headsAt missing reconciled
    cases x.get c.path with
    | none => simp
    | some r =>
      have hcov := covered_iff h.version r.heads
      simp only [List.mem_filter, Option.elim_some, Bool.not_eq_true', ← Bool.not_eq_true, hcov]
      push Not
      rfl
  simp only [hmem, and_assoc]

/-- Absorbing a head that is held already changes nothing. -/
theorem absorbRemote_held (hh : h ∈ e.index.headsAt p) :
    e.absorbRemote p h.state h.version = (e, []) := by
  obtain ⟨entry, hg, hm⟩ := Index.mem_headsAt.1 hh
  have hk : entry.knows h.version = true := (entry.knows_iff _).2 ⟨h, hm, le_rfl⟩
  rw [absorbRemote, hg]
  dsimp only
  rw [Entry.absorb_known hk]

theorem collect_idle {f : Engine → α → Engine × List Action} {l : List α}
    (hf : ∀ a ∈ l, f e a = (e, [])) : collect f e l = (e, []) := by
  induction l with
  | nil => rfl
  | cons a l ih =>
    have hrest := ih fun b hb => hf b (List.mem_cons_of_mem a hb)
    rw [collect_cons, hf a List.mem_cons_self, hrest]
    rfl

/-- An engine that holds the heads of its peer has nothing to absorb, apply or send. -/
theorem handlePeerIndex_idle (hx : ∀ p h, h ∈ e.index.headsAt p ↔ h ∈ x.headsAt p) :
    e.handle (.peerIndex x) = (e, []) := by
  rw [handle, handlePeerIndex]
  apply collect_idle
  intro p _
  unfold reconcilePath
  cases hr : x.get p with
  | none =>
    dsimp only
    cases hl : e.index.get p with
    | none => rfl
    | some entry =>
      have hnil : entry.heads = [] := by
        rw [List.eq_nil_iff_forall_not_mem]
        intro h hh
        obtain ⟨r, hr', _⟩ := Index.mem_headsAt.1 ((hx p h).1 (Index.mem_headsAt.2 ⟨entry, hl, hh⟩))
        rw [hr] at hr'
        cases hr'
      dsimp only
      rw [hnil]
      rfl
  | some r =>
    have hin (h : Head) (hh : h ∈ r.heads) : h ∈ e.index.headsAt p :=
      (hx p h).2 (Index.mem_headsAt.2 ⟨r, hr, hh⟩)
    have habs : e.absorbHeads p r.heads = (e, []) :=
      collect_idle fun h hh => absorbRemote_held (hin h hh)
    dsimp only
    rw [habs]
    dsimp only
    cases hl : e.index.get p with
    | none => rfl
    | some entry =>
      have hnone : entry.heads.filter (fun h => !covered h.version r.heads) = [] := by
        rw [List.filter_eq_nil_iff]
        intro h hh
        obtain ⟨r', hr', hm⟩ := Index.mem_headsAt.1 ((hx p h).1 (Index.mem_headsAt.2 ⟨entry, hl, hh⟩))
        rw [hr] at hr'
        cases hr'
        have hcov := (covered_iff h.version r.heads).2 ⟨h, hm, le_rfl⟩
        simp [hcov]
      dsimp only
      rw [hnone]
      rfl

end Engine

def Side.other : Side → Side
  | .a => .b
  | .b => .a

theorem Side.other_ne (i : Side) : i ≠ i.other := by
  cases i <;> decide

theorem Side.eq_other {i j : Side} (h : i ≠ j) : j = i.other := by
  cases i <;> cases j <;> first | rfl | exact (h rfl).elim

namespace Net

/-- The pair as it reconnects: whatever was in flight is lost, and each side ships its reconcile
stream for the index of the other, which it has taken in itself or not. -/
def reconnected (s : Net Side) (took : Side → Bool) : Net Side where
  engine i := bif took i then ((s.engine i).handle (.peerIndex (s.engine i.other).index)).1
    else s.engine i
  sent i := sends ((s.engine i).handle (.peerIndex (s.engine i.other).index)).2
  delivered _ := []
  snapshots _ := []

/-- What happens after that: the users edit, and the link delivers what was sent since, in any
order and any number of times. -/
inductive Exchange : Net Side → Net Side → Prop where
  | local (t : Net Side) (i : Side) (c : LocalChange) : Exchange t (t.handle i (.local c))
  | deliver (t : Net Side) (i j : Side) (c : RemoteChange) (hij : i ≠ j) (hc : c ∈ t.sent j) :
    Exchange t (t.handle i (.remote c))

/-- What holds after a reconnect beside the invariant of a whole run `u`: what one side knows
is known to the other or on its way. -/
structure Recovering (ids : Side → ReplicaId) (u t : Net Side) (K : Side → RelPath → Set Head) :
    Prop where
  inv : Inv ids u K
  engine : u.engine = t.engine
  sent : ∀ i, ∀ c ∈ t.sent i, c.head ∈ K i c.path
  delivered : ∀ i, ∀ c ∈ t.delivered i, c.head ∈ K i c.path
  covered : ∀ i p, ∀ h ∈ K i p, (∃ g ∈ K i.other p, h.version ≤ g.version) ∨
    ∃ c ∈ t.sent i, c.path = p ∧ h.version ≤ c.version

section
variable {ids : Side → ReplicaId} {s t u : Net Side} {K : Side → RelPath → Set Head}

/-- One side reconnects: it takes the other's index in or only answers it. -/
theorem Inv.reconnect (h : Inv ids s K) (i : Side) {x : Index} (took : Bool)
    (hx : ∀ p e, x.get p = some e → ∀ g ∈ e.heads, g ∈ s.Minted p) :
    ∃ u L, (∀ p, K i p ⊆ L p) ∧ (∀ p, ∀ g ∈ L p, g ∈ K i p ∨ g ∈ x.headsAt p) ∧
      Inv ids u (Function.update K i L) ∧ (∀ p, u.Minted p = s.Minted p) ∧
      u.engine = Function.update s.engine i
        (bif took then ((s.engine i).handle (.peerIndex x)).1 else s.engine i) := by
  cases took with
  | true =>
    obtain ⟨L, hlow, hup, hinv, hm⟩ := h.peerIndex i hx
    exact ⟨_, L, hlow, fun p g hg => (hup p g hg).imp_right Index.mem_headsAt.2, hinv, hm, rfl⟩
  | false =>
    refine ⟨s, K i, fun _ => subset_rfl, fun _ _ hg => .inl hg, ?_, fun _ => rfl, ?_⟩
    · rwa [Function.update_eq_self]
    · rw [cond_false, Function.update_eq_self]

/-- A reconcile stream ships heads of the side's own, and all that the other side lacks. -/
theorem Inv.stream (h : Inv ids s K) (i : Side) :
    (∀ c ∈ sends ((s.engine i).handle (.peerIndex (s.engine i.other).index)).2,
        c.head ∈ K i c.path) ∧
      ∀ p, ∀ g ∈ K i p, (∃ g' ∈ K i.other p, g.version ≤ g'.version) ∨
        ∃ c ∈ sends ((s.engine i).handle (.peerIndex (s.engine i.other).index)).2,
          c.path = p ∧ g.version ≤ c.version := by
  have hpeer (p : RelPath) := ((h.shows i.other).frontier p).subset
  obtain ⟨_, hs⟩ := Engine.handlePeerIndex_learns (s.engine i) (s.engine i.other).index
    (S := fun p => {g | g ∈ (s.engine i.other).index.headsAt p})
    fun p e he g hg => Index.mem_headsAt.2 ⟨e, he, hg⟩
  obtain ⟨L, hshow, hlow, hup, _⟩ := hs _ (h.shows i)
  have hfront (p : RelPath) : Frontier Head.version
      {g | g ∈ ((s.engine i).handle (.peerIndex (s.engine i.other).index)).1.index.headsAt p}
      (L p) := Index.Shows.frontier hshow p
  constructor
  · intro c hc
    obtain ⟨g, hg, hnew, hcg⟩ := (Engine.mem_stream ..).1 hc
    have hhead : c.head = g := by
      rw [hcg]
      simp [RemoteChange.head]
    rw [hhead]
    rcases hup _ ((hfront c.path).subset hg) with hown | hother
    · exact hown
    · exact (hnew g hother le_rfl).elim
  · intro p g hg
    obtain ⟨f, hf, hgf⟩ := (hfront p).cofinal g (hlow p hg)
    by_cases hcov : ∃ g' ∈ (s.engine i.other).index.headsAt p, f.version ≤ g'.version
    · obtain ⟨g', hg', hfg⟩ := hcov
      exact .inl ⟨g', hpeer p hg', hgf.trans hfg⟩
    · refine .inr ⟨⟨p, kindFromState f.state, f.version⟩, ?_, rfl, hgf⟩
      refine (Engine.mem_stream ..).2 ⟨f, hf, fun g' hg' hle => hcov ⟨g', hg', hle⟩, rfl⟩

/-- A pair that reconnects is recovering. -/
theorem Inv.recovering (h : Inv ids s K) (took : Side → Bool) :
    ∃ u K', Recovering ids u (s.reconnected took) K' := by
  have hheads (i : Side) (p : RelPath) (e : Entry) (he : (s.engine i).index.get p = some e)
      (g : Head) (hg : g ∈ e.heads) : g ∈ s.Minted p := h.heads_minted he hg
  obtain ⟨v, A, hlowA, hupA, hv, hmv, hev⟩ := h.reconnect .a (took .a) (hheads .b)
  obtain ⟨u, B, hlowB, hupB, hu, _, heu⟩ := hv.reconnect .b (took .b)
    (x := (s.engine .a).index) fun p e he g hg => by
      rw [hmv p]
      exact hheads .a p e he g hg
  have hshow (i : Side) (p : RelPath) (g : Head) (hg : g ∈ (s.engine i).index.headsAt p) :
      g ∈ K i p := ((h.shows i).frontier p).subset hg
  -- after both sides have done so, what each knows is its own or a head of the other
  obtain ⟨K', hK'⟩ : ∃ K', K' = Function.update (Function.update K .a A) .b B := ⟨_, rfl⟩
  have hlow (i : Side) (p : RelPath) : K i p ⊆ K' i p := by
    rw [hK']
    exact fun g hg => subset_update hlowB i p (subset_update hlowA i p hg)
  have hup (i : Side) (p : RelPath) (g : Head) (hg : g ∈ K' i p) : g ∈ K i p ∨ g ∈ K i.other p := by
    rw [hK'] at hg
    cases i with
    | a => exact (hupA p g hg).imp_right (hshow .b p g)
    | b => exact (hupB p g hg).imp_right (hshow .a p g)
  refine ⟨u, K', hK' ▸ hu, ?_, ?_, ?_, ?_⟩
  · funext i
    cases i with
    | a =>
      rw [heu, hev]
      rfl
    | b =>
      rw [heu, hev]
      rfl
  · intro i c hc
    exact hlow i _ ((h.stream i).1 c hc)
  · intro i c hc
    cases hc
  · intro i p g hg
    rcases hup i p g hg with hg | hg
    · rcases (h.stream i).2 p g hg with ⟨g', hg', hle⟩ | hc
      · exact .inl ⟨g', hlow _ p hg', hle⟩
      · exact .inr hc
    · exact .inl ⟨g, hlow _ p hg, le_rfl⟩

/-- Learning a version the other side knows, or one that is on its way, keeps a pair recovering. -/
theorem Recovering.learn (h : Recovering ids u t K) {i : Side} {ev : Event} {L : RelPath → Set Head}
    (hinv : Inv ids (u.handle i ev) (Function.update K i L)) (hlow : ∀ p, K i p ⊆ L p)
    (hsend : ∀ c ∈ sends ((t.engine i).handle ev).2, c.head ∈ L c.path)
    (hrecv : ∀ c ∈ ev.received, c.head ∈ L c.path)
    (hup : ∀ p, ∀ g ∈ L p, g ∈ K i p ∨ g ∈ K i.other p ∨
      ∃ c ∈ sends ((t.engine i).handle ev).2, c.path = p ∧ c.head = g) :
    Recovering ids (u.handle i ev) (t.handle i ev) (Function.update K i L) where
  inv := hinv
  engine := by
    rw [Net.handle, Net.handle, h.engine]
  sent j c hc := by
    rcases mem_update_append.1 hc with hc | ⟨rfl, hc⟩
    · exact subset_update hlow j _ (h.sent j c hc)
    · simpa using hsend c hc
  delivered j c hc := by
    rcases mem_update_append.1 hc with hold | ⟨rfl, hnew⟩
    · exact subset_update hlow j _ (h.delivered j c hold)
    · simpa using hrecv c hnew
  covered j p g hg := by
    have hold (hg : g ∈ K j p) : (∃ g' ∈ Function.update K i L j.other p, g.version ≤ g'.version) ∨
        ∃ c ∈ (t.handle i ev).sent j, c.path = p ∧ g.version ≤ c.version := by
      rcases h.covered j p g hg with ⟨g', hg', hle⟩ | ⟨c, hc, hp, hle⟩
      · exact .inl ⟨g', subset_update hlow _ p hg', hle⟩
      · exact .inr ⟨c, mem_update_append.2 (.inl hc), hp, hle⟩
    by_cases hj : j = i
    · subst j
      rw [Function.update_self] at hg
      rcases hup p g hg with hg | hg | ⟨c, hc, hp, rfl⟩
      · exact hold hg
      · exact .inl ⟨g, subset_update hlow _ p hg, le_rfl⟩
      · exact .inr ⟨c, mem_update_append.2 (.inr ⟨rfl, hc⟩), hp, le_rfl⟩
    · rw [Function.update_of_ne hj] at hg
      exact hold hg

theorem Exchange.recovering (hids : Function.Injective ids) (h : Recovering ids u t K)
    (hstep : Exchange t t') : ∃ u' K', Recovering ids u' t' K' := by
  cases hstep with
  | «local» i c =>
    have heng : u.engine i = t.engine i := congrFun h.engine i
    rcases h.inv.local hids i c with ⟨hinv, hsend⟩ | ⟨hinv, hsend⟩
    · have hself : Function.update K i (K i) = K := Function.update_eq_self i K
      rw [← hself] at hinv
      rw [heng] at hsend
      refine ⟨_, _, h.learn hinv (fun _ => subset_rfl) ?_ ?_ fun p g hg => .inl hg⟩
      · intro c' hc'
        rw [hsend] at hc'
        cases hc'
      · intro c' hc'
        cases hc'
    · refine ⟨_, _, h.learn hinv ?_ ?_ ?_ ?_⟩
      · exact fun p g hg => mem_addHead.2 (.inl hg)
      · intro c' hc'
        rw [← heng, hsend, List.mem_singleton] at hc'
        subst c'
        exact mem_addHead.2 (.inr ⟨rfl, rfl⟩)
      · intro c' hc'
        cases hc'
      · intro p g hg
        rcases mem_addHead.1 hg with hg | ⟨rfl, rfl⟩
        · exact .inl hg
        · rw [← heng, hsend]
          exact .inr (.inr ⟨_, List.mem_singleton_self _, rfl, rfl⟩)
  | deliver i j c hij hc =>
    obtain rfl := Side.eq_other hij
    have hknown := h.sent _ c hc
    obtain ⟨_, _, hsend⟩ := Engine.absorbRemote_spec (t.engine i) c.path (stateFromKind c.kind)
      c.version
    refine ⟨_, _, h.learn (h.inv.deliver i (h.inv.minted _ _ hknown)).1 ?_ ?_ ?_ ?_⟩
    · exact fun p g hg => mem_addHead.2 (.inl hg)
    · intro c' hc'
      rw [Engine.handle, Engine.handleRemote, hsend] at hc'
      cases hc'
    · intro c' hc'
      rw [Event.received, List.mem_singleton] at hc'
      subst c'
      exact mem_addHead.2 (.inr ⟨rfl, rfl⟩)
    · intro p g hg
      rcases mem_addHead.1 hg with hg | ⟨rfl, rfl⟩
      · exact .inl hg
      · exact .inr (.inl hknown)

/-- Once everything sent since is delivered, both sides hold the same heads. -/
theorem Recovering.agree (h : Recovering ids u t K) (hall : t.AllDelivered) (p : RelPath)
    (g : Head) : g ∈ (t.engine .a).index.headsAt p ↔ g ∈ (t.engine .b).index.headsAt p := by
  have hcov (i : Side) : ∀ g ∈ K i p, ∃ g' ∈ K i.other p, g.version ≤ g'.version := by
    intro g hg
    rcases h.covered i p g hg with hle | ⟨c, hc, rfl, hle⟩
    · exact hle
    · have hd := h.delivered _ c (hall i.other i i.other_ne.symm c hc)
      exact ⟨c.head, hd, hle⟩
  have hfront (i : Side) : Frontier Head.version {g | g ∈ (t.engine i).index.headsAt p} (K i p) := by
    rw [← h.engine]
    exact (h.inv.shows i).frontier p
  have hnames : Names Head.version (K .a p ∪ K .b p) :=
    (h.inv.names p).mono (Set.union_subset (h.inv.minted .a p) (h.inv.minted .b p))
  exact Set.ext_iff.1 ((hfront .a).eq_of_cofinal (hfront .b) hnames (hcov .b) (hcov .a)) g

end

/-- Whatever was lost, delivering the reconcile streams and what is edited meanwhile makes both
sides hold the same heads, and reconciling once more finds nothing to do. -/
theorem Run.recovers {ids : Side → ReplicaId} {s t : Net Side} (hids : ids .a ≠ ids .b)
    (hrun : Run ids s) (took : Side → Bool)
    (hex : Relation.ReflTransGen Exchange (s.reconnected took) t) (hall : t.AllDelivered) :
    (∀ p h, h ∈ (t.engine .a).index.headsAt p ↔ h ∈ (t.engine .b).index.headsAt p) ∧
      ∀ i, (t.engine i).handle (.peerIndex (t.engine i.other).index) = (t.engine i, []) := by
  have hinj := Side.injective hids
  have hrec : ∃ u K, Recovering ids u t K := by
    clear hall
    induction hex with
    | refl =>
      obtain ⟨K, h⟩ := hrun.inv hinj
      exact h.recovering took
    | tail _ hstep ih =>
      obtain ⟨u, K, h⟩ := ih
      exact hstep.recovering hinj h
  obtain ⟨u, K, h⟩ := hrec
  have hsame := h.agree hall
  refine ⟨hsame, fun i => Engine.handlePeerIndex_idle fun p g => ?_⟩
  cases i with
  | a => exact hsame p g
  | b => exact (hsame p g).symm

end Net

/-- Both sides create the same path and lose each other's version. -/
def lostRun : Net Side :=
  ((Net.init twinIds).handle .a (.local ⟨twinPath, .modified (twinSig 1)⟩)).handle .b
    (.local ⟨twinPath, .modified (twinSig 2)⟩)

/-- They reconnect, and the reconcile streams arrive. -/
def regained : Net Side :=
  ((lostRun.reconnected fun _ => false).handle .a (.remote (twinChange .b))).handle .b
    (.remote (twinChange .a))

theorem regained_sent (i : Side) : regained.sent i = [twinChange i] := by
  cases i <;> decide

theorem lost_recovers :
    (∀ p h, h ∈ (regained.engine .a).index.headsAt p ↔ h ∈ (regained.engine .b).index.headsAt p) ∧
      ∀ i, (regained.engine i).handle (.peerIndex (regained.engine i.other).index) =
        (regained.engine i, []) := by
  refine @Net.Run.recovers twinIds lostRun regained (by decide) ?_ (fun _ => false) ?_ ?_
  · have ha := Net.Step.local (Net.init twinIds) .a ⟨twinPath, .modified (twinSig 1)⟩
    exact .tail (.single ha) (.local _ Side.b ⟨twinPath, .modified (twinSig 2)⟩)
  · have hb := Net.Exchange.deliver (lostRun.reconnected fun _ => false) .a .b (twinChange .b)
    refine .tail (.single (hb ?_ ?_)) (.deliver _ Side.b Side.a (twinChange .a) ?_ ?_)
    all_goals decide
  · intro i j hij c hc
    rw [regained_sent, List.mem_singleton] at hc
    subst c
    cases i <;> cases j <;> first | exact (hij rfl).elim | decide

end Tomo
