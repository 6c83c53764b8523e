import Tomo.Engine.Overflow
import Tomo.Engine.Surfacing

namespace Tomo
set_option autoImplicit true

namespace Engine

/-- The elementary steps of an event: a local change, one version absorbed, one answer shipped. -/
inductive Move where
  | local (c : LocalChange)
  | absorb (p : RelPath) (h : Head)
  | ship (p : RelPath) (peer : Option Entry)

/-- An engine right after a move, and what the move emitted. -/
structure Moment where
  engine : Engine
  actions : List Action

/-- Whether an emission records a version of the path. -/
def Moment.Records (m : Moment) (p : RelPath) (h : Head) : Prop :=
  .recordVersion p h.state h.version ∈ m.actions

section
variable (tick : VectorClock → ReplicaId → VectorClock)

def make (e : Engine) : Move → Engine × List Action
  | .local c => e.handleLocalBy tick c
  | .absorb p h => e.absorbRemote p h.state h.version
  | .ship p peer =>
    let missing := (e.index.headsAt p).filter fun h => !peer.any fun r => covered h.version r.heads
    (e, missing.map (sendHead p))

def moves (e : Engine) : Event → List Move
  | .local c => [.local c]
  | .remote c => [.absorb c.path ⟨c.version, stateFromKind c.kind⟩]
  | .peerIndex i => (unionPaths e.index i).flatMap fun p =>
      (i.headsAt p).map (.absorb p) ++ [.ship p (i.get p)]

def trail (e : Engine) : List Move → List Moment
  | [] => []
  | m :: ms => ⟨(e.make tick m).1, (e.make tick m).2⟩ :: trail (e.make tick m).1 ms

/-- Every moment of a run. -/
def moments (e : Engine) : List Event → List Moment
  | [] => []
  | ev :: evs => trail tick e (e.moves ev) ++ moments (e.handleBy tick ev).1 evs

end

variable {tick : VectorClock → ReplicaId → VectorClock} {e : Engine}

theorem collect_append (f : Engine → α → Engine × List Action) (e : Engine) (l l' : List α) :
    collect f e (l ++ l') = ((collect f (collect f e l).1 l').1,
      (collect f e l).2 ++ (collect f (collect f e l).1 l').2) := by
  induction l generalizing e with
  | nil => rfl
  | cons a l ih =>
    rw [List.cons_append, collect_cons, collect_cons, ih]
    simp only [List.append_assoc]

theorem collect_flatMap (f : Engine → α → Engine × List Action) (g : β → List α) (e : Engine)
    (l : List β) : collect f e (l.flatMap g) = collect (fun e b => collect f e (g b)) e l := by
  induction l generalizing e with
  | nil => rfl
  | cons b l ih => rw [List.flatMap_cons, collect_append, collect_cons, ih]

theorem collect_map (f : Engine → α → Engine × List Action) (g : β → α) (e : Engine) (l : List β) :
    collect f e (l.map g) = collect (fun e b => f e (g b)) e l := by
  induction l generalizing e with
  | nil => rfl
  | cons b l ih => rw [List.map_cons, collect_cons, collect_cons, ih]

theorem reconcilePath_moves (remote : Index) (e : Engine) (p : RelPath) :
    reconcilePath remote e p =
      collect (make tick) e ((remote.headsAt p).map (.absorb p) ++ [.ship p (remote.get p)]) := by
  rw [collect_append, collect_map, collect_cons, collect_nil]
  unfold reconcilePath absorbHeads Index.headsAt
  cases remote.get p with
  | none =>
    simp only [Option.elim_none, collect_nil, make, Index.headsAt]
    cases e.index.get p with
    | none => rfl
    | some entry => simp
  | some r =>
    simp only [Option.elim_some, make, Index.headsAt]
    generalize collect _ e r.heads = absorbed
    cases absorbed.1.index.get p with
    | none => simp
    | some entry => simp

/-- An event is its moves. -/
theorem handleBy_moves (e : Engine) (ev : Event) :
    e.handleBy tick ev = collect (make tick) e (e.moves ev) := by
  cases ev with
  | «local» c =>
    rw [moves, collect_cons, collect_nil, List.append_nil]
    rfl
  | remote c =>
    rw [moves, collect_cons, collect_nil, List.append_nil]
    rfl
  | peerIndex i =>
    have hpath : reconcilePath i = fun e p =>
        collect (make tick) e ((i.headsAt p).map (.absorb p) ++ [.ship p (i.get p)]) := by
      funext e p
      exact reconcilePath_moves i e p
    rw [moves, collect_flatMap, handleBy, handlePeerIndex, hpath]

/-- A trail ends where its moves lead, and emits what they do. -/
theorem trail_collect (e : Engine) (ms : List Move) :
    collect (make tick) e ms = ((trail tick e ms).getLast?.elim e Moment.engine,
      (trail tick e ms).flatMap Moment.actions) := by
  induction ms generalizing e with
  | nil => rfl
  | cons m ms ih =>
    rw [collect_cons, ih, trail, List.flatMap_cons, List.getLast?_cons]
    cases (trail tick (e.make tick m).1 ms).getLast? with
    | none => rfl
    | some m' => rfl

/-- The moments of a run end where the run ends, and emit what it does. -/
theorem moments_collect (e : Engine) (evs : List Event) :
    collect (handleBy tick) e evs = ((moments tick e evs).getLast?.elim e Moment.engine,
      (moments tick e evs).flatMap Moment.actions) := by
  induction evs generalizing e with
  | nil => rfl
  | cons ev evs ih =>
    have htrail : e.handleBy tick ev = _ :=
      (e.handleBy_moves ev).trans (trail_collect e (e.moves ev))
    have hend := congrArg Prod.fst htrail
    have hacts := congrArg Prod.snd htrail
    rw [collect_cons, ih, moments, List.flatMap_append, List.getLast?_append, hacts]
    cases hlast : (moments tick (e.handleBy tick ev).1 evs).getLast? with
    | none =>
      rw [Option.elim_none, Option.none_or]
      exact Prod.ext hend rfl
    | some m => rfl

/-- An absorb records its version exactly when it is not known and no head has its content. -/
theorem absorbRemote_records (e : Engine) (p : RelPath) (s : EntryState) (v : VectorClock)
    (q : RelPath) (g : Head) :
    .recordVersion q g.state g.version ∈ (e.absorbRemote p s v).2 ↔ q = p ∧ g = ⟨v, s⟩ ∧
      ∀ h ∈ e.index.headsAt p, ¬v ≤ h.version ∧ sameContent h.state s = false := by
  have heq : Action.recordVersion q g.state g.version = .recordVersion p s v ↔
      q = p ∧ g = ⟨v, s⟩ := by
    cases g
    simp only [Action.recordVersion.injEq, Head.mk.injEq]
    tauto
  unfold Index.headsAt
  cases hg : e.index.get p with
  | none =>
    rw [absorbRemote, hg]
    cases s with
    | present sig => simp [remoteUnseen, emitApply, heq]
    | tombstone => simp [remoteUnseen, heq]
  | some entry =>
    rcases absorb_outcome entry v s with ⟨hk, he⟩ | ⟨hk, w, c, n, ho⟩
    · obtain ⟨h, hh, hle⟩ := (entry.knows_iff v).1 hk
      simp only [absorbRemote, hg, he, List.not_mem_nil, Option.elim_some, false_iff]
      rintro ⟨_, _, hall⟩
      exact (hall h hh).1 hle
    · have hn : n = true ↔ ∀ h ∈ entry.heads, ¬v ≤ h.version ∧ sameContent h.state s = false := by
        rw [Entry.absorb, if_neg (by simp [hk])] at ho
        cases ho
        have hunknown : ∀ h ∈ entry.heads, ¬v ≤ h.version := by
          intro h hh hle
          rw [(entry.knows_iff v).2 ⟨h, hh, hle⟩] at hk
          cases hk
        simp only [Bool.not_eq_true', List.any_eq_false, Bool.not_eq_true]
        exact forall₂_congr fun h hh => (and_iff_right (hunknown h hh)).symm
      have he : entry.absorb v s = ((entry.absorb v s).1, .absorbed w c n) := by rw [← ho]
      generalize (entry.absorb v s).1 = after at he
      have happly : .recordVersion q g.state g.version ∉
          (if w then e.emitApply p (expectationFromState after.winner.state) else (e, [])).2 := by
        cases w <;> simp [emitApply]
      have hnote : .recordVersion q g.state g.version ∉
          (if c then conflictActions p after else []) := by
        cases c <;> simp [conflictActions]
      simp only [absorbRemote, hg, he, List.mem_append, happly, hnote, false_or, Option.elim_some,
        ← hn]
      cases n with
      | true => simpa using heq
      | false => simp

/-- The content of every head of the engine has been recorded. -/
def Covered (past : List Moment) (e : Engine) : Prop :=
  ∀ p, ∀ g ∈ e.index.headsAt p, ∃ m ∈ past, ∃ h : Head, m.Records p h ∧
    sameContent h.state g.state = true

/-- At each moment, the heads there are have been recorded and what is recorded is a head. -/
def Accounted (past log : List Moment) : Prop :=
  ∀ pre m post, log = pre ++ m :: post →
    Covered (past ++ pre ++ [m]) m.engine ∧ ∀ p h, m.Records p h → h ∈ m.engine.index.headsAt p

theorem Covered.idle (h : Covered past e) (hi : e'.index = e.index) (m : Moment) :
    Covered (past ++ [m]) e' := by
  intro p g hg
  rw [hi] at hg
  obtain ⟨m', hm', hr⟩ := h p g hg
  exact ⟨m', List.mem_append_left _ hm', hr⟩

/-- A move that adds one version leaves everything covered if the version or its content is. -/
theorem Covered.add (h : Covered past e) {m : Moment} (p : RelPath) (k : Head)
    (hnew : ∀ q, ∀ g ∈ m.engine.index.headsAt q, g ∈ e.index.headsAt q ∨ q = p ∧ g = k)
    (hrec : m.Records p k ∨ k ∈ e.index.headsAt p ∨
      ∃ g ∈ e.index.headsAt p, sameContent g.state k.state = true) :
    Covered (past ++ [m]) m.engine := by
  have hold (q : RelPath) (g : Head) (hg : g ∈ e.index.headsAt q) :
      ∃ m' ∈ past ++ [m], ∃ h : Head, m'.Records q h ∧ sameContent h.state g.state = true := by
    obtain ⟨m', hm', hr⟩ := h q g hg
    exact ⟨m', List.mem_append_left _ hm', hr⟩
  intro q g hg
  rcases hnew q g hg with hg | ⟨rfl, rfl⟩
  · exact hold q g hg
  · rcases hrec with hrec | hheld | ⟨k, hk, hsame⟩
    · exact ⟨m, List.mem_append_right _ (List.mem_singleton_self m), g, hrec,
        (sameContent_iff _ _).2 rfl⟩
    · exact hold q g hheld
    · obtain ⟨m', hm', k', hr, hsame'⟩ := hold q k hk
      rw [sameContent_iff] at hsame hsame'
      exact ⟨m', hm', k', hr, (sameContent_iff _ _).2 (hsame'.trans hsame)⟩

theorem mintBy_headsAt (e : Engine) (p : RelPath) (base : VectorClock) (s : EntryState)
    (q : RelPath) : (e.mintBy tick p base s).1.index.headsAt q =
      if p = q then [⟨tick base e.replica, s⟩] else e.index.headsAt q := by
  rw [mintBy, Index.headsAt, Index.get_upsert]
  split
  · rfl
  · rfl

theorem Covered.mint (h : Covered past e) (p : RelPath) (base : VectorClock) (s : EntryState) :
    Covered (past ++ [⟨(e.mintBy tick p base s).1, (e.mintBy tick p base s).2⟩])
      (e.mintBy tick p base s).1 := by
  apply Covered.add h p ⟨tick base e.replica, s⟩
  case hnew =>
    intro q g hg
    rw [mintBy_headsAt] at hg
    split at hg
    next hp => exact .inr ⟨hp.symm, List.mem_singleton.1 hg⟩
    next => exact .inl hg
  case hrec => exact .inl (List.mem_cons_of_mem _ List.mem_cons_self)

theorem absorbRemote_headsAt (e : Engine) (p : RelPath) (s : EntryState) (v : VectorClock)
    (q : RelPath) : (e.absorbRemote p s v).1.index.headsAt q =
      if p = q then (absorbed (e.index.get p) v s).heads else e.index.headsAt q := by
  obtain ⟨_, hget, _⟩ := absorbRemote_spec e p s v
  rw [Index.headsAt, hget q]
  split
  · rfl
  · rfl

theorem Covered.absorb (h : Covered past e) (p : RelPath) (s : EntryState) (v : VectorClock) :
    Covered (past ++ [⟨(e.absorbRemote p s v).1, (e.absorbRemote p s v).2⟩])
      (e.absorbRemote p s v).1 := by
  by_cases hknown : ∃ k ∈ e.index.headsAt p, v ≤ k.version
  · obtain ⟨k, hk, hle⟩ := hknown
    obtain ⟨entry, he, hm⟩ := Index.mem_headsAt.1 hk
    apply h.idle
    rw [absorbRemote, he]
    dsimp only
    rw [Entry.absorb_known ((entry.knows_iff v).2 ⟨k, hm, hle⟩)]
  · apply Covered.add h p ⟨v, s⟩
    case hnew =>
      intro q g hg
      rw [absorbRemote_headsAt] at hg
      split at hg
      next hp =>
        subst hp
        rcases mem_absorbed hg with rfl | hg
        · exact .inr ⟨rfl, rfl⟩
        · exact .inl hg
      next => exact .inl hg
    case hrec =>
      by_cases hsame : ∃ k ∈ e.index.headsAt p, sameContent k.state s = true
      · exact .inr (.inr hsame)
      · left
        rw [Moment.Records, absorbRemote_records]
        refine ⟨rfl, rfl, fun k hk => ⟨fun hle => hknown ⟨k, hk, hle⟩, ?_⟩⟩
        rw [Bool.eq_false_iff]
        exact fun hs => hsame ⟨k, hk, hs⟩

/-- One move keeps every head recorded. -/
theorem Covered.make (h : Covered past e) (tick : VectorClock → ReplicaId → VectorClock)
    (m : Move) :
    Covered (past ++ [⟨(e.make tick m).1, (e.make tick m).2⟩]) (e.make tick m).1 := by
  cases m with
  | «local» c =>
    have hspec := handleLocalBy_spec tick e c
    rw [Engine.make]
    split at hspec
    · exact h.idle hspec.1 _
    · rw [hspec]
      exact h.mint c.path (e.index.base c.path) (stateFromKind c.kind)
  | absorb p head => exact h.absorb p head.state head.version
  | ship p peer => exact h.idle rfl _

/-- A move records heads of the engine it leaves only. -/
theorem make_records (m : Move) (hm : .recordVersion p g.state g.version ∈ (e.make tick m).2) :
    g ∈ (e.make tick m).1.index.headsAt p := by
  cases m with
  | «local» c =>
    have hspec := handleLocalBy_spec tick e c
    rw [Engine.make] at hm ⊢
    split at hspec
    · rw [hspec.2.2] at hm
      cases hm
    · rw [hspec, mintBy] at hm
      rw [hspec, mintBy_headsAt]
      have hrec : p = c.path ∧ g.state = stateFromKind c.kind ∧
          g.version = tick (e.index.base c.path) e.replica := by simpa using hm
      obtain ⟨rfl, hs, hv⟩ := hrec
      rw [if_pos rfl, ← hs, ← hv]
      exact List.mem_singleton_self g
  | absorb q head =>
    rw [Engine.make, absorbRemote_records] at hm
    obtain ⟨rfl, rfl, hnew⟩ := hm
    rw [Engine.make, absorbRemote_headsAt, if_pos rfl]
    cases hg : e.index.get p with
    | none => exact List.mem_singleton_self _
    | some entry =>
      have hk : entry.knows head.version = false := by
        rw [Bool.eq_false_iff]
        intro hk
        obtain ⟨k, hk, hle⟩ := (entry.knows_iff head.version).1 hk
        exact (hnew k (Index.mem_headsAt.2 ⟨entry, hg, hk⟩)).1 hle
      exact (Entry.mem_absorb hk head.state).2 (.inl rfl)
  | ship q peer => simp [Engine.make, sendHead] at hm

theorem Accounted.append (h : Accounted past log) (h' : Accounted (past ++ log) log') :
    Accounted past (log ++ log') := by
  intro pre m post heq
  rcases List.append_eq_append_iff.1 heq with ⟨mid, rfl, rfl⟩ | ⟨mid, rfl, hpost⟩
  · have hlater := h' mid m post rfl
    rwa [List.append_assoc past log mid] at hlater
  · cases mid with
    | nil =>
      have hfirst := h' [] m post hpost.symm
      rwa [List.append_nil, List.append_nil] at hfirst
    | cons k mid =>
      cases hpost
      exact h pre m mid rfl

theorem Accounted.single (hc : Covered (past ++ [m]) m.engine)
    (hr : ∀ p h, m.Records p h → h ∈ m.engine.index.headsAt p) : Accounted past [m] := by
  intro pre m' post heq
  cases pre with
  | nil =>
    cases heq
    rw [List.append_nil]
    exact ⟨hc, hr⟩
  | cons k pre => simp at heq

/-- Moves keep the account, one by one. -/
theorem Covered.trail (h : Covered past e) (tick : VectorClock → ReplicaId → VectorClock)
    (ms : List Move) :
    Accounted past (trail tick e ms) ∧
      Covered (past ++ trail tick e ms) (collect (Engine.make tick) e ms).1 := by
  induction ms generalizing past e with
  | nil =>
    rw [Engine.trail, List.append_nil]
    exact ⟨fun pre m post heq => by simp at heq, h⟩
  | cons m ms ih =>
    have hmake := h.make tick m
    have hfirst := Accounted.single hmake fun p g => make_records m
    obtain ⟨hrest, hend⟩ := ih hmake
    rw [List.append_assoc] at hend
    rw [collect_cons]
    exact ⟨hfirst.append hrest, hend⟩

/-- Events keep the account. -/
theorem Covered.moments (h : Covered past e) (tick : VectorClock → ReplicaId → VectorClock)
    (evs : List Event) :
    Accounted past (moments tick e evs) := by
  induction evs generalizing past e with
  | nil => exact fun pre m post heq => by simp [Engine.moments] at heq
  | cons ev evs ih =>
    obtain ⟨hfirst, hend⟩ := h.trail tick (e.moves ev)
    rw [← handleBy_moves] at hend
    exact hfirst.append (ih hend)

theorem covered_new (r : ReplicaId) (past : List Moment) : Covered past (.new r .new) := by
  intro p g hg
  rw [Engine.new, Index.headsAt, Index.get_new] at hg
  cases hg

/-- In every run from an empty index, whatever `tick` does, a content that a head carries has been
recorded by the time the head is there, and what is recorded is a head right then. -/
theorem moments_recorded (tick : VectorClock → ReplicaId → VectorClock) (r : ReplicaId)
    (evs : List Event) :
    collect (handleBy tick) (.new r .new) evs =
        ((moments tick (.new r .new) evs).getLast?.elim (.new r .new) Moment.engine,
          (moments tick (.new r .new) evs).flatMap Moment.actions) ∧
      ∀ pre m post, moments tick (.new r .new) evs = pre ++ m :: post → ∀ p,
        (∀ g ∈ m.engine.index.headsAt p, ∃ m' ∈ pre ++ [m], ∃ s v,
          .recordVersion p s v ∈ m'.actions ∧ sameContent s g.state = true) ∧
        ∀ s v, .recordVersion p s v ∈ m.actions → ⟨v, s⟩ ∈ m.engine.index.headsAt p := by
  refine ⟨moments_collect _ evs, fun pre m post heq p => ?_⟩
  obtain ⟨hc, hr⟩ := (covered_new r []).moments tick evs pre m post heq
  constructor
  · intro g hg
    obtain ⟨m', hm', k, hrec, hsame⟩ := hc p g hg
    exact ⟨m', hm', k.state, k.version, hrec, hsame⟩
  · intro s v hrec
    exact hr p ⟨v, s⟩ hrec

end Engine

/-- One content arrives twice: minted here, then from a peer. -/
def twiceEvents : List Event :=
  [.local ⟨twinPath, .modified (twinSig 1)⟩,
    .remote ⟨twinPath, .modified (twinSig 1), VectorClock.new.tick ⟨2⟩⟩]

def twiceMoments : List Engine.Moment := freshEngine.moments .wrappingTick twiceEvents

/-- The second arrival is not recorded again, and its head is covered by the first record. -/
theorem twice_recorded :
    ∃ first second, twiceMoments = [first, second] ∧ second.actions = [] ∧
      (second.engine.index.headsAt twinPath).length = 2 ∧
      ∀ g ∈ second.engine.index.headsAt twinPath, ∃ m' ∈ [first, second], ∃ s v,
        .recordVersion twinPath s v ∈ m'.actions ∧ sameContent s g.state = true := by
  refine ⟨_, _, rfl, by decide +kernel, by decide +kernel, ?_⟩
  exact ((Engine.moments_recorded .wrappingTick ⟨1⟩ twiceEvents).2 [_] _ [] rfl twinPath).1

end Tomo
