import Tomo.Engine.Recovery

namespace Tomo
set_option autoImplicit true

/-- `u64` addition where overflow is not checked, as in a release build. -/
def wrappingAdd (a b : Nat) : Nat := (a + b) % 2 ^ 64

/-- Every counter is a `u64` value. -/
def VectorClock.Bounded (c : VectorClock) : Prop := ∀ r, c.get r ≤ u64Max

/-- `tick` on the counters the code has. -/
def VectorClock.wrappingTick (c : VectorClock) (r : ReplicaId) : VectorClock :=
  ⟨c.counters.insert r (wrappingAdd (c.get r) 1)⟩

/-- What an index or an event brings: clocks of `u64` counters. -/
def Index.Bounded (i : Index) : Prop := ∀ p, ∀ g ∈ i.headsAt p, g.version.Bounded

def Event.Bounded : Event → Prop
  | .local _ => True
  | .remote c => c.version.Bounded
  | .peerIndex i => i.Bounded

namespace VectorClock

theorem Bounded.of_counters {c : VectorClock} (h : ∀ e ∈ c.iter, e.2 < 2 ^ 64) : c.Bounded := by
  intro r
  cases hg : c.counters[r]? with
  | none =>
    rw [get, hg]
    exact Nat.zero_le _
  | some n =>
    have hn := h (r, n) (Std.ExtTreeMap.mem_toList_iff_getElem?_eq_some.2 hg)
    rw [get, hg]
    exact Nat.le_pred_of_lt hn

theorem wrappingAdd_le (a b : Nat) : wrappingAdd a b ≤ u64Max :=
  Nat.le_pred_of_lt (Nat.mod_lt _ (by decide))

theorem get_wrappingTick (c : VectorClock) (r q : ReplicaId) :
    (c.wrappingTick r).get q = if r = q then wrappingAdd (c.get r) 1 else c.get q :=
  get_insert c.counters r q _

theorem Bounded.wrappingTick {c : VectorClock} (h : c.Bounded) (r : ReplicaId) :
    (c.wrappingTick r).Bounded := by
  intro q
  rw [get_wrappingTick]
  split
  · exact wrappingAdd_le _ _
  · exact h q

theorem Bounded.wrappingTick_eq {c : VectorClock} (h : c.Bounded) (hr : c.get r ≠ u64Max) :
    c.wrappingTick r = c.tick r := by
  have hlt : c.get r + 1 < 2 ^ 64 := Nat.succ_lt_of_lt_pred ((h r).lt_of_ne hr)
  rw [VectorClock.wrappingTick, wrappingAdd, Nat.mod_eq_of_lt hlt]
  rfl

theorem wrappingTick_max {c : VectorClock} (hr : c.get r = u64Max) :
    (c.wrappingTick r).get r = 0 := by
  rw [get_wrappingTick, if_pos rfl, hr]
  decide

theorem after_iff (a b : VectorClock) : a.compare b = .after ↔ b ≤ a ∧ ¬a ≤ b := by
  have h := compare_spec a b
  cases hc : a.compare b <;> rw [hc] at h <;> simp [h]

/-- A tick of a clock above another comes after it, unless it wraps. -/
theorem Bounded.wrappingTick_after {c d : VectorClock} (h : c.Bounded) (hd : d ≤ c)
    (hr : c.get r ≠ u64Max) : (c.wrappingTick r).compare d = .after := by
  rw [h.wrappingTick_eq hr, after_iff]
  refine ⟨hd.trans (c.le_tick r), fun hle => ?_⟩
  have hown := (hle r).trans (hd r)
  rw [get_tick, if_pos rfl] at hown
  exact Nat.not_succ_le_self _ hown

end VectorClock

theorem Index.bounded_new : Index.new.Bounded := by
  intro p g hg
  rw [headsAt, get_new] at hg
  cases hg

/-- The merged clock of a path has each counter from one of its heads. -/
theorem Index.base_attained (i : Index) (p : RelPath) (hr : 0 < (i.base p).get r) :
    ∃ g ∈ i.headsAt p, (i.base p).get r = g.version.get r := by
  unfold Index.base Index.headsAt at *
  cases hg : i.get p with
  | none =>
    rw [hg, Option.elim_none, VectorClock.get_new] at hr
    cases hr
  | some entry =>
    rw [hg] at hr
    exact Entry.mergedClock_attained hr

theorem Index.le_base {i : Index} (hg : g ∈ i.headsAt p) : g.version ≤ i.base p := by
  obtain ⟨entry, he, hm⟩ := Index.mem_headsAt.1 hg
  rw [Index.base, he]
  exact Entry.le_mergedClock hm

theorem Index.Bounded.base {i : Index} (h : i.Bounded) (p : RelPath) : (i.base p).Bounded := by
  intro r
  rcases Nat.eq_zero_or_pos ((i.base p).get r) with hz | hpos
  · rw [hz]
    exact Nat.zero_le _
  · obtain ⟨g, hg, hr⟩ := i.base_attained p hpos
    rw [hr]
    exact h p g hg r

theorem Index.Bounded.upsert {i : Index} (h : i.Bounded) {entry : Entry}
    (he : ∀ g ∈ entry.heads, g.version.Bounded) : (i.upsert p entry).Bounded := by
  intro q g hg
  rw [headsAt, get_upsert] at hg
  split at hg
  · exact he g hg
  · exact h q g hg

namespace Engine

theorem mem_absorbed {o : Option Entry} (hg : g ∈ (absorbed o v s).heads) :
    g = ⟨v, s⟩ ∨ g ∈ o.elim [] Entry.heads := by
  cases o with
  | none => exact .inl (List.mem_singleton.1 hg)
  | some entry =>
    cases hk : entry.knows v with
    | true =>
      rw [absorbed, Entry.absorb_known hk] at hg
      exact .inr hg
    | false => exact ((Entry.mem_absorb hk s).1 hg).imp_right And.left

theorem mem_absorbAll {o : Option Entry} {hs : List Head}
    (hg : g ∈ (absorbAll o hs).elim [] Entry.heads) : g ∈ hs ∨ g ∈ o.elim [] Entry.heads := by
  induction hs generalizing o with
  | nil => exact .inr hg
  | cons h hs ih =>
    rcases ih hg with hm | hm
    · exact .inl (List.mem_cons_of_mem _ hm)
    · rcases mem_absorbed hm with rfl | hm
      · exact .inl List.mem_cons_self
      · exact .inr hm

/-- Absorbing and reconciling bring in versions of the event only. -/
theorem mem_handled {e : Engine} {ev : Event} {p : RelPath}
    (hg : g ∈ (e.handle ev).1.index.headsAt p) (hev : ∀ c, ev ≠ .local c) :
    g ∈ e.index.headsAt p ∨ (∃ c, ev = .remote c ∧ g.version = c.version) ∨
      ∃ i, ev = .peerIndex i ∧ g ∈ i.headsAt p := by
  cases ev with
  | «local» c => exact absurd rfl (hev c)
  | remote c =>
    obtain ⟨_, hget, _⟩ := absorbRemote_spec e c.path (stateFromKind c.kind) c.version
    rw [handle, handleRemote, Index.headsAt, hget p] at hg
    split at hg
    next hp =>
      subst hp
      rcases mem_absorbed hg with rfl | hg
      · exact .inr (.inl ⟨c, rfl, rfl⟩)
      · exact .inl hg
    next => exact .inl hg
  | peerIndex i =>
    obtain ⟨hget, _⟩ := handlePeerIndex_spec e i
    rw [handle, Index.headsAt, hget p] at hg
    unfold reconciled at hg
    cases hr : i.get p with
    | none =>
      rw [hr] at hg
      exact .inl hg
    | some r =>
      rw [hr] at hg
      rcases mem_absorbAll hg with hm | hm
      · exact .inr (.inr ⟨i, rfl, Index.mem_headsAt.2 ⟨r, hr, hm⟩⟩)
      · exact .inl hm

/-! The engine over a given `tick`: the one the other modules use cannot overflow. -/

section
variable (tick : VectorClock → ReplicaId → VectorClock)

def mintBy (e : Engine) (p : RelPath) (base : VectorClock) (state : EntryState) :
    Engine × List Action :=
  let version := tick base e.replica
  ({ e with index := e.index.upsert p (.single version state) },
    [.send ⟨p, kindFromState state, version⟩, .recordVersion p state version])

def localModifiedBy (e : Engine) (p : RelPath) (sig : ContentSig) : Engine × List Action :=
  match e.index.get p with
  | some entry =>
    if entry.winner.state.eq (.present sig) then (e, [])
    else e.mintBy tick p entry.mergedClock (.present sig)
  | none => e.mintBy tick p .new (.present sig)

def localRemovedBy (e : Engine) (p : RelPath) : Engine × List Action :=
  match e.index.get p with
  | some entry =>
    if entry.winner.state.eq .tombstone then (e, [])
    else e.mintBy tick p entry.mergedClock .tombstone
  | none => (e, [])

def handleLocalBy (e : Engine) (c : LocalChange) : Engine × List Action :=
  match c.kind with
  | .modified sig =>
    match e.echo.retire c.path (.present sig) with
    | (echo, true) => ({ e with echo }, [])
    | (_, false) => e.localModifiedBy tick c.path sig
  | .removed =>
    match e.echo.retire c.path .absent with
    | (echo, true) => ({ e with echo }, [])
    | (_, false) => e.localRemovedBy tick c.path

def handleBy (e : Engine) : Event → Engine × List Action
  | .local c => e.handleLocalBy tick c
  | .remote c => e.handleRemote c
  | .peerIndex i => e.handlePeerIndex i

end

theorem handleBy_tick (e : Engine) (ev : Event) : e.handleBy VectorClock.tick ev = e.handle ev := by
  cases ev with
  | «local» c => rfl
  | remote c => rfl
  | peerIndex i => rfl

/-- Whether a local change says nothing new: the echo of our own write, or what the winner
already shows, or the removal of a path never seen. -/
def spurious (e : Engine) (c : LocalChange) : Bool :=
  e.isExpectedEcho c.path (expectationFromState (stateFromKind c.kind)) ||
    match e.index.get c.path with
    | some entry => entry.winner.state.eq (stateFromKind c.kind)
    | none => decide (c.kind = .removed)

theorem handleLocalBy_congr {tick tick' : VectorClock → ReplicaId → VectorClock} {e : Engine}
    {c : LocalChange}
    (h : tick (e.index.base c.path) e.replica = tick' (e.index.base c.path) e.replica) :
    e.handleLocalBy tick c = e.handleLocalBy tick' c := by
  have hmint (s : EntryState) :
      e.mintBy tick c.path (e.index.base c.path) s =
        e.mintBy tick' c.path (e.index.base c.path) s := by
    rw [mintBy, mintBy, h]
  unfold Index.base at hmint
  unfold handleLocalBy localModifiedBy localRemovedBy
  cases hg : e.index.get c.path with
  | none =>
    rw [hg, Option.elim_none] at hmint
    simp only [hmint]
  | some entry =>
    rw [hg, Option.elim_some] at hmint
    simp only [hmint]

/-- The engines of a release build: started on an index of `u64` counters with no entry empty,
after any events with such counters. -/
inductive Reached : Engine → Prop where
  | start (r : ReplicaId) : i.Bounded → (∀ p entry, i.get p = some entry → entry.heads ≠ []) →
      Reached (.new r i)
  | step (ev : Event) : Reached e → ev.Bounded → Reached (e.handleBy .wrappingTick ev).1

/-- A local change leaves one head after every head there was, and its tick does not overflow. -/
structure Overtakes (e : Engine) (c : LocalChange) : Prop where
  inRange : (e.index.base c.path).get e.replica + 1 ≤ u64Max
  after : ∃ version, (e.handleBy .wrappingTick (.local c)).1.index.get c.path =
      some (.single version (stateFromKind c.kind)) ∧
    ∀ g ∈ e.index.headsAt c.path, version.compare g.version = .after

/-- A local change is suppressed when it is spurious, and else mints above all of its path. -/
theorem handleLocalBy_spec (tick : VectorClock → ReplicaId → VectorClock) (e : Engine)
    (c : LocalChange) :
    if e.spurious c = true then
      (e.handleLocalBy tick c).1.index = e.index ∧
        (e.handleLocalBy tick c).1.replica = e.replica ∧ (e.handleLocalBy tick c).2 = []
    else e.handleLocalBy tick c =
      e.mintBy tick c.path (e.index.base c.path) (stateFromKind c.kind) := by
  obtain ⟨p, kind⟩ := c
  unfold spurious isExpectedEcho handleLocalBy
  cases kind with
  | modified sig =>
    have hecho := e.echo.retire_contains p (.present sig)
    simp only [stateFromKind, expectationFromState, ← hecho, Index.base, localModifiedBy]
    obtain ⟨echo, hit⟩ := e.echo.retire p (.present sig)
    cases hit with
    | true => simp
    | false =>
      cases hg : e.index.get p with
      | none => simp
      | some entry =>
        simp only [Bool.false_or, Option.elim_some]
        split
        · exact ⟨rfl, rfl, rfl⟩
        · rfl
  | removed =>
    have hecho := e.echo.retire_contains p .absent
    simp only [stateFromKind, expectationFromState, ← hecho, Index.base, localRemovedBy]
    obtain ⟨echo, hit⟩ := e.echo.retire p .absent
    cases hit with
    | true => simp
    | false =>
      cases hg : e.index.get p with
      | none => simp
      | some entry =>
        simp only [Bool.false_or, Option.elim_some]
        split
        · exact ⟨rfl, rfl, rfl⟩
        · rfl

variable {e : Engine} {c : LocalChange}

theorem handleBy_bounded (h : e.index.Bounded) {ev : Event} (hev : ev.Bounded) :
    (e.handleBy .wrappingTick ev).1.index.Bounded := by
  cases ev with
  | «local» c =>
    have hspec := handleLocalBy_spec .wrappingTick e c
    rw [handleBy]
    split at hspec
    · rw [hspec.1]
      exact h
    · rw [hspec]
      apply h.upsert
      intro g hg
      rw [List.mem_singleton.1 hg]
      exact (h.base c.path).wrappingTick e.replica
  | remote c =>
    intro p g hg
    have hg : g ∈ (e.handle (.remote c)).1.index.headsAt p := hg
    rcases mem_handled hg fun _ => Event.noConfusion with hg | ⟨c', hc, hv⟩ | ⟨i, hi, _⟩
    · exact h p g hg
    · cases hc
      rw [hv]
      exact hev
    · cases hi
  | peerIndex i =>
    intro p g hg
    have hg : g ∈ (e.handle (.peerIndex i)).1.index.headsAt p := hg
    rcases mem_handled hg fun _ => Event.noConfusion with hg | ⟨c, hc, _⟩ | ⟨j, hj, hg⟩
    · exact h p g hg
    · cases hc
    · cases hj
      exact hev p g hg

theorem Reached.bounded (h : Reached e) : e.index.Bounded := by
  induction h with
  | start r hi _ => exact hi
  | step ev _ hev ih => exact handleBy_bounded ih hev

/-- The clock that is ticked is at the end of the range when some head is. -/
theorem base_max_iff (h : e.index.Bounded) (p : RelPath) :
    (e.index.base p).get r = u64Max ↔ ∃ g ∈ e.index.headsAt p, g.version.get r = u64Max := by
  constructor
  · intro hmax
    have hpos : 0 < (e.index.base p).get r := by
      rw [hmax]
      decide
    obtain ⟨g, hg, hr⟩ := e.index.base_attained p hpos
    exact ⟨g, hg, hr.symm.trans hmax⟩
  · rintro ⟨g, hg, hr⟩
    have hle := Index.le_base hg r
    rw [hr] at hle
    exact (h.base p r).antisymm hle

/-- Until a counter ends its range, this is the engine of unbounded counters. -/
theorem handleBy_eq (h : e.index.Bounded) {ev : Event} (hne : ∀ c, ev = .local c →
    ∀ g ∈ e.index.headsAt c.path, g.version.get e.replica ≠ u64Max) :
    e.handleBy .wrappingTick ev = e.handle ev := by
  rw [← handleBy_tick]
  cases ev with
  | «local» c =>
    apply handleLocalBy_congr
    apply (h.base c.path).wrappingTick_eq
    intro hmax
    obtain ⟨g, hg, hr⟩ := (base_max_iff h c.path).1 hmax
    exact hne c rfl g hg hr
  | remote c => rfl
  | peerIndex i => rfl

/-- The single head a change mints comes after the others exactly when its tick stays in range. -/
theorem after_iff_ne_max (h : e.index.Bounded) (p : RelPath) :
    (∀ g ∈ e.index.headsAt p,
        ((e.index.base p).wrappingTick e.replica).compare g.version = .after) ↔
      ∀ g ∈ e.index.headsAt p, g.version.get e.replica ≠ u64Max := by
  constructor
  · intro hall g hg hmax
    have hle := ((VectorClock.after_iff _ _).1 (hall g hg)).1 e.replica
    have hbase := (base_max_iff h p).2 ⟨g, hg, hmax⟩
    rw [hmax, VectorClock.wrappingTick_max hbase] at hle
    exact absurd hle (by decide)
  · intro hne g hg
    apply (h.base p).wrappingTick_after (Index.le_base hg)
    intro hmax
    obtain ⟨g', hg', hr⟩ := (base_max_iff h p).1 hmax
    exact hne g' hg' hr

/-- A local change overtakes what its path held exactly when no head counts our own replica to
the end of the range. -/
theorem Reached.overtakes_iff (h : Reached e) (hc : e.spurious c = false) :
    e.Overtakes c ↔ ∀ g ∈ e.index.headsAt c.path, g.version.get e.replica ≠ u64Max := by
  have hb := h.bounded
  have hspec := handleLocalBy_spec .wrappingTick e c
  rw [if_neg (by simp [hc])] at hspec
  have hget : (e.handleBy .wrappingTick (.local c)).1.index.get c.path = some (.single
      ((e.index.base c.path).wrappingTick e.replica) (stateFromKind c.kind)) := by
    rw [handleBy, hspec, mintBy, Index.get_upsert, if_pos rfl]
  constructor
  · rintro ⟨_, version, hv, hafter⟩
    rw [hget] at hv
    cases hv
    exact (after_iff_ne_max hb c.path).1 hafter
  · intro hne
    constructor
    case inRange =>
      have hbase : (e.index.base c.path).get e.replica ≠ u64Max := by
        intro hmax
        obtain ⟨g, hg, hr⟩ := (base_max_iff hb c.path).1 hmax
        exact hne g hg hr
      exact (hb.base c.path e.replica).lt_of_ne hbase
    case after => exact ⟨_, hget, (after_iff_ne_max hb c.path).2 hne⟩

end Engine

/-- A version that names the engine's own replica, at the end of the range. -/
def lastClock : VectorClock := ⟨Std.ExtTreeMap.empty.insert ⟨1⟩ u64Max⟩

def freshEngine : Engine := .new ⟨1⟩ .new

/-- The engine once a peer has sent that version. -/
def exhausted : Engine :=
  (freshEngine.handleBy .wrappingTick (.remote ⟨twinPath, .modified (twinSig 1), lastClock⟩)).1

theorem freshEngine_reached : freshEngine.Reached := by
  apply Engine.Reached.start _ Index.bounded_new
  intro p entry hp
  rw [Index.get_new] at hp
  cases hp

theorem exhausted_reached : exhausted.Reached := by
  apply Engine.Reached.step _ freshEngine_reached
  apply VectorClock.Bounded.of_counters
  decide +kernel

/-- The next local edit wraps around to a version before the one it edits. -/
theorem exhausted_wraps :
    exhausted.Reached ∧ exhausted.spurious ⟨twinPath, .modified (twinSig 2)⟩ = false ∧
      ¬exhausted.Overtakes ⟨twinPath, .modified (twinSig 2)⟩ ∧
      ((exhausted.handleBy .wrappingTick (.local ⟨twinPath, .modified (twinSig 2)⟩)).1.index.headsAt
        twinPath).map (fun h => h.version.compare lastClock) = [.before] := by
  refine ⟨exhausted_reached, by decide +kernel, fun h => ?_, by decide +kernel⟩
  exact absurd h.inRange (by decide +kernel)

theorem freshEngine_overtakes : freshEngine.Overtakes ⟨twinPath, .modified (twinSig 1)⟩ :=
  (freshEngine_reached.overtakes_iff (by decide +kernel)).2 (by decide +kernel)

end Tomo
