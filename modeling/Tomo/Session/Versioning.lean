import Tomo.Engine.Surfacing
import Tomo.History.Ingest
import Tomo.Session.Draining
import Tomo.Session.Losing

namespace Tomo
set_option autoImplicit true

/-- The hint of a capture's size. -/
def EntryState.sizeHint : EntryState → Nat
  | .present sig => sig.size
  | .tombstone => 0

namespace HistoryStore
variable {h h' : HistoryStore} {p q : RelPath} {state st : EntryState} {clock w : VectorClock}

/-- A version of a path has a content and its executable bit, whatever its clock. -/
def Versioned (p : RelPath) (state : EntryState) (h : HistoryStore) : Prop :=
  ∃ r ∈ h.versions, r.path = p ∧ (rowState r).content = state.content

/-- No other content is under the identity of a version. -/
def Vacant (p : RelPath) (state : EntryState) (clock : VectorClock) (h : HistoryStore) : Prop :=
  ∀ r ∈ h.versions, r.path = p → r.clock = clock → r.content.isSome = state.isPresent →
    (rowState r).content = state.content

theorem Versioned.mono (hv : h.Versioned p state) (ha : h.versions <+: h'.versions) :
    h'.Versioned p state := by
  obtain ⟨r, hr, hrow⟩ := hv
  exact ⟨r, ha.subset hr, hrow⟩

theorem Versioned.congr (hv : h.Versioned p st) (he : st.content = state.content) :
    h.Versioned p state := by
  obtain ⟨r, hr, hp, hs⟩ := hv
  exact ⟨r, hr, hp, hs.trans he⟩

section
variable [Platform]

theorem Vacant.recordVersion {content : Option Bytes} (hv : h.Vacant p state clock)
    (hok : q = p → w = clock → st.content = state.content)
    (hr : h.recordVersion q st w replica origin wallMs content = .ok (h', n)) :
    h'.Vacant p state clock := by
  intro r hmem hp hc hk
  rcases (recordVersion_row hr).2 r hmem with hold | ⟨hq, hw, hs⟩
  · exact hv r hold hp hc hk
  · have hrow := EntryState.content_of_eq hs
    exact hrow.trans (hok (hq.symm.trans hp) (hw.symm.trans hc))

/-- A version that is recorded where its identity is not taken is one of its content. -/
theorem Vacant.versioned {content : Option Bytes} (hv : h.Vacant p state clock)
    (hr : h.recordVersion p state clock replica origin wallMs content = .ok (h', n)) :
    h'.Versioned p state := by
  obtain ⟨⟨r, hmem, hp, hc, hk⟩, hrows⟩ := recordVersion_row hr
  refine ⟨r, hmem, hp, ?_⟩
  rcases hrows r hmem with hold | ⟨_, _, hs⟩
  · exact hv r hold hp hc hk
  · exact EntryState.content_of_eq hs

/-- A batch records each of its records whose identity is not taken, if it has no other of the
path. -/
theorem recordVersions_versioned {rs : List VersionRecord} {r : VersionRecord} (hr : r ∈ rs)
    (hone : ∀ d ∈ rs, d.path = r.path → d = r) (hv : h.Vacant r.path r.state r.clock)
    (hx : h.recordVersions rs = .ok (h', ids)) : h'.Versioned r.path r.state := by
  induction rs generalizing h ids with
  | nil => cases hr
  | cons d rs ih =>
    obtain ⟨u, n, l, hd, hrest, _⟩ := recordVersions_cons_ok.1 hx
    have hd : h.recordVersion d.path d.state d.clock d.replica d.origin d.wallMs d.bytes =
        .ok (u, n) := hd
    rcases List.mem_cons.1 hr with rfl | hr
    · exact (hv.versioned hd).mono (recordVersions_extends hrest).versions
    · have hkeep : u.Vacant r.path r.state r.clock := by
        refine hv.recordVersion (fun hp _ => ?_) hd
        rw [hone d List.mem_cons_self hp]
      exact ih hr (fun b hb => hone b (List.mem_cons_of_mem d hb)) hkeep hrest

/-- A batch takes no identity on a path that it has no record of. -/
theorem recordVersions_vacant {rs : List VersionRecord} (hp : ∀ d ∈ rs, d.path ≠ p)
    (hv : h.Vacant p state clock) (hx : h.recordVersions rs = .ok (h', ids)) :
    h'.Vacant p state clock := by
  induction rs generalizing h ids with
  | nil =>
    cases hx
    exact hv
  | cons d rs ih =>
    obtain ⟨u, n, l, hd, hrest, _⟩ := recordVersions_cons_ok.1 hx
    have hd : h.recordVersion d.path d.state d.clock d.replica d.origin d.wallMs d.bytes =
        .ok (u, n) := hd
    have hne := hp d List.mem_cons_self
    exact ih (fun b hb => hp b (List.mem_cons_of_mem d hb))
      (hv.recordVersion (fun he => (hne he).elim) hd) hrest

end

end HistoryStore

namespace Session
open Eff HistoryStore
variable [Platform] {s s' t : Session} {p q : RelPath} {state st : EntryState}
  {clock : VectorClock} {bytes : Option Bytes} {c : RemoteChange} {mode : HistoryMode}
  {cfg : PressureConfig}

/-- A capture of a content is staged for a path. -/
def Awaits (s : Session) (p : RelPath) (state : EntryState) : Prop :=
  ∃ cap, s.pressure.staging[p]? = some cap ∧ cap.state.content = state.content

/-- The content has a version, or recording one now will leave one: the disk shows it, and no other
content is under its identity. -/
def Recordable (s : Session) (p : RelPath) (state : EntryState) (clock : VectorClock) : Prop :=
  s.history.Versioned p state ∨ s.history.Vacant p state clock ∧
    ∀ sig, state = .present sig → (readVerified s.tree s.root p sig).isSome = true

/-- Every winner of the index has a version of its content, or a capture of it is staged. -/
structure Accounts (mode : HistoryMode) (cfg : PressureConfig) (s : Session) : Prop where
  steady : s.pressure.Steady mode cfg
  winners : ∀ p e, s.engine.index.get p = some e →
    s.history.Versioned p e.winner.state ∨ s.Awaits p e.winner.state

/-- The engine is told nothing, no version is forgotten, and nothing is staged but for one path. -/
structure Notes (p : RelPath) (s s' : Session) : Prop where
  onward : Onward s s'
  steady : ∀ {mode cfg}, s.pressure.Steady mode cfg → s'.pressure.Steady mode cfg
  slots : ∀ q, q ≠ p → s'.pressure.staging[q]? = s.pressure.staging[q]?

omit [Platform] in
theorem Notes.of_onward (h : Onward s s') (hp : s'.pressure = s.pressure) : Notes p s s' where
  onward := h
  steady hs := by rwa [hp]
  slots q _ := by rw [hp]

omit [Platform] in
theorem Notes.trans (h : Notes p s s') (h' : Notes p s' t) : Notes p s t where
  onward := h.onward.trans h'.onward
  steady hs := h'.steady (h.steady hs)
  slots q hq := (h'.slots q hq).trans (h.slots q hq)

omit [Platform] in
/-- What is told of one path leaves the others accounted for. -/
theorem Accounts.tell (h : Accounts mode cfg s) (e : Engine) (hn : Notes p { s with engine := e } s')
    (hidx : ∀ q, q ≠ p → e.index.get q = s.engine.index.get q)
    (hp : ∀ entry, e.index.get p = some entry →
      s'.history.Versioned p entry.winner.state ∨ s'.Awaits p entry.winner.state) :
    Accounts mode cfg s' := by
  have heng : s'.engine = e := hn.onward.engine
  refine ⟨hn.steady h.steady, fun q entry hg => ?_⟩
  rw [heng] at hg
  by_cases hq : q = p
  · subst hq
    exact hp entry hg
  · rw [hidx q hq] at hg
    rcases h.winners q entry hg with hv | ⟨cap, hcap, hs⟩
    · exact .inl (hv.mono hn.onward.versions)
    · exact .inr ⟨cap, (hn.slots q hq).trans hcap, hs⟩

/-- Recording a version leaves one of its content. -/
theorem recordVersion_versioned (hr : s.Recordable p state clock)
    (hx : (recordVersion p state clock l).exec s = (.ok r, s')) :
    s'.history.Versioned p state := by
  have hq : Quiet (recordVersion p state clock l) s :=
    (recordVersion_files ..).books.works.quiet (filed_recorder.recordVersion trivial l s)
  have ho : Onward s s' := by
    rw [Quiet, hx] at hq
    exact hq
  rcases hr with hv | ⟨hv, hd⟩
  · exact hv.mono ho.versions
  · have hstore (bytes : Option Bytes)
        (hx : (discard (storeVersion p state clock l bytes)).exec s = (.ok r, s')) :
        s'.history.Versioned p state := by
      obtain ⟨n, hx⟩ := ok_of_map (g := fun _ => PUnit.unit) hx
      rw [storeVersion_exec] at hx
      split at hx
      next h' id hrec =>
        cases hx
        exact hv.versioned hrec
      next => cases hx
    cases state with
    | tombstone => exact hstore none hx
    | present sig =>
      obtain ⟨b, hb⟩ := Option.isSome_iff_exists.1 (hd sig rfl)
      simp only [recordVersion, exec_get_bind, hb] at hx
      exact hstore (some b) hx

/-- Rows are written without a look at what is staged. -/
theorem pressure_filer (c : PressureController) :
    Filer (fun _ _ _ => True) (fun s => s.pressure = c) where
  indifferent h _ hp := hp.trans h
  store _ l bytes s := by
    constructor
    intro h
    rw [storeVersion_exec]
    split
    · exact h
    · exact h

theorem noteVersion_sized (state : EntryState) (clock : VectorClock) (l : Bool) (nowMs : Nat)
    (s : Session) :
    (noteVersion p state clock l nowMs).exec s =
      let n := s.pressure.note p ⟨state, clock, l, state.sizeHint⟩ nowMs
      (match n.2 with
        | .immediate => recordVersion p state clock l
        | .deferred _ | .dropped => pure () : SessionM Unit).exec { s with pressure := n.1 } := by
  cases state <;> rfl

/-- A version that is noted where history is kept is staged, or recorded at once. -/
theorem noteVersion_awaits (hs : s.pressure.Steady mode cfg) (hm : mode ≠ .off) {l : Bool}
    {nowMs : Nat} (hr : (s.pressure.note p ⟨state, clock, l, state.sizeHint⟩ nowMs).2 = .immediate →
      s.Recordable p state clock)
    (hx : (noteVersion p state clock l nowMs).exec s = (.ok r, s')) :
    Notes p s s' ∧ (s'.history.Versioned p state ∨ s'.Awaits p state) := by
  have hq : Onward s s' := by
    have hq := noteVersion_quiet (p := p) state clock l nowMs s
    rwa [Quiet, hx] at hq
  rw [noteVersion_sized] at hx
  have hsteady := fun {m : HistoryMode} {c : PressureConfig} (h : s.pressure.Steady m c) =>
    h.note p ⟨state, clock, l, state.sizeHint⟩ nowMs
  have hcases := hs.note_cases hm p ⟨state, clock, l, state.sizeHint⟩ nowMs
  rcases hn : s.pressure.note p ⟨state, clock, l, state.sizeHint⟩ nowMs with ⟨pressure, decision⟩
  rw [hn] at hx hcases hr hsteady
  rcases hcases with ⟨_, rfl, hsame⟩ | ⟨due, rfl, hins, _⟩
  · have hkeep : Upholds (fun s => s.pressure = pressure) (recordVersion p state clock l)
        { s with pressure } := (pressure_filer pressure).recordVersion trivial l _
    have hpress : s'.pressure = pressure := by
      have hkeep := hkeep.after rfl
      rwa [hx] at hkeep
    refine ⟨⟨hq, fun h => ?_, fun q _ => ?_⟩, .inl ?_⟩
    · rw [hpress]
      exact hsteady h
    · rw [hpress]
      exact congrArg (·[q]?) hsame
    · exact recordVersion_versioned (s := { s with pressure }) (hr rfl) hx
  · cases hx
    have hcap : pressure.staging[p]? =
        some (CaptureInput.staged ⟨state, clock, l, state.sizeHint⟩ nowMs due) := by
      rw [hins]
      exact Std.ExtTreeMap.getElem?_insert_self
    refine ⟨⟨hq, hsteady, fun q hne => ?_⟩, .inr ⟨_, hcap, rfl⟩⟩
    · rw [hins]
      exact PressureController.getElem?_insert_ne hne.symm _

omit [Platform] in
/-- A local change leaves the index alone, or becomes the one head of its path and is to be
recorded. -/
theorem handleLocal_tells (e : Engine) (c : LocalChange) :
    ((e.handleLocal c).1.index = e.index ∧ (e.handleLocal c).2 = []) ∨
      ∃ v, (e.handleLocal c).1.index = e.index.upsert c.path (.single v (stateFromKind c.kind)) ∧
        (e.handleLocal c).2 = [.send ⟨c.path, c.kind, v⟩,
          .recordVersion c.path (stateFromKind c.kind) v] := by
  obtain ⟨p, kind⟩ := c
  cases kind with
  | modified sig =>
    simp only [Engine.handleLocal]
    split
    · exact .inl ⟨rfl, rfl⟩
    · unfold Engine.localModified
      cases hg : e.index.get p with
      | none => exact .inr ⟨_, rfl, rfl⟩
      | some entry =>
        dsimp only
        split
        · exact .inl ⟨rfl, rfl⟩
        · exact .inr ⟨_, rfl, rfl⟩
  | removed =>
    simp only [Engine.handleLocal]
    split
    · exact .inl ⟨rfl, rfl⟩
    · unfold Engine.localRemoved
      cases hg : e.index.get p with
      | none => exact .inl ⟨rfl, rfl⟩
      | some entry =>
        dsimp only
        split
        · exact .inl ⟨rfl, rfl⟩
        · exact .inr ⟨_, rfl, rfl⟩

/-- Sending leaves the records alone. -/
theorem doSend_records (change : RemoteChange) (s : Session) :
    Leaves (fun s : Session => (s.history, s.pressure)) (doSend change) s := by
  have hprepare : Leaves (fun s : Session => (s.history, s.pressure)) (prepareSend change) s := by
    refine .get <| .ite (.pure _ _ s) ?_
    split
    · exact .pure _ _ s
    · refine .ite (.ite ?_ (.pure _ _ s)) (.pure _ _ s)
      exact (Leaves.bind (.modify rfl) fun _ s' _ => .pure _ _ s').map
  refine hprepare.bind fun m s' _ => ?_
  cases m with
  | none => exact .pure _ _ s'
  | some msg =>
    apply Leaves.get
    split
    · exact .pure _ _ s'
    · refine .ite (.ite (.set ?_) (.throw _ _ s')) (.set rfl)
      rcases s'.goOffline_only with h | ⟨f, h⟩ <;> rw [h]

/-- A version of a local change that is recorded at once leaves one of its content. -/
def Heeded (s : Session) (c : LocalChange) : Prop :=
  ∀ v, .recordVersion c.path (stateFromKind c.kind) v ∈ (s.engine.handleLocal c).2 →
    (s.pressure.note c.path ⟨stateFromKind c.kind, v, true, (stateFromKind c.kind).sizeHint⟩
      s.nowMs).2 = .immediate → s.Recordable c.path (stateFromKind c.kind) v

theorem absorbLocal_accounts {c : LocalChange} (h : Accounts mode cfg s) (hm : mode ≠ .off)
    (hc : s.Heeded c) (hx : (absorbLocal c).exec s = (.ok r, s')) : Accounts mode cfg s' := by
  have hx : Eff.exec (do
      if (s.engine.handleLocal c).2 = [] then pure () else markDirty
      execute (s.engine.handleLocal c).2 none none)
        { s with engine := (s.engine.handleLocal c).1 } = (.ok r, s') := hx
  rcases handleLocal_tells s.engine c with ⟨hidx, hact⟩ | ⟨v, hidx, hact⟩
  · rw [hact] at hx
    cases hx
    refine ⟨h.steady, fun q entry hg => h.winners q entry ?_⟩
    rwa [← hidx]
  · simp only [hact, List.cons_ne_nil, ↓reduceIte, markDirty, exec_modify_bind] at hx
    simp only [execute, exec_get_bind, conflictCaptures, List.filterMap_cons, List.filterMap_nil,
      List.flatMap_nil, executeActions, List.not_mem_nil, ↓reduceIte] at hx
    obtain ⟨_, u, hsend, hx⟩ := ok_of_bind hx
    obtain ⟨_, w, hnote, hx⟩ := ok_of_bind hx
    cases hx
    have hrec := doSend_records ⟨c.path, c.kind, v⟩
      { s with engine := (s.engine.handleLocal c).1, indexDirty := true }
    have hground := ground_beside.doSend ⟨c.path, c.kind, v⟩
      { s with engine := (s.engine.handleLocal c).1, indexDirty := true }
    have honward := doSend_quiet ⟨c.path, c.kind, v⟩
      { s with engine := (s.engine.handleLocal c).1, indexDirty := true }
    rw [Leaves, hsend] at hrec hground
    rw [Quiet, hsend] at honward
    have hhist : u.history = s.history := congrArg Prod.fst hrec
    have hpress : u.pressure = s.pressure := congrArg Prod.snd hrec
    have htree : u.tree = s.tree := congrArg Prod.fst hground
    have hroot : u.root = s.root := congrArg Prod.snd hground
    have hready : (u.pressure.note c.path ⟨stateFromKind c.kind, v, true,
        (stateFromKind c.kind).sizeHint⟩ s.nowMs).2 = .immediate →
          u.Recordable c.path (stateFromKind c.kind) v := by
      intro hd
      rw [hpress] at hd
      rw [Recordable, hhist, htree, hroot]
      exact hc v (by rw [hact]; simp) hd
    have hsteady : u.pressure.Steady mode cfg := by
      rw [hpress]
      exact h.steady
    obtain ⟨hn, hp⟩ := noteVersion_awaits hsteady hm hready hnote
    have hfirst : Onward { s with engine := (s.engine.handleLocal c).1 } u :=
      ⟨honward.engine, honward.versions⟩
    have hall := (Notes.of_onward hfirst hpress).trans hn
    refine h.tell _ hall (fun q hq => ?_) fun entry hg => ?_
    · rw [hidx, Index.get_upsert, if_neg hq.symm]
    · rw [hidx, Index.get_upsert, if_pos rfl] at hg
      cases hg
      exact hp

/-- Every staged capture of a winner's content that is due can be recorded. -/
def Prepared (s : Session) (due : StagedCapture → Prop) : Prop :=
  ∀ p cap entry, s.pressure.staging[p]? = some cap → due cap →
    s.engine.index.get p = some entry → cap.state.content = entry.winner.state.content →
      s.Recordable p cap.state cap.version

theorem recordDueVersions_onward {due : List (RelPath × StagedCapture)}
    (hx : (recordDueVersions due).exec s = (.ok r, s')) : Onward s s' := by
  have hq : Quiet (recordDueVersions due) s :=
    (recordDueVersions_books due s).works.quiet (recordDueVersions_upholds (fun _ _ => trivial) s)
  rwa [Quiet, hx] at hq

/-- Due captures are recorded as one batch. -/
theorem recordDueVersions_batch {due : List (RelPath × StagedCapture)}
    (hx : (recordDueVersions due).exec s = (.ok r, s')) :
    ∃ ids, s.history.recordVersions (s.dueRecords due) = .ok (s'.history, ids) := by
  rw [recordDueVersions, exec_get_bind] at hx
  dsimp only at hx
  rw [exec_ite] at hx
  split at hx
  next hempty =>
    cases hx
    rw [List.isEmpty_iff.1 hempty]
    exact ⟨[], rfl⟩
  next =>
    cases hr : s.history.recordVersions (s.dueRecords due) with
    | error e =>
      rw [hr] at hx
      cases hx
    | ok a =>
      rw [hr] at hx
      cases hx
      exact ⟨a.2, rfl⟩

/-- The version that one due capture stands for. -/
def dueRecord (s : Session) (e : RelPath × StagedCapture) : Option VersionRecord :=
  (s.dueRecords [e]).head?

theorem mem_dueRecords {due : List (RelPath × StagedCapture)} {d : VersionRecord} :
    d ∈ s.dueRecords due ↔ ∃ e ∈ due, s.dueRecord e = some d := by
  have hone (f : RelPath × StagedCapture → Option VersionRecord) (e : RelPath × StagedCapture) :
      (List.filterMap f [e]).head? = f e := by
    rw [List.filterMap_cons]
    cases f e <;> rfl
  simp only [dueRecord, dueRecords, hone, List.mem_filterMap]

theorem dueRecord_some {d : VersionRecord} (h : s.dueRecord (p, cap) = some d) :
    d.path = p ∧ d.state = cap.state ∧ d.clock = cap.version := by
  obtain ⟨⟨q, cap'⟩, he, h⟩ := List.mem_filterMap.1 (List.mem_of_mem_head? h)
  cases List.mem_singleton.1 he
  dsimp only at h
  split at h
  · obtain ⟨b, _, rfl⟩ := Option.map_eq_some_iff.1 h
    exact ⟨rfl, rfl, rfl⟩
  · cases h
    exact ⟨rfl, rfl, rfl⟩

theorem dueRecord_readable (h : ∀ sig, cap.state = .present sig →
    (readVerified s.tree s.root p sig).isSome = true) : ∃ d, s.dueRecord (p, cap) = some d := by
  rw [dueRecord, dueRecords, List.filterMap_cons, List.filterMap_nil]
  dsimp only
  cases hs : cap.state with
  | present sig =>
    obtain ⟨b, hb⟩ := Option.isSome_iff_exists.1 (h sig hs)
    simp only [hb, Option.map_some]
    exact ⟨_, rfl⟩
  | tombstone => exact ⟨_, rfl⟩

/-- A due capture that can be recorded leaves a version of its content. -/
theorem recordDueVersions_versioned {due : List (RelPath × StagedCapture)}
    (hone : ∀ cap', (p, cap') ∈ due → cap' = cap) (hmem : (p, cap) ∈ due)
    (hr : s.Recordable p cap.state cap.version)
    (hx : (recordDueVersions due).exec s = (.ok r, s')) :
    s'.history.Versioned p cap.state := by
  rcases hr with hv | ⟨hv, hdisk⟩
  · exact hv.mono (recordDueVersions_onward hx).versions
  · obtain ⟨d, hd⟩ := dueRecord_readable hdisk
    obtain ⟨ids, hbatch⟩ := recordDueVersions_batch hx
    obtain ⟨hp, hs, hc⟩ := dueRecord_some hd
    have hsame : ∀ d' ∈ s.dueRecords due, d'.path = d.path → d' = d := by
      intro d' hd' hp'
      obtain ⟨⟨q, cap'⟩, he, hd'⟩ := mem_dueRecords.1 hd'
      have hq : q = p := (dueRecord_some hd').1.symm.trans (hp'.trans hp)
      subst hq
      rw [hone cap' he, hd] at hd'
      exact (Option.some.inj hd').symm
    rw [← hp, ← hs, ← hc] at hv
    have hver := recordVersions_versioned (mem_dueRecords.2 ⟨_, hmem, hd⟩) hsame hv hbatch
    rwa [hp, hs] at hver

/-- The captures that are due take no identity on any other path. -/
theorem recordDueVersions_vacant {due : List (RelPath × StagedCapture)}
    (hnot : ∀ e ∈ due, e.1 ≠ p) (hv : s.history.Vacant p state clock)
    (hx : (recordDueVersions due).exec s = (.ok r, s')) : s'.history.Vacant p state clock := by
  obtain ⟨ids, hbatch⟩ := recordDueVersions_batch hx
  refine recordVersions_vacant (fun d hd => ?_) hv hbatch
  obtain ⟨e, he, hd⟩ := mem_dueRecords.1 hd
  rw [(dueRecord_some hd).1]
  exact hnot e he

theorem recordDueVersions_leaves {due : List (RelPath × StagedCapture)}
    (hx : (recordDueVersions due).exec s = (.ok r, s')) :
    s'.pressure = s.pressure ∧ s'.ground = s.ground := by
  have hl := recordDueVersions_pressure due s
  have hb := (recordDueVersions_books due s).core
  rw [Leaves, hx] at hl
  rw [hx] at hb
  exact ⟨hl, ground_beside.core hb⟩

/-- The session without the captures that are due. -/
def polled (s : Session) (nowMs : Nat) : Session :=
  { s with pressure := (s.pressure.pollDue nowMs).1 }

/-- A poll that finds what it needs leaves every winner accounted for. -/
theorem poll_accounts {nowMs : Nat} (h : Accounts mode cfg s)
    (hk : s.Prepared fun cap => cap.dueAtMs ≤ nowMs)
    (hx : (recordDueVersions (s.pressure.pollDue nowMs).2).exec (s.polled nowMs) = (.ok r, s')) :
    Accounts mode cfg s' := by
  have ho := recordDueVersions_onward hx
  have hpress : s'.pressure = (s.pressure.pollDue nowMs).1 := (recordDueVersions_leaves hx).1
  refine ⟨by rw [hpress]; exact h.steady.pollDue nowMs, fun p entry hg => ?_⟩
  rw [ho.engine] at hg
  rcases h.winners p entry hg with hv | ⟨cap, hcap, hs⟩
  · exact .inl (hv.mono ho.versions)
  · by_cases hdue : cap.dueAtMs ≤ nowMs
    · left
      have hmem := (PressureController.mem_pollDue s.pressure nowMs).2 ⟨hcap, hdue⟩
      have hone (cap' : StagedCapture) (hm : (p, cap') ∈ (s.pressure.pollDue nowMs).2) :
          cap' = cap := by
        have hcap' := ((PressureController.mem_pollDue s.pressure nowMs).1 hm).1
        exact Option.some.inj (hcap'.symm.trans hcap)
      have hr := hk p cap entry hcap hdue hg hs
      exact (recordDueVersions_versioned (s := s.polled nowMs) hone hmem hr hx).congr hs
    · right
      refine ⟨cap, ?_, hs⟩
      rw [hpress, PressureController.pollDue_staging, hcap]
      exact Option.filter_eq_some_iff.2 ⟨rfl, decide_eq_true (Nat.lt_of_not_le hdue)⟩

/-- What is left staged by a poll can be recorded still. -/
theorem poll_prepared {nowMs : Nat} (hk : s.Prepared fun _ => True)
    (hx : (recordDueVersions (s.pressure.pollDue nowMs).2).exec (s.polled nowMs) = (.ok r, s')) :
    s'.Prepared fun _ => True := by
  have ho := recordDueVersions_onward hx
  obtain ⟨hpress, hground⟩ := recordDueVersions_leaves hx
  have hpress : s'.pressure = (s.pressure.pollDue nowMs).1 := hpress
  intro p cap entry hcap _ hg hs
  rw [hpress, PressureController.pollDue_staging, Option.filter_eq_some_iff] at hcap
  rw [ho.engine] at hg
  rcases hk p cap entry hcap.1 trivial hg hs with hv | ⟨hv, hd⟩
  · exact .inl (hv.mono ho.versions)
  · refine .inr ⟨recordDueVersions_vacant (s := s.polled nowMs) ?_ hv hx, ?_⟩
    · rintro ⟨q, cap'⟩ he rfl
      obtain ⟨hcap', hdue⟩ := (PressureController.mem_pollDue s.pressure nowMs).1 he
      rw [Option.some.inj (hcap'.symm.trans hcap.1)] at hdue
      exact Nat.not_le.2 (of_decide_eq_true hcap.2) hdue
    · have ht : s'.tree = s.tree := congrArg Prod.fst hground
      have hr : s'.root = s.root := congrArg Prod.snd hground
      rw [ht, hr]
      exact hd

theorem pumpHistory_accounts (h : Accounts mode cfg s)
    (hk : s.Prepared fun cap => cap.dueAtMs ≤ s.nowMs)
    (hx : pumpHistory.exec s = (.ok r, s')) : Accounts mode cfg s' := by
  let u : Session :=
    { s with pressure := s.pressure.signals s.pressure.staging.size s.nowMs }
  have hstaging : u.pressure.staging = s.pressure.staging :=
    PressureController.staging_signals ..
  have hu : Accounts mode cfg u := by
    refine ⟨h.steady.signals _ _, fun p entry hg => ?_⟩
    rw [Awaits, hstaging]
    exact h.winners p entry hg
  have hku : u.Prepared fun cap => cap.dueAtMs ≤ s.nowMs := by
    intro p cap entry hcap
    rw [hstaging] at hcap
    exact hk p cap entry hcap
  exact poll_accounts hu hku hx

theorem drainFrom_accounts {nowMs : Nat} (h : Accounts mode cfg s) (hk : s.Prepared fun _ => True)
    (hx : (drainFrom n nowMs).exec s = (.ok r, s')) : Accounts mode cfg s' := by
  induction n generalizing nowMs s with
  | zero =>
    cases hx
    exact h
  | succ n ih =>
    rw [drainFrom, exec_get_bind] at hx
    cases hdue : s.pressure.nextDueMs with
    | none =>
      rw [hdue] at hx
      cases hx
      exact h
    | some dueMs =>
      simp only [hdue, exec_set_bind] at hx
      obtain ⟨_, u, hpoll, hx⟩ := ok_of_bind hx
      have hdue : s.Prepared fun cap => cap.dueAtMs ≤ max nowMs dueMs :=
        fun p cap entry hcap _ => hk p cap entry hcap trivial
      exact ih (poll_accounts h hdue hpoll) (poll_prepared hk hpoll) hx

end Session

end Tomo
