import Tomo.History.Fidelity
import Tomo.Session.Accounting
import Tomo.Session.EveryChange
import Tomo.Session.Scanning

namespace Tomo
set_option autoImplicit true

namespace HistoryStore
variable {h h' : HistoryStore} {p : RelPath} {clock : VectorClock} {present : Bool}
  {rs : List VersionRecord}

/-- What the unique index tells of a row. -/
def IsOf (p : RelPath) (clock : VectorClock) (present : Bool) (v : VersionRow) : Prop :=
  v.path = p ∧ v.clock = clock ∧ v.content.isSome = present

/-- No two rows are one under the unique index. -/
def Distinct (h : HistoryStore) : Prop :=
  h.versions.Pairwise fun v v' => sameIdentity v v' = false

theorem hasIdentity_iff :
    h.hasIdentity p clock present = true ↔ ∃ v ∈ h.versions, IsOf p clock present v := by
  simp only [hasIdentity, List.any_eq_true, decide_eq_true_eq, IsOf]

theorem hasIdentity_mono (hi : h.hasIdentity p clock present = true)
    (hv : h.versions <+: h'.versions) : h'.hasIdentity p clock present = true := by
  obtain ⟨v, hm, hrow⟩ := hasIdentity_iff.1 hi
  exact hasIdentity_iff.2 ⟨v, hv.subset hm, hrow⟩

theorem Distinct.insertRow (hd : h.Distinct) (r : VersionRow) : (h.insertRow r).1.Distinct := by
  rw [HistoryStore.insertRow]
  split
  next => exact hd
  next hn =>
    apply List.pairwise_append.2
    refine ⟨hd, List.pairwise_singleton _ _, fun v hv v' hv' => ?_⟩
    cases List.mem_singleton.1 hv'
    exact Bool.not_eq_true _ ▸ List.find?_eq_none.1 hn v hv

/-- What a batch of records does to the rows. -/
structure Gains (rs : List VersionRecord) (h h' : HistoryStore) : Prop where
  versions : h.versions <+: h'.versions
  distinct : h.Distinct → h'.Distinct
  taken : ∀ d ∈ rs, h'.hasIdentity d.path d.clock d.state.isPresent = true
  rows : ∀ v ∈ h'.versions, v ∈ h.versions ∨ ∃ d ∈ rs, IsOf d.path d.clock d.state.isPresent v

variable [Platform]

theorem isOf_row (d : VersionRecord) : IsOf d.path d.clock d.state.isPresent d.row := by
  refine ⟨rfl, rfl, ?_⟩
  rw [VersionRecord.row]
  cases d.state <;> rfl

theorem recordOne_gains {d : VersionRecord} (hx : h.recordOne d = .ok (h', n)) :
    Gains [d] h h' := by
  have hrow := isOf_row d
  have he : h' = ((h.withChunks d).insertRow d.row).1 := congrArg Prod.fst (recordOne_ok hx).2
  have hsame : (h.withChunks d).versions = h.versions := by
    rw [withChunks]
    cases d.state with
    | present sig => exact (versions_storeChunks h _).1
    | tombstone => rfl
  constructor
  · exact (recordOne_extends hx).versions
  · intro hd
    rw [Distinct, ← hsame] at hd
    rw [he]
    exact Distinct.insertRow hd d.row
  · intro d' hd'
    cases List.mem_singleton.1 hd'
    obtain ⟨v, hv, _⟩ := insertRow_finds (h.withChunks d) d.row
    have hid := List.find?_some (p := fun v => sameIdentity v d.row) hv
    obtain ⟨hp, hk, hc⟩ := sameIdentity_iff.1 hid
    rw [hasIdentity_iff, he]
    exact ⟨v, List.mem_of_find?_eq_some hv, hp, hc, hk.trans hrow.2.2⟩
  · intro v hv
    rw [he] at hv
    rcases insertRow_mem hv with hv | rfl
    · rw [hsame] at hv
      exact .inl hv
    · exact .inr ⟨d, List.mem_singleton.2 rfl, hrow⟩

theorem recordVersions_gains (hx : h.recordVersions rs = .ok (h', ids)) : Gains rs h h' := by
  induction rs generalizing h ids with
  | nil =>
    cases hx
    exact ⟨List.prefix_rfl, id, fun d hd => (by cases hd), fun v hv => .inl hv⟩
  | cons d rs ih =>
    obtain ⟨u, n, l, hone, hrest, _⟩ := recordVersions_cons_ok.1 hx
    have hd := recordOne_gains hone
    have hr := ih hrest
    constructor
    · exact hd.versions.trans hr.versions
    · intro h
      exact hr.distinct (hd.distinct h)
    · intro d' hd'
      rcases List.mem_cons.1 hd' with rfl | hd'
      · exact hasIdentity_mono (hd.taken _ (List.mem_singleton.2 rfl)) hr.versions
      · exact hr.taken d' hd'
    · intro v hv
      rcases hr.rows v hv with hv | ⟨d', hd', hrow⟩
      · rcases hd.rows v hv with hv | ⟨d', hd', hrow⟩
        · exact .inl hv
        · cases List.mem_singleton.1 hd'
          exact .inr ⟨d, List.mem_cons_self, hrow⟩
      · exact .inr ⟨d', List.mem_cons_of_mem d hd', hrow⟩

end HistoryStore

namespace Session
open Eff HistoryStore
variable {s s' u u' : Session} {p q : RelPath} {state : EntryState} {clock : VectorClock}
  {mode : HistoryMode} {cfg : PressureConfig} {changed todo todo' : RelPath → Prop}

section
variable [Platform]

/-- Whatever a session records, it records once. -/
theorem distinct_recorder : Recorder (fun _ _ _ => True) fun s => s.history.Distinct where
  indifferent {s s'} h hh _ := by
    rw [hh]
    exact h
  store {p state version} _ l bytes s := by
    constructor
    intro h
    rw [storeVersion_exec]
    split
    next h' n hr => exact (recordOne_gains (d := ⟨p, state, version, _, _, _, bytes⟩) hr).distinct h
    next => exact h
  stage _ _ _ _ _ h := h
  conflict _ _ _ _ h := h

theorem recordDueVersions_distinct (due : List (RelPath × StagedCapture)) (s : Session) :
    Upholds (fun s => s.history.Distinct) (recordDueVersions due) s := by
  refine .get <| .ite (.pure _ s) ⟨fun h => ?_⟩
  cases hr : s.history.recordVersions (s.dueRecords due) with
  | error e => exact h
  | ok r => exact (recordVersions_gains hr).distinct h

theorem distinct_kept : Tacit (fun _ => True) fun s => s.history.Distinct where
  tacit {s s'} h hs := by
    have hh : s'.stake.history = s.stake.history := by rw [hs]
    rwa [show s'.history = s.history from hh]
  unstage h := h
  flush := distinct_recorder.flushInstalls
  store hp _ _ l bytes s := distinct_recorder.store hp l bytes s
  note hp _ _ l nowMs s := distinct_recorder.noteVersion hp l nowMs s
  conflict hp s := distinct_recorder.recordConflictCapture hp hp s
  apply _ target bytes s _ := distinct_recorder.doApply (fun _ _ _ => trivial)
    (fun _ _ _ _ => trivial) target bytes
  pump s := .get <| Upholds.bind (.set id) fun _ s' => recordDueVersions_distinct _ s'
  drain := drainHistory_keeps fun _ _ h => ⟨h, recordDueVersions_distinct _⟩

/-- At whatever moment a session stops, no version is in history twice. -/
theorem distinct_run (hd : s.history.Distinct) (hrun : Relation.ReflTransGen Step s s') :
    s'.history.Distinct :=
  distinct_kept.run (fun _ _ h => h) hd hrun

end

/-- Where the files are, and what rules them. -/
def site (s : Session) : Tree × List Name × Config × FsSemantics :=
  (s.tree, s.root, s.config, s.fs)

/-- The version of a head is in history. -/
def Records (s : Session) (p : RelPath) (h : Head) : Prop :=
  s.history.hasIdentity p h.version h.state.isPresent = true

theorem site_beside : Beside site where
  core {s s'} h := by
    have hs : s'.core.site = s.core.site := by rw [h]
    exact hs
  offline s := by
    rcases s.goOffline_only with h | ⟨f, h⟩ <;> rw [h]
    rfl

section
variable [Platform]

/-- The content of a version is on disk; a deletion has none to look for. -/
def Readable (s : Session) (p : RelPath) (state : EntryState) : Prop :=
  ∀ sig, state = .present sig → (readVerified s.tree s.root p sig).isSome = true

theorem Readable.congr (hr : s.Readable p state) (h : u.site = s.site) : u.Readable p state := by
  have ht : u.tree = s.tree := congrArg Prod.fst h
  have hroot : u.root = s.root := congrArg (fun g => g.2.1) h
  intro sig hs
  rw [ht, hroot]
  exact hr sig hs

/-- A version is recorded just where its content is on disk. -/
theorem recordVersion_gains (hx : (recordVersion p state clock l).exec u = (.ok r, u')) :
    ∃ rs, Gains rs u.history u'.history ∧ u' = { u with history := u'.history } ∧
      (∀ d ∈ rs, d.path = p ∧ d.state = state ∧ d.clock = clock ∧ u.Readable p state) ∧
        (u.Readable p state → u'.history.hasIdentity p clock state.isPresent = true) := by
  have hstore (bytes : Option Bytes) (hr : u.Readable p state)
      (hx : (discard (storeVersion p state clock l bytes)).exec u = (.ok r, u')) :
      ∃ rs, Gains rs u.history u'.history ∧ u' = { u with history := u'.history } ∧
        (∀ d ∈ rs, d.path = p ∧ d.state = state ∧ d.clock = clock ∧ u.Readable p state) ∧
          (u.Readable p state → u'.history.hasIdentity p clock state.isPresent = true) := by
    obtain ⟨n, hx⟩ := ok_of_map (g := fun _ => PUnit.unit) hx
    rw [storeVersion_exec] at hx
    split at hx
    next h' id hrec =>
      cases hx
      have hg := recordOne_gains (d := ⟨p, state, clock, (u.attribution l).2,
        (u.attribution l).1, u.wallMs, bytes⟩) hrec
      refine ⟨_, hg, rfl, fun d hd => ?_, fun _ => hg.taken _ (List.mem_singleton.2 rfl)⟩
      cases List.mem_singleton.1 hd
      exact ⟨rfl, rfl, rfl, hr⟩
    next => cases hx
  cases state with
  | tombstone => exact hstore none (fun sig hs => (by cases hs)) hx
  | present sig =>
    simp only [recordVersion, exec_get_bind] at hx
    cases hb : readVerified u.tree u.root p sig with
    | some bytes =>
      rw [hb] at hx
      refine hstore (some bytes) (fun sig' hs => ?_) hx
      cases hs
      rw [hb]
      rfl
    | none =>
      rw [hb] at hx
      cases hx
      refine ⟨[], ⟨List.prefix_rfl, id, fun d hd => (by cases hd), fun v hv => .inl hv⟩, rfl,
        fun d hd => (by cases hd), fun hr => ?_⟩
      have hsome := hr sig rfl
      rw [hb] at hsome
      cases hsome

/-- A due capture is recorded just where its content is on disk. -/
theorem dueRecord_read {cap : StagedCapture} {d : VersionRecord}
    (h : s.dueRecord (p, cap) = some d) : s.Readable p cap.state := by
  intro sig hs
  obtain ⟨⟨q, cap'⟩, he, h⟩ := List.mem_filterMap.1 (List.mem_of_mem_head? h)
  cases List.mem_singleton.1 he
  dsimp only at h
  rw [hs] at h
  obtain ⟨b, hb, _⟩ := Option.map_eq_some_iff.1 h
  rw [hb]
  rfl

/-- Startup on its way from a session: at a path that does not change history has gained at most
the version of the winner, and where a path has been seen to, the winner is in history or staged if
its content is on disk. -/
structure Filling (mode : HistoryMode) (cfg : PressureConfig) (changed todo : RelPath → Prop)
    (s u : Session) : Prop where
  site : u.site = s.site
  steady : u.pressure.Steady mode cfg
  versions : s.history.versions <+: u.history.versions
  distinct : u.history.Distinct
  rows : ∀ v ∈ u.history.versions, v ∈ s.history.versions ∨ changed v.path ∨
    ∃ e, s.engine.index.get v.path = some e ∧
      IsOf v.path e.winner.version e.winner.state.isPresent v ∧ s.Readable v.path e.winner.state
  unchanged : ∀ q, ¬changed q → u.engine.index.get q = s.engine.index.get q
  staged : ∀ q cap, u.pressure.staging[q]? = some cap → ¬todo q →
    ∃ e, u.engine.index.get q = some e ∧ cap.state = e.winner.state ∧
      cap.version = e.winner.version
  pursued : ∀ q e, u.engine.index.get q = some e → ¬todo q → s.Readable q e.winner.state →
    u.Records q e.winner ∨ u.pressure.staging[q]?.isSome = true

/-- Whatever is filed is the version of a winner. -/
theorem Filling.file {rs : List VersionRecord} (h : Filling mode cfg changed todo s u)
    (hg : Gains rs u.history u'.history) (he : u'.engine = u.engine) (hs : u'.site = u.site)
    (hrs : ∀ d ∈ rs, ∃ e, u.engine.index.get d.path = some e ∧ d.state = e.winner.state ∧
      d.clock = e.winner.version ∧ u.Readable d.path d.state)
    (hp : u'.pressure.Steady mode cfg)
    (hstaged : ∀ q cap, u'.pressure.staging[q]? = some cap → ¬todo' q →
      ∃ e, u.engine.index.get q = some e ∧ cap.state = e.winner.state ∧
        cap.version = e.winner.version)
    (hpursued : ∀ q e, u.engine.index.get q = some e → ¬todo' q → s.Readable q e.winner.state →
      u'.Records q e.winner ∨ u'.pressure.staging[q]?.isSome = true) :
    Filling mode cfg changed todo' s u' where
  site := hs.trans h.site
  steady := hp
  versions := h.versions.trans hg.versions
  distinct := hg.distinct h.distinct
  rows v hv := by
    rcases hg.rows v hv with hv | ⟨d, hd, hpath, hrow⟩
    · exact h.rows v hv
    · by_cases hc : changed v.path
      · exact .inr (.inl hc)
      · obtain ⟨e, hget, hst, hclock, hread⟩ := hrs d hd
        rw [← hpath] at hget hread
        rw [h.unchanged _ hc] at hget
        rw [hst] at hread hrow
        rw [hclock] at hrow
        exact .inr (.inr ⟨e, hget, ⟨rfl, hrow⟩, hread.congr h.site.symm⟩)
  unchanged q hq := by
    rw [he]
    exact h.unchanged q hq
  staged q cap hcap hq := by
    rw [he]
    exact hstaged q cap hcap hq
  pursued q e hget hq hr := by
    rw [he] at hget
    exact hpursued q e hget hq hr

/-- A winner that is noted has been seen to. -/
theorem Filling.note {e : Entry} {nowMs : Nat} (h : Filling mode cfg changed todo s u)
    (hm : mode ≠ .off) (hget : u.engine.index.get p = some e)
    (hx : (noteVersion p e.winner.state e.winner.version l nowMs).exec u = (.ok r, u')) :
    u'.engine = u.engine ∧ Filling mode cfg changed (fun q => todo q ∧ q ≠ p) s u' := by
  rw [noteVersion_sized] at hx
  have hsteady :=
    h.steady.note p ⟨e.winner.state, e.winner.version, l, e.winner.state.sizeHint⟩ nowMs
  have hcases :=
    h.steady.note_cases hm p ⟨e.winner.state, e.winner.version, l, e.winner.state.sizeHint⟩ nowMs
  rcases hn : u.pressure.note p
    ⟨e.winner.state, e.winner.version, l, e.winner.state.sizeHint⟩ nowMs with ⟨pressure, decision⟩
  rw [hn] at hx hcases hsteady
  rcases hcases with ⟨hfree, rfl, hsame⟩ | ⟨due, rfl, hins, _⟩
  · obtain ⟨rs, hg, hu', hrs, hdone⟩ := recordVersion_gains (u := { u with pressure }) hx
    have hp : u'.pressure = pressure := by rw [hu']
    have he : u'.engine = u.engine := by rw [hu']
    refine ⟨he, h.file hg he (by rw [hu']; rfl) (fun d hd => ?_) (by rw [hp]; exact hsteady)
      (fun q cap hcap hq => ?_) fun q e' hget' hq hr => ?_⟩
    · obtain ⟨hpath, hstate, hclock, hread⟩ := hrs d hd
      rw [hpath, hstate]
      exact ⟨e, hget, rfl, hclock, hread⟩
    · rw [hp, hsame] at hcap
      by_cases hqp : q = p
      · subst hqp
        rw [hfree] at hcap
        cases hcap
      · exact h.staged q cap hcap fun ht => hq ⟨ht, hqp⟩
    · by_cases hqp : q = p
      · subst hqp
        cases hget.symm.trans hget'
        exact .inl (hdone (hr.congr h.site))
      · rcases h.pursued q e' hget' (fun ht => hq ⟨ht, hqp⟩) hr with hrec | hst
        · exact .inl (hasIdentity_mono hrec hg.versions)
        · rw [hp, hsame]
          exact .inr hst
  · cases hx
    have hslot (q : RelPath) (hqp : q ≠ p) : pressure.staging[q]? = u.pressure.staging[q]? := by
      rw [hins]
      exact PressureController.getElem?_insert_ne (Ne.symm hqp) _
    have hown : pressure.staging[p]? = some (CaptureInput.staged
        ⟨e.winner.state, e.winner.version, l, e.winner.state.sizeHint⟩ nowMs due) := by
      rw [hins]
      exact Std.ExtTreeMap.getElem?_insert_self
    have hnil : Gains [] u.history u.history :=
      ⟨List.prefix_rfl, id, fun d hd => (by cases hd), fun v hv => .inl hv⟩
    refine ⟨rfl, h.file hnil rfl rfl (fun d hd => (by cases hd)) hsteady
      (fun q cap hcap hq => ?_) fun q e' hget' hq hr => ?_⟩
    · by_cases hqp : q = p
      · subst hqp
        cases hown.symm.trans hcap
        exact ⟨e, hget, rfl, rfl⟩
      · exact h.staged q cap ((hslot q hqp).symm.trans hcap) fun ht => hq ⟨ht, hqp⟩
    · by_cases hqp : q = p
      · subst hqp
        exact .inr (congrArg Option.isSome hown)
      · rcases h.pursued q e' hget' (fun ht => hq ⟨ht, hqp⟩) hr with hrec | hst
        · exact .inl hrec
        · exact .inr ((congrArg Option.isSome (hslot q hqp)).trans hst)

theorem Filling.mono (h : Filling mode cfg changed todo s u) (ht : ∀ q, todo q → todo' q) :
    Filling mode cfg changed todo' s u :=
  { h with
    staged := fun q cap hcap hq => h.staged q cap hcap fun hq' => hq (ht q hq')
    pursued := fun q e hget hq => h.pursued q e hget fun hq' => hq (ht q hq') }

/-- Once every winner of a list has been noted, no path is still to be seen to. -/
theorem Filling.notes {l : List (RelPath × EntryState × VectorClock × Bool)} {nowMs : Nat}
    (h : Filling mode cfg changed (fun q => q ∈ l.map Prod.fst) s u) (hm : mode ≠ .off)
    (hl : ∀ x ∈ l, ∃ e, u.engine.index.get x.1 = some e ∧ x.2.1 = e.winner.state ∧
      x.2.2.1 = e.winner.version)
    (hx : (l.forM fun x => noteVersion x.1 x.2.1 x.2.2.1 x.2.2.2 nowMs).exec u = (.ok r, u')) :
    u'.engine = u.engine ∧ Filling mode cfg changed (fun _ => False) s u' := by
  induction l generalizing u with
  | nil =>
    cases hx
    exact ⟨rfl, h.mono fun q hq => by cases hq⟩
  | cons x l ih =>
    obtain ⟨_, w, hone, hrest⟩ := ok_of_bind (f := fun _ => l.forM _) hx
    obtain ⟨e, hget, hstate, hclock⟩ := hl x List.mem_cons_self
    have hone : (noteVersion x.1 x.2.1 x.2.2.1 x.2.2.2 nowMs).exec u = _ := hone
    rw [hstate, hclock] at hone
    obtain ⟨heng, hw⟩ := h.note hm hget hone
    have hw' : Filling mode cfg changed (fun q => q ∈ l.map Prod.fst) s w := by
      apply hw.mono
      rintro q ⟨hq, hne⟩
      exact (List.mem_cons.1 hq).resolve_left hne
    have hl' : ∀ x ∈ l, ∃ e, w.engine.index.get x.1 = some e ∧ x.2.1 = e.winner.state ∧
        x.2.2.1 = e.winner.version := by
      intro x hx
      rw [heng]
      exact hl x (List.mem_cons_of_mem _ hx)
    obtain ⟨heng', hdone⟩ := ih hw' hl' hrest
    exact ⟨heng'.trans heng, hdone⟩

omit [Platform] in
theorem mem_missingVersions {x : RelPath × EntryState × VectorClock × Bool}
    (h : x ∈ s.missingVersions) : ∃ e, s.engine.index.get x.1 = some e ∧
      x.2.1 = e.winner.state ∧ x.2.2.1 = e.winner.version := by
  obtain ⟨⟨p, e⟩, he, hx⟩ := List.mem_filterMap.1 h
  have hget : s.engine.index.get p = some e := Std.ExtTreeMap.mem_toList_iff_getElem?_eq_some.1 he
  obtain ⟨_, hx⟩ := Option.ite_none_left_eq_some.1 hx
  cases hx
  exact ⟨e, hget, rfl, rfl⟩

omit [Platform] in
/-- History has the winner of every path that is not listed. -/
theorem records_of_not_missing {e : Entry} (hget : s.engine.index.get p = some e)
    (h : p ∉ s.missingVersions.map Prod.fst) : s.Records p e.winner := by
  by_contra hno
  have hp : s.history.hasIdentity p e.winner.version e.winner.state.isPresent ≠ true := hno
  have hmem : (p, e.winner.state, e.winner.version,
      (e.winner.version.author.map fun a => decide (a = s.engine.replica)).getD true) ∈
        s.missingVersions := by
    refine List.mem_filterMap.2 ⟨(p, e), Std.ExtTreeMap.mem_toList_iff_getElem?_eq_some.2 hget, ?_⟩
    apply if_neg
    intro hi
    apply hp
    rw [← hi]
    cases e.winner.state <;> rfl
  exact h (List.mem_map_of_mem hmem)

/-- After the first step of startup the persisted winners are in history or staged. -/
theorem completeness_fills (hp : s.pressure.Steady mode cfg)
    (hidle : ∀ q : RelPath, s.pressure.staging[q]? = none) (hm : mode ≠ .off)
    (hd : s.history.Distinct) (hx : reconcileHistoryCompleteness.exec s = (.ok r, u)) :
    u.engine = s.engine ∧ Filling mode cfg changed (fun _ => False) s u := by
  let v : Session := { s with peerReplica := s.peerReplica.or s.indexPeer }
  have hstart : Filling mode cfg changed (fun q => q ∈ v.missingVersions.map Prod.fst) s v := by
    refine ⟨rfl, hp, List.prefix_rfl, hd, fun w hw => .inl hw, fun _ _ => rfl,
      fun q cap hcap _ => ?_, fun q e hget hq _ => .inl (records_of_not_missing (s := v) hget hq)⟩
    have hnone : v.pressure.staging[q]? = none := hidle q
    rw [hnone] at hcap
    cases hcap
  exact hstart.notes hm (fun x hx => mem_missingVersions hx) hx

omit [Platform] in
/-- What a scan reports of a path, the engine takes up while it waits for no echo. -/
def Reported (e : Engine) (c : LocalChange) : Prop :=
  (∃ sig, c.kind = .modified sig ∧ diskDiffers e.index c.path sig = true) ∨
    c.kind = .removed ∧ ∃ sig, e.winnerState c.path = some (.present sig)

omit [Platform] in
theorem handleLocal_reported {e : Engine} {c : LocalChange} (hecho : e.echo = .new)
    (h : Reported e c) : ∃ v, (e.handleLocal c).1 = { e with
        index := e.index.upsert c.path (.single v (stateFromKind c.kind)) } ∧
      (e.handleLocal c).2 = [.send ⟨c.path, c.kind, v⟩,
        .recordVersion c.path (stateFromKind c.kind) v] := by
  have hretire (o : Expectation) : e.echo.retire c.path o = (e.echo, false) := by
    rw [hecho]
    rfl
  rcases h with ⟨sig, hk, hd⟩ | ⟨hk, sig, hw⟩
  · rw [Engine.handleLocal, hk]
    dsimp only
    rw [hretire]
    dsimp only
    rw [Engine.localModified]
    cases hg : e.index.get c.path with
    | none => exact ⟨_, rfl, rfl⟩
    | some entry =>
      dsimp only
      rw [if_neg]
      · exact ⟨_, rfl, rfl⟩
      · intro he
        rw [diskDiffers, hg, Option.map_some] at hd
        cases hs : entry.winner.state with
        | present prev =>
          rw [hs] at he hd
          have he : prev.eq sig = true := he
          simp only [he, Bool.not_true, Bool.false_eq_true] at hd
        | tombstone =>
          rw [hs] at he
          cases he
  · rw [Engine.handleLocal, hk]
    dsimp only
    rw [hretire]
    dsimp only
    rw [Engine.localRemoved]
    rw [Engine.winnerState, Option.map_eq_some_iff] at hw
    obtain ⟨entry, hg, hs⟩ := hw
    rw [hg]
    dsimp only
    rw [if_neg]
    · exact ⟨_, rfl, rfl⟩
    · rw [hs]
      exact Bool.false_ne_true

/-- Take up one change that a scan reports. -/
def takeUp (c : LocalChange) : SessionM Unit := do
  let actions ← handleEvent (.local c)
  execute actions none none

theorem Filling.takeUp {c : LocalChange} (h : Filling mode cfg changed (fun _ => False) s u)
    (hm : mode ≠ .off) (hc : changed c.path) (hecho : u.engine.echo = .new)
    (hr : Reported u.engine c) (hx : (takeUp c).exec u = (.ok r, u')) :
    Filling mode cfg changed (fun _ => False) s u' ∧ u'.engine.echo = .new ∧
      ∃ v, u'.engine.index = u.engine.index.upsert c.path (.single v (stateFromKind c.kind)) := by
  obtain ⟨v, heng, hact⟩ := handleLocal_reported hecho hr
  have hx : (execute (u.engine.handleLocal c).2 none none).exec
      { u with engine := (u.engine.handleLocal c).1 } = (.ok r, u') := hx
  rw [hact, heng] at hx
  simp only [execute, exec_get_bind, conflictCaptures, List.filterMap_cons, List.filterMap_nil,
    List.flatMap_nil, executeActions, List.not_mem_nil, ↓reduceIte] at hx
  obtain ⟨_, w, hsend, hx⟩ := ok_of_bind hx
  obtain ⟨_, w', hnote, hx⟩ := ok_of_bind hx
  cases hx
  generalize hu : ({ u with engine := _ } : Session) = t at hsend
  have hrec := doSend_records ⟨c.path, c.kind, v⟩ t
  have hsite := site_beside.doSend ⟨c.path, c.kind, v⟩ t
  have hweng := engine_beside.doSend ⟨c.path, c.kind, v⟩ t
  rw [Leaves, hsend, ← hu] at hrec hsite hweng
  have hhist : w.history = u.history := congrArg Prod.fst hrec
  have hpress : w.pressure = u.pressure := congrArg Prod.snd hrec
  have hidx : w.engine.index = u.engine.index.upsert c.path (.single v (stateFromKind c.kind)) :=
    congrArg Engine.index hweng
  have hecho' : w.engine.echo = .new := (congrArg Engine.echo hweng).trans hecho
  have hother (q : RelPath) (hq : q ≠ c.path) : w.engine.index.get q = u.engine.index.get q := by
    rw [hidx, Index.get_upsert, if_neg hq.symm]
  have hw : Filling mode cfg changed (fun q => q = c.path) s w := by
    constructor
    · exact hsite.trans h.site
    · rw [hpress]
      exact h.steady
    · rw [hhist]
      exact h.versions
    · rw [hhist]
      exact h.distinct
    · rw [hhist]
      exact h.rows
    · intro q hq
      rw [hother q fun he => hq (he ▸ hc)]
      exact h.unchanged q hq
    · intro q cap hcap hq
      rw [hother q hq]
      rw [hpress] at hcap
      exact h.staged q cap hcap id
    · intro q e hget hq hread
      rw [hother q hq] at hget
      rw [Records, hhist, hpress]
      exact h.pursued q e hget id hread
  have hown : w.engine.index.get c.path = some (.single v (stateFromKind c.kind)) := by
    rw [hidx, Index.get_upsert, if_pos rfl]
  obtain ⟨heng', hdone⟩ := hw.note hm hown hnote
  refine ⟨hdone.mono fun q hq => hq.2 hq.1, ?_, v, ?_⟩
  · rw [heng']
    exact hecho'
  · rw [heng']
    exact hidx

omit [Platform] in
theorem Reported.congr {e e' : Engine} {c : LocalChange} (hr : Reported e c)
    (h : e'.index.get c.path = e.index.get c.path) : Reported e' c := by
  rcases hr with ⟨sig, hk, hd⟩ | ⟨hk, sig, hw⟩
  · refine .inl ⟨sig, hk, ?_⟩
    rw [diskDiffers, h]
    exact hd
  · refine .inr ⟨hk, sig, ?_⟩
    rw [Engine.winnerState, h]
    exact hw

/-- Once all reported changes are taken up, each of their paths has one head. -/
theorem Filling.takeUpAll {l : List LocalChange} (h : Filling mode cfg changed (fun _ => False) s u)
    (hm : mode ≠ .off) (hecho : u.engine.echo = .new) (hn : (l.map LocalChange.path).Nodup)
    (hc : ∀ c ∈ l, changed c.path) (hr : ∀ c ∈ l, Reported u.engine c)
    (hx : (l.forM Session.takeUp).exec u = (.ok r, u')) :
    Filling mode cfg changed (fun _ => False) s u' ∧
      (∀ c ∈ l, ∃ v, u'.engine.index.get c.path = some (.single v (stateFromKind c.kind))) ∧
        ∀ q, (∀ c ∈ l, c.path ≠ q) → u'.engine.index.get q = u.engine.index.get q := by
  induction l generalizing u with
  | nil =>
    cases hx
    exact ⟨h, fun c hm => (by cases hm), fun _ _ => rfl⟩
  | cons c l ih =>
    obtain ⟨_, w, hone, hrest⟩ := ok_of_bind (f := fun _ => l.forM _) hx
    rw [List.map_cons, List.nodup_cons] at hn
    obtain ⟨hw, hecho', v, hidx⟩ :=
      h.takeUp hm (hc c List.mem_cons_self) hecho (hr c List.mem_cons_self) hone
    have hother (q : RelPath) (hq : c.path ≠ q) : w.engine.index.get q = u.engine.index.get q := by
      rw [hidx, Index.get_upsert, if_neg hq]
    have hne (c' : LocalChange) (hm : c' ∈ l) : c.path ≠ c'.path := by
      intro he
      apply hn.1
      rw [he]
      exact List.mem_map_of_mem hm
    have hr' (c' : LocalChange) (hm : c' ∈ l) : Reported w.engine c' :=
      (hr c' (List.mem_cons_of_mem c hm)).congr (hother c'.path (hne c' hm))
    obtain ⟨hdone, hsingle, hkeep⟩ :=
      ih hw hecho' hn.2 (fun c' hm => hc c' (List.mem_cons_of_mem c hm)) hr' hrest
    refine ⟨hdone, fun c' hm => ?_, fun q hq => ?_⟩
    · rcases List.mem_cons.1 hm with rfl | hm
      · refine ⟨v, ?_⟩
        rw [hkeep c'.path fun c hm => (hne c hm).symm, hidx, Index.get_upsert, if_pos rfl]
      · exact hsingle c' hm
    · rw [hkeep q fun c hm => hq c (List.mem_cons_of_mem _ hm)]
      exact hother q (hq c List.mem_cons_self)

/-- A poll takes what is due to history. -/
theorem Filling.poll {nowMs : Nat} (h : Filling mode cfg changed (fun _ => False) s u)
    (hx : (recordDueVersions (u.pressure.pollDue nowMs).2).exec (u.polled nowMs) = (.ok r, u')) :
    Filling mode cfg changed (fun _ => False) s u' := by
  obtain ⟨ids, hbatch⟩ := recordDueVersions_batch hx
  have hg : Gains _ u.history u'.history := recordVersions_gains hbatch
  have heng : u'.engine = u.engine := (recordDueVersions_onward hx).engine
  have hpress : u'.pressure = (u.pressure.pollDue nowMs).1 := (recordDueVersions_leaves hx).1
  have hsite : u'.site = u.site := by
    have hb := site_beside.core
      (recordDueVersions_books (u.pressure.pollDue nowMs).2 (u.polled nowMs)).core
    rwa [hx] at hb
  have hwinner (q : RelPath) (cap : StagedCapture) (hcap : u.pressure.staging[q]? = some cap) :=
    h.staged q cap hcap id
  refine h.file hg heng hsite (fun d hd => ?_) (by rw [hpress]; exact h.steady.pollDue nowMs)
    (fun q cap hcap _ => ?_) fun q e hget _ hr => ?_
  · obtain ⟨⟨q, cap⟩, he, hd⟩ := mem_dueRecords.1 hd
    obtain ⟨hpath, hstate, hclock⟩ := dueRecord_some hd
    have hread := dueRecord_read hd
    have hcap := ((PressureController.mem_pollDue u.pressure nowMs).1 he).1
    obtain ⟨e, hget, hs, hc⟩ := hwinner q cap hcap
    rw [hpath, hstate, hclock]
    exact ⟨e, hget, hs, hc, hread⟩
  · rw [hpress, PressureController.pollDue_staging, Option.filter_eq_some_iff] at hcap
    exact hwinner q cap hcap.1
  · rcases h.pursued q e hget id hr with hrec | hst
    · exact .inl (hasIdentity_mono hrec hg.versions)
    · obtain ⟨cap, hcap⟩ := Option.isSome_iff_exists.1 hst
      by_cases hdue : cap.dueAtMs ≤ nowMs
      · obtain ⟨e', hget', hs, hc⟩ := hwinner q cap hcap
        cases hget.symm.trans hget'
        have hread : (u.polled nowMs).Readable q cap.state := by
          rw [hs]
          exact hr.congr h.site
        obtain ⟨d, hd⟩ := dueRecord_readable hread
        obtain ⟨hpath, hstate, hclock⟩ := dueRecord_some hd
        have hmem := (PressureController.mem_pollDue u.pressure nowMs).2 ⟨hcap, hdue⟩
        have htaken := hg.taken d (mem_dueRecords.2 ⟨_, hmem, hd⟩)
        rw [hpath, hstate, hclock, hs, hc] at htaken
        exact .inl htaken
      · right
        rw [hpress, PressureController.pollDue_staging, hcap, Option.filter_some,
          if_pos (decide_eq_true (Nat.lt_of_not_le hdue))]
        rfl

theorem Filling.drain {nowMs : Nat} (h : Filling mode cfg changed (fun _ => False) s u)
    (hx : (drainFrom n nowMs).exec u = (.ok r, u')) :
    Filling mode cfg changed (fun _ => False) s u' := by
  induction n generalizing nowMs u with
  | zero =>
    cases hx
    exact h
  | succ n ih =>
    rw [drainFrom, exec_get_bind] at hx
    cases hdue : u.pressure.nextDueMs with
    | none =>
      rw [hdue] at hx
      cases hx
      exact h
    | some dueMs =>
      simp only [hdue, exec_set_bind] at hx
      obtain ⟨_, w, hpoll, hx⟩ := ok_of_bind hx
      exact ih (h.poll hpoll) hx

omit [Platform] in
theorem nodup_paths (m : Std.ExtTreeMap RelPath ChangeKind) :
    (m.toList.map (LocalChange.path ∘ fun e => ⟨e.1, e.2⟩)).Nodup := by
  have hkeys : m.toList.map Prod.fst = m.keys := Std.ExtTreeMap.map_fst_toList_eq_keys
  have hnodup := m.nodup_keys
  rw [← hkeys] at hnodup
  exact hnodup

/-- What a scan reports, each path once. -/
theorem scanDiff_reported {changes : List LocalChange} (h : scanDiff s = .ok changes) :
    (changes.map LocalChange.path).Nodup ∧ ∀ c ∈ changes, Reported s.engine c := by
  cases hw : walkTree s with
  | error e =>
    rw [scanDiff, hw] at h
    cases h
  | ok onDisk =>
    rw [scanDiff_collects hw] at h
    cases h
    constructor
    · rw [List.map_map]
      exact nodup_paths _
    · intro c hc
      obtain ⟨e, he, rfl⟩ := List.mem_map.1 hc
      have hget := Std.ExtTreeMap.mem_toList_iff_getElem?_eq_some.1 he
      rcases (collect_reports e.1 e.2).1 hget with ⟨sig, hk, _, hd⟩ | ⟨hk, _, _, hw⟩
      · exact .inl ⟨sig, hk, hd⟩
      · exact .inr ⟨hk, hw⟩

theorem scanDiff_congr (hs : u.site = s.site) (he : u.engine.index = s.engine.index) :
    scanDiff u = scanDiff s := by
  have ht : u.tree = s.tree := congrArg Prod.fst hs
  have hr : u.root = s.root := congrArg (fun g => g.2.1) hs
  have hc : u.config = s.config := congrArg (fun g => g.2.2.1) hs
  have hf : u.fs = s.fs := congrArg (fun g => g.2.2.2) hs
  simp only [scanDiff, walkTree, ht, hr, hc, hf, he]

/-- What `run` does to history before it connects, and the drain of all that it staged. -/
def startUp : SessionM Unit := do
  reconcileHistoryCompleteness
  startupScan
  drainHistory

/-- A session as `run` loads it: nothing is staged yet, no echo is awaited, and the unique index
holds of the versions. -/
structure Loaded (mode : HistoryMode) (cfg : PressureConfig) (s : Session) : Prop where
  pressure : s.pressure = .new mode cfg
  echo : s.engine.echo = .new
  distinct : s.history.Distinct

omit [Platform] in
theorem start_loaded {root : List Name} {config : Config} {index : Index}
    {history : HistoryStore} {tree : Tree} (hd : history.Distinct) :
    (start root config (.new replica index) history tree).Loaded .adaptive {} :=
  ⟨rfl, rfl, hd⟩

/-- Of every path that is synced and versioned, history has each head whose content is on disk, and
the winner that is a deletion; and it has no version twice. -/
structure Complete (s : Session) : Prop where
  heads : ∀ p e h, s.engine.index.get p = some e → (s.config.classify p).cls = .syncedVersioned →
    h ∈ e.heads → h.state.isPresent = true → s.Readable p h.state → s.Records p h
  deletions : ∀ p e, s.engine.index.get p = some e →
    (s.config.classify p).cls = .syncedVersioned → e.winner.state = .tombstone →
      s.Records p e.winner
  distinct : s.history.Distinct

/-- At a path of which the scan has nothing to report, each head whose content is on disk is in
history, or its version is that of the winner, whose content is on disk as well. -/
def Covered (s : Session) : Prop :=
  ∀ changes, scanDiff s = .ok changes → ∀ p e h, s.engine.index.get p = some e →
    (s.config.classify p).cls = .syncedVersioned → (∀ c ∈ changes, c.path ≠ p) → h ∈ e.heads →
      h.state.isPresent = true → s.Readable p h.state → s.Records p h ∨
        h.version = e.winner.version ∧ e.winner.state.isPresent = true ∧
          s.Readable p e.winner.state

/-- After the startup of a session everything that can be in history is, just when no head but the
winner of a path is in need of it. -/
theorem complete_iff_covered (hl : Loaded mode cfg s) (hm : mode ≠ .off)
    (hx : startUp.exec s = (.ok ⟨⟩, s')) : s'.Complete ↔ s.Covered := by
  obtain ⟨_, u, hfirst, hx⟩ := ok_of_bind hx
  obtain ⟨_, w, hsecond, hdrain⟩ := ok_of_bind hx
  have hsteady : s.pressure.Steady mode cfg := by
    rw [hl.pressure]
    exact PressureController.new_steady mode cfg
  have hidle (q : RelPath) : s.pressure.staging[q]? = none := by
    rw [hl.pressure]
    exact Std.ExtTreeMap.getElem?_empty
  have hfirst' (changed : RelPath → Prop) :
      u.engine = s.engine ∧ Filling mode cfg changed (fun _ => False) s u :=
    completeness_fills hsteady hidle hm hl.distinct hfirst
  have hscan : scanDiff u = scanDiff s :=
    scanDiff_congr (hfirst' fun _ => True).2.site (by rw [(hfirst' fun _ => True).1])
  rw [startupScan, exec_get_bind, hscan] at hsecond
  cases hc : scanDiff s with
  | error e =>
    rw [hc] at hsecond
    cases hsecond
  | ok changes =>
    rw [hc] at hsecond
    obtain ⟨heng, hu⟩ := hfirst' fun q => ∃ c ∈ changes, c.path = q
    obtain ⟨hn, hr⟩ := scanDiff_reported hc
    have hr' (c : LocalChange) (hmem : c ∈ changes) : Reported u.engine c := by
      rw [heng]
      exact hr c hmem
    obtain ⟨hw, hsingle, _⟩ := hu.takeUpAll hm (by rw [heng, hl.echo]) hn
      (fun c hmem => ⟨c, hmem, rfl⟩) hr' hsecond
    rw [drainHistory, exec_get_bind] at hdrain
    have hdone := hw.drain hdrain
    have hempty (q : RelPath) : s'.pressure.staging[q]?.isSome = false := by
      have hdrain : drainHistory.exec w = (.ok ⟨⟩, s') := hdrain
      have hsize : s'.pressure.staging.size = 0 := drainHistory_empties hdrain
      rw [Std.ExtTreeMap.eq_empty_iff_size_eq_zero.2 hsize, Std.ExtTreeMap.getElem?_empty]
      rfl
    have hrecords (p : RelPath) (e : Entry) (hget : s'.engine.index.get p = some e)
        (hread : s'.Readable p e.winner.state) : s'.Records p e.winner := by
      rcases hdone.pursued p e hget id (hread.congr hdone.site.symm) with hrec | hst
      · exact hrec
      · rw [hempty] at hst
        cases hst
    have heng' : s'.engine = w.engine := by
      have hq := drainHistory_quiet w
      have hdrain : drainHistory.exec w = (.ok ⟨⟩, s') := hdrain
      rw [Quiet, hdrain] at hq
      exact hq.engine
    have hconfig : s'.config = s.config := congrArg (fun g => g.2.2.1) hdone.site
    constructor
    · intro hcomplete changes' hc' p e h hget hcls hno hmem hp hread
      obtain rfl : changes = changes' := Except.ok.inj (hc.symm.trans hc')
      have hch : ¬∃ c ∈ changes, c.path = p := by
        rintro ⟨c, hm, he⟩
        exact hno c hm he
      have hget' : s'.engine.index.get p = some e := by rw [hdone.unchanged p hch, hget]
      have hrec := hcomplete.heads p e h hget' (by rw [hconfig]; exact hcls) hmem hp
        (hread.congr hdone.site)
      obtain ⟨v, hv, hrow⟩ := hasIdentity_iff.1 hrec
      rcases hdone.rows v hv with hv | hv | ⟨e', hget'', hrow', hread'⟩
      · exact .inl (hasIdentity_iff.2 ⟨v, hv, hrow⟩)
      · rw [hrow.1] at hv
        exact (hch hv).elim
      · rw [hrow.1] at hget'' hread'
        cases hget.symm.trans hget''
        refine .inr ⟨hrow.2.1.symm.trans hrow'.2.1, ?_, hread'⟩
        rw [← hrow'.2.2, hrow.2.2, hp]
    · intro hcovered
      refine ⟨fun p e h hget hcls hmem hp hread => ?_, fun p e hget _ hs => ?_, hdone.distinct⟩
      · by_cases hch : ∃ c ∈ changes, c.path = p
        · obtain ⟨c, hm, rfl⟩ := hch
          obtain ⟨v, hv⟩ := hsingle c hm
          rw [heng', hv] at hget
          cases hget
          cases List.mem_singleton.1 hmem
          exact hrecords c.path (.single v (stateFromKind c.kind)) (by rw [heng', hv]) hread
        · rw [hdone.unchanged p hch] at hget
          rw [hconfig] at hcls
          have hno (c : LocalChange) (hm : c ∈ changes) : c.path ≠ p := fun he => hch ⟨c, hm, he⟩
          rcases hcovered changes hc p e h hget hcls hno hmem hp (hread.congr hdone.site.symm) with
            hrec | ⟨hclock, hp', hread'⟩
          · exact hasIdentity_mono hrec hdone.versions
          · have hrec := hrecords p e (by rw [hdone.unchanged p hch, hget])
              (hread'.congr hdone.site)
            rw [Records, ← hclock, hp'] at hrec
            rw [Records, hp]
            exact hrec
      · apply hrecords p e hget
        intro sig hsig
        rw [hs] at hsig
        cases hsig

end

end Session

/-- A session that has observed `foo`, and then absorbed the same content from its peer. -/
def agreedSession : Session :=
  letI := tabulated shortHashes
  startedSession.after (.burst [fooNews, framed (modifiedAt fooPath) [0x31]])

/-- What is loaded after a crash that has lost the captures that were staged. -/
def reloadedSession : Session :=
  .start rootDir syncAll (.new ⟨1⟩ agreedSession.engine.index) agreedSession.history
    agreedSession.tree

def completedSession : Session :=
  letI := tabulated shortHashes
  (Session.startUp.exec reloadedSession).2

/-- The head that did not win has its content on disk, and startup records no version of it. -/
theorem agreed_head_missing :
    letI := tabulated shortHashes
    Relation.ReflTransGen Session.Step startedSession agreedSession ∧
      reloadedSession.Loaded .adaptive {} ∧
      (Session.startUp.exec reloadedSession).1 = .ok ⟨⟩ ∧ ¬completedSession.Complete := by
  let platform := tabulated shortHashes
  have hrun : Relation.ReflTransGen Session.Step startedSession agreedSession :=
    .single ⟨.burst [fooNews, framed (modifiedAt fooPath) [0x31]], rfl⟩
  have hstart : startedSession.history.Distinct := .nil
  have hd : agreedSession.history.Distinct := Session.distinct_run hstart hrun
  refine ⟨hrun, Session.start_loaded hd, by decide +kernel, fun hc => ?_⟩
  have hg : completedSession.engine.index.get fooPath =
      some ⟨[⟨VectorClock.new.tick ⟨1⟩, .present ⟨oneSig.hash, 1, false, 7⟩⟩,
        ⟨VectorClock.new.tick ⟨2⟩, .present oneSig⟩]⟩ := by decide +kernel
  have hread : completedSession.Readable fooPath (.present oneSig) := by
    rintro _ ⟨⟩
    decide +kernel
  have hrec := hc.heads fooPath _ ⟨VectorClock.new.tick ⟨2⟩, .present oneSig⟩ hg (by decide +kernel)
    (by decide +kernel) rfl hread
  have hmissing : completedSession.history.hasIdentity fooPath (VectorClock.new.tick ⟨2⟩) true =
      false := by decide +kernel
  exact Bool.false_ne_true (hmissing.symm.trans hrec)

/-- A version that a crash has lost is in history again. -/
theorem foo_completed :
    letI := tabulated shortHashes
    ∃ s', Session.startUp.exec fooSession = (.ok ⟨⟩, s') ∧ s'.Complete := by
  let platform := tabulated shortHashes
  have hok : (Session.startUp.exec fooSession).1 = .ok ⟨⟩ := by decide +kernel
  have hd : HistoryStore.new.Distinct := .nil
  have hl : fooSession.Loaded .adaptive {} := Session.start_loaded hd
  have hx : Session.startUp.exec fooSession = (.ok ⟨⟩, (Session.startUp.exec fooSession).2) := by
    rw [← hok]
  refine ⟨(Session.startUp.exec fooSession).2, hx, ?_⟩
  apply (Session.complete_iff_covered hl HistoryMode.noConfusion hx).2
  intro changes _ p e h hget _ _ hmem hp hread
  have hi : fooSession.engine.index.get p = if fooPath = p then
      some (.single (VectorClock.new.tick ⟨1⟩) (.present oneSig)) else Index.new.get p :=
    Index.get_upsert ..
  rw [hi, Index.get_new] at hget
  split at hget
  · cases hget
    cases List.mem_singleton.1 hmem
    exact .inr ⟨rfl, hp, hread⟩
  · cases hget

end Tomo
