import Tomo.Session.Versioning

namespace Tomo
set_option autoImplicit true

namespace Engine
variable {e : Engine} {c : RemoteChange} {p : RelPath}

/-- What a remote change does to its path; a path that is not in the index takes it as it is. -/
def outcome (e : Engine) (c : RemoteChange) : AbsorbOutcome :=
  match e.index.get c.path with
  | none => .absorbed true false true
  | some entry => (entry.absorb c.version (stateFromKind c.kind)).2

/-- The entry of a change's path once the change is absorbed. -/
def entryAfter (e : Engine) (c : RemoteChange) : Entry :=
  absorbed (e.index.get c.path) c.version (stateFromKind c.kind)

theorem outcome_some (hg : e.index.get c.path = some entry) :
    e.outcome c = (entry.absorb c.version (stateFromKind c.kind)).2 := by
  rw [outcome, hg]

theorem entryAfter_some (hg : e.index.get c.path = some entry) :
    e.entryAfter c = (entry.absorb c.version (stateFromKind c.kind)).1 := by
  rw [entryAfter, hg]
  rfl

theorem handleRemote_index (e : Engine) (c : RemoteChange) (q : RelPath) :
    (e.handleRemote c).1.index.get q =
      if c.path = q then some (e.entryAfter c) else e.index.get q :=
  (e.absorbRemote_spec c.path (stateFromKind c.kind) c.version).2.1 q

/-- What is filed about a change, by what it does to its path. -/
theorem paperwork_outcome (e : Engine) (c : RemoteChange) : e.paperwork c =
    match e.outcome c with
    | .alreadyKnown => []
    | .absorbed _ opened novel =>
      (if opened then conflictActions c.path (e.entryAfter c) else []) ++
        if novel then [.recordVersion c.path (stateFromKind c.kind) c.version] else [] := by
  rw [paperwork, handleRemote, absorbRemote, outcome, entryAfter]
  cases hg : e.index.get c.path with
  | none => cases hs : stateFromKind c.kind <;> rfl
  | some entry =>
    rcases absorb_outcome entry c.version (stateFromKind c.kind) with ⟨_, hk⟩ | ⟨_, w, o, n, ho⟩
    · simp only [hk]
      rfl
    · obtain ⟨after, ha⟩ : ∃ after, (entry.absorb c.version (stateFromKind c.kind)).1 = after :=
        ⟨_, rfl⟩
      have he : entry.absorb c.version (stateFromKind c.kind) = (after, .absorbed w o n) :=
        Prod.ext ha ho
      have hpaper : ∀ a ∈ conflictActions c.path after, a.isPaper = true :=
        fun a ha => (conflictActions_paper c.path after a ha).1
      simp only [he, absorbed, List.filter_append]
      have happly : (if w = true then e.emitApply c.path (expectationFromState after.winner.state)
          else (e, [])).2.filter Action.isPaper = [] := by
        split <;> rfl
      have hconf : (if o = true then conflictActions c.path after else []).filter Action.isPaper =
          if o = true then conflictActions c.path after else [] := by
        split
        · exact List.filter_eq_self.2 hpaper
        · rfl
      have hrec : (if n = true then [Action.recordVersion c.path (stateFromKind c.kind) c.version]
          else []).filter Action.isPaper =
          if n = true then [.recordVersion c.path (stateFromKind c.kind) c.version] else [] := by
        split <;> rfl
      rw [happly, hconf, hrec, List.nil_append]

/-- A change that is known changes nothing. -/
theorem outcome_known (h : e.outcome c = .alreadyKnown) :
    e.index.get c.path = some (e.entryAfter c) := by
  cases hg : e.index.get c.path with
  | none =>
    rw [outcome, hg] at h
    cases h
  | some entry =>
    rw [outcome_some hg] at h
    rw [entryAfter_some hg]
    rcases absorb_outcome entry c.version (stateFromKind c.kind) with ⟨_, hk⟩ | ⟨_, w, o, n, ho⟩
    · rw [hk]
    · rw [ho] at h
      cases h

theorem outcome_unknown (h : e.outcome c = .absorbed w o n)
    (hg : e.index.get c.path = some entry) : entry.knows c.version = false := by
  rw [outcome_some hg] at h
  rw [← Bool.not_eq_true]
  intro hk
  rw [Entry.absorb_known hk] at h
  cases h

/-- A conflict that opens is one between the head that was there and the change. -/
theorem outcome_opened (h : e.outcome c = .absorbed w true n) :
    ∃ g, e.index.get c.path = some ⟨[g]⟩ ∧ ¬(e.entryAfter c).Uniform ∧
      ∀ k ∈ (e.entryAfter c).heads, k = ⟨c.version, stateFromKind c.kind⟩ ∨
        k = g ∧ k.version ≠ c.version := by
  cases hg : e.index.get c.path with
  | none =>
    rw [outcome, hg] at h
    cases h
  | some entry =>
    have hk := outcome_unknown h hg
    obtain ⟨wc, nov, ho⟩ := Entry.absorb_opens hk (stateFromKind c.kind)
    rw [outcome_some hg, ho, AbsorbOutcome.absorbed.injEq] at h
    simp only [Bool.and_eq_true, decide_eq_true_eq] at h
    obtain ⟨_, ⟨⟨hone, _⟩, hconf⟩, _⟩ := h
    obtain ⟨g, hheads⟩ := List.length_eq_one_iff.1 hone
    refine ⟨g, by rw [← hheads], ?_, fun k hk' => ?_⟩
    · rw [entryAfter_some hg, ← Entry.headsConflict_iff]
      exact hconf
    · rw [entryAfter_some hg, Entry.mem_absorb hk, hheads, List.mem_singleton] at hk'
      rcases hk' with rfl | ⟨rfl, hn⟩
      · exact .inl rfl
      · exact .inr ⟨rfl, fun hv => hn hv.le⟩

end Engine

namespace Session
open Eff HistoryStore
variable [Platform] {s s' t u : Session} {p : RelPath} {state : EntryState} {clock : VectorClock}
  {bytes : Option Bytes} {c : RemoteChange} {mode : HistoryMode} {cfg : PressureConfig}

theorem vacant_filer (p : RelPath) (state : EntryState) (clock : VectorClock) :
    Filer (fun q st w => q = p → w = clock → st.content = state.content)
      (fun s => s.history.Vacant p state clock) where
  indifferent {s s'} h hh _ := by
    rw [hh]
    exact h
  store {q st w} hok l bytes s := by
    constructor
    intro h
    rw [storeVersion_exec]
    split
    next h' id hr => exact h.recordVersion hok hr
    next => exact h

theorem recordConflictCapture_pressure (k : ConflictCapture) (s : Session) :
    Leaves Session.pressure (recordConflictCapture k) s := by
  have hfind (p : RelPath) (state : EntryState) (v : VectorClock) (b : Captured) (l : Bool)
      (s : Session) : Leaves Session.pressure (findOrRecord p state v b l) s :=
    ((pressure_filer s.pressure).findOrRecord trivial b l s).after rfl
  refine (hfind ..).bind fun loser s' _ => (hfind ..).bind fun winner s' _ => ?_
  split
  · exact .get <| Leaves.bind (.set rfl) fun _ s' _ => .pure _ _ s'
  · exact .pure _ _ s'

/-- A head is found or recorded with what was captured for it. -/
theorem findOrRecord_versioned {captured : Captured} (hv : s.history.Vacant p state clock)
    (hb : state = .tombstone ∨ ∃ b, captured = .present b)
    (hx : (findOrRecord p state clock captured l).exec s = (.ok n, s')) :
    s'.history.Versioned p state := by
  simp only [findOrRecord, exec_get_bind] at hx
  split at hx
  next m hm =>
    cases hx
    have hid := List.find?_some hm
    simp only [Bool.and_eq_true, decide_eq_true_eq] at hid
    have hlog := List.mem_of_find?_eq_some hm
    rw [log, List.mem_reverse, List.mem_map] at hlog
    obtain ⟨r, hr, rfl⟩ := hlog
    rw [List.mem_filter, decide_eq_true_eq] at hr
    refine ⟨r, hr.1, hr.2, hv r hr.1 hr.2 hid.1 ?_⟩
    have hsame : sameState (rowState r) state = true := hid.2
    rw [rowState] at hsame
    cases hc : r.content with
    | none =>
      rw [hc] at hsame
      cases state with
      | present => cases hsame
      | tombstone => rfl
    | some b =>
      rw [hc] at hsame
      cases state with
      | present => rfl
      | tombstone => cases hsame
  next =>
    have hstore {bytes : Option Bytes} {n : Option Nat}
        (hx : (some <$> storeVersion p state clock l bytes).exec s = (.ok n, s')) :
        s'.history.Versioned p state := by
      obtain ⟨_, hx⟩ := ok_of_map hx
      rw [storeVersion_exec] at hx
      split at hx
      next h' id hrec =>
        cases hx
        exact hv.versioned hrec
      next => cases hx
    split at hx
    · exact hstore hx
    · exact hstore hx
    next hn =>
      rcases hb with hb | ⟨b, hb⟩
      · cases hb
      · exact (hn b hb).elim

/-- The winner of a conflict is recorded with what was captured for it. -/
theorem recordConflictCapture_versioned {k : ConflictCapture}
    (hv : s.history.Vacant k.path k.winner k.winnerVersion)
    (hl : k.loserVersion ≠ k.winnerVersion)
    (hb : k.winner = .tombstone ∨ ∃ b, k.winnerBytes = .present b)
    (hx : (recordConflictCapture k).exec s = (.ok n, s')) :
    s'.history.Versioned k.path k.winner := by
  obtain ⟨loserId, u, hloser, hx⟩ := ok_of_bind hx
  obtain ⟨winnerId, v, hwinner, hx⟩ := ok_of_bind hx
  have hkeep : Upholds (fun s => s.history.Vacant k.path k.winner k.winnerVersion)
      (findOrRecord k.path k.loser k.loserVersion k.loserBytes k.loserIsLocal) s :=
    (vacant_filer ..).findOrRecord (fun _ he => (hl he).elim) _ _ s
  have hfree := hkeep.after hv
  rw [hloser] at hfree
  have hver := findOrRecord_versioned hfree hb hwinner
  split at hx
  · cases hx
    exact hver
  · cases hx
    exact hver

/-- Paperwork whose versions are all left out stages nothing. -/
theorem executeActions_pressure {skip : List (RelPath × VectorClock)} {actions : List Action}
    (hpaper : ∀ a ∈ actions, a.isPaper = true)
    (hskip : ∀ q st w, .recordVersion q st w ∈ actions → (q, w) ∈ skip) (bytes : Option Bytes)
    (v : Option VectorClock) (nowMs : Nat) (captures : List ConflictCapture) (s : Session) :
    Leaves Session.pressure (executeActions bytes v nowMs skip actions captures) s := by
  induction actions generalizing captures s with
  | nil => exact .pure _ _ s
  | cons a rest ih =>
    have hrest (captures : List ConflictCapture) (s : Session) :=
      ih (fun b hb => hpaper b (List.mem_cons_of_mem a hb))
        (fun q st w hm => hskip q st w (List.mem_cons_of_mem a hm)) captures s
    cases a with
    | send change =>
      have hsend : Leaves Session.pressure (doSend change) s :=
        congrArg Prod.snd (doSend_records change s)
      exact hsend.bind fun _ s' _ => hrest captures s'
    | apply path target => cases hpaper _ List.mem_cons_self
    | recordVersion path state version =>
      rw [executeActions, if_pos (hskip path state version List.mem_cons_self)]
      exact hrest captures s
    | conflictResolved path winner wv loser lv adopted =>
      cases captures with
      | nil => exact hrest [] s
      | cons k captures =>
        exact (recordConflictCapture_pressure k s).map.bind fun _ s' _ => hrest captures s'

omit [Platform] in
/-- The first note of a conflict that opens is about the two heads of the path. -/
theorem opened_note {e : Engine} (h : e.outcome c = .absorbed w true n) :
    ∃ l ∈ (e.entryAfter c).heads, ∃ adopted rest, e.paperwork c =
      .conflictResolved c.path (e.entryAfter c).winner.state (e.entryAfter c).winner.version
          l.state l.version adopted :: rest ∧
        ((e.entryAfter c).winner.version = c.version ∧ l.version ≠ c.version ∨
          (e.entryAfter c).winner.version ≠ c.version ∧ l.version = c.version) ∧
        ∀ q st v, .recordVersion q st v ∈ rest → q = c.path ∧ v = c.version := by
  obtain ⟨g, _, hconf, hheads⟩ := Engine.outcome_opened h
  obtain ⟨l, hl, hne⟩ := Entry.exists_loser hconf
  have hfilter : l ∈ (e.entryAfter c).heads.filter fun k => !k.eq (e.entryAfter c).winner :=
    List.mem_filter.2 ⟨hl, by rw [hne]; rfl⟩
  obtain ⟨l', tail, hsplit⟩ := List.exists_cons_of_ne_nil (List.ne_nil_of_mem hfilter)
  obtain ⟨hl', hne'⟩ := List.mem_filter.1 (hsplit ▸ List.mem_cons_self :
    l' ∈ (e.entryAfter c).heads.filter fun k => !k.eq (e.entryAfter c).winner)
  have hdiff : l' ≠ (e.entryAfter c).winner := by
    intro he
    rw [he, Head.eq, EntryState.eq_refl, decide_eq_true rfl] at hne'
    cases hne'
  refine ⟨l', hl', (e.entryAfter c).adoptionMode,
    (tail.map fun k => .conflictResolved c.path (e.entryAfter c).winner.state
      (e.entryAfter c).winner.version k.state k.version (e.entryAfter c).adoptionMode) ++
        if n then [.recordVersion c.path (stateFromKind c.kind) c.version] else [], ?_, ?_, ?_⟩
  · rw [Engine.paperwork_outcome, h]
    simp only [↓reduceIte, Engine.conflictActions, hsplit, List.map_cons, List.cons_append]
  · rcases hheads _ (winner_mem (List.ne_nil_of_mem hl)) with hw | ⟨hw, hwv⟩
    · rcases hheads l' hl' with hk | ⟨_, hkv⟩
      · exact (hdiff (hk.trans hw.symm)).elim
      · exact .inl ⟨by rw [hw], hkv⟩
    · rcases hheads l' hl' with hk | ⟨hk, _⟩
      · exact .inr ⟨hwv, by rw [hk]⟩
      · exact (hdiff (hk.trans hw.symm)).elim
  · intro q st v hm
    rcases List.mem_append.1 hm with hm | hm
    · obtain ⟨k, _, he⟩ := List.mem_map.1 hm
      cases he
    · split at hm
      · cases List.mem_singleton.1 hm
        exact ⟨rfl, rfl⟩
      · cases hm

/-- A conflict that opens leaves what is staged, and is recorded with the content of a change that
wins it. -/
theorem fileAbsorbed_opened (h : t.engine.outcome c = .absorbed w true n)
    (hx : (t.fileAbsorbed c bytes).exec u = (.ok r, s')) :
    s'.pressure = u.pressure ∧ ((t.engine.entryAfter c).winner.version = c.version →
      u.history.Vacant c.path (stateFromKind c.kind) c.version →
      (stateFromKind c.kind = .tombstone ∨
        ∃ b, t.captureConflictBytes c.path (stateFromKind c.kind) bytes = .present b) →
        s'.history.Versioned c.path (stateFromKind c.kind)) := by
  obtain ⟨l, hl, adopted, rest, hpaper, hpair, hrest⟩ := opened_note h
  have hall : ∀ a ∈ t.engine.paperwork c, a.isPaper = true :=
    fun a ha => (Engine.paperwork_paper t.engine c a ha).1
  rw [fileAbsorbed, conflictCaptures_paperwork] at hx
  obtain ⟨captures, hcap⟩ : ∃ ks, (t.absorbed c).conflictCaptures bytes (some c.version)
    (t.engine.paperwork c) = ks := ⟨_, rfl⟩
  have hfirst := hcap
  rw [hpaper] at hfirst
  let k : ConflictCapture := {
    path := c.path, winner := (t.engine.entryAfter c).winner.state
    winnerVersion := (t.engine.entryAfter c).winner.version, loser := l.state
    loserVersion := l.version, adopted
    winnerIsLocal := !decide (some c.version = some (t.engine.entryAfter c).winner.version)
    winnerBytes := t.captureConflictBytes c.path (t.engine.entryAfter c).winner.state bytes
    loserIsLocal := !decide (some c.version = some l.version)
    loserBytes := t.captureConflictBytes c.path l.state bytes }
  obtain ⟨ks, hks⟩ : ∃ ks, captures = k :: ks := ⟨_, hfirst.symm⟩
  have hskip : (c.path, c.version) ∈ captures.flatMap fun k =>
      [(k.path, k.winnerVersion), (k.path, k.loserVersion)] := by
    rw [hks, List.flatMap_cons]
    apply List.mem_append_left
    rcases hpair with ⟨hw, _⟩ | ⟨_, hw⟩
    · rw [← hw]
      exact List.mem_cons_self
    · rw [← hw]
      exact List.mem_cons_of_mem _ (List.mem_singleton_self _)
  rw [hcap] at hx
  generalize captures.flatMap _ = skip at hx hskip
  constructor
  · have hleft (q : RelPath) (st : EntryState) (v : VectorClock)
        (hm : .recordVersion q st v ∈ t.engine.paperwork c) : (q, v) ∈ skip := by
      rw [hpaper] at hm
      obtain ⟨rfl, rfl⟩ := hrest q st v ((List.mem_cons.1 hm).resolve_left fun he => by cases he)
      exact hskip
    have hp := executeActions_pressure hall hleft bytes (some c.version) t.nowMs captures u
    rwa [Leaves, hx] at hp
  · intro hw hv hb
    have hwinner : (t.engine.entryAfter c).winner.state = stateFromKind c.kind := by
      obtain ⟨_, _, _, hheads⟩ := Engine.outcome_opened h
      rcases hheads _ (winner_mem (List.ne_nil_of_mem hl)) with he | ⟨_, hne⟩
      · rw [he]
      · exact (hne hw).elim
    have hloser : l.version ≠ (t.engine.entryAfter c).winner.version := by
      rcases hpair with ⟨_, hlv⟩ | ⟨hne, _⟩
      · rw [hw]
        exact hlv
      · exact (hne hw).elim
    rw [hpaper, hks] at hx
    obtain ⟨_, v, hrec, hx⟩ := ok_of_bind hx
    obtain ⟨_, hrec⟩ := ok_of_map (g := fun _ => PUnit.unit) hrec
    have hvac : u.history.Vacant k.path k.winner k.winnerVersion := by
      change u.history.Vacant c.path (t.engine.entryAfter c).winner.state
        (t.engine.entryAfter c).winner.version
      rw [hwinner, hw]
      exact hv
    have hbytes : k.winner = .tombstone ∨ ∃ b, k.winnerBytes = .present b := by
      change (t.engine.entryAfter c).winner.state = .tombstone ∨ ∃ b,
        t.captureConflictBytes c.path (t.engine.entryAfter c).winner.state bytes = .present b
      rw [hwinner]
      exact hb
    have hver := recordConflictCapture_versioned hvac hloser hbytes hrec
    have hver : v.history.Versioned c.path (stateFromKind c.kind) := by
      rw [← hwinner]
      exact hver
    have hq := executeActions_quiet bytes (some c.version) t.nowMs skip
      (fun a ha => hall a (by rw [hpaper]; exact List.mem_cons_of_mem _ ha)) ks v
    rw [Quiet, hx] at hq
    exact hver.mono hq.versions

/-- A conflict that does not open leaves the version to be noted, if its content is new. -/
theorem fileAbsorbed_unopened (h : t.engine.outcome c = .absorbed w false n)
    (hx : (t.fileAbsorbed c bytes).exec u = (.ok r, s')) :
    n = false ∧ s' = u ∨ n = true ∧
      (noteVersion c.path (stateFromKind c.kind) c.version false t.nowMs).exec u = (.ok ⟨⟩, s') := by
  have hpaper := t.engine.paperwork_outcome c
  simp only [h, Bool.false_eq_true, ↓reduceIte, List.nil_append] at hpaper
  rw [fileAbsorbed, conflictCaptures_paperwork, hpaper] at hx
  cases n with
  | false =>
    cases hx
    exact .inl ⟨rfl, rfl⟩
  | true =>
    simp only [↓reduceIte, conflictCaptures, List.filterMap_cons, List.filterMap_nil,
      List.flatMap_nil, executeActions, List.not_mem_nil, decide_true, Bool.not_true] at hx
    obtain ⟨_, v, hnote, hx⟩ := ok_of_bind hx
    cases hx
    exact .inr ⟨rfl, hnote⟩

/-- Carrying a change out stages no capture, and takes no identity but that of a head. -/
theorem carryOut_records (hx : (carryOut c.path (t.engine.applyTarget c) bytes).exec (t.absorbed c) =
    (.ok r, u)) : Onward (t.absorbed c) u ∧ u.pressure = t.pressure ∧
      ((∀ entry, t.engine.index.get c.path = some entry → entry.knows c.version = false) →
        t.history.Vacant c.path (stateFromKind c.kind) c.version →
          u.history.Vacant c.path (stateFromKind c.kind) c.version) := by
  cases ht : t.engine.applyTarget c with
  | none =>
    rw [ht] at hx
    cases hx
    exact ⟨.of_eq rfl rfl, rfl, fun _ hv => hv⟩
  | some target =>
    rw [ht] at hx
    have hx : (doApply c.path target bytes).exec (t.absorbed c) = (.ok r, u) := hx
    refine ⟨?_, ?_, fun hnew hv => ?_⟩
    · have hq := doApply_quiet c.path target bytes (t.absorbed c)
      rwa [Quiet, hx] at hq
    · have hk := ((pressure_filer t.pressure).doApply (p := c.path) (s := t.absorbed c)
        (fun _ _ _ => trivial) (fun _ _ _ _ => trivial) target bytes).after rfl
      rwa [hx] at hk
    · have hk : Upholds (fun s => s.history.Vacant c.path (stateFromKind c.kind) c.version)
          (doApply c.path target bytes) (t.absorbed c) := by
        refine (vacant_filer ..).doApply ?_ ?_ target bytes
        · rintro sig clock hclock - rfl
          exact (EntryState.content_of_eq (headClockFor_eq hnew hclock)).symm
        · rintro rel hrel _ _ rfl -
          have hlen := hrel.length_le
          rw [List.length_dropLast] at hlen
          have hpos := List.length_pos_iff.2 c.path.components_ne_nil
          omega
      have hv := hk.after hv
      rwa [hx] at hv

theorem fileAbsorbed_onward (hx : (t.fileAbsorbed c bytes).exec u = (.ok r, s')) :
    Onward u s' := by
  have hq : Quiet (t.fileAbsorbed c bytes) u :=
    executeActions_quiet _ _ _ _ (fun a ha => (Engine.paperwork_paper t.engine c a ha).1) _ u
  rwa [Quiet, hx] at hq

/-- What the disk shows of a change and will go on showing can be read once it is carried out. -/
theorem carryOut_shows {sig : ContentSig} (hs : t.Shows c.path sig)
    (ht : t.engine.applyTarget c ≠ some .absent)
    (hx : (carryOut c.path (t.engine.applyTarget c) bytes).exec (t.absorbed c) = (.ok r, u)) :
    (readVerified u.tree u.root c.path sig).isSome = true := by
  cases htarget : t.engine.applyTarget c with
  | none =>
    rw [htarget] at hx
    cases hx
    exact hs.now
  | some target =>
    rw [htarget] at hx ht
    have hx : (doApply c.path target bytes).exec (t.absorbed c) = (.ok r, u) := hx
    have hroot : u.root = t.root := by
      have hl := (doApply_works c.path bytes target (t.absorbed c)).leaves
      rw [Leaves, hx] at hl
      have hr : u.frame.root = (t.absorbed c).frame.root := by rw [hl]
      exact hr
    have hpresent : target ≠ .absent := fun he => ht (by rw [he])
    rw [hroot]
    exact doApply_shows (s := t.absorbed c) ⟨hs.now, hs.installed⟩ hpresent hx

/-- What a remote change has to find so that the winner of its path stays accounted for. A version
that is recorded at once is in history, or on disk once the change is carried out; a change that
opens a conflict and wins it comes with its content; and a winner that the path is left with is
either what is noted now, or what was there with nothing noted, or has a version already. -/
structure Minded (t : Session) (c : RemoteChange) (bytes : Option Bytes) : Prop where
  prompt : ∀ w, t.engine.outcome c = .absorbed w false true →
    (t.pressure.note c.path ⟨stateFromKind c.kind, c.version, false,
      (stateFromKind c.kind).sizeHint⟩ t.nowMs).2 = .immediate →
    t.history.Versioned c.path (stateFromKind c.kind) ∨
      t.history.Vacant c.path (stateFromKind c.kind) c.version ∧ ∀ sig, c.kind = .modified sig →
        t.engine.applyTarget c ≠ some .absent ∧ t.Shows c.path sig
  opens : ∀ w n, t.engine.outcome c = .absorbed w true n →
    (t.engine.entryAfter c).winner.version = c.version →
    t.history.Versioned c.path (stateFromKind c.kind) ∨
      t.history.Vacant c.path (stateFromKind c.kind) c.version ∧ (stateFromKind c.kind = .tombstone ∨
        ∃ b, t.captureConflictBytes c.path (stateFromKind c.kind) bytes = .present b)
  leaves : ∀ w n, t.engine.outcome c = .absorbed w false n →
    (if n then some (stateFromKind c.kind).content
      else (t.engine.winnerState c.path).map EntryState.content) =
        some (t.engine.entryAfter c).winner.state.content ∨
      t.history.Versioned c.path (t.engine.entryAfter c).winner.state

theorem absorbAndExecute_accounts (h : Accounts mode cfg t) (hm : mode ≠ .off)
    (hc : t.Minded c bytes) (hx : (absorbAndExecute c bytes).exec t = (.ok r, s')) :
    Accounts mode cfg s' := by
  rw [absorbAndExecute_exec] at hx
  obtain ⟨_, u, hcarry, hfile⟩ := ok_of_bind hx
  obtain ⟨hon, hpress, hvac⟩ := carryOut_records hcarry
  have hon : Onward { t with engine := (t.engine.handleRemote c).1 } u :=
    ⟨hon.engine, hon.versions⟩
  have hcarried : Notes c.path { t with engine := (t.engine.handleRemote c).1 } u :=
    .of_onward hon hpress
  have hidx := t.engine.handleRemote_index c
  have hrest : Onward u s' := fileAbsorbed_onward hfile
  have hmono {state : EntryState} (hv : t.history.Versioned c.path state) :
      s'.history.Versioned c.path state := hv.mono (hon.versions.trans hrest.versions)
  have hstay {state : EntryState} (hp : s'.pressure = u.pressure)
      (ha : t.history.Versioned c.path state ∨ t.Awaits c.path state) :
      s'.history.Versioned c.path state ∨ s'.Awaits c.path state := by
    refine ha.imp hmono ?_
    rintro ⟨cap, hcap, hs⟩
    exact ⟨cap, by rw [hp, hpress]; exact hcap, hs⟩
  have htell (hn : Notes c.path u s') (hp : s'.history.Versioned c.path
      (t.engine.entryAfter c).winner.state ∨ s'.Awaits c.path (t.engine.entryAfter c).winner.state) :
      Accounts mode cfg s' := by
    refine h.tell _ (hcarried.trans hn) (fun q hq => ?_) fun entry hg => ?_
    · rw [hidx, if_neg hq.symm]
    · rw [hidx, if_pos rfl] at hg
      cases hg
      exact hp
  cases ho : t.engine.outcome c with
  | alreadyKnown =>
    have hpaper := t.engine.paperwork_outcome c
    rw [ho] at hpaper
    rw [fileAbsorbed, hpaper] at hfile
    cases hfile
    exact htell (.of_onward hrest rfl) (hstay rfl (h.winners _ _ (Engine.outcome_known ho)))
  | absorbed w opened novel =>
    cases opened with
    | true =>
      obtain ⟨hp, hstore⟩ := fileAbsorbed_opened ho hfile
      refine htell (.of_onward hrest hp) ?_
      obtain ⟨g, hg, hconf, hheads⟩ := Engine.outcome_opened ho
      have hnew (entry : Entry) (hg : t.engine.index.get c.path = some entry) :
          entry.knows c.version = false := Engine.outcome_unknown ho hg
      obtain ⟨l, hl, _⟩ := Entry.exists_loser hconf
      rcases hheads _ (winner_mem (List.ne_nil_of_mem hl)) with hw | ⟨hw, _⟩
      · left
        rw [hw]
        rcases hc.opens w novel ho (by rw [hw]) with hv | ⟨hv, hb⟩
        · exact hmono hv
        · exact hstore (by rw [hw]) (hvac hnew hv) hb
      · rw [hw]
        exact hstay hp (h.winners c.path ⟨[g]⟩ hg)
    | false =>
      have hleaves := hc.leaves w novel ho
      rcases fileAbsorbed_unopened ho hfile with ⟨rfl, rfl⟩ | ⟨rfl, hnote⟩
      · refine htell (.of_onward (.of_eq rfl rfl) rfl) ?_
        rcases hleaves with hs | hv
        · obtain ⟨old, hold, hs⟩ := Option.map_eq_some_iff.1 hs
          rw [Engine.winnerState, Option.map_eq_some_iff] at hold
          obtain ⟨entry, hg, rfl⟩ := hold
          refine (hstay rfl (h.winners c.path entry hg)).imp (fun hv => hv.congr hs) ?_
          rintro ⟨cap, hcap, hst⟩
          exact ⟨cap, hcap, hst.trans hs⟩
        · exact .inl (hmono hv)
      · have hsteady : u.pressure.Steady mode cfg := by
          rw [hpress]
          exact h.steady
        have hready : (u.pressure.note c.path ⟨stateFromKind c.kind, c.version, false,
            (stateFromKind c.kind).sizeHint⟩ t.nowMs).2 = .immediate →
              u.Recordable c.path (stateFromKind c.kind) c.version := by
          intro hd
          rw [hpress] at hd
          rcases hc.prompt w ho hd with hv | ⟨hv, hshow⟩
          · exact .inl (hv.mono hon.versions)
          · refine .inr ⟨hvac (fun _ hg => Engine.outcome_unknown ho hg) hv, fun sig hs => ?_⟩
            obtain ⟨ht, hsh⟩ := hshow sig (by
              cases hk : c.kind with
              | modified sig' =>
                rw [hk] at hs
                cases hs
                rfl
              | removed =>
                rw [hk] at hs
                cases hs)
            exact carryOut_shows hsh ht hcarry
        obtain ⟨hn, hp⟩ := noteVersion_awaits hsteady hm hready hnote
        refine htell hn ?_
        rcases hleaves with hs | hv
        · have hs := Option.some.inj hs
          refine hp.imp (fun hv => hv.congr hs) ?_
          rintro ⟨cap, hcap, hst⟩
          exact ⟨cap, hcap, hst.trans hs⟩
        · exact .inl (hmono hv)

/-- What a session does about its versions, and all that goes on besides. -/
inductive Dealing where
  | aside
  | observe (c : LocalChange)
  | receive (c : RemoteChange) (bytes : Option Bytes)
  | poll
  | drain

/-- A dealing that goes through. -/
def Does (s : Session) : Dealing → Session → Prop
  | .aside, s' => Onward s s' ∧ s'.pressure = s.pressure
  | .observe c, s' => (absorbLocal c).exec s = (.ok ⟨⟩, s')
  | .receive c bytes, s' => (absorbAndExecute c bytes).exec s = (.ok ⟨⟩, s')
  | .poll, s' => pumpHistory.exec s = (.ok ⟨⟩, s')
  | .drain, s' => drainHistory.exec s = (.ok ⟨⟩, s')

/-- What a dealing has to find: a capture of a winner's content its bytes on disk when it is taken up,
and a change that displaces a staged capture of the winner a version of it. -/
def Careful (s : Session) : Dealing → Prop
  | .aside => True
  | .observe c => s.Heeded c
  | .receive c bytes => s.Minded c bytes
  | .poll => s.Prepared fun cap => cap.dueAtMs ≤ s.nowMs
  | .drain => s.Prepared fun _ => True

def DealingStep (s s' : Session) : Prop := ∃ d, s.Does d s'

def CarefulStep (s s' : Session) : Prop := ∃ d, s.Careful d ∧ s.Does d s'

theorem Accounts.step (h : Accounts mode cfg s) (hm : mode ≠ .off) (hstep : s.CarefulStep s') :
    Accounts mode cfg s' := by
  obtain ⟨d, hc, hd⟩ := hstep
  cases d with
  | aside =>
    obtain ⟨ho, hp⟩ := hd
    refine ⟨by rw [hp]; exact h.steady, fun p entry hg => ?_⟩
    rw [ho.engine] at hg
    refine (h.winners p entry hg).imp (fun hv => hv.mono ho.versions) ?_
    rintro ⟨cap, hcap, hs⟩
    exact ⟨cap, by rw [hp]; exact hcap, hs⟩
  | observe c => exact absorbLocal_accounts h hm hc hd
  | receive c bytes => exact absorbAndExecute_accounts h hm hc hd
  | poll => exact pumpHistory_accounts h hc hd
  | drain =>
    rw [Does, drainHistory, exec_get_bind] at hd
    exact drainFrom_accounts h hc hd

theorem CarefulRun.accounts (h : Accounts mode cfg s) (hm : mode ≠ .off)
    (hrun : Relation.ReflTransGen CarefulStep s s') : Accounts mode cfg s' := by
  induction hrun with
  | refl => exact h
  | tail _ hstep ih => exact ih.step hm hstep

/-- In a run whose dealings find what they have to, once nothing is staged every winner of the index
has a version of its content. -/
theorem CarefulRun.final_versioned (h : Accounts mode cfg s) (hm : mode ≠ .off)
    (hrun : Relation.ReflTransGen CarefulStep s s') (hdrained : s'.pressure.staging.size = 0)
    (hg : s'.engine.index.get p = some entry) : s'.history.Versioned p entry.winner.state := by
  rcases (CarefulRun.accounts h hm hrun).winners p entry hg with hv | ⟨cap, hcap, _⟩
  · exact hv
  · have hempty : s'.pressure.staging = ∅ := Std.ExtTreeMap.eq_empty_iff_size_eq_zero.2 hdrained
    rw [hempty, Std.ExtTreeMap.getElem?_empty] at hcap
    cases hcap

/-- A computation that goes through is a run of dealings. -/
def Dealt (x : SessionM α) (s : Session) : Prop :=
  ∀ a s', x.exec s = (.ok a, s') → Relation.ReflTransGen DealingStep s s'

namespace Dealt
variable {x : SessionM α} {f : α → SessionM β}

theorem pure (a : α) (s : Session) : Dealt (pure a) s := by
  intro _ _ hx
  cases hx
  exact .refl

theorem throw (e : CliError) (s : Session) : Dealt (throw e : SessionM α) s := by
  intro _ _ hx
  cases hx

theorem get {f : Session → SessionM β} (h : Dealt (f s) s) : Dealt (get >>= f) s := h

theorem bind (hx : Dealt x s) (hf : ∀ a s', Dealt (f a) s') : Dealt (x >>= f) s := by
  intro b s' h
  obtain ⟨a, u, hx', h⟩ := ok_of_bind h
  exact (hx a u hx').trans (hf a u b s' h)

theorem ite {q : Prop} [Decidable q] {y : SessionM α} (hx : Dealt x s) (hy : Dealt y s) :
    Dealt (if q then x else y) s := by
  split
  · exact hx
  · exact hy

theorem aside (hx : ∀ a s', x.exec s = (.ok a, s') → Onward s s' ∧ s'.pressure = s.pressure) :
    Dealt x s := fun a s' h => .single ⟨.aside, hx a s' h⟩

end Dealt

theorem flushInstalls_dealt (s : Session) : Dealt flushInstalls s := by
  refine .aside fun a s' hx => ?_
  have hq := flushInstalls_quiet s
  rw [Quiet, hx] at hq
  have hk := ((pressure_filer s.pressure).flushInstalls s).after rfl
  rw [hx] at hk
  exact ⟨hq, hk⟩

theorem absorbLocal_dealt (c : LocalChange) (s : Session) : Dealt (absorbLocal c) s :=
  fun _ _ hx => .single ⟨.observe c, hx⟩

/-- A watch signal is resolved and observed. -/
theorem onWatch_dealt (signal : WatchSignal) (s : Session) : Dealt (onWatch signal) s := by
  cases signal with
  | needsRescan =>
    refine .aside fun a s' hx => ?_
    cases hx
    exact ⟨.of_eq rfl rfl, rfl⟩
  | pending rel kind =>
    have hflush : Dealt (flushPendingInstallFor rel) s :=
      .get <| .ite (flushInstalls_dealt s) (.pure _ s)
    refine hflush.bind fun _ u => .get ?_
    split
    · refine .aside fun a s' hx => ?_
      cases hx
      exact ⟨.of_eq rfl rfl, rfl⟩
    · exact absorbLocal_dealt _ u

/-- A rescan observes what it finds. -/
theorem rescan_dealt (s : Session) : Dealt rescan s := by
  have hall (l : List LocalChange) (s : Session) : Dealt (l.forM absorbLocal) s := by
    induction l generalizing s with
    | nil => exact .pure _ s
    | cons c l ih => exact (absorbLocal_dealt c s).bind fun _ u => ih u
  apply Dealt.get
  split
  · exact .throw _ s
  · exact hall _ s

/-- An edit that is found on disk is observed. -/
theorem reconcileUnobservedLocal_dealt (p : RelPath) (s : Session) :
    Dealt (reconcileUnobservedLocal p) s := by
  intro a s' hx
  cases hd : s.diskExpectation p with
  | error e =>
    rw [reconcile_error hd] at hx
    cases hx
  | ok disk =>
    rw [reconcile_exec hd, fileObserved, observed, exec_ite] at hx
    split at hx
    · let c : LocalChange := ⟨p, observedKind disk⟩
      have he : (absorbLocal c).exec s = Eff.exec (do
          if (s.engine.handleLocal c).2 = [] then pure () else markDirty
          execute (s.engine.handleLocal c).2 none none)
            { s with engine := (s.engine.handleLocal c).1 } := rfl
      by_cases hempty : (s.engine.handleLocal c).2 = []
      · have hobs : s.DealingStep { s with engine := (s.engine.handleLocal c).1 } := by
          refine ⟨.observe c, ?_⟩
          rw [Does, he, hempty]
          rfl
        rw [hempty] at hx
        cases hx
        exact .tail (.single hobs) ⟨.aside, .of_eq rfl rfl, rfl⟩
      · rw [if_neg hempty] at he
        exact .single ⟨.observe c, he.trans hx⟩
    · cases hx
      exact .refl

/-- A content frame ends with a reconciliation and an absorption. -/
theorem deliver_dealt (c : RemoteChange) (bytes : Option Bytes) (s : Session) :
    Dealt (deliver c bytes) s :=
  (reconcileUnobservedLocal_dealt c.path s).bind fun _ _ _ _ hx => .single ⟨.receive c bytes, hx⟩

theorem steps_run (passes : List Pass) (s : Session) :
    Relation.ReflTransGen Step s (passes.foldl after s) := by
  induction passes generalizing s with
  | nil => exact .refl
  | cons pass passes ih => exact (ih (s.after pass)).head ⟨pass, rfl⟩

end Session

/-- A session that has just started, with an unknown file `foo` on disk. -/
def startedSession : Session := .start rootDir syncAll (.new ⟨1⟩ .new) .new (fooTree 0x31)

/-- The news that `foo` has changed. -/
def fooNews : Arrival := ⟨.watch (.pending fooPath .dirty), false, 0⟩

/-- What a user makes of `foo`, by some time. -/
def rewritten (b : UInt8) (nowMs : Nat) : Surroundings := ⟨fooTree b, false, nowMs, 0, false, false⟩

/-- The session observes `foo`, which holds something else when its capture is due. -/
def overtaking : List Pass :=
  [.burst [fooNews], .around (rewritten 0x32 100), .pumpHistory]

/-- Then `foo` holds again what was observed; the session looks at it, and drains its history. -/
def restoring : List Pass :=
  overtaking ++ [.around (rewritten 0x31 110), .burst [fooNews], .drainHistory]

def restoredSession : Session :=
  letI := tabulated shortHashes
  restoring.foldl Session.after startedSession

/-- The disk shows the winner, nothing is staged, and no version was ever recorded. -/
theorem restored_unversioned :
    letI := tabulated shortHashes
    Relation.ReflTransGen Session.Step startedSession restoredSession ∧
      (overtaking.foldl Session.after startedSession).rescanPending = false ∧
      restoredSession.rescanPending = false ∧ restoredSession.pressure.staging.size = 0 ∧
      (∃ sig, restoredSession.engine.winnerState fooPath = some (.present sig) ∧
        snapshot restoredSession.tree rootDir fooPath = .ok (some sig)) ∧
      restoredSession.history.versions = [] := by
  let platform := tabulated shortHashes
  refine ⟨Session.steps_run restoring startedSession, by decide +kernel, by decide +kernel,
    by decide +kernel, ?_, by decide +kernel⟩
  exact ⟨⟨oneSig.hash, 1, false, 7⟩, by decide +kernel, by decide +kernel⟩

/-- What is observed of `foo`. -/
def fooObserved : LocalChange := ⟨fooPath, .modified ⟨oneSig.hash, 1, false, 7⟩⟩

/-- The session once it has observed `foo`. -/
def observingSession : Session :=
  letI := tabulated shortHashes
  ((Session.absorbLocal fooObserved).exec startedSession).2

def drainedSession : Session :=
  letI := tabulated shortHashes
  (Session.drainHistory.exec observingSession).2

/-- Where `foo` still holds what was observed, its version is recorded. -/
theorem drained_versioned :
    letI := tabulated shortHashes
    drainedSession.history.Versioned fooPath (.present ⟨oneSig.hash, 1, false, 7⟩) := by
  let platform := tabulated shortHashes
  have hstart : Session.Accounts .adaptive {} startedSession := by
    refine ⟨PressureController.new_steady .adaptive {}, fun p e hg => ?_⟩
    have hnone : startedSession.engine.index.get p = none := Index.get_new p
    rw [hnone] at hg
    cases hg
  have hobserve : startedSession.CarefulStep observingSession := by
    refine ⟨.observe fooObserved, ?_, Prod.ext (by decide +kernel) rfl⟩
    intro v hv hd
    have hact : (startedSession.engine.handleLocal fooObserved).2 =
        [.send ⟨fooPath, fooObserved.kind, VectorClock.new.tick ⟨1⟩⟩, .recordVersion fooPath
          (.present ⟨oneSig.hash, 1, false, 7⟩) (VectorClock.new.tick ⟨1⟩)] := by decide +kernel
    rw [hact] at hv
    rcases List.mem_cons.1 hv with he | he
    · cases he
    · obtain ⟨-, -, rfl⟩ := Action.recordVersion.inj (List.mem_singleton.1 he)
      have hlater : (startedSession.pressure.note fooPath ⟨.present ⟨oneSig.hash, 1, false, 7⟩,
          VectorClock.new.tick ⟨1⟩, true, 1⟩ 0).2 ≠ .immediate := by decide +kernel
      exact (hlater hd).elim
  have hdrain : observingSession.CarefulStep drainedSession := by
    refine ⟨.drain, ?_, Prod.ext (by decide +kernel) rfl⟩
    have hstaged : ∀ e ∈ observingSession.pressure.staging.toList, e.1 = fooPath ∧
        e.2.state = .present ⟨oneSig.hash, 1, false, 7⟩ := by decide +kernel
    have hread : (readVerified observingSession.tree observingSession.root fooPath
        ⟨oneSig.hash, 1, false, 7⟩).isSome = true := by decide +kernel
    have hnone : observingSession.history.versions = [] := by decide +kernel
    intro p cap entry hcap _ _ _
    obtain ⟨rfl, hs⟩ := hstaged _ (Std.ExtTreeMap.mem_toList_iff_getElem?_eq_some.2 hcap)
    refine .inr ⟨fun r hr => ?_, fun sig hsig => ?_⟩
    · rw [hnone] at hr
      cases hr
    · rw [hs] at hsig
      cases hsig
      exact hread
  have hg : drainedSession.engine.index.get fooPath =
      some (.single (VectorClock.new.tick ⟨1⟩) (.present ⟨oneSig.hash, 1, false, 7⟩)) := by
    decide +kernel
  exact Session.CarefulRun.final_versioned hstart HistoryMode.noConfusion
    (.tail (.single hobserve) hdrain) (by decide +kernel) hg

end Tomo
