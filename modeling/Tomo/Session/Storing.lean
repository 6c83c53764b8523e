import Tomo.Session.Delivery
import Tomo.Session.Filing

namespace Tomo
set_option autoImplicit true

def EntryState.isPresent : EntryState → Bool
  | .present _ => true
  | .tombstone => false

@[simp] theorem sameState_refl (state : EntryState) : sameState state state = true := by
  cases state <;> simp [sameState]

theorem sameState_symm (h : sameState a b = true) : sameState b a = true := by
  cases a <;> cases b <;> simp_all [sameState]

theorem sameState_trans (h : sameState a b = true) (h' : sameState b c = true) :
    sameState a c = true := by
  cases a <;> cases b <;> cases c <;> simp_all [sameState]

theorem sameState_of_eq {a b : EntryState} (h : a.eq b = true) : sameState a b = true := by
  cases a with
  | present x =>
    cases b with
    | present y =>
      simp only [EntryState.eq, ContentSig.eq, Bool.and_eq_true, decide_eq_true_eq] at h
      simp [sameState, h.1.1, h.1.2]
    | tombstone => cases h
  | tombstone =>
    cases b with
    | present y => cases h
    | tombstone => rfl

namespace PressureController
variable {c : PressureController}

/-- Every version is recorded at once: the mode asks for it, and nothing is staged. -/
structure Prompt (c : PressureController) : Prop where
  mode : c.mode = .everyChange ∨ c.mode = .intervalMs 0
  idle : c.staging = ∅

theorem Prompt.note (h : c.Prompt) (p : RelPath) (capture : CaptureInput) (nowMs : Nat) :
    c.note p capture nowMs = (c, .immediate) := by
  rcases h.mode with hm | hm
  · simp only [PressureController.note, hm]
  · simp only [PressureController.note, hm, decide, h.idle, Std.ExtTreeMap.getElem?_empty,
      Option.isNone_none, and_self, ↓reduceIte]

theorem Prompt.signals (h : c.Prompt) (depth nowMs : Nat) : c.signals depth nowMs = c := by
  rcases h.mode with hm | hm
  · simp only [PressureController.signals, hm]
  · simp only [PressureController.signals, hm]

theorem Prompt.pollDue (h : c.Prompt) (nowMs : Nat) : (c.pollDue nowMs).1.Prompt := by
  have hidle : (∅ : Std.ExtTreeMap RelPath StagedCapture).toList = [] := rfl
  constructor
  · rcases h.mode with hm | hm
    · exact .inl (by simp only [PressureController.pollDue, hm])
    · exact .inr (by simp only [PressureController.pollDue, hm])
  · rcases h.mode with hm | hm
    · simp only [PressureController.pollDue, hm, h.idle, hidle, List.filter_nil, List.foldl_nil]
    · simp only [PressureController.pollDue, hm, h.idle, hidle, List.filter_nil, List.foldl_nil]

end PressureController

namespace HistoryStore
variable [Platform] {h h' : HistoryStore} {p : RelPath} {state : EntryState} {clock : VectorClock}

/-- A version of a path is stored, with its clock and content. -/
def Stored (p : RelPath) (state : EntryState) (clock : VectorClock) (h : HistoryStore) : Prop :=
  ∃ r ∈ h.versions, r.path = p ∧ r.clock = clock ∧ sameState (rowState r) state = true

/-- Nothing else is stored under the identity of a version. -/
def Free (p : RelPath) (state : EntryState) (clock : VectorClock) (h : HistoryStore) : Prop :=
  ∀ r ∈ h.versions, r.path = p → r.clock = clock → r.content.isSome = state.isPresent →
    sameState (rowState r) state = true

/-- Recording leaves a row under the identity of the version, and adds no other. -/
theorem recordVersion_row {content : Option Bytes}
    (hr : h.recordVersion p state clock replica origin wallMs content = .ok (h', n)) :
    (∃ r ∈ h'.versions, r.path = p ∧ r.clock = clock ∧ r.content.isSome = state.isPresent) ∧
      ∀ r ∈ h'.versions, r ∈ h.versions ∨
        r.path = p ∧ r.clock = clock ∧ (rowState r).eq state = true := by
  have hins (h : HistoryStore) (row : VersionRow) (hp : row.path = p) (hc : row.clock = clock)
      (hk : row.content.isSome = state.isPresent) (hs : (rowState row).eq state = true) :
      (∃ r ∈ (h.insertRow row).1.versions, r.path = p ∧ r.clock = clock ∧
          r.content.isSome = state.isPresent) ∧
        ∀ r ∈ (h.insertRow row).1.versions, r ∈ h.versions ∨
          r.path = p ∧ r.clock = clock ∧ (rowState r).eq state = true := by
    rw [insertRow]
    split
    next v hv =>
      have hid : sameIdentity v row = true :=
        List.find?_some (p := fun v => sameIdentity v row) hv
      rw [sameIdentity, decide_eq_true_eq] at hid
      refine ⟨⟨v, List.mem_of_find?_eq_some hv, ?_, ?_, ?_⟩, fun r hr => .inl hr⟩
      · rw [hid.1, hp]
      · rw [hid.2.2, hc]
      · rw [hid.2.1, hk]
    · refine ⟨⟨_, List.mem_append_right _ (List.mem_singleton.2 rfl), hp, hc, hk⟩, fun r hr => ?_⟩
      rcases List.mem_append.1 hr with hr | hr
      · exact .inl hr
      · rw [List.mem_singleton.1 hr]
        exact .inr ⟨hp, hc, hs⟩
  cases state with
  | tombstone =>
    have he : h' = (h.insertRow ⟨0, p, none, clock, replica, wallMs, origin⟩).1 :=
      (congrArg Prod.fst (Except.ok.inj hr)).symm
    rw [he]
    exact hins h _ rfl rfl rfl rfl
  | present sig =>
    cases content with
    | none => cases hr
    | some b =>
      simp only [recordVersion, bind, Except.bind, verifySig] at hr
      split at hr
      · cases hr
      next hv =>
        split at hv
        · cases hv
        next hok =>
          obtain ⟨hhash, hsize⟩ := not_or.1 hok
          let row : VersionRow := ⟨0, p, some ⟨Platform.blake3 b, sig.size, (h.storeChunks b).2,
            sig.exec⟩, clock, replica, wallMs, origin⟩
          have he : h' = ((h.storeChunks b).1.insertRow row).1 :=
            (congrArg Prod.fst (Except.ok.inj hr)).symm
          rw [he, ← (versions_storeChunks h b).1]
          refine hins _ row rfl rfl rfl ?_
          simp only [EntryState.eq, ContentSig.eq, rowState, row, not_not.1 hhash, decide_true,
            Bool.and_self]

theorem Stored.of_log (hm : m ∈ h.log p) (hc : m.clock = clock)
    (hs : sameState m.state state = true) : h.Stored p state clock := by
  rw [log, List.mem_reverse, List.mem_map] at hm
  obtain ⟨r, hr, rfl⟩ := hm
  rw [List.mem_filter, decide_eq_true_eq] at hr
  exact ⟨r, hr.1, hr.2, hc, hs⟩

theorem Stored.append (hs : h.Stored p state clock) (ha : h'.versions = h.versions ++ l) :
    h'.Stored p state clock := by
  obtain ⟨r, hr, hrow⟩ := hs
  exact ⟨r, by rw [ha]; exact List.mem_append_left l hr, hrow⟩

theorem Stored.congr (h : HistoryStore.Stored p st clock hist) (he : sameState st state = true) :
    hist.Stored p state clock := by
  obtain ⟨r, hr, hp, hc, hs⟩ := h
  exact ⟨r, hr, hp, hc, sameState_trans hs he⟩

theorem Free.congr (h : HistoryStore.Free p st clock hist) (he : sameState st state = true) :
    hist.Free p state clock := by
  have hk : st.isPresent = state.isPresent := by
    cases st <;> cases state
    · rfl
    · cases he
    · cases he
    · rfl
  intro r hr hp hc hs
  exact sameState_trans (h r hr hp hc (hs.trans hk.symm)) he

/-- A version is stored once it is recorded, unless its identity was taken. -/
theorem Free.stored {content : Option Bytes} (hf : h.Free p state clock)
    (hr : h.recordVersion p state clock replica origin wallMs content = .ok (h', n)) :
    h'.Stored p state clock := by
  obtain ⟨⟨r, hmem, hp, hc, hk⟩, hrows⟩ := recordVersion_row hr
  refine ⟨r, hmem, hp, hc, ?_⟩
  rcases hrows r hmem with hold | ⟨_, _, hs⟩
  · exact hf r hold hp hc hk
  · exact sameState_of_eq hs

theorem Free.recordVersion {content : Option Bytes} (hf : h.Free p state clock)
    (hok : q = p → w = clock → sameState st state = true)
    (hr : h.recordVersion q st w replica origin wallMs content = .ok (h', n)) :
    h'.Free p state clock := by
  intro r hmem hp hc hk
  rcases (recordVersion_row hr).2 r hmem with hold | ⟨hq, hw, hs⟩
  · exact hf r hold hp hc hk
  · exact sameState_trans (sameState_of_eq hs) (hok (hq.symm.trans hp) (hw.symm.trans hc))

end HistoryStore

namespace Session
open Eff HistoryStore

/-- Every version that is noted is recorded at once. -/
def Prompt (s : Session) : Prop := s.pressure.Prompt

section
variable [Platform] {p q : RelPath} {state st : EntryState} {clock w : VectorClock}
  {s s' t : Session} {bytes : Option Bytes}

theorem prompt_recorder : Recorder (fun _ _ _ => True) Prompt where
  indifferent {s s'} h _ hp := by
    rw [Prompt, hp]
    exact h
  store {p state version} _ l bytes s := by
    refine .get <| (liftHistory_upholds _ s).bind fun _ s' => ?_
    exact Upholds.bind (.modify fun h => h) fun _ s' => .pure _ s'
  stage _ l hint nowMs s h := by
    have hn := PressureController.Prompt.note h
    rw [Prompt, hn]
    exact h
  conflict _ _ _ _ h := h

theorem recordDueVersions_prompt (due : List (RelPath × StagedCapture)) (s : Session) :
    Upholds Prompt (recordDueVersions due) s := by
  refine .get <| .ite (.pure _ s) ((liftHistory_upholds _ s).bind fun _ s' => ?_)
  exact .modify fun h => h

theorem prompt_kept : Tacit (fun _ => True) Prompt where
  tacit {s s'} h hs := by
    have hp : s'.stake.pressure = s.stake.pressure := by rw [hs]
    rw [Prompt, show s'.pressure = s.pressure from hp]
    exact h
  unstage h := h
  flush := prompt_recorder.flushInstalls
  store hp _ _ l bytes s := prompt_recorder.store hp l bytes s
  note hp _ _ l nowMs s := prompt_recorder.noteVersion hp l nowMs s
  conflict hp s := prompt_recorder.recordConflictCapture hp hp s
  apply _ target bytes s _ := prompt_recorder.doApply (fun _ _ _ => trivial)
    (fun _ _ _ _ => trivial) target bytes
  pump s := by
    refine .assuming fun h => .get <| Upholds.bind (.set fun _ => ?_) fun _ s' => ?_
    · rw [Prompt, h.signals]
      exact h.pollDue _
    · exact recordDueVersions_prompt _ s'
  drain := drainHistory_keeps fun _ _ h => ⟨h.pollDue _, recordDueVersions_prompt _⟩

/-- A version's identity stays free while nothing else is recorded under it. -/
theorem free_recorder (p : RelPath) (state : EntryState) (clock : VectorClock) :
    Recorder (fun q st w => q = p → w = clock → sameState st state = true)
      (fun s => s.history.Free p state clock) where
  indifferent {s s'} h hh _ := by
    rw [hh]
    exact h
  store {q st w} hok l bytes s := by
    constructor
    intro h
    simp only [storeVersion, exec_get_bind]
    cases hr : s.history.recordVersion q st w (s.attribution l).2 (s.attribution l).1 s.wallMs
        bytes with
    | error e => exact h
    | ok r => exact Free.recordVersion h hok hr
  stage _ _ _ _ _ h := h
  conflict _ _ _ _ h := h

/-- What is stored stays stored. -/
theorem stored_of_filed (hx : Upholds (Filed (fun _ => True) s.history.versions
    s.history.conflicts) x s) (h : s.history.Stored p state clock) :
    (x.exec s).2.history.Stored p state clock := by
  have hf : Filed (fun _ => True) s.history.versions s.history.conflicts s :=
    ⟨⟨⟨[], by simp⟩, [], by simp⟩, fun _ _ => trivial⟩
  obtain ⟨l, hl, _⟩ := (hx.after hf).rows.versions
  exact h.append hl

theorem stored_kept (p : RelPath) (state : EntryState) (clock : VectorClock) :
    Tacit (fun _ => True) (fun s => s.history.Stored p state clock) where
  tacit {s s'} h hs := by
    have hh : s'.stake.history = s.stake.history := by rw [hs]
    rwa [show s'.history = s.history from hh]
  unstage h := h
  flush s := ⟨stored_of_filed (filed_kept.flush s)⟩
  store hp state version l bytes s := ⟨stored_of_filed (filed_kept.store hp state version l bytes s)⟩
  note hp state version l nowMs s := ⟨stored_of_filed (filed_kept.note hp state version l nowMs s)⟩
  conflict hp s := ⟨stored_of_filed (filed_kept.conflict hp s)⟩
  apply hp target bytes s _ := ⟨stored_of_filed (doApply_filed hp target bytes s)⟩
  pump s := ⟨stored_of_filed (filed_kept.pump s)⟩
  drain s := ⟨stored_of_filed (filed_kept.drain s)⟩

/-- The session has gone on recording about a version. -/
structure Carries (p : RelPath) (state : EntryState) (clock : VectorClock) (s s' : Session) :
    Prop where
  prompt : s'.Prompt
  free : s'.history.Free p state clock
  stored : s.history.Stored p state clock → s'.history.Stored p state clock
  tree : s'.tree = s.tree
  root : s'.root = s.root

theorem Carries.trans (h : Carries p state clock s s') (h' : Carries p state clock s' t) :
    Carries p state clock s t :=
  ⟨h'.prompt, h'.free, fun hs => h'.stored (h.stored hs), h'.tree.trans h.tree,
    h'.root.trans h.root⟩

theorem Carries.of_books {x : SessionM α} (hb : Books x s) (hp : s.Prompt)
    (hf : s.history.Free p state clock) (hxp : Upholds Prompt x s)
    (hxf : Upholds (fun s => s.history.Free p state clock) x s)
    (hxs : Upholds (Filed (fun _ => True) s.history.versions s.history.conflicts) x s) :
    Carries p state clock s (x.exec s).2 := by
  have ht : (x.exec s).2.core.tree = s.core.tree := by rw [hb.core]
  have hr : (x.exec s).2.core.root = s.core.root := by rw [hb.core]
  exact ⟨hxp.after hp, hxf.after hf, stored_of_filed hxs, ht, hr⟩

theorem storeVersion_stores (hf : s.history.Free p state clock)
    (hx : (storeVersion p state clock l bytes).exec s = (.ok n, s')) :
    s'.history.Stored p state clock := by
  simp only [storeVersion, exec_get_bind] at hx
  cases hr : s.history.recordVersion p state clock (s.attribution l).2 (s.attribution l).1 s.wallMs
      bytes with
  | error e =>
    rw [hr] at hx
    cases hx
  | ok r =>
    rw [hr] at hx
    cases hx
    exact hf.stored hr

/-- A head is recorded with what was captured for it, unless it is stored already. -/
theorem findOrRecord_stores {captured : Captured} (hf : s.history.Free p state clock)
    (hb : state = .tombstone ∨ ∃ b, captured = .present b)
    (hx : (findOrRecord p state clock captured l).exec s = (.ok n, s')) :
    s'.history.Stored p state clock := by
  simp only [findOrRecord, exec_get_bind] at hx
  split at hx
  next m hm =>
    cases hx
    have hid := List.find?_some hm
    simp only [Bool.and_eq_true, decide_eq_true_eq] at hid
    exact .of_log (List.mem_of_find?_eq_some hm) hid.1 hid.2
  next =>
    have hstore {bytes : Option Bytes} {n : Option Nat}
        (hx : (some <$> storeVersion p state clock l bytes).exec s = (.ok n, s')) :
        s'.history.Stored p state clock := by
      obtain ⟨_, hx⟩ := ok_of_map hx
      exact storeVersion_stores hf hx
    split at hx
    · exact hstore hx
    · exact hstore hx
    next hn =>
      rcases hb with hb | ⟨b, hb⟩
      · cases hb
      · exact (hn b hb).elim

theorem noteVersion_stores {nowMs : Nat} (hs : s.Prompt) (hf : s.history.Free p state clock)
    (hb : ∀ sig, state = .present sig → (readVerified s.tree s.root p sig).isSome = true)
    (hx : (noteVersion p state clock l nowMs).exec s = (.ok r, s')) :
    s'.history.Stored p state clock := by
  have hstore (bytes : Option Bytes)
      (hx : (discard (storeVersion p state clock l bytes)).exec s = (.ok r, s')) :
      s'.history.Stored p state clock := by
    obtain ⟨_, hx⟩ := ok_of_map (g := fun _ => PUnit.unit) hx
    exact storeVersion_stores hf hx
  simp only [noteVersion, exec_get_bind, PressureController.Prompt.note hs, exec_set_bind] at hx
  cases state with
  | tombstone => exact hstore none hx
  | present sig =>
    obtain ⟨b, hr⟩ := Option.isSome_iff_exists.1 (hb sig rfl)
    simp only [recordVersion, exec_get_bind, hr] at hx
    exact hstore (some b) hx

/-- Both heads of a conflict are recorded, where their content was captured. -/
theorem recordConflictCapture_stores {k : ConflictCapture} (hf : s.history.Free k.path state clock)
    (hl : k.loserVersion = clock → k.loser = state)
    (hb : k.winnerVersion = clock ∧ k.winner = state ∧
        (state = .tombstone ∨ ∃ b, k.winnerBytes = .present b) ∨
      k.loserVersion = clock ∧ k.loser = state ∧
        (state = .tombstone ∨ ∃ b, k.loserBytes = .present b))
    (hx : (recordConflictCapture k).exec s = (.ok n, s')) :
    s'.history.Stored k.path state clock := by
  obtain ⟨loserId, u, hloser, hx⟩ := ok_of_bind hx
  obtain ⟨winnerId, v, hwinner, hx⟩ := ok_of_bind hx
  have hlast : v.history.Stored k.path state clock → s'.history.Stored k.path state clock := by
    intro hv
    split at hx
    · cases hx
      exact hv
    · cases hx
      exact hv
  apply hlast
  rcases hb with ⟨rfl, rfl, hb⟩ | ⟨rfl, rfl, hb⟩
  · have hkeep : Upholds (fun s => s.history.Free k.path k.winner k.winnerVersion)
        (findOrRecord k.path k.loser k.loserVersion k.loserBytes k.loserIsLocal) s := by
      refine (free_recorder k.path k.winner k.winnerVersion).findOrRecord (fun _ hc => ?_) _ _ s
      rw [hl hc]
      exact sameState_refl _
    have hfree := hkeep.after hf
    rw [hloser] at hfree
    exact findOrRecord_stores hfree hb hwinner
  · have hs := findOrRecord_stores hf hb hloser
    have hkeep : Upholds (Filed (fun _ => True) u.history.versions u.history.conflicts)
        (findOrRecord k.path k.winner k.winnerVersion k.winnerBytes k.winnerIsLocal) u :=
      filed_recorder.findOrRecord trivial _ _ u
    have hmono := stored_of_filed hkeep hs
    rwa [hwinner] at hmono

/-- What is filed about a change: its version, and conflicts of heads that only the change itself
may share its clock with. -/
def FiledOf (c : RemoteChange) (a : Action) : Prop :=
  a = .recordVersion c.path (stateFromKind c.kind) c.version ∨
    ∃ (w l : Head) (adopted : Bool),
      a = .conflictResolved c.path w.state w.version l.state l.version adopted ∧
        (w.version = c.version → w.state = stateFromKind c.kind) ∧
          (l.version = c.version → l.state = stateFromKind c.kind)

omit [Platform] in
theorem winner_mem {e : Entry} (h : e.heads ≠ []) : e.winner ∈ e.heads := by
  have hfold (l : List Head) (best : Head) : l.foldl (fun best h =>
      if winnerCmp h best e.adoptionMode = .gt then h else best) best ∈ best :: l := by
    induction l generalizing best with
    | nil => exact List.mem_singleton.2 rfl
    | cons g l ih =>
      rw [List.foldl_cons]
      split
      · exact List.mem_cons_of_mem _ (ih g)
      · rcases List.mem_cons.1 (ih best) with hb | hl
        · rw [hb]
          exact List.mem_cons_self
        · exact List.mem_cons_of_mem _ (List.mem_cons_of_mem _ hl)
  rw [Entry.winner]
  split
  next hn => exact (h hn).elim
  next best rest hn =>
    rw [hn]
    exact hfold rest best

omit [Platform] in
theorem paperwork_filed (e : Engine) (c : RemoteChange) : ∀ a ∈ e.paperwork c, FiledOf c a := by
  intro a ha
  obtain ⟨ha, hpaper⟩ := List.mem_filter.1 ha
  obtain ⟨p, kind, v⟩ := c
  rw [Engine.handleRemote, Engine.absorbRemote] at ha
  split at ha
  · cases kind with
    | modified sig =>
      rcases List.mem_cons.1 ha with rfl | ha
      · cases hpaper
      · exact .inl (List.mem_singleton.1 ha)
    | removed => exact .inl (List.mem_singleton.1 ha)
  next entry hg =>
    split at ha
    · cases ha
    next entry' wc nc nov hab =>
      have hk : entry.knows v = false := by
        rw [← Bool.not_eq_true]
        intro hk
        rw [Entry.absorb_known hk] at hab
        cases hab
      have hmem (h : Head) (hh : h ∈ entry'.heads) : h.version = v → h.state = stateFromKind kind := by
        have he : entry' = (entry.absorb v (stateFromKind kind)).1 := by rw [hab]
        rw [he, Entry.mem_absorb hk] at hh
        intro hv
        rcases hh with rfl | ⟨_, hn⟩
        · rfl
        · exact (hn hv.le).elim
      have hconf : a ∈ Engine.conflictActions p entry' → FiledOf ⟨p, kind, v⟩ a := by
        intro ha
        obtain ⟨l, hl, rfl⟩ := List.mem_map.1 ha
        have hl := (List.mem_filter.1 hl).1
        exact .inr ⟨_, l, _, rfl, hmem _ (winner_mem (List.ne_nil_of_mem hl)), hmem l hl⟩
      dsimp only at ha
      rcases List.mem_append.1 ha with ha | ha
      · rcases List.mem_append.1 ha with ha | ha
        · cases wc with
          | true =>
            cases List.mem_singleton.1 ha
            cases hpaper
          | false => cases ha
        · cases nc with
          | true => exact hconf ha
          | false => cases ha
      · cases nov with
        | true => exact .inl (List.mem_singleton.1 ha)
        | false => cases ha

/-- Whether an action resolves a conflict of the version. -/
def Resolves (clock : VectorClock) : Action → Prop
  | .conflictResolved _ _ winnerVersion _ loserVersion _ =>
    winnerVersion = clock ∨ loserVersion = clock
  | _ => False

theorem noteVersion_carries (hs : s.Prompt) (hf : s.history.Free p state clock) (l : Bool)
    (nowMs : Nat) : Carries p state clock s ((noteVersion p state clock l nowMs).exec s).2 := by
  refine .of_books (noteVersion_files ..).books hs hf ?_ ?_ ?_
  · exact prompt_recorder.noteVersion trivial l nowMs s
  · exact (free_recorder p state clock).noteVersion (fun _ _ => sameState_refl state) l nowMs s
  · exact filed_recorder.noteVersion trivial l nowMs s

theorem recordConflictCapture_carries {k : ConflictCapture} (hs : s.Prompt)
    (hf : s.history.Free p state clock) (hw : k.winnerVersion = clock → k.winner = state)
    (hl : k.loserVersion = clock → k.loser = state) :
    Carries p state clock s ((recordConflictCapture k).exec s).2 := by
  refine .of_books (recordConflictCapture_books k s) hs hf ?_ ?_ ?_
  · exact prompt_recorder.recordConflictCapture trivial trivial s
  · refine (free_recorder p state clock).recordConflictCapture (fun _ hc => ?_) (fun _ hc => ?_) s
    · rw [hl hc]
      exact sameState_refl state
    · rw [hw hc]
      exact sameState_refl state
  · exact filed_recorder.recordConflictCapture trivial trivial s

/-- The bytes of the change itself are at hand. -/
theorem captureConflictBytes_frame {c : RemoteChange} (start : Session)
    (hb : ∀ sig, c.kind = .modified sig → ∃ b, bytes = some b ∧ matchesSig b sig = true) :
    stateFromKind c.kind = .tombstone ∨
      ∃ b, start.captureConflictBytes c.path (stateFromKind c.kind) bytes = .present b := by
  cases hk : c.kind with
  | removed => exact .inl rfl
  | modified sig =>
    obtain ⟨b, rfl, hm⟩ := hb sig hk
    refine .inr ⟨b, ?_⟩
    simp only [stateFromKind, captureConflictBytes, Option.filter_some, hm, ↓reduceIte]

/-- What the rest of a list of actions leads to, once the first is done. -/
theorem Carries.next {c : RemoteChange} {P : Prop}
    (h : Carries c.path (stateFromKind c.kind) c.version s t)
    (hrest : Carries c.path (stateFromKind c.kind) c.version t s' ∧ P) :
    Carries c.path (stateFromKind c.kind) c.version s s' ∧ P ∧
      (t.history.Stored c.path (stateFromKind c.kind) c.version →
        s'.history.Stored c.path (stateFromKind c.kind) c.version) :=
  ⟨h.trans hrest.1, hrest.2, hrest.1.stored⟩

/-- The version of an absorbed change is recorded along with its conflicts, else from disk. -/
theorem executeActions_stores {c : RemoteChange} {start : Session} {nowMs : Nat}
    {skip : List (RelPath × VectorClock)} {actions : List Action}
    (ha : ∀ a ∈ actions, FiledOf c a) (hs : s.Prompt)
    (hf : s.history.Free c.path (stateFromKind c.kind) c.version)
    (hb : ∀ sig, c.kind = .modified sig → ∃ b, bytes = some b ∧ matchesSig b sig = true)
    (hx : (executeActions bytes (some c.version) nowMs skip actions
      (start.conflictCaptures bytes (some c.version) actions)).exec s = (.ok r, s')) :
    Carries c.path (stateFromKind c.kind) c.version s s' ∧
      ((∃ a ∈ actions, Resolves c.version a) →
        s'.history.Stored c.path (stateFromKind c.kind) c.version) ∧
      (.recordVersion c.path (stateFromKind c.kind) c.version ∈ actions →
        (c.path, c.version) ∉ skip →
        (∀ sig, c.kind = .modified sig → (readVerified s.tree s.root c.path sig).isSome = true) →
          s'.history.Stored c.path (stateFromKind c.kind) c.version) := by
  induction actions generalizing s with
  | nil =>
    cases hx
    refine ⟨⟨hs, hf, id, rfl, rfl⟩, fun h => ?_, fun h => by cases h⟩
    obtain ⟨a, ha, _⟩ := h
    cases ha
  | cons a rest ih =>
    have hrest {s : Session} := ih (s := s) fun b hb => ha b (List.mem_cons_of_mem a hb)
    rcases ha a List.mem_cons_self with rfl | ⟨w, l, adopted, rfl, hw, hl⟩
    · have hres (h : ∃ a ∈ Action.recordVersion c.path (stateFromKind c.kind) c.version :: rest,
          Resolves c.version a) : ∃ a ∈ rest, Resolves c.version a := by
        obtain ⟨a, hm, hr⟩ := h
        rcases List.mem_cons.1 hm with rfl | hm
        · cases hr
        · exact ⟨a, hm, hr⟩
      rw [executeActions, exec_ite] at hx
      split at hx
      next hskip =>
        obtain ⟨hc, hr, _⟩ := hrest hs hf hx
        exact ⟨hc, fun h => hr (hres h), fun _ hn => (hn hskip).elim⟩
      next =>
        obtain ⟨_, u, hnote, hxu⟩ := ok_of_bind hx
        have hu := noteVersion_carries hs hf (!decide (some c.version = some c.version)) nowMs
        rw [hnote] at hu
        obtain ⟨hc, ⟨hr, _⟩, hst⟩ := hu.next (hrest hu.prompt hu.free hxu)
        refine ⟨hc, fun h => hr (hres h), fun _ _ hd => hst ?_⟩
        refine noteVersion_stores hs hf (fun sig he => hd sig ?_) hnote
        cases hkind : c.kind with
        | modified sig' =>
          rw [hkind] at he
          cases he
          rfl
        | removed =>
          rw [hkind] at he
          cases he
    · obtain ⟨_, u, hrec, hxu⟩ := ok_of_bind hx
      obtain ⟨_, hrec⟩ := ok_of_map (g := fun _ => PUnit.unit) hrec
      let k : ConflictCapture := {
        path := c.path, winner := w.state, winnerVersion := w.version, loser := l.state
        loserVersion := l.version, adopted
        winnerIsLocal := !decide (some c.version = some w.version)
        winnerBytes := start.captureConflictBytes c.path w.state bytes
        loserIsLocal := !decide (some c.version = some l.version)
        loserBytes := start.captureConflictBytes c.path l.state bytes }
      have hu := recordConflictCapture_carries (k := k) hs hf hw hl
      have hk : (recordConflictCapture k).exec s = (.ok _, u) := hrec
      rw [hk] at hu
      obtain ⟨hc, ⟨hr, hv⟩, hst⟩ := hu.next (hrest hu.prompt hu.free hxu)
      refine ⟨hc, ?_, fun hm hn hd => ?_⟩
      · rintro ⟨a, hm, hra⟩
        rcases List.mem_cons.1 hm with rfl | hm
        · refine hst (recordConflictCapture_stores hf hl ?_ hk)
          have hbytes := captureConflictBytes_frame start hb
          rcases hra with he | he
          · exact .inl ⟨he, hw he, by rw [← hw he] at hbytes ⊢; exact hbytes⟩
          · exact .inr ⟨he, hl he, by rw [← hl he] at hbytes ⊢; exact hbytes⟩
        · exact hr ⟨a, hm, hra⟩
      · refine hv ?_ hn ?_
        · rcases List.mem_cons.1 hm with h | h
          · cases h
          · exact h
        · rw [hu.tree, hu.root]
          exact hd

end

end Session

end Tomo
