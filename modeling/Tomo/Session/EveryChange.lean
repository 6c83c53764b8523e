import Tomo.Lib.Growth
import Tomo.Session.Collision
import Tomo.Session.Running
import Tomo.Session.Storing

namespace Tomo
set_option autoImplicit true

namespace Session
open Eff HistoryStore

section
variable [Platform] {p q : RelPath} {state st : EntryState} {clock w : VectorClock}
  {s s' t : Session} {bytes : Option Bytes}

/-- The disk shows a content at a path, and still does once what is staged for it is installed. -/
structure Shows (s : Session) (p : RelPath) (sig : ContentSig) : Prop where
  now : (readVerified s.tree s.root p sig).isSome = true
  installed : (readVerified (s.treeFor p) s.root p sig).isSome = true

theorem readVerified_grows {u v : Tree} {root : List Name} {sig : ContentSig}
    (hg : u.Grows v) (h : (readVerified u root p sig).isSome = true) :
    (readVerified v root p sig).isSome = true := by
  rw [readVerified] at h ⊢
  split at h
  next b hr =>
    rw [hg.read hr]
    exact h
  next => cases h

theorem stagePresent_grows (u : Tree) (root : List Name) (full : Bool) (wallMs : Nat)
    (dirs : List (List Name)) (p : RelPath) (sig : ContentSig) (b : Bytes) :
    u.Grows (stagePresent u root full wallMs dirs p sig b).tree := by
  have hw (v : Tree) (d : List (List Name)) :
      (if full = true then ⟨v, d, .error (.io .writeStaging (join root p) .nospc)⟩
        else ⟨v, d, .ok ⟨b, execMode sig.exec, wallMs⟩⟩ : Staging).tree = v := by
    split <;> rfl
  unfold stagePresent
  split
  · exact .refl u
  · split
    · exact .refl u
    · dsimp only
      split
      · rw [hw]
        exact .refl u
      · split
        next v hv =>
          rw [hw]
          exact FileTree.createDirAll_grows hv
        next => exact .refl u

/-- Nothing stands in the way of a path that can be read. -/
theorem typeCollision_readable {u : Tree} {root : List Name} {sig : ContentSig}
    (h : (readVerified u root p sig).isSome = true) :
    typeCollision u root p.components = none := by
  have hread : ∃ b, u.read (root ++ p.components) = .ok b := by
    rw [readVerified] at h
    split at h
    next b hr => exact ⟨b, hr⟩
    next => cases h
  obtain ⟨b, hr⟩ := hread
  obtain ⟨q, m, k, hq, hg⟩ := FileTree.read_spec hr
  have hdir : pathIsDir u (root ++ p.components) = false := by
    rw [pathIsDir]
    split
    next hs =>
      obtain ⟨q', hq', hg'⟩ := FileTree.stat_spec hs
      have he := FileTree.locate_follow hq' fun l hl => by
        rw [hg'] at hl
        cases hl
      rw [hq] at he
      cases he
      rw [hg] at hg'
      cases hg'
    next => rfl
  rw [typeCollision, hdir]
  cases hf : fileParent u root [] p.components.dropLast with
  | none => rfl
  | some a =>
    obtain ⟨r, rest, hrest, rfl, b', m', k', hs⟩ := fileParent_blocks hf
    obtain ⟨q', hq', hg'⟩ := FileTree.stat_spec hs
    have hjoin : root ++ p.components =
        root ++ ([] ++ r) ++ (rest ++ [p.components.getLast p.components_ne_nil]) := by
      rw [List.nil_append, List.append_assoc, ← List.append_assoc r, ← hrest,
        List.dropLast_append_getLast]
    rw [hjoin, FileTree.locate_below_file hq' hg' (List.append_ne_nil_of_right_ne_nil rest
      (List.cons_ne_nil _ _))] at hq
    cases hq

theorem writePresent_shows (hd : s.Shows p sig) (b : Bytes)
    (hx : (writePresent p sig' b).exec s = (.ok r, s')) :
    (readVerified s'.tree s.root p sig).isSome = true := by
  obtain ⟨_, u, hflush, hx⟩ := ok_of_bind hx
  have hu : u.tree = s.treeFor p ∧ u.frame = s.frame := by
    rcases s.flushPendingInstallFor_outcome p with ⟨_, path, e, s'', he⟩ | ⟨_, s'', he, ht, _, hf⟩
    · rw [hflush] at he
      cases he
    · rw [hflush] at he
      cases he
      exact ⟨ht, hf⟩
  simp only [exec_get_bind, exec_set_bind] at hx
  have hg := stagePresent_grows u.tree u.root u.diskFull u.wallMs u.createdDirs p sig' b
  have hs' : s'.tree = (stagePresent u.tree u.root u.diskFull u.wallMs u.createdDirs p sig' b).tree := by
    split at hx
    · cases hx
      rfl
    · cases hx
      rfl
    · cases hx
      rfl
    · cases hx
  rw [hs']
  refine readVerified_grows hg ?_
  rw [hu.1]
  exact hd.installed

omit [Platform] in
theorem liftHistory_state {r : Except HistoryError α} {a : α}
    (h : (liftHistory r).exec s = (.ok a, t)) : t = s := by
  cases r with
  | error e => cases h
  | ok b =>
    cases h
    rfl

theorem doApply_shows (hd : s.Shows p sig) (ht : target ≠ .absent)
    (hx : (doApply p target bytes).exec s = (.ok r, s')) :
    (readVerified s'.tree s.root p sig).isSome = true := by
  cases target with
  | absent => exact (ht rfl).elim
  | present sig' =>
    have hprep : (preparePresentTarget p sig' bytes).exec s = (.ok true, s) := by
      simp only [preparePresentTarget, exec_get_bind, typeCollision_readable hd.now, exec_pure]
    have hx' : (materialize p sig' bytes).exec s = (.ok r, s') := by
      rw [doApply, applyPresentBySig, exec_bind_ok hprep] at hx
      exact hx
    simp only [materialize, exec_get_bind] at hx'
    obtain ⟨cas, u, hcas, hx⟩ := ok_of_bind hx'
    cases liftHistory_state hcas
    split at hx
    · exact writePresent_shows hd _ hx
    · split at hx
      next v hv =>
        cases hx
        rw [setExecMode] at hv
        split at hv
        next w hw =>
          cases hv
          exact readVerified_grows (FileTree.chmod_grows hw) hd.now
        next =>
          cases hv
          exact hd.now
        next => cases hv
      next => cases hx
    · exact writePresent_shows hd _ hx
    · cases hx
      exact hd.now

/-- A directory stands where the change wants a file, and the change's own head is the one that is
kept in history instead. -/
def Displaced (s : Session) (c : RemoteChange) : Prop :=
  ∃ sig, s.engine.applyTarget c = some (.present sig) ∧
    pathIsDir s.tree (join s.root c.path) = true ∧
      (s.absorbed c).headClockFor c.path sig = some c.version

/-- Something but the staged file of the change has its content: the capture of a conflict, the
disk, or the file that gives way to a directory. -/
def Supplied (s : Session) (c : RemoteChange) : Prop :=
  (∃ a ∈ (s.engine.handleRemote c).2, Resolves c.version a) ∨
    (∀ sig, c.kind = .modified sig →
      s.engine.applyTarget c ≠ some .absent ∧ s.Shows c.path sig) ∨
    s.Displaced c

/-- The version of a change is stored already, or nothing else is under its identity and its
content is supplied. -/
def Obtains (s : Session) (c : RemoteChange) : Prop :=
  s.history.Stored c.path (stateFromKind c.kind) c.version ∨
    s.history.Free c.path (stateFromKind c.kind) c.version ∧ s.Supplied c

omit [Platform] in
/-- What is to be recorded about a change is new to its path. -/
theorem unknown_of_recordVersion {e : Engine} {c : RemoteChange} {entry : Entry}
    (hrec : .recordVersion c.path (stateFromKind c.kind) c.version ∈ (e.handleRemote c).2)
    (hg : e.index.get c.path = some entry) : entry.knows c.version = false := by
  rw [← Bool.not_eq_true]
  intro hk
  rw [Engine.handleRemote, Engine.absorbRemote, hg] at hrec
  simp only [Entry.absorb_known hk] at hrec
  cases hrec

omit [Platform] in
/-- The head at a change's clock has its state, once it is absorbed as new. -/
theorem headClockFor_eq {c : RemoteChange}
    (hnew : ∀ entry, t.engine.index.get c.path = some entry → entry.knows c.version = false)
    (h : (t.absorbed c).headClockFor c.path sig = some c.version) :
    (stateFromKind c.kind).eq (.present sig) = true := by
  obtain ⟨_, hget, _⟩ :=
    Engine.absorbRemote_spec t.engine c.path (stateFromKind c.kind) c.version
  have hidx := hget c.path
  rw [if_pos rfl] at hidx
  have hstate : ∀ g ∈ (Engine.absorbed (t.engine.index.get c.path) c.version
      (stateFromKind c.kind)).heads, g.version = c.version → g.state = stateFromKind c.kind := by
    cases hg : t.engine.index.get c.path with
    | none =>
      intro g hm _
      cases List.mem_singleton.1 hm
      rfl
    | some entry =>
      intro g hm hv
      rcases (Entry.mem_absorb (hnew entry hg) _).1 hm with rfl | ⟨_, hn⟩
      · rfl
      · exact (hn hv.le).elim
  have hclock : (t.absorbed c).headClockFor c.path sig =
      ((Engine.absorbed (t.engine.index.get c.path) c.version (stateFromKind c.kind)).heads.find?
        fun g => g.state.eq (.present sig)).map Head.version := by
    rw [headClockFor]
    have hi : (t.absorbed c).engine.index.get c.path = _ := hidx
    rw [hi]
  rw [hclock, Option.map_eq_some_iff] at h
  obtain ⟨g, hfind, hv⟩ := h
  have hs : g.state.eq (.present sig) = true :=
    List.find?_some (p := fun g : Head => g.state.eq (.present sig)) hfind
  rwa [hstate g (List.mem_of_find?_eq_some hfind) hv] at hs

omit [Platform] in
theorem headClockFor_absorbed {c : RemoteChange}
    (hrec : .recordVersion c.path (stateFromKind c.kind) c.version ∈ (t.engine.handleRemote c).2)
    (h : (t.absorbed c).headClockFor c.path sig = some c.version) :
    sameState (.present sig) (stateFromKind c.kind) = true :=
  sameState_symm (sameState_of_eq
    (headClockFor_eq (fun _ hg => unknown_of_recordVersion hrec hg) h))

/-- A present version is stored under its clock, be it there already or recorded now. -/
theorem recordPresentIfAbsent_stores {b : Bytes} (hf : s.history.Free p (.present sig) clock)
    (hx : (recordPresentIfAbsent p sig clock b l).exec s = (.ok r, s')) :
    s'.history.Stored p (.present sig) clock := by
  simp only [recordPresentIfAbsent, exec_get_bind] at hx
  split at hx
  next hp =>
    cases hx
    obtain ⟨m, hm, hid⟩ := List.any_eq_true.1 hp
    rw [Bool.and_eq_true, decide_eq_true_eq] at hid
    rw [log, List.mem_reverse, List.mem_map] at hm
    obtain ⟨v, hv, rfl⟩ := hm
    rw [List.mem_filter, decide_eq_true_eq] at hv
    refine ⟨v, hv.1, hv.2, hid.1, hf v hv.1 hv.2 hid.1 ?_⟩
    have hk := hid.2
    simp only [intoMeta, rowState] at hk
    cases hc : v.content with
    | none =>
      rw [hc] at hk
      cases hk
    | some _ => rfl
  next =>
    obtain ⟨_, hx⟩ := ok_of_map (g := fun _ => PUnit.unit) hx
    exact storeVersion_stores hf hx

/-- A file that gives way to a directory is recorded under the clock of its head. -/
theorem displaced_stores {c : RemoteChange}
    (hf : t.history.Free c.path (stateFromKind c.kind) c.version)
    (hb : ∀ sig, c.kind = .modified sig → ∃ b, bytes = some b ∧ matchesSig b sig = true)
    (hdir : pathIsDir t.tree (join t.root c.path) = true)
    (hclock : (t.absorbed c).headClockFor c.path sig = some c.version)
    (hhead : sameState (.present sig) (stateFromKind c.kind) = true)
    (hx : (doApply c.path (.present sig) bytes).exec (t.absorbed c) = (.ok r, s')) :
    s'.history.Stored c.path (stateFromKind c.kind) c.version := by
  obtain ⟨b, rfl, hm⟩ : ∃ b, bytes = some b ∧ matchesSig b sig = true := by
    cases hk : c.kind with
    | removed =>
      rw [hk] at hhead
      cases hhead
    | modified sig' =>
      obtain ⟨b, he, hm⟩ := hb sig' hk
      rw [hk] at hhead
      simp only [stateFromKind, sameState, Bool.and_eq_true, decide_eq_true_eq] at hhead
      refine ⟨b, he, ?_⟩
      rw [matchesSig_iff] at hm ⊢
      rw [hhead.1, hhead.2]
      exact hm
  have hcol : typeCollision t.tree t.root c.path.components = some .targetIsDir := by
    rw [join] at hdir
    rw [typeCollision, if_pos hdir]
  obtain ⟨ready, u, hprep, hx⟩ := ok_of_bind hx
  simp only [preparePresentTarget, exec_get_bind] at hprep
  have hcol' : typeCollision (t.absorbed c).tree (t.absorbed c).root c.path.components =
      some .targetIsDir := hcol
  rw [hcol'] at hprep
  obtain ⟨_, v, hpres, hprep⟩ := ok_of_bind hprep
  cases hprep
  cases hx
  simp only [preserveIncomingFile, incomingBytes, exec_get_bind, Option.filter_some, hm, ↓reduceIte,
    hclock] at hpres
  change (recordPresentIfAbsent c.path sig c.version b false).exec (t.absorbed c) = _ at hpres
  have hstored := recordPresentIfAbsent_stores (s := t.absorbed c)
    (hf.congr (sameState_symm hhead)) hpres
  exact hstored.congr hhead

theorem carryOut_carries {c : RemoteChange} (hs : t.Prompt)
    (hf : t.history.Free c.path (stateFromKind c.kind) c.version)
    (hhead : ∀ sig, (t.absorbed c).headClockFor c.path sig = some c.version →
      sameState (.present sig) (stateFromKind c.kind) = true)
    (hx : (carryOut c.path (t.engine.applyTarget c) bytes).exec (t.absorbed c) = (.ok r, s')) :
    s'.Prompt ∧ s'.history.Free c.path (stateFromKind c.kind) c.version := by
  cases ht : t.engine.applyTarget c with
  | none =>
    rw [ht] at hx
    cases hx
    exact ⟨hs, hf⟩
  | some target =>
    rw [ht] at hx
    have hp : Upholds Prompt (doApply c.path target bytes) (t.absorbed c) :=
      prompt_recorder.doApply (fun _ _ _ => trivial) (fun _ _ _ _ => trivial) target bytes
    have hfr : Upholds (fun s => s.history.Free c.path (stateFromKind c.kind) c.version)
        (doApply c.path target bytes) (t.absorbed c) := by
      refine (free_recorder c.path (stateFromKind c.kind) c.version).doApply ?_ ?_ target bytes
      · rintro sig clock hclock - rfl
        exact hhead sig hclock
      · rintro rel hrel _ _ rfl -
        have hlen := hrel.length_le
        rw [List.length_dropLast] at hlen
        have hpos := List.length_pos_iff.2 c.path.components_ne_nil
        omega
    have hp' := hp.after hs
    have hf' := hfr.after hf
    have hx' : (doApply c.path target bytes).exec (t.absorbed c) = (.ok r, s') := hx
    rw [hx'] at hp' hf'
    exact ⟨hp', hf'⟩

/-- Conflicts are captured from the paperwork. -/
theorem conflictCaptures_paperwork (s : Session) (e : Engine) (c : RemoteChange)
    (bytes : Option Bytes) (v : Option VectorClock) :
    s.conflictCaptures bytes v (e.handleRemote c).2 =
      s.conflictCaptures bytes v (e.paperwork c) := by
  cases ht : e.applyTarget c with
  | none => rw [(Engine.applyTarget_none ht).1]
  | some target =>
    rw [(Engine.applyTarget_some ht).1]
    rfl

theorem fileAbsorbed_stores {c : RemoteChange} {u : Session} (hu : u.Prompt)
    (hf : u.history.Free c.path (stateFromKind c.kind) c.version)
    (hb : ∀ sig, c.kind = .modified sig → ∃ b, bytes = some b ∧ matchesSig b sig = true)
    (hrec : .recordVersion c.path (stateFromKind c.kind) c.version ∈ (t.engine.handleRemote c).2)
    (hx : (t.fileAbsorbed c bytes).exec u = (.ok r, s')) :
    (u.history.Stored c.path (stateFromKind c.kind) c.version →
        s'.history.Stored c.path (stateFromKind c.kind) c.version) ∧
      ((∃ a ∈ (t.engine.handleRemote c).2, Resolves c.version a) ∨
        (∀ sig, c.kind = .modified sig →
          (readVerified u.tree u.root c.path sig).isSome = true) →
        s'.history.Stored c.path (stateFromKind c.kind) c.version) := by
  rw [fileAbsorbed, conflictCaptures_paperwork] at hx
  obtain ⟨hc, hres, hver⟩ := executeActions_stores (paperwork_filed t.engine c) hu hf hb hx
  refine ⟨hc.stored, fun h => ?_⟩
  have hmem (a : Action) (ha : a ∈ (t.engine.handleRemote c).2) (hp : a.isPaper = true) :
      a ∈ t.engine.paperwork c := List.mem_filter.2 ⟨ha, hp⟩
  by_cases hr : ∃ a ∈ t.engine.paperwork c, Resolves c.version a
  · exact hres hr
  · have hdisk : ∀ sig, c.kind = .modified sig →
        (readVerified u.tree u.root c.path sig).isSome = true := by
      refine h.resolve_left ?_
      rintro ⟨a, ha, hra⟩
      refine hr ⟨a, hmem a ha ?_, hra⟩
      cases a with
      | conflictResolved => rfl
      | send | apply | recordVersion => cases hra
    refine hver (hmem _ hrec rfl) (fun hskip => hr ?_) hdisk
    obtain ⟨k, hk, hpair⟩ := List.mem_flatMap.1 hskip
    obtain ⟨a, ha, hka⟩ := List.mem_filterMap.1 hk
    cases a with
    | conflictResolved p w wv l lv ad =>
      cases hka
      refine ⟨_, ha, ?_⟩
      rcases List.mem_cons.1 hpair with he | hpair
      · exact .inl (Prod.mk.inj he).2.symm
      · exact .inr (Prod.mk.inj (List.mem_singleton.1 hpair)).2.symm
    | send | apply | recordVersion => cases hka

/-- A change whose content is supplied is in history once it is absorbed. -/
theorem absorbAndExecute_stores {c : RemoteChange} (hs : t.Prompt)
    (hb : ∀ sig, c.kind = .modified sig → ∃ b, bytes = some b ∧ matchesSig b sig = true)
    (hrec : .recordVersion c.path (stateFromKind c.kind) c.version ∈ (t.engine.handleRemote c).2)
    (ho : t.Obtains c) (hx : (absorbAndExecute c bytes).exec t = (.ok r, s')) :
    s'.history.Stored c.path (stateFromKind c.kind) c.version := by
  rcases ho with hst | ⟨hf, hsup⟩
  · have hkept := stored_kept c.path (stateFromKind c.kind) c.version
    have hkeep : Upholds (Steady t.config (fun _ => True) _) (absorbAndExecute c bytes) t :=
      hkept.toTended.absorbAndExecute (fun _ _ => trivial) bytes t fun target =>
        ⟨stored_of_filed (doApply_filed (fun _ _ => trivial) target bytes _)⟩
    have hs' := (hkeep.after ⟨hst, rfl, fun _ _ _ _ _ => trivial⟩).holds
    rwa [hx] at hs'
  · rw [absorbAndExecute_exec] at hx
    obtain ⟨_, u, hcarry, hx⟩ := ok_of_bind hx
    obtain ⟨hup, huf⟩ := carryOut_carries hs hf (fun sig => headClockFor_absorbed hrec) hcarry
    obtain ⟨hmono, hstore⟩ := fileAbsorbed_stores hup huf hb hrec hx
    rcases hsup with hres | hdisk | ⟨sig, ht, hdir, hclock⟩
    · exact hstore (.inl hres)
    · refine hstore (.inr fun sig hk => ?_)
      obtain ⟨hna, hshow⟩ := hdisk sig hk
      cases ht : t.engine.applyTarget c with
      | none =>
        rw [ht] at hcarry
        cases hcarry
        exact hshow.now
      | some target =>
        rw [ht] at hcarry hna
        have hroot : u.root = t.root := by
          have hl := (doApply_works c.path bytes target (t.absorbed c)).leaves
          have hcarry' : (doApply c.path target bytes).exec (t.absorbed c) = _ := hcarry
          rw [Leaves, hcarry'] at hl
          have hr : u.frame.root = (t.absorbed c).frame.root := by rw [hl]
          exact hr
        have hshow' : (t.absorbed c).Shows c.path sig := ⟨hshow.now, hshow.installed⟩
        have hpresent : target ≠ .absent := fun he => hna (by rw [he])
        rw [hroot]
        exact doApply_shows (s := t.absorbed c) hshow' hpresent hcarry
    · apply hmono
      rw [ht] at hcarry
      exact displaced_stores hf hb hdir hclock (headClockFor_absorbed hrec hclock) hcarry

/-- A session that has taken up a frame. -/
def receiving (a : Arrival) (msg : Message) (s : Session) : Session :=
  let s := s.reached a
  { s with lastActivity := s.nowMs, pendingRelease := s.pendingRelease + inflightCost msg }

/-- While a burst is processed, a change is absorbed with its bytes by the session `t`. -/
def Absorbs (s : Session) (batch : List Arrival) (c : RemoteChange) (bytes : Option Bytes)
    (t : Session) : Prop :=
  ∃ pre a post msg u, coalesceBurst batch = pre ++ a :: post ∧ a.item = .message msg ∧
    (processItems pre).exec s = (.ok false, u) ∧
      (arrive msg).exec (u.receiving a msg) = (.ok (some (c, bytes)), t)

/-- What the absorption of a change leads to in a burst that goes through. -/
theorem Absorbs.ends {I : Session → Prop} (hk : Tacit (fun _ => True) I)
    (hab : s.Absorbs batch c bytes t) (hok : ((processBurst batch).exec s).1 = .ok leave) :
    ∃ t', (absorbAndExecute c bytes).exec t = (.ok ⟨⟩, t') ∧
      (I t' → I (s.after (.burst batch))) := by
  obtain ⟨pre, a, post, msg, u, hsplit, hitem, hpre, harr⟩ := hab
  obtain ⟨w, hitems, hafter⟩ := processBurst_ok hok
  rw [hsplit, processItems_append, exec_bind_ok hpre] at hitems
  change (processItems (a :: post)).exec u = _ at hitems
  rw [processItems_cons, hitem] at hitems
  obtain ⟨_, t', hmsg, hitems⟩ := ok_of_bind hitems
  simp only [processIncoming, exec_modify_bind] at hmsg
  obtain ⟨_, _, habs, hv⟩ := ok_of_bind hmsg
  cases hv
  have habs : (onMessage msg).exec (u.receiving a msg) = _ := habs
  rw [onMessage_arrives, exec_bind_ok harr] at habs
  refine ⟨t', habs, fun ht => ?_⟩
  have hgo : Upholds (Steady t'.config (fun _ => True) I) (goOn a post) t' :=
    hk.goOn a (fun b _ => b.item.admitted_all t'.config) t'
  have hw := hgo.after ⟨ht, rfl, fun _ _ _ _ _ => trivial⟩
  have hitems' : (goOn a post).exec t' = (.ok leave, w) := hitems
  rw [hitems'] at hw
  have hflush := ((hk.flushInstalls w).after hw).holds
  rwa [hafter] at hflush

theorem Absorbs.single {a : Arrival} (hi : a.item = .message msg)
    (h : ((arrive msg).exec (s.receiving a msg)).1 = .ok (some (c, bytes))) :
    s.Absorbs [a] c bytes ((arrive msg).exec (s.receiving a msg)).2 := by
  refine ⟨[], a, [], msg, s, ?_, hi, rfl, Prod.ext h rfl⟩
  rw [coalesceBurst, hi]
  rfl

theorem Absorbs.prompt (hab : s.Absorbs batch c bytes t) (hs : s.Prompt) : t.Prompt := by
  obtain ⟨pre, a, post, msg, u, -, -, hpre, harr⟩ := hab
  have hitems : Upholds (Steady s.config (fun _ => True) Prompt) (processItems pre) s :=
    prompt_kept.processItems (fun b _ => b.item.admitted_all s.config) s
  have hu := hitems.after ⟨hs, rfl, fun _ _ _ _ _ => trivial⟩
  rw [hpre] at hu
  have hm : msg.Admitted s.config (fun _ => True) := Incoming.admitted_all s.config (.message msg)
  have hr : Steady s.config (fun _ => True) Prompt (u.receiving a msg) := by
    have hreached : Steady s.config (fun _ => True) Prompt (u.reached a) := by
      rw [reached]
      split
      · exact hu.tacit prompt_kept rfl rfl
      · exact hu
    exact hreached.tacit prompt_kept rfl rfl
  have ht := ((prompt_kept.arrive hm _).after hr).1
  rw [harr] at ht
  exact ht.holds

/-- A version that a run absorbs with its bytes is in history from the end of its burst on. -/
theorem Absorbs.version_stored (hs : s.Prompt) (hrun : Relation.ReflTransGen Step s u)
    (hab : u.Absorbs batch c bytes t) (hok : ((processBurst batch).exec u).1 = .ok leave)
    (hb : ∀ sig, c.kind = .modified sig → ∃ b, bytes = some b ∧ matchesSig b sig = true)
    (hrec : .recordVersion c.path (stateFromKind c.kind) c.version ∈ (t.engine.handleRemote c).2)
    (ho : t.Obtains c)
    (hlater : Relation.ReflTransGen Step (u.after (.burst batch)) s') :
    s'.history.Stored c.path (stateFromKind c.kind) c.version := by
  have hkept := stored_kept c.path (stateFromKind c.kind) c.version
  have hu : u.Prompt := prompt_kept.run (fun _ _ h => h) hs hrun
  obtain ⟨t', habs, hend⟩ := hab.ends hkept hok
  have ht' := absorbAndExecute_stores (hab.prompt hu) hb hrec ho habs
  exact hkept.run (fun _ _ h => h) (hend ht') hlater

end

end Session

/-- A session that versions every change, with the file `foo` on disk. -/
def everyChangeSession (e : Engine) : Session :=
  { Session.start rootDir syncAll e .new (fooTree 0x31) with pressure := .new .everyChange {} }

def framed (c : RemoteChange) (b : Bytes) : Arrival := ⟨.message (.change c (some b)), false, 0⟩

/-- A session that is about to absorb an inline frame. -/
def framedSession [Platform] (s : Session) (c : RemoteChange) (b : Bytes) : Session :=
  ((Session.arrive (.change c (some b))).exec (s.receiving (framed c b) (.change c (some b)))).2

theorem framed_absorbs [Platform] {s : Session} {c : RemoteChange} {b : Bytes}
    (h : ((Session.arrive (.change c (some b))).exec
      (s.receiving (framed c b) (.change c (some b)))).1 = .ok (some (c, some b))) :
    s.Absorbs [framed c b] c (some b) (framedSession s c b) := .single rfl h

def emptySession : Session := everyChangeSession (.new ⟨1⟩ .new)

def newFrame : Arrival := framed (modifiedAt firstPath) [0x31]

/-- The session when it absorbs that file. -/
def newAbsorbed : Session :=
  letI := tabulated shortHashes
  framedSession emptySession (modifiedAt firstPath) [0x31]

def newInstalled : Session :=
  letI := tabulated shortHashes
  emptySession.after (.burst [newFrame])

/-- A new file is absorbed and installed, and its version is not recorded. -/
theorem staged_unrecorded :
    letI := tabulated shortHashes
    emptySession.Prompt ∧
      emptySession.Absorbs [newFrame] (modifiedAt firstPath) (some [0x31]) newAbsorbed ∧
      matchesSig [0x31] oneSig = true ∧
      .recordVersion firstPath (.present oneSig) (modifiedAt firstPath).version ∈
        (newAbsorbed.engine.handleRemote (modifiedAt firstPath)).2 ∧
      ((Session.processBurst [newFrame]).exec emptySession).1 = .ok false ∧
      newInstalled.tree.get (join rootDir firstPath) = some (.file [0x31] 0o644 0) ∧
      ¬newInstalled.history.Stored firstPath (.present oneSig) (modifiedAt firstPath).version := by
  let platform := tabulated shortHashes
  have hab : emptySession.Absorbs [newFrame] (modifiedAt firstPath) (some [0x31]) newAbsorbed :=
    framed_absorbs (by decide +kernel)
  have hrec : .recordVersion firstPath (.present oneSig) (modifiedAt firstPath).version ∈
      (newAbsorbed.engine.handleRemote (modifiedAt firstPath)).2 := by decide +kernel
  have hok : ((Session.processBurst [newFrame]).exec emptySession).1 = .ok false := by
    decide +kernel
  have hdisk : newInstalled.tree.get (join rootDir firstPath) = some (.file [0x31] 0o644 0) := by
    decide +kernel
  have hv : newInstalled.history.versions = [] := by decide +kernel
  refine ⟨⟨.inl rfl, rfl⟩, hab, by decide +kernel, hrec, hok, hdisk, ?_⟩
  rintro ⟨r, hr, _⟩
  rw [hv] at hr
  cases hr

/-- A change of `foo` that another replica has made meanwhile. -/
def rivalChange : RemoteChange := ⟨fooPath, .modified twoSig, VectorClock.new.tick ⟨2⟩⟩

/-- The version of a change in conflict is recorded from its frame. -/
theorem rival_recorded :
    letI := tabulated shortHashes
    ((everyChangeSession fooEngine).after (.burst [framed rivalChange [0x32]])).history.Stored
      fooPath (.present twoSig) rivalChange.version := by
  let platform := tabulated shortHashes
  let s := everyChangeSession fooEngine
  have hab : s.Absorbs [framed rivalChange [0x32]] rivalChange (some [0x32])
      (framedSession s rivalChange [0x32]) := framed_absorbs (by decide +kernel)
  have hok : ((Session.processBurst [framed rivalChange [0x32]]).exec s).1 = .ok false := by
    decide +kernel
  have hrec : .recordVersion fooPath (.present twoSig) rivalChange.version ∈
      ((framedSession s rivalChange [0x32]).engine.handleRemote rivalChange).2 := by
    decide +kernel
  have hv : (framedSession s rivalChange [0x32]).history.versions = [] := by decide +kernel
  have hres : .conflictResolved fooPath (.present oneSig) (VectorClock.new.tick ⟨1⟩)
      (.present twoSig) rivalChange.version true ∈
      ((framedSession s rivalChange [0x32]).engine.handleRemote rivalChange).2 := by
    decide +kernel
  refine Session.Absorbs.version_stored ⟨.inl rfl, rfl⟩ .refl hab hok ?_ hrec
    (.inr ⟨fun r hr => ?_, .inl ⟨_, hres, .inr rfl⟩⟩) .refl
  · rintro _ ⟨⟩
    exact ⟨[0x32], rfl, by decide +kernel⟩
  · rw [hv] at hr
    cases hr

end Tomo
