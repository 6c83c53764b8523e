import Tomo.Lib.Contents
import Tomo.Session.Apart
import Tomo.Session.Refusal

namespace Tomo
set_option autoImplicit true

/-- Whether the rules leave a path to the session at all. -/
def Config.synced (cfg : Config) (p : RelPath) : Prop := (cfg.classify p).cls ≠ .ignored

/-- Whether the rules let changes of a path out. -/
def Config.letsOut (cfg : Config) (p : RelPath) : Prop :=
  decideCrossing (cfg.classify p).cls (cfg.classify p).direction .outbound ≠ .drop

/-- What is let in is not ignored. -/
theorem Config.letsIn.synced {cfg : Config} (h : cfg.letsIn p) : cfg.synced p := by
  intro hi
  apply h
  simp only [decideCrossing, hi, ↓reduceIte]

/-- A frame of content is about a path that the rules let out, or brings bytes that were served. -/
def Message.LetOut (cfg : Config) (served : Bytes → Prop) : Message → Prop
  | .change c _ | .changeManifest c _ _ => cfg.letsOut c.path
  | .chunkData _ bytes => served bytes
  | .hello .. | .indexExchange _ | .chunkRequest _ | .ping _ | .pong _ | .pause | .resume => True

/-- What a step of a session may be about, under rules. -/
structure Remit where
  cfg : Config
  root : List Name
  about : RelPath → Prop
  served : Bytes → Prop
  ground : Tree → Prop
  in_about : ∀ {p}, cfg.letsIn p → about p
  about_synced : ∀ {p}, about p → cfg.synced p
  ground_install : ∀ {p b m k t u}, cfg.letsIn p →
    FileTree.Pokes (join root p) (some (.file b m k)) t u → ground t → ground u

namespace Session
open Eff

/-- From `s₀` to `s` nothing has happened that goes beyond the remit. -/
structure Bound (k : Remit) (s₀ s : Session) : Prop where
  config : s.config = k.cfg
  root : s.root = k.root
  anchored : s.Anchored
  ground : k.ground s.tree
  staged : ∀ i ∈ s.pendingInstalls, k.cfg.letsIn i.path
  assembling : ∀ (q : RelPath) (a : Assembly), s.assemblies[q]? = some a →
    k.cfg.letsIn a.change.path
  announced : ∀ (q : RelPath) chunks, s.outboundManifests[q]? = some chunks → k.cfg.letsOut q
  queued : ∀ m ∈ s.pendingChunks, m.LetOut k.cfg k.served
  spoken : ∃ l, s.sent = s₀.sent ++ l ∧ ∀ m ∈ l, m.LetOut k.cfg k.served
  captured : s.pressure.Stages k.cfg.synced
  files : ∀ p, ¬k.cfg.letsIn p →
    s.tree.fileAt (join k.root p) = s₀.tree.fileAt (join k.root p)
  entries : ∀ p, ¬k.about p → s.engine.index.get p = s₀.engine.index.get p
  rows : Appended k.about s₀.history.versions s₀.history.conflicts s.history

/-- The part of a session that a remit is about. -/
def worth (s : Session) : Session :=
  { s with
    fs := ⟨false, false⟩
    binaryVersion := []
    transport := none
    peerReplica := none
    nowMs := 0
    wallMs := 0
    overSsh := false
    repushRequested := false
    connected := false
    helloReceived := false
    indexDirty := false
    rescanPending := false
    diskStalled := false
    lastStallRetry := 0
    lastActivity := 0
    paused := false
    pausedActed := false
    peerPaused := false
    reconnectPlan := .none
    pendingSends := []
    pendingRelease := 0
    createdDirs := []
    diskFull := false
    chunkFiles := ∅ }

variable {k : Remit} {s₀ s s' : Session} {x : SessionM α}

theorem Bound.of_worth (h : Bound k s₀ s.worth) : Bound k s₀ s :=
  { h with anchored := ⟨h.anchored.root_dir, h.anchored.guarded⟩ }

theorem Bound.same (h : Bound k s₀ s) (hw : s'.worth = s.worth) : Bound k s₀ s' := by
  have hs : Bound k s₀ s.worth := { h with anchored := ⟨h.anchored.root_dir, h.anchored.guarded⟩ }
  rw [← hw] at hs
  exact hs.of_worth

theorem bound_modify {f : Session → Session} (hw : (f s).worth = s.worth) :
    Upholds (Bound k s₀) (modify f : SessionM PUnit) s := .modify fun h => h.same hw

theorem bound_set (hw : s'.worth = s.worth) :
    Upholds (Bound k s₀) (set s' : SessionM PUnit) s := .set fun h => h.same hw

theorem eq_of_view (view : Session → Session) (g : Session → γ) (hg : ∀ s, g (view s) = g s)
    (h : view s' = view s) : g s' = g s := by
  rw [← hg s', h, hg s]

theorem Bound.of_records (h : Bound k s₀ s) (hc : s'.core = s.core) (ha : s'.apart = s.apart)
    (hp : s'.pressure.Stages k.cfg.synced)
    (hr : Appended k.about s₀.history.versions s₀.history.conflicts s'.history) :
    Bound k s₀ s' := by
  have hroot : s'.root = s.root := eq_of_view core Session.root (fun _ => rfl) hc
  have htree : s'.tree = s.tree := eq_of_view core Session.tree (fun _ => rfl) hc
  have hpending : s'.pendingInstalls = s.pendingInstalls :=
    eq_of_view core Session.pendingInstalls (fun _ => rfl) hc
  have hassemblies : s'.assemblies = s.assemblies :=
    eq_of_view core Session.assemblies (fun _ => rfl) hc
  have hchunks : s'.pendingChunks = s.pendingChunks :=
    eq_of_view core Session.pendingChunks (fun _ => rfl) hc
  have hengine : s'.engine = s.engine := eq_of_view core Session.engine (fun _ => rfl) hc
  have hmanifests : s'.outboundManifests = s.outboundManifests :=
    eq_of_view apart Session.outboundManifests (fun _ => rfl) ha
  have hsent : s'.sent = s.sent := eq_of_view apart Session.sent (fun _ => rfl) ha
  constructor
  case config => exact (eq_of_view core Session.config (fun _ => rfl) hc).trans h.config
  case root => exact hroot.trans h.root
  case anchored => exact (h.anchored.reaches.of_core hc).toAnchored
  case ground => exact htree ▸ h.ground
  case staged => exact hpending ▸ h.staged
  case assembling => exact hassemblies ▸ h.assembling
  case announced => exact hmanifests ▸ h.announced
  case queued => exact hchunks ▸ h.queued
  case spoken => exact hsent ▸ h.spoken
  case captured => exact hp
  case files => exact htree ▸ h.files
  case entries => exact hengine ▸ h.entries
  case rows => exact hr

theorem Bound.suspended (h : Bound k s₀ s) : Bound k s₀ s.suspendTransfers := by
  obtain ⟨f, hf⟩ := s.suspendTransfers_only
  rw [hf]
  refine { h with anchored := ⟨h.anchored.root_dir, ?_⟩, staged := ?_, assembling := ?_,
                  announced := ?_, queued := ?_ }
  · exact fun i hi => by cases hi
  · exact fun i hi => by cases hi
  · intro q a hq
    rw [Std.ExtTreeMap.getElem?_empty] at hq
    cases hq
  · intro q chunks hq
    rw [Std.ExtTreeMap.getElem?_empty] at hq
    cases hq
  · exact fun m hm => by cases hm

theorem Bound.offline (h : Bound k s₀ s) : Bound k s₀ s.goOffline := by
  rw [goOffline]
  split
  · exact h
  · have hoff : Bound k s₀
        { s with transport := none, connected := false, helloReceived := false } := h.same rfl
    exact hoff.suspended

/-- What is sent has to be let out. -/
theorem Bound.say (h : Bound k s₀ s) {msgs : List Message}
    (hm : ∀ m ∈ msgs, m.LetOut k.cfg k.served) : Bound k s₀ { s with sent := s.sent ++ msgs } := by
  obtain ⟨l, hl, hall⟩ := h.spoken
  refine { h with anchored := ⟨h.anchored.root_dir, h.anchored.guarded⟩, spoken := ?_ }
  refine ⟨l ++ msgs, by rw [hl, List.append_assoc], fun m hmem => ?_⟩
  rcases List.mem_append.1 hmem with hmem | hmem
  · exact hall m hmem
  · exact hm m hmem

theorem ship_bound {msgs : List Message} (hm : ∀ m ∈ msgs, m.LetOut k.cfg k.served)
    (s : Session) : Upholds (Bound k s₀) (ship msgs) s := by
  apply Upholds.get
  split
  · exact .pure _ s
  · split
    · exact .ite (.set Bound.offline) (.throw _ s)
    · exact .set fun h => h.say hm

theorem send_bound (msg : Message) (hm : msg.LetOut k.cfg k.served) (s : Session) :
    Upholds (Bound k s₀) (send msg) s := by
  refine ship_bound (fun m h => ?_) s
  cases List.mem_singleton.1 h
  exact hm

theorem letsOut_of_crossing (hc : s.config = cfg) (h : s.allowCrossing p .outbound = true) :
    cfg.letsOut p := by
  intro hd
  rw [allowCrossing, hc, hd] at h
  cases h

/-- Nothing but the chunks may be announced, and only for a path that is let out. -/
theorem Bound.announce (h : Bound k s₀ s) (hp : k.cfg.letsOut p) chunks :
    Bound k s₀ { s with outboundManifests := s.outboundManifests.insert p chunks } := by
  refine { h with anchored := ⟨h.anchored.root_dir, h.anchored.guarded⟩, announced := ?_ }
  intro q l hq
  simp only [Std.ExtTreeMap.getElem?_insert, Std.compare_eq_iff_eq] at hq
  split at hq
  next he => exact he ▸ hp
  next => exact h.announced q l hq

section
variable [Platform]

/-- What is prepared for the link is let out. -/
theorem prepareSend_bound (change : RemoteChange) (s : Session) :
    Ensures (Bound k s₀) (fun m => ∀ msg ∈ m, Message.LetOut k.cfg k.served msg)
      (prepareSend change) s := by
  have hnone (s : Session) : Ensures (Bound k s₀)
      (fun m => ∀ msg ∈ m, Message.LetOut k.cfg k.served msg) (pure none : SessionM _) s :=
    .pure (fun msg h => by cases h) s
  refine .assuming fun h => .get <| .ite (fun _ => hnone s) fun hcross => ?_
  have hout : k.cfg.letsOut change.path := by
    apply letsOut_of_crossing h.config
    rw [not_or, not_or, Bool.not_eq_true, Bool.not_eq_true', Bool.not_eq_false] at hcross
    exact hcross.2.2
  split
  · refine .pure (fun msg hmsg => ?_) s
    cases hmsg
    exact hout
  · refine .ite (fun _ => .ite (fun _ => ?_) fun _ => ?_) fun _ => hnone s
    · simp only [buildManifest, map_eq_pure_bind, bind_assoc, pure_bind]
      refine .bind (.modify fun h => h.announce hout _) fun _ s' => .pure (fun msg hmsg => ?_) s'
      cases hmsg
      exact hout
    · refine .pure (fun msg hmsg => ?_) s
      cases hmsg
      exact hout

theorem doSend_bound (change : RemoteChange) (s : Session) :
    Upholds (Bound k s₀) (doSend change) s := by
  refine (prepareSend_bound change s).upholds_bind fun m s' hm => ?_
  cases m with
  | some msg => exact send_bound msg (hm msg rfl) s'
  | none => exact .pure _ s'

theorem flushQueuedSend_bound (p : RelPath) (s : Session) :
    Upholds (Bound k s₀) (flushQueuedSend p) s := by
  apply Upholds.get
  split
  · exact .pure _ s
  · exact Upholds.bind (bound_set rfl) fun _ s' => doSend_bound _ s'

/-- A sub-batch takes up what is queued and what is let out. -/
theorem gatherBulk_bound (n : Nat) {batch : List Message}
    (hb : ∀ m ∈ batch, m.LetOut k.cfg k.served) (s : Session) :
    Ensures (Bound k s₀) (fun batch => ∀ m ∈ batch, m.LetOut k.cfg k.served)
      (gatherBulk n batch) s := by
  induction n generalizing batch s with
  | zero => exact .pure hb s
  | succ n ih =>
    have hmore {msg : Message} (hm : msg.LetOut k.cfg k.served) :
        ∀ m ∈ batch ++ [msg], m.LetOut k.cfg k.served := by
      intro m hmem
      rcases List.mem_append.1 hmem with hmem | hmem
      · exact hb m hmem
      · cases List.mem_singleton.1 hmem
        exact hm
    refine .assuming fun h => .get <| .ite (fun _ => .pure hb s) fun _ => ?_
    split
    next msg rest hq =>
      refine .bind (.set fun _ => ?_) fun _ s' => ih (hmore (h.queued msg ?_)) s'
      · refine { h with anchored := ⟨h.anchored.root_dir, h.anchored.guarded⟩, queued := ?_ }
        intro m hm
        apply h.queued
        rw [hq]
        exact List.mem_cons_of_mem msg hm
      · rw [hq]
        exact List.mem_cons_self
    next change rest _ hq =>
      refine .bind (bound_set rfl) fun _ s' => (prepareSend_bound change s').chain fun m s' hm => ?_
      cases m with
      | some msg => exact ih (hmore (hm msg rfl)) s'
      | none => exact ih hb s'
    · exact .pure hb s

theorem shipBulkSubbatch_bound (s : Session) : Upholds (Bound k s₀) shipBulkSubbatch s := by
  refine .get <| (gatherBulk_bound _ (fun m h => by cases h) s).upholds_bind fun batch s' hb => ?_
  exact .ite (.pure _ s') (ship_bound hb s')

/-- The records of a session go on within the remit. -/
def Ruled (k : Remit) (s₀ s : Session) : Prop :=
  Appended k.about s₀.history.versions s₀.history.conflicts s.history ∧
    s.pressure.Stages k.cfg.synced

theorem ruled_recorder : Recorder (fun p _ _ => k.about p) (Ruled k s₀) where
  indifferent {s s'} h hh hp := by
    rw [Ruled, hh, hp]
    exact h
  store {p state version} hp l bytes s := by
    constructor
    intro h
    simp only [storeVersion, exec_get_bind]
    cases hr : s.history.recordVersion p state version (s.attribution l).2 (s.attribution l).1
        s.wallMs bytes with
    | error e => exact h
    | ok r => exact ⟨h.1.recordVersion hp hr, h.2⟩
  stage hp l hint nowMs _ h :=
    ⟨h.1, PressureController.note_stages h.2 (k.about_synced hp) _ nowMs⟩
  conflict {p _ _} hp winner loser s h := by
    obtain ⟨l, hl, hall⟩ := h.1.conflicts
    let row : ConflictRow := ⟨s.history.lastConflict + 1, p, winner, loser, s.wallMs⟩
    have hrow : (s.history.recordConflict p winner loser s.wallMs).1.conflicts =
        s₀.history.conflicts ++ (l ++ [row]) := by
      rw [HistoryStore.recordConflict, hl, List.append_assoc]
    refine ⟨⟨h.1.versions, l ++ [row], hrow, fun r hr => ?_⟩, h.2⟩
    rcases List.mem_append.1 hr with hr | hr
    · exact hall r hr
    · rw [List.mem_singleton.1 hr]
      exact hp

omit [Platform] in
/-- What only records, and records within the remit, stays within it. -/
theorem Books.bound (hb : Books x s) (hi : Inward x s) (hr : Upholds (Ruled k s₀) x s) :
    Upholds (Bound k s₀) x s := by
  constructor
  intro h
  obtain ⟨hrows, hstaged⟩ := hr.after ⟨h.rows, h.captured⟩
  exact h.of_records hb.core hi hstaged hrows

theorem noteVersion_bound (hp : k.about p) (state : EntryState) (version : VectorClock) (l : Bool)
    (nowMs : Nat) (s : Session) : Upholds (Bound k s₀) (noteVersion p state version l nowMs) s :=
  (noteVersion_files ..).books.bound (noteVersion_inward ..) (ruled_recorder.noteVersion hp ..)

theorem recordConflictCapture_bound {c : ConflictCapture} (hp : k.about c.path) (s : Session) :
    Upholds (Bound k s₀) (recordConflictCapture c) s :=
  (recordConflictCapture_books c s).bound (recordConflictCapture_inward c s)
    (ruled_recorder.recordConflictCapture hp hp s)

theorem caseCollisionRefused_bound {c : RemoteChange} (hp : k.about c.path) (bytes : Option Bytes)
    (s : Session) : Upholds (Bound k s₀) (caseCollisionRefused c bytes) s := by
  refine (caseCollisionRefused_books c bytes s).bound (caseCollisionRefused_inward c bytes s) ?_
  apply Upholds.get
  split
  · exact .pure _ s
  · refine .ite (Upholds.bind (.get <| .ite (.pure _ s) ?_) fun _ s' => .pure _ s') (.pure _ s)
    refine (incomingBytes_upholds ..).bind fun b s' => ?_
    cases b with
    | some b => exact (ruled_recorder.store hp ..).map
    | none => exact .pure _ s'

theorem preserveIncomingFile_bound (hp : k.about p) (sig : ContentSig) (bytes : Option Bytes)
    (s : Session) : Upholds (Bound k s₀) (preserveIncomingFile p sig bytes) s :=
  (preserveIncomingFile_books p sig bytes s).bound (preserveIncomingFile_inward p sig bytes s)
    (ruled_recorder.preserveIncomingFile (fun _ _ => hp) bytes)

omit [Platform] in
/-- Renaming staged files into place changes files that are let in, as long as no link stands in
the way. -/
theorem installAll_bound {t : Tree} {l : List PendingInstall} (hr : t.get k.root = some .dir)
    (hl : ∀ i ∈ l, i.finalPath = join k.root i.path ∧ t.Unlinked k.root i.path.components)
    (hin : ∀ i ∈ l, k.cfg.letsIn i.path) (hg : k.ground t) :
    k.ground (installAll t l).1 ∧ (∀ p, ¬k.cfg.letsIn p →
      (installAll t l).1.fileAt (join k.root p) = t.fileAt (join k.root p)) := by
  induction l generalizing t with
  | nil => exact ⟨hg, fun _ _ => rfl⟩
  | cons i rest ih =>
    rw [installAll]
    cases htemp : i.temp with
    | none => exact ⟨hg, fun _ _ => rfl⟩
    | some staged =>
      dsimp only
      obtain ⟨hf, hu⟩ := hl i List.mem_cons_self
      cases hi : t.install i.finalPath staged.node with
      | error e => exact ⟨hg, fun _ _ => rfl⟩
      | ok u =>
        rw [hf] at hi
        obtain ⟨q, hq, _, hget⟩ := FileTree.install_spec hi
        rw [join] at hq
        rw [FileTree.locate_unlinked hr hu hq] at hget
        have hpoke : FileTree.Pokes (join k.root i.path) (some staged.node) t u := hget
        have hc := FileTree.install_confined hr hu i.path.components_ne_nil
          (.outside k.root _) (fun l h => by cases h) hi
        obtain ⟨hg', hfiles⟩ := ih (hc.root_dir hr) (fun j hj =>
          ⟨(hl j (List.mem_cons_of_mem i hj)).1, hc.unlinked (hl j (List.mem_cons_of_mem i hj)).2⟩)
          (fun j hj => hin j (List.mem_cons_of_mem i hj))
          (k.ground_install (hin i List.mem_cons_self) hpoke hg)
        refine ⟨hg', fun p hp => (hfiles p hp).trans (hpoke.fileAt fun he => hp ?_)⟩
        rw [← RelPath.components_injective (List.append_cancel_left he)]
        exact hin i List.mem_cons_self

omit [Platform] in
theorem flushInstalls_bound (s : Session) : Upholds (Bound k s₀) flushInstalls s := by
  constructor
  intro h
  have hguard : ∀ i ∈ s.pendingInstalls,
      i.finalPath = join k.root i.path ∧ s.tree.Unlinked k.root i.path.components := by
    rw [← h.root]
    exact h.anchored.guarded
  have hroot : s.tree.get k.root = some .dir := by
    rw [← h.root]
    exact h.anchored.root_dir
  obtain ⟨hg, hfiles⟩ := installAll_bound hroot hguard h.staged h.ground
  have hstays : Stays (fun q => ¬s.root <+: q) flushInstalls s :=
    flushInstalls_stays h.anchored.reaches
  obtain ⟨_, hm⟩ := installAll_confined (S := fun q => ¬k.root <+: q) hroot hguard
    fun _ _ => .outside _ _
  have hanchored := hstays.reaches.toAnchored
  simp only [flushInstalls, exec_get_bind] at hanchored ⊢
  rcases hi : installAll s.tree s.pendingInstalls with ⟨tree, pending, err⟩
  rw [hi] at hg hfiles hm hanchored
  cases err with
  | some e =>
    refine { h with anchored := hanchored, ground := hg, staged := fun i hi => ?_,
                    files := fun p hp => (hfiles p hp).trans (h.files p hp) }
    obtain ⟨j, hj, _, hpath⟩ := hm i hi
    rw [hpath]
    exact h.staged j hj
  | none =>
    exact { h with anchored := hanchored, ground := hg, staged := fun i hi => (by cases hi),
                   files := fun p hp => (hfiles p hp).trans (h.files p hp) }

omit [Platform] in
theorem flushPendingInstallFor_bound (q : RelPath) (s : Session) :
    Upholds (Bound k s₀) (flushPendingInstallFor q) s :=
  .get <| .ite (flushInstalls_bound s) (.pure _ s)

end

end Session

end Tomo
