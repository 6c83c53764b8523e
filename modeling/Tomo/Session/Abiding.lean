import Tomo.Session.Permitting

namespace Tomo
set_option autoImplicit true

/-- The remit without a condition on the disk. -/
def Remit.anywhere (k : Remit) : Remit :=
  { k with ground := fun _ => True, ground_install := fun _ _ _ => trivial }

namespace Session
open Eff

/-- A path leads through a link to a file that the rules do not let in. -/
def Strays (cfg : Config) (root : List Name) (t : Tree) (p : RelPath) : Prop :=
  ∃ r, ¬cfg.letsIn r ∧ t.isFile (join root r) = true ∧
    t.locate true (join root p) = .ok (join root r)

/-- Renaming a file that is let in into place opens no such way. -/
theorem Strays.of_install {root : List Name} {t u : Tree} (hq : cfg.letsIn q)
    (h : FileTree.Pokes (join root q) (some (.file b m k)) t u) (hs : Strays cfg root u p) :
    Strays cfg root t p := by
  obtain ⟨r, hr, hfile, hloc⟩ := hs
  have hne : join root q ≠ join root r := by
    intro he
    apply hr
    rw [← RelPath.components_injective (List.append_cancel_left he)]
    exact hq
  refine ⟨r, hr, ?_, FileTree.locate_poked h hne hloc⟩
  rw [FileTree.isFile_iff] at hfile ⊢
  rwa [h, if_neg hne] at hfile

section
variable [Platform] {k : Remit} {s₀ s s' : Session} {p : RelPath}

omit [Platform] in
/-- A local change touches the entry of its own path. -/
theorem handleEvent_bound {c : LocalChange} (hc : k.about c.path) (s : Session) :
    Upholds (Bound k s₀) (handleEvent (.local c)) s := by
  refine .get <| Upholds.bind (.set fun h => ?_) fun _ s' => .pure _ s'
  refine { h with anchored := ⟨h.anchored.root_dir, h.anchored.guarded⟩, entries := fun q hq => ?_ }
  rw [← h.entries q hq]
  apply Engine.handleLocal_other
  rintro rfl
  exact hq hc

theorem executeActions_bound (bytes : Option Bytes) (v : Option VectorClock) (nowMs : Nat)
    (cv : List (RelPath × VectorClock)) {actions : List Action} {captures : List ConflictCapture}
    (hpaper : ∀ a ∈ actions, a.isPaper = true) (ha : ∀ a ∈ actions, k.about a.path)
    (hc : ∀ c ∈ captures, k.about c.path) (s : Session) :
    Upholds (Bound k s₀) (executeActions bytes v nowMs cv actions captures) s := by
  induction actions generalizing captures s with
  | nil => exact .pure _ s
  | cons a rest ih =>
    have hrest (s : Session) {captures : List ConflictCapture}
        (hc : ∀ c ∈ captures, k.about c.path) :=
      ih (fun b hb => hpaper b (List.mem_cons_of_mem a hb))
        (fun b hb => ha b (List.mem_cons_of_mem a hb)) hc s
    have hp := ha a List.mem_cons_self
    cases a with
    | send change => exact (doSend_bound change s).bind fun _ s' => hrest s' hc
    | apply path target => cases hpaper _ List.mem_cons_self
    | recordVersion path state version =>
      exact .ite (hrest s hc) ((noteVersion_bound hp ..).bind fun _ s' => hrest s' hc)
    | conflictResolved path winner wv loser lv adopted =>
      cases captures with
      | nil => exact hrest s hc
      | cons c captures =>
        refine (recordConflictCapture_bound (hc c List.mem_cons_self) s).map.bind ?_
        exact fun _ s' => hrest s' fun b hb => hc b (List.mem_cons_of_mem c hb)

/-- What is captured for a conflict is about the path of the change. -/
theorem conflictCaptures_path {actions : List Action} (s : Session) (bytes : Option Bytes)
    (v : Option VectorClock) (ha : ∀ a ∈ actions, k.about a.path) :
    ∀ c ∈ s.conflictCaptures bytes v actions, k.about c.path := by
  intro c hc
  obtain ⟨a, hm, hc⟩ := List.mem_filterMap.1 hc
  split at hc
  · cases hc
    exact ha _ hm
  · cases hc

/-- What follows from a local change is about its path. -/
theorem executeLocal_bound {c : LocalChange} (hc : k.about c.path)
    (hx : (handleEvent (.local c)).exec s = (.ok actions, s')) (u : Session) :
    Upholds (Bound k s₀) (execute actions none none) u := by
  have hpath : ∀ a ∈ actions, k.about a.path := by
    intro a ha
    rw [(handleEvent_local hx a ha).2]
    exact hc
  exact .get <| executeActions_bound _ _ _ _ (fun a ha => (handleEvent_local hx a ha).1) hpath
    (conflictCaptures_path u none none hpath) u

theorem absorbLocal_bound {c : LocalChange} (hc : k.about c.path) (s : Session) :
    Upholds (Bound k s₀) (absorbLocal c) s := by
  refine (handleEvent_bound hc s).bind_exec fun actions s' hx => ?_
  refine .ite (executeLocal_bound hc hx s') ?_
  exact Upholds.bind (bound_modify rfl) fun _ s' => executeLocal_bound hc hx s'

theorem reconcileUnobservedLocal_bound (hp : k.about p) (s : Session) :
    Upholds (Bound k s₀) (reconcileUnobservedLocal p) s := by
  apply Upholds.get
  split
  · exact .throw _ s
  · refine .ite ?_ (.pure _ s)
    refine (handleEvent_bound (c := ⟨p, _⟩) hp s).bind_exec fun actions s' hx => ?_
    exact Upholds.bind (bound_modify rfl) fun _ s' => executeLocal_bound (c := ⟨p, _⟩) hp hx s'

omit [Platform] in
/-- With fewer assemblies the session stays within its remit. -/
theorem Bound.fewer (h : Bound k s₀ s) {assemblies : Std.ExtTreeMap RelPath Assembly}
    {chunkFiles : Std.ExtTreeMap ContentHash Bytes}
    (hf : ∀ (q : RelPath) (a : Assembly), assemblies[q]? = some a → s.assemblies[q]? = some a) :
    Bound k s₀ { s with assemblies, chunkFiles } :=
  { h with
    anchored := ⟨h.anchored.root_dir, h.anchored.guarded⟩
    assembling := fun q a hq => h.assembling q a (hf q a hq) }

omit [Platform] in
theorem Bound.assemble (h : Bound k s₀ s) {a : Assembly} (ha : k.cfg.letsIn a.change.path)
    {chunkFiles : Std.ExtTreeMap ContentHash Bytes} :
    Bound k s₀ { s with assemblies := s.assemblies.insert p a, chunkFiles } := by
  refine { h with anchored := ⟨h.anchored.root_dir, h.anchored.guarded⟩, assembling := ?_ }
  intro q b hq
  simp only [Std.ExtTreeMap.getElem?_insert, Std.compare_eq_iff_eq] at hq
  split at hq
  · cases hq
    exact ha
  · exact h.assembling q b hq

omit [Platform] in
theorem Bound.superseded (h : Bound k s₀ s) (q : RelPath) : Bound k s₀ (s.abandonSuperseded q) := by
  obtain ⟨as, fs, he⟩ := s.abandonSuperseded_only q
  have hf := s.abandonSuperseded_fewer q
  rw [he] at hf ⊢
  exact h.fewer fun r a hr => hf r a hr

omit [Platform] in
theorem requestNextBatch_bound (q : RelPath) (s : Session) :
    Upholds (Bound k s₀) (requestNextBatch q) s := by
  refine .assuming fun h => .get ?_
  split
  · exact .pure _ s
  next a ha =>
    refine .ite (.pure _ s) (Upholds.bind (.set fun _ => ?_) fun _ s' =>
      send_bound (.chunkRequest _) trivial s')
    refine h.assemble ?_
    exact h.assembling q a ha

/-- What is about to be absorbed is let in, and about a path that was to be expected. -/
def ArrivesLetIn (cfg : Config) (A : RelPath → Prop) (r : Arrived) : Prop :=
  ∀ e ∈ r, cfg.letsIn e.1.path ∧ A e.1.path

omit [Platform] in
theorem arrives_none (cfg : Config) (A : RelPath → Prop) : ArrivesLetIn cfg A none :=
  fun _ h => by cases h

omit [Platform] in
theorem arrives_some {c : RemoteChange} (hc : cfg.letsIn c.path) (ha : A c.path)
    (bytes : Option Bytes) : ArrivesLetIn cfg A (some (c, bytes)) := by
  rintro _ ⟨⟩
  exact ⟨hc, ha⟩

variable {A : RelPath → Prop}

theorem arriveChange_bound {c : RemoteChange} (ha : A c.path) (bytes : Option Bytes)
    (s : Session) : Ensures (Bound k s₀) (ArrivesLetIn k.cfg A) (arriveChange c bytes) s := by
  refine .assuming fun h => .get <| .ite (fun hcross => ?_) fun _ => .pure (arrives_none _ _) s
  have hin := letsIn_of_crossing h.config hcross
  have hp := k.in_about hin
  refine .bind (caseCollisionRefused_bound hp bytes s) fun r s' => ?_
  refine .ite (fun _ => .pure (arrives_none _ _) s') fun _ => ?_
  refine .bind (flushQueuedSend_bound c.path s') fun _ s' => ?_
  refine .bind (flushPendingInstallFor_bound c.path s') fun _ s' => ?_
  refine .bind (.modify fun h => h.superseded c.path) fun _ s' => ?_
  refine .bind (reconcileUnobservedLocal_bound hp s') fun _ s' => ?_
  exact .pure (arrives_some hin ha bytes) s'

theorem arriveAssembled_bound {q : RelPath}
    (ha : ∀ a, s.assemblies[q]? = some a → A a.change.path) :
    Ensures (Bound k s₀) (ArrivesLetIn k.cfg A) (arriveAssembled q) s := by
  refine .assuming fun h => .get ?_
  split
  · exact .pure (arrives_none _ _) s
  next a hq =>
    have hin := h.assembling q a hq
    have hp := k.in_about hin
    refine .bind (.set fun _ => h.fewer fun r b hr => ?_) fun _ s' => ?_
    · simp only [Std.ExtTreeMap.getElem?_erase] at hr
      split at hr
      · cases hr
      · exact hr
    · split
      · exact .bind (bound_modify rfl) fun _ s' => .pure (arrives_none _ _) s'
      · refine .bind (flushPendingInstallFor_bound _ s') fun _ s' => ?_
        refine .bind (caseCollisionRefused_bound hp _ s') fun r s' => ?_
        refine .ite (fun _ => .pure (arrives_none _ _) s') fun _ => ?_
        refine .bind (reconcileUnobservedLocal_bound hp s') fun _ s' => ?_
        exact .pure (arrives_some hin (ha a hq) _) s'

theorem arriveAdvanced_bound {q : RelPath}
    (ha : ∀ a, s.assemblies[q]? = some a → A a.change.path) :
    Ensures (Bound k s₀) (ArrivesLetIn k.cfg A) (arriveAdvanced q) s := by
  have hnext (s' : Session) : Ensures (Bound k s₀) (ArrivesLetIn k.cfg A) (do
      requestNextBatch q
      pure none : SessionM Arrived) s' :=
    .bind (requestNextBatch_bound q s') fun _ s' => .pure (arrives_none _ _) s'
  apply Ensures.get
  split
  · exact .ite (fun _ => arriveAssembled_bound ha) fun _ => hnext s
  · exact hnext s

omit [Platform] in
theorem aimed_insert {assemblies : Std.ExtTreeMap RelPath Assembly} {q : RelPath} {b : Assembly}
    (hb : A b.change.path) (a : Assembly) (h : (assemblies.insert q b)[q]? = some a) :
    A a.change.path := by
  rw [Std.ExtTreeMap.getElem?_insert_self] at h
  cases h
  exact hb

theorem arriveManifest_bound {c : RemoteChange} (ha : A c.path) (total : Nat)
    (manifest : List ContentHash) (s : Session) :
    Ensures (Bound k s₀) (ArrivesLetIn k.cfg A) (arriveManifest c total manifest) s := by
  refine .assuming fun h => .get <| .ite (fun hcross => ?_) fun _ => .pure (arrives_none _ _) s
  have hin := letsIn_of_crossing h.config hcross
  refine .bind (flushQueuedSend_bound c.path s) fun _ s' => ?_
  split
  · exact .pure (arrives_none _ _) s'
  · refine .bind (.modify fun h => h.superseded c.path) fun _ s' => ?_
    refine .bind_exec (.modify fun h => h.assemble hin) fun _ s'' hx => ?_
    cases hx
    exact arriveAdvanced_bound (aimed_insert ha)

theorem arriveChunk_bound {hash : ContentHash} (ha : ∀ (q : RelPath) (a : Assembly),
      s.assemblies[q]? = some a → hash ∈ a.manifest → A a.change.path) (bytes : Bytes) :
    Ensures (Bound k s₀) (ArrivesLetIn k.cfg A)
      (arriveChunk s.assemblies.toList hash bytes) s := by
  refine .assuming fun h => .get ?_
  split
  · exact .pure (arrives_none _ _) s
  next q a hq =>
    have hget : s.assemblies[q]? = some a :=
      Std.ExtTreeMap.mem_toList_iff_getElem?_eq_some.1 (List.mem_of_find?_eq_some hq)
    have hin := h.assembling q a hget
    have htaken := List.find?_some hq
    simp only [Bool.and_eq_true, decide_eq_true_eq] at htaken
    refine .ite (fun _ => ?_) fun _ => .ite (fun _ => ?_) fun _ => ?_
    · refine .bind (.set fun _ => h.assemble ?_) fun _ s' => ?_
      · exact hin
      · exact .bind (requestNextBatch_bound q s') fun _ s' => .pure (arrives_none _ _) s'
    · refine .bind (.set fun _ => ?_) fun _ s' =>
        .bind (bound_modify rfl) fun _ s' => .pure (arrives_none _ _) s'
      have hf := (s.tornChunk hash).abandonAssembly_fewer q
      obtain ⟨as, fs, he⟩ := (s.tornChunk hash).abandonAssembly_only q
      rw [he] at hf ⊢
      exact h.fewer fun r b hr => (hf r b hr).1
    · refine .bind_exec (.set fun _ => h.assemble ?_) fun _ s' hx => ?_
      · exact hin
      · cases hx
        exact arriveAdvanced_bound (aimed_insert (ha q a hget htaken.2))

omit [Platform] in
theorem pruneEmptyParents_fileAt {t : Tree} {root : List Name} (comps : List Name) (n : Nat)
    (q : List Name) : (pruneEmptyParents root comps t n).fileAt q = t.fileAt q := by
  induction n generalizing t with
  | zero => rfl
  | succ n ih =>
    rw [pruneEmptyParents]
    split
    next u h => exact ih.trans (FileTree.rmdir_fileAt h q)
    next => rfl

omit [Platform] in
/-- A removal removes the file at its own path at most. -/
theorem applyAbsent_fileAt {t u : Tree} {root : List Name} (hr : t.get root = some .dir)
    (h : applyAbsent t root p = .ok u) (hq : join root p ≠ q) : u.fileAt q = t.fileAt q := by
  rw [applyAbsent] at h
  split at h
  · cases h
  next hc =>
    split at h
    next v hv =>
      cases h
      obtain ⟨x, _, hl, _, _, hget⟩ := FileTree.unlink_spec hv
      rw [FileTree.locate_unlinked hr (checkParents_unlinked hr hc) hl] at hget
      have hpoke : FileTree.Pokes (join root p) none t v := hget
      exact (pruneEmptyParents_fileAt _ _ q).trans (hpoke.fileAt hq)
    · cases h
      exact pruneEmptyParents_fileAt _ _ q
    · cases h

/-- Staging a file makes directories, and changes no file. -/
theorem stagePresent_fileAt (t : Tree) (root : List Name) (full : Bool) (wallMs : Nat)
    (dirs : List (List Name)) (sig : ContentSig) (bytes : Bytes) (q : List Name) :
    (stagePresent t root full wallMs dirs p sig bytes).tree.fileAt q = t.fileAt q := by
  have hw (v : Tree) (d : List (List Name)) :
      (if full = true then ⟨v, d, .error (.io .writeStaging (join root p) .nospc)⟩
        else ⟨v, d, .ok ⟨bytes, execMode sig.exec, wallMs⟩⟩ : Staging).tree = v := by
    split <;> rfl
  unfold stagePresent
  split
  · rfl
  · split
    · rfl
    · dsimp only
      split
      · rw [hw]
      · split
        next v hv =>
          rw [hw]
          exact FileTree.createDirAll_fileAt hv q
        next => rfl

omit [Platform] in
/-- Over another tree, with other files staged, a session stays within a remit that does not look
at the tree. -/
theorem Bound.over (h : Bound k s₀ s) (hg : ∀ t, k.ground t) {tree : Tree}
    {pendingInstalls : List PendingInstall} {createdDirs : List (List Name)}
    (ha : Anchored { s with tree, pendingInstalls, createdDirs })
    (hs : ∀ i ∈ pendingInstalls, k.cfg.letsIn i.path)
    (hf : ∀ p, ¬k.cfg.letsIn p → tree.fileAt (join k.root p) = s.tree.fileAt (join k.root p)) :
    Bound k s₀ { s with tree, pendingInstalls, createdDirs } :=
  { h with
    anchored := ha
    ground := hg tree
    staged := hs
    files := fun p hp => (hf p hp).trans (h.files p hp) }

omit [Platform] in
theorem applyAbsentGuarded_bound (hg : ∀ t, k.ground t) (hp : k.cfg.letsIn p) (s : Session) :
    Upholds (Bound k s₀) (applyAbsentGuarded p) s := by
  refine (flushPendingInstallFor_bound p s).bind fun _ s' => ?_
  refine Upholds.bind (bound_modify rfl) fun _ s' => .assuming fun h => .get ?_
  refine .ite (bound_set rfl) ?_
  split
  next tree ht =>
    refine .set fun _ => h.over hg ⟨?_, fun i hi => ?_⟩ h.staged fun q hq => ?_
    · exact (applyAbsent_confined h.anchored.root_dir (.outside _ _) ht).root_dir
        h.anchored.root_dir
    · obtain ⟨hfinal, hu⟩ := h.anchored.guarded i hi
      exact ⟨hfinal, (applyAbsent_confined h.anchored.root_dir (.outside _ _) ht).unlinked hu⟩
    · rw [← h.root]
      refine applyAbsent_fileAt h.anchored.root_dir ht fun he => hq ?_
      rw [← RelPath.components_injective (List.append_cancel_left he)]
      exact hp
  · exact bound_modify rfl
  · exact .throw _ s'

theorem writePresent_bound (hg : ∀ t, k.ground t) (hp : k.cfg.letsIn p) (sig : ContentSig)
    (bytes : Bytes) (s : Session) : Upholds (Bound k s₀) (writePresent p sig bytes) s := by
  refine (flushPendingInstallFor_bound p s).bind fun _ s' => .assuming fun h => .get ?_
  obtain ⟨hc, hu⟩ := stagePresent_confined h.anchored.root_dir
    (.outside s'.root p.components) s'.diskFull s'.wallMs s'.createdDirs sig bytes
  have hanchored : Anchored { s' with
      tree := (stagePresent s'.tree s'.root s'.diskFull s'.wallMs s'.createdDirs p sig bytes).tree
      createdDirs := (stagePresent s'.tree s'.root s'.diskFull s'.wallMs s'.createdDirs p sig
        bytes).createdDirs } :=
    ⟨hc.root_dir h.anchored.root_dir, fun i hi =>
      ⟨(h.anchored.guarded i hi).1, hc.unlinked (h.anchored.guarded i hi).2⟩⟩
  have hover := h.over hg hanchored h.staged fun q _ => stagePresent_fileAt _ _ _ _ _ _ _ _
  refine Upholds.bind_exec (.set fun _ => hover) fun _ s'' hx => ?_
  cases hx
  split
  next temp hr =>
    refine .modify fun h' => h'.over hg ⟨h'.anchored.root_dir, fun i hi => ?_⟩ (fun i hi => ?_)
      fun _ _ => rfl
    · rcases List.mem_append.1 hi with hi | hi
      · exact h'.anchored.guarded i hi
      · cases List.mem_singleton.1 hi
        exact ⟨rfl, hc.unlinked (hu temp hr)⟩
    · rcases List.mem_append.1 hi with hi | hi
      · exact h'.staged i hi
      · cases List.mem_singleton.1 hi
        exact hp
  · exact bound_modify rfl
  · exact bound_modify rfl
  · exact .throw _ _

/-- A file that the disk shows already has its mode set, and that is all: only a link can make it
another file than the path's. -/
theorem materialize_bound (hg : ∀ t, k.ground t) (hp : k.cfg.letsIn p)
    (hl : ¬Strays k.cfg k.root s.tree p) (sig : ContentSig) (bytes : Option Bytes) :
    Upholds (Bound k s₀) (materialize p sig bytes) s := by
  by_cases hskip : s.Skips p sig bytes
  · constructor
    intro h
    obtain ⟨q, b, m, t, hq, hfile⟩ := locate_readVerified hskip.2
    obtain ⟨u, hu, hget⟩ := setExecMode_spec hq hfile sig.exec
    rw [materialize_skips hskip, hu]
    have hpoke : FileTree.Pokes q (some (.file b (execMode sig.exec) t)) s.tree u := hget
    have hover := @Bound.over _ _ _ h hg u _ s.createdDirs (h.anchored.chmod hfile hget) h.staged
    refine hover ?_
    intro r hr
    apply hpoke.fileAt
    rintro rfl
    rw [h.root] at hq
    exact hl ⟨r, hr, FileTree.isFile_iff.2 ⟨b, m, t, hfile⟩, hq⟩
  · cases hf : bytes.filter fun b => matchesSig b sig with
    | some content =>
      have he : (materialize p sig bytes).exec s = (writePresent p sig content).exec s := by
        simp only [materialize, exec_get_bind, hf]
        rfl
      constructor
      rw [he]
      exact (writePresent_bound hg hp sig content s).after
    | none =>
      have hr : (readVerified s.tree s.root p sig).isSome = false := by
        rw [← Bool.not_eq_true]
        exact fun hr => hskip ⟨hf, hr⟩
      refine .get ?_
      simp only [hf, hr]
      refine Upholds.bind ?_ fun cas s' => ?_
      · exact (liftHistory_books _ s).bound (liftHistory_inward _ s) (liftHistory_upholds _ s)
      · cases cas with
        | none => exact bound_modify rfl
        | some content => exact writePresent_bound hg hp sig content s'

/-- Applying a change to a path that is let in, probed and reached without a link. -/
theorem doApply_bound (hg : ∀ t, k.ground t) (hp : k.cfg.letsIn p)
    (hl : ¬Strays k.cfg k.root s.tree p) (hprobe : snapshot s.tree s.root p = .ok o)
    (target : Expectation) (bytes : Option Bytes) :
    Upholds (Bound k s₀) (doApply p target bytes) s := by
  cases target with
  | absent => exact applyAbsentGuarded_bound hg hp s
  | present sig =>
    cases hd : pathIsDir s.tree (join s.root p) with
    | false =>
      constructor
      have hx : (doApply p (.present sig) bytes).exec s = (materialize p sig bytes).exec s :=
        applyPresentBySig_file hprobe hd
      rw [hx]
      exact (materialize_bound hg hp hl sig bytes).after
    | true =>
      have hc : typeCollision s.tree s.root p.components = some .targetIsDir := by
        rw [typeCollision]
        exact if_pos hd
      have hskip : Upholds (Bound k s₀) (do
          preserveIncomingFile p sig bytes
          modify fun s => { s with rescanPending := true } : SessionM Unit) s :=
        (preserveIncomingFile_bound (k.in_about hp) sig bytes s).bind fun _ s' => bound_modify rfl
      have he : (doApply p (.present sig) bytes).exec s = Eff.exec (do
          preserveIncomingFile p sig bytes
          modify fun s => { s with rescanPending := true } : SessionM Unit) s := by
        simp only [doApply, applyPresentBySig, preparePresentTarget, bind_assoc, exec_get_bind, hc,
          pure_bind]
        rfl
      constructor
      rw [he]
      exact hskip.after

end

end Session

end Tomo
