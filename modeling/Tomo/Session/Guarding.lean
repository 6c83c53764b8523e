import Tomo.Session.Abiding
import Tomo.Session.Isolation

namespace Tomo
set_option autoImplicit true

namespace Session
open Eff

/-- A path leads through a link to the file of another one. -/
def Leads (t : Tree) (root : List Name) (p q : RelPath) : Prop :=
  t.isFile (join root q) = true ∧ t.locate true (join root p) = .ok (join root q)

/-- The change that a frame may bring to its path. -/
def brings (s : Session) : Message → Option RemoteChange
  | .change c _ | .changeManifest c _ _ => some c
  | .chunkData hash _ => (chunkTaker s.assemblies.toList hash).map fun e => e.2.change
  | .hello .. | .indexExchange _ | .chunkRequest _ | .ping _ | .pong _ | .pause | .resume => none

/-- What is done for `p` has left the file of `q` as it was, and goes on so. -/
structure FileKept (p q : RelPath) (s₀ s : Session) : Prop extends Anchored s where
  root : s.root = s₀.root
  file : s.tree.fileAt (join s₀.root q) = s₀.tree.fileAt (join s₀.root q)
  staged : ∀ i ∈ s.pendingInstalls, i.path ≠ q
  straight : p ≠ q → ¬Leads s.tree s₀.root p q

variable {s₀ s s' : Session} {p q r : RelPath} {x : SessionM α}

theorem FileKept.refl (ha : s.Anchored) (hn : ∀ i ∈ s.pendingInstalls, i.path ≠ q)
    (hl : p ≠ q → ¬Leads s.tree s.root p q) : FileKept p q s s :=
  ⟨ha, rfl, rfl, hn, hl⟩

/-- Over the same disk it takes only that nothing new is staged. -/
theorem FileKept.fewer (h : FileKept p q s₀ s) (hr : s'.root = s.root) (ht : s'.tree = s.tree)
    (hp : s'.pendingInstalls ⊆ s.pendingInstalls) : FileKept p q s₀ s' where
  root_dir := by
    rw [hr, ht]
    exact h.root_dir
  guarded i hi := by
    rw [hr, ht]
    exact h.guarded i (hp hi)
  root := hr.trans h.root
  file := by
    rw [ht]
    exact h.file
  staged i hi := h.staged i (hp hi)
  straight hne := by
    rw [ht]
    exact h.straight hne

theorem FileKept.of_stake (h : FileKept p q s₀ s) (hs : s'.stake = s.stake) :
    FileKept p q s₀ s' := by
  have hr : s'.root = s.root := eq_of_view stake Session.root (fun _ => rfl) hs
  have ht : s'.tree = s.tree := eq_of_view stake Session.tree (fun _ => rfl) hs
  have hp : s'.pendingInstalls = s.pendingInstalls :=
    eq_of_view stake Session.pendingInstalls (fun _ => rfl) hs
  apply h.fewer hr ht
  rw [hp]
  exact List.Subset.refl _

theorem FileKept.of_core (h : FileKept p q s₀ s) (hs : s'.core = s.core) : FileKept p q s₀ s' := by
  have hr : s'.root = s.root := eq_of_view core Session.root (fun _ => rfl) hs
  have ht : s'.tree = s.tree := eq_of_view core Session.tree (fun _ => rfl) hs
  have hp : s'.pendingInstalls = s.pendingInstalls :=
    eq_of_view core Session.pendingInstalls (fun _ => rfl) hs
  apply h.fewer hr ht
  rw [hp]
  exact List.Subset.refl _

theorem Books.keepsFile (hx : Books x s) : Upholds (FileKept p q s₀) x s :=
  ⟨fun h => h.of_core hx.core⟩

/-- Renaming staged files into place leaves the file of a path that none is staged for. -/
theorem installAll_keepsFile {t : Tree} {root : List Name} {l : List PendingInstall}
    (hr : t.get root = some .dir)
    (hl : ∀ i ∈ l, i.finalPath = join root i.path ∧ t.Unlinked root i.path.components)
    (hq : ∀ i ∈ l, i.path ≠ q) :
    (installAll t l).1.fileAt (join root q) = t.fileAt (join root q) ∧
      (Leads (installAll t l).1 root p q → Leads t root p q) := by
  induction l generalizing t with
  | nil => exact ⟨rfl, id⟩
  | cons i rest ih =>
    rw [installAll]
    cases htemp : i.temp with
    | none => exact ⟨rfl, id⟩
    | some staged =>
      dsimp only
      obtain ⟨hf, hu⟩ := hl i List.mem_cons_self
      cases hi : t.install i.finalPath staged.node with
      | error e => exact ⟨rfl, id⟩
      | ok u =>
        rw [hf] at hi
        obtain ⟨x, hx, _, hget⟩ := FileTree.install_spec hi
        rw [join] at hx
        rw [FileTree.locate_unlinked hr hu hx] at hget
        have hpoke : FileTree.Pokes (join root i.path) (some staged.node) t u := hget
        have hne : join root i.path ≠ join root q := by
          intro he
          apply hq i List.mem_cons_self
          exact RelPath.components_injective (List.append_cancel_left he)
        have hc := FileTree.install_confined hr hu i.path.components_ne_nil
          (.outside root _) (fun l h => by cases h) hi
        obtain ⟨hfile, hleads⟩ := ih (hc.root_dir hr) (fun j hj =>
          ⟨(hl j (List.mem_cons_of_mem i hj)).1, hc.unlinked (hl j (List.mem_cons_of_mem i hj)).2⟩)
          (fun j hj => hq j (List.mem_cons_of_mem i hj))
        refine ⟨hfile.trans (hpoke.fileAt hne), ?_⟩
        intro h
        obtain ⟨hisfile, hloc⟩ := hleads h
        refine ⟨?_, FileTree.locate_poked hpoke hne hloc⟩
        rw [FileTree.isFile_iff] at hisfile ⊢
        rwa [hpoke, if_neg hne] at hisfile

theorem flushInstalls_keepsFile (s : Session) : Upholds (FileKept p q s₀) flushInstalls s := by
  constructor
  intro h
  obtain ⟨hfile, hleads⟩ := installAll_keepsFile (p := p) h.root_dir h.guarded h.staged
  have hstays : Stays (fun x => ¬s.root <+: x) flushInstalls s :=
    flushInstalls_stays h.toAnchored.reaches
  obtain ⟨_, hm⟩ := installAll_confined (S := fun x => ¬s.root <+: x) h.root_dir h.guarded
    fun _ _ => .outside _ _
  have hanchored := hstays.reaches.toAnchored
  have hroot := hstays.root
  simp only [flushInstalls, exec_get_bind] at hanchored hroot ⊢
  rcases hi : installAll s.tree s.pendingInstalls with ⟨tree, pending, err⟩
  rw [hi] at hfile hleads hm hanchored hroot
  rw [h.root] at hfile hleads
  cases err with
  | some e =>
    refine ⟨hanchored, h.root, hfile.trans h.file, ?_, fun hne hl => h.straight hne (hleads hl)⟩
    intro i hi
    obtain ⟨j, hj, _, hpath⟩ := hm i hi
    rw [hpath]
    exact h.staged j hj
  | none =>
    refine ⟨hanchored, h.root, hfile.trans h.file, ?_, fun hne hl => h.straight hne (hleads hl)⟩
    intro i hi
    cases hi

theorem flushPendingInstallFor_keepsFile (r : RelPath) (s : Session) :
    Upholds (FileKept p q s₀) (flushPendingInstallFor r) s :=
  .get <| .ite (flushInstalls_keepsFile s) (.pure _ s)

theorem FileKept.unstage (h : FileKept p q s₀ s) :
    FileKept p q s₀ { s with pendingInstalls := [] } := h.fewer rfl rfl (List.nil_subset _)

theorem fileKept_tended [Platform] : Tended (fun _ => True) (FileKept p q s₀) where
  indifferent h hs _ := h.of_stake hs
  quit h := h.fewer rfl rfl (List.nil_subset _)
  hangUp h _ := h.of_stake rfl
  speak h _ := h.of_stake rfl
  serve h _ := h.of_stake rfl
  bulk := shipBulkSubbatch_upholds (fun h hs _ => h.of_stake hs) fun {s} h =>
    (goOffline_stake s).elim h.of_stake h.unstage.of_stake
  flush := flushInstalls_keepsFile
  store _ _ _ _ _ _ := (storeVersion_books ..).keepsFile
  note _ _ _ _ _ _ := (noteVersion_files ..).books.keepsFile
  conflict _ s := (recordConflictCapture_books _ s).keepsFile
  pump s := (pumpHistory_books s).keepsFile
  drain s := (drainHistory_books s).keepsFile

theorem FileKept.weaken (h : FileKept p q s₀ s) : FileKept q q s₀ s :=
  { h with straight := fun hne => absurd rfl hne }

/-- Over another tree, with other files staged. -/
theorem FileKept.over (h : FileKept q q s₀ s) {tree : Tree} {pendingInstalls : List PendingInstall}
    {createdDirs : List (List Name)}
    (ha : Anchored { s with tree, pendingInstalls, createdDirs })
    (hn : ∀ i ∈ pendingInstalls, i.path ≠ q)
    (hf : tree.fileAt (join s.root q) = s.tree.fileAt (join s.root q)) :
    FileKept q q s₀ { s with tree, pendingInstalls, createdDirs } where
  toAnchored := ha
  root := h.root
  file := by
    rw [h.root] at hf
    exact hf.trans h.file
  staged := hn
  straight hne := absurd rfl hne

theorem join_ne {root : List Name} (h : r ≠ q) : join root r ≠ join root q :=
  fun he => h (RelPath.components_injective (List.append_cancel_left he))

theorem applyAbsentGuarded_keepsFile (hr : r ≠ q) (s : Session) :
    Upholds (FileKept q q s₀) (applyAbsentGuarded r) s := by
  refine (flushPendingInstallFor_keepsFile r s).bind fun _ s' => ?_
  refine Upholds.bind (.modify fun h => h.of_stake rfl) fun _ s' => .assuming fun h => .get ?_
  refine .ite (.set fun h => h.of_stake rfl) ?_
  split
  next tree ht =>
    have hc := applyAbsent_confined (S := fun x => ¬s'.root <+: x) h.root_dir (.outside _ _) ht
    refine .set fun _ => h.over ⟨hc.root_dir h.root_dir, ?_⟩ h.staged ?_
    · intro i hi
      obtain ⟨hfinal, hu⟩ := h.guarded i hi
      exact ⟨hfinal, hc.unlinked hu⟩
    · exact applyAbsent_fileAt h.root_dir ht (join_ne hr)
  · exact .modify fun h => h.of_stake rfl
  · exact .throw _ s'

section
variable [Platform]

theorem writePresent_keepsFile (hr : r ≠ q) (sig : ContentSig) (bytes : Bytes) (s : Session) :
    Upholds (FileKept q q s₀) (writePresent r sig bytes) s := by
  refine (flushPendingInstallFor_keepsFile r s).bind fun _ s' => .assuming fun h => .get ?_
  obtain ⟨hc, hu⟩ := stagePresent_confined h.root_dir (.outside s'.root r.components) s'.diskFull
    s'.wallMs s'.createdDirs sig bytes
  have hanchored : Anchored { s' with
      tree := (stagePresent s'.tree s'.root s'.diskFull s'.wallMs s'.createdDirs r sig bytes).tree
      createdDirs := (stagePresent s'.tree s'.root s'.diskFull s'.wallMs s'.createdDirs r sig
        bytes).createdDirs } :=
    ⟨hc.root_dir h.root_dir, fun i hi => ⟨(h.guarded i hi).1, hc.unlinked (h.guarded i hi).2⟩⟩
  have hover := h.over hanchored h.staged (stagePresent_fileAt _ _ _ _ _ _ _ _)
  refine Upholds.bind_exec (.set fun _ => hover) fun _ s'' hx => ?_
  cases hx
  split
  next temp ht =>
    refine .modify fun h' => h'.over ⟨h'.root_dir, fun i hi => ?_⟩ (fun i hi => ?_) rfl
    · rcases List.mem_append.1 hi with hi | hi
      · exact h'.guarded i hi
      · cases List.mem_singleton.1 hi
        exact ⟨rfl, hc.unlinked (hu temp ht)⟩
    · rcases List.mem_append.1 hi with hi | hi
      · exact h'.staged i hi
      · cases List.mem_singleton.1 hi
        exact hr
  · exact .modify fun h => h.of_stake rfl
  · exact .modify fun h => h.of_stake rfl
  · exact .throw _ _

/-- A file that the disk shows already has its mode set, and only a link can make it that of
another path. -/
theorem materialize_keepsFile (hr : r ≠ q) (hl : ¬Leads s.tree s.root r q) (sig : ContentSig)
    (bytes : Option Bytes) : Upholds (FileKept q q s₀) (materialize r sig bytes) s := by
  by_cases hskip : s.Skips r sig bytes
  · constructor
    intro h
    obtain ⟨x, b, m, k, hx, hfile⟩ := locate_readVerified hskip.2
    obtain ⟨u, hu, hget⟩ := setExecMode_spec hx hfile sig.exec
    rw [materialize_skips hskip, hu]
    have hpoke : FileTree.Pokes x (some (.file b (execMode sig.exec) k)) s.tree u := hget
    refine @FileKept.over _ _ _ h u _ s.createdDirs (h.toAnchored.chmod hfile hget) h.staged ?_
    apply hpoke.fileAt
    rintro rfl
    exact hl ⟨FileTree.isFile_iff.2 ⟨b, m, k, hfile⟩, hx⟩
  · cases hf : bytes.filter fun b => matchesSig b sig with
    | some content =>
      have he : (materialize r sig bytes).exec s = (writePresent r sig content).exec s := by
        simp only [materialize, exec_get_bind, hf]
        rfl
      constructor
      rw [he]
      exact (writePresent_keepsFile hr sig content s).after
    | none =>
      have hread : (readVerified s.tree s.root r sig).isSome = false := by
        rw [← Bool.not_eq_true]
        exact fun hread => hskip ⟨hf, hread⟩
      refine .get ?_
      simp only [hf, hread]
      refine Upholds.bind (liftHistory_books _ s).keepsFile fun cas s' => ?_
      cases cas with
      | none => exact .modify fun h => h.of_stake rfl
      | some content => exact writePresent_keepsFile hr sig content s'

/-- Applying a change to a path that was probed and does not lead to the other one's file. -/
theorem doApply_keepsFile (hr : r ≠ q) (hl : ¬Leads s.tree s.root r q)
    (hprobe : snapshot s.tree s.root r = .ok o) (target : Expectation) (bytes : Option Bytes) :
    Upholds (FileKept q q s₀) (doApply r target bytes) s := by
  cases target with
  | absent => exact applyAbsentGuarded_keepsFile hr s
  | present sig =>
    rcases preparePresentTarget_spec sig bytes hprobe with ⟨_, hb, hne⟩ | ⟨hdir, _⟩
    · refine Upholds.bind_exec hb.keepsFile fun ready s' he => ?_
      cases ready with
      | true =>
        rw [he] at hne
        exact absurd rfl hne
      | false => exact .pure _ s'
    · constructor
      have hx : (doApply r (.present sig) bytes).exec s = (materialize r sig bytes).exec s :=
        applyPresentBySig_file hprobe hdir
      rw [hx]
      exact (materialize_keepsFile hr hl sig bytes).after

/-- What a frame leads to before it is absorbed leaves the other path's file. -/
theorem arrive_keepsFile {msg : Message} (hb : s.brings msg = some c) (h : FileKept p q s₀ s) :
    FileKept p q s₀ ((arrive msg).exec s).2 := by
  have hpause : msg.aboutPause = true → Upholds (Steady s.config (fun _ => True) (FileKept p q s₀))
      (onMessage msg) s := by
    intro hp
    cases msg with
    | hello | pause | resume => cases hb
    | indexExchange | change | changeManifest | chunkRequest | chunkData | ping | pong => cases hp
  have hadmitted : msg.Admitted s.config fun _ => True := by
    cases msg with
    | change | changeManifest => exact fun _ _ _ => trivial
    | hello | indexExchange | chunkRequest | chunkData | ping | pong | pause | resume =>
      exact trivial
  have hsteady : Steady s.config (fun _ => True) (FileKept p q s₀) s :=
    ⟨h, rfl, fun _ _ _ _ _ => trivial⟩
  exact ((fileKept_tended.arrive hadmitted hpause).after hsteady).1.holds

/-- Absorbing a change leaves the file of a path that it is not about and does not lead to. -/
theorem absorbAndExecute_keepsFile (h : FileKept c.path q s₀ s) (hne : c.path ≠ q)
    (hprobe : snapshot s.tree s.root c.path = .ok o) (bytes : Option Bytes) :
    FileKept q q s₀ ((absorbAndExecute c bytes).exec s).2 := by
  have hl : ¬Leads (s.absorbed c).tree (s.absorbed c).root c.path q := by
    have hstraight := h.straight hne
    rw [← h.root] at hstraight
    exact hstraight
  have hsteady : Steady s.config (fun _ => True) (FileKept q q s₀) s :=
    ⟨h.weaken, rfl, fun _ _ _ _ _ => trivial⟩
  have happly (target : Expectation) : Upholds (FileKept q q s₀) (doApply c.path target bytes)
      (s.absorbed c) := doApply_keepsFile hne hl hprobe target bytes
  exact ((fileKept_tended.absorbAndExecute (fun _ _ => trivial) bytes s happly).after hsteady).holds

end

/-- The guard against collisions lets a change pass. -/
def Passes [Platform] (s : Session) (c : RemoteChange) : Prop :=
  ∀ sig, c.kind = .modified sig → s.collidesWithExisting c.path = false

/-- What is about to be absorbed is the change that the frame brings, and the guard let it pass. -/
def Brings [Platform] (s₀ : Session) (c : RemoteChange) (x : SessionM Arrived) (s : Session) :
    Prop :=
  ∀ e s', x.exec s = (.ok (some e), s') → e.1 = c ∧ s₀.Passes c

section
variable [Platform] {c : RemoteChange}

namespace Brings
variable {x : SessionM α} {f : α → SessionM Arrived}

theorem none (s : Session) : Brings s₀ c (pure .none) s := fun _ _ h => by cases h

theorem pure (hp : s₀.Passes c) (bytes : Option Bytes) (s : Session) :
    Brings s₀ c (pure (some (c, bytes))) s := by
  intro e s' h
  cases h
  exact ⟨rfl, hp⟩

theorem get {f : Session → SessionM Arrived} (h : Brings s₀ c (f s) s) :
    Brings s₀ c (get >>= f) s := h

theorem bind_exec (hf : ∀ a s', x.exec s = (.ok a, s') → Brings s₀ c (f a) s') :
    Brings s₀ c (x >>= f) s := by
  intro e s' h
  obtain ⟨a, u, hx, hu⟩ := ok_of_bind h
  exact hf a u hx e s' hu

theorem bind (hf : ∀ a s', Brings s₀ c (f a) s') : Brings s₀ c (x >>= f) s :=
  bind_exec fun a s' _ => hf a s'

theorem ite {b : Prop} [Decidable b] {x y : SessionM Arrived} (hx : b → Brings s₀ c x s)
    (hy : ¬b → Brings s₀ c y s) : Brings s₀ c (if b then x else y) s := by
  split
  next hb => exact hx hb
  next hb => exact hy hb

end Brings

/-- Looking for a collision is looking at the index. -/
theorem passes_beside (p : RelPath) : Beside fun s : Session => s.collidesWithExisting p where
  core {s s'} h := by
    have hf : s'.fs = s.fs := eq_of_view core Session.fs (fun _ => rfl) h
    have he : s'.engine = s.engine := eq_of_view core Session.engine (fun _ => rfl) h
    rw [collidesWithExisting, collidesWithExisting, hf, he]
  offline s := by
    rcases s.goOffline_only with h | ⟨f, h⟩ <;> rw [h]
    rfl

theorem Beside.flushQueuedSend {g : Session → γ} (hg : Beside g) (p : RelPath) (s : Session) :
    Leaves g (flushQueuedSend p) s := by
  apply Leaves.get
  split
  · exact .pure _ _ s
  · exact Leaves.bind (.set (hg.core rfl)) fun _ s' _ => hg.doSend _ s'

theorem flushPendingInstallFor_passes (p r : RelPath) (s : Session) :
    Leaves (fun s => s.collidesWithExisting p) (flushPendingInstallFor r) s := by
  have hl := (flushPendingInstallFor_works r s).leaves
  have hf : ((flushPendingInstallFor r).exec s).2.frame.fs = s.frame.fs := by rw [hl]
  have he : ((flushPendingInstallFor r).exec s).2.frame.engine = s.frame.engine := by rw [hl]
  have hf' : ((flushPendingInstallFor r).exec s).2.fs = s.fs := hf
  have he' : ((flushPendingInstallFor r).exec s).2.engine = s.engine := he
  rw [Leaves, collidesWithExisting, collidesWithExisting, hf', he']

theorem caseCollisionRefused_passes {bytes : Option Bytes}
    (h : (caseCollisionRefused c bytes).exec s = (.ok false, s')) : s.Passes c := by
  intro sig hkind
  rw [← Bool.not_eq_true]
  intro hc
  simp only [caseCollisionRefused, exec_get_bind, hkind, hc, ↓reduceIte] at h
  obtain ⟨_, _, _, hpure⟩ := ok_of_bind h
  cases hpure

theorem arriveChange_brings (c : RemoteChange) (bytes : Option Bytes) (s : Session) :
    Brings s c (arriveChange c bytes) s := by
  refine .get <| .ite (fun _ => .bind_exec fun r s' hx => ?_) fun _ => .none s
  cases r with
  | true => exact .none s'
  | false =>
    have hp := caseCollisionRefused_passes hx
    exact .bind fun _ _ => .bind fun _ _ => .bind fun _ _ => .bind fun _ s' => .pure hp bytes s'

theorem arriveAssembled_brings (ha : ∀ a, s.assemblies[r]? = some a → a.change = c)
    (hs : s.collidesWithExisting c.path = s₀.collidesWithExisting c.path) :
    Brings s₀ c (arriveAssembled r) s := by
  apply Brings.get
  split
  · exact .none s
  next a hr =>
    have hc := ha a hr
    refine .bind_exec fun _ u hu => ?_
    cases hu
    split
    · exact .bind fun _ s' => .none s'
    · refine .bind_exec fun _ v hv => .bind_exec fun refused s' hx => ?_
      cases refused with
      | true => exact .none s'
      | false =>
        have hflush := flushPendingInstallFor_passes c.path a.change.path
          ({ s with assemblies := s.assemblies.erase r }.cleanAssemblyChunks a)
        rw [Leaves, hv] at hflush
        rw [hc] at hx ⊢
        have hp := caseCollisionRefused_passes hx
        refine .bind fun _ s' => .pure (fun sig hkind => ?_) _ s'
        rw [← hs, ← hp sig hkind]
        exact hflush.symm

theorem arriveAdvanced_brings (ha : ∀ a, s.assemblies[r]? = some a → a.change = c)
    (hs : s.collidesWithExisting c.path = s₀.collidesWithExisting c.path) :
    Brings s₀ c (arriveAdvanced r) s := by
  apply Brings.get
  split
  · exact .ite (fun _ => arriveAssembled_brings ha hs) fun _ => .bind fun _ s' => .none s'
  · exact .bind fun _ s' => .none s'

omit [Platform] in
theorem inserted_change {assemblies : Std.ExtTreeMap RelPath Assembly} {b : Assembly}
    (hb : b.change = c) (a : Assembly) (h : (assemblies.insert r b)[r]? = some a) :
    a.change = c := by
  rw [Std.ExtTreeMap.getElem?_insert_self] at h
  cases h
  exact hb

theorem arrive_brings {msg : Message} (hb : s.brings msg = some c) :
    Brings s c (arrive msg) s := by
  apply Brings.get
  cases s.paused with
  | true => exact .bind fun _ s' => .none s'
  | false =>
    cases msg with
    | change c' bytes =>
      cases hb
      exact arriveChange_brings c bytes s
    | changeManifest c' total manifest =>
      cases hb
      refine .get <| .ite (fun _ => .bind_exec fun _ u hu => ?_) fun _ => .none s
      have hqueued := (passes_beside c.path).flushQueuedSend c.path s
      rw [Leaves, hu] at hqueued
      split
      · exact .none u
      · refine .bind_exec fun _ v hv => .bind_exec fun _ w hw => ?_
        cases hv
        cases hw
        obtain ⟨as, fs, hsuperseded⟩ := u.abandonSuperseded_only c.path
        have hsame : (u.abandonSuperseded c.path).collidesWithExisting c.path =
            u.collidesWithExisting c.path := by
          rw [hsuperseded]
          rfl
        exact arriveAdvanced_brings (inserted_change rfl) (hsame.trans hqueued)
    | chunkData hash bytes =>
      rw [brings, Option.map_eq_some_iff] at hb
      obtain ⟨⟨r, a⟩, htaker, hc⟩ := hb
      apply Brings.get
      rw [htaker]
      dsimp only at hc ⊢
      refine .ite (fun _ => ?_) fun _ => .ite (fun _ => ?_) fun _ => ?_
      · exact .bind fun _ _ => .bind fun _ s' => .none s'
      · exact .bind fun _ _ => .bind fun _ s' => .none s'
      · refine .bind_exec fun _ s' hx => ?_
        cases hx
        exact arriveAdvanced_brings (inserted_change hc) rfl
    | hello | indexExchange | chunkRequest | ping | pong | pause | resume =>
      exact .bind fun _ s' => .none s'

/-- A frame leaves the file of every path that it is not about and does not lead to, and that of
its own when the guard stops it. -/
theorem onMessage_keepsFile {msg : Message} (hb : s.brings msg = some c) (h : FileKept c.path q s s)
    (hq : c.path = q → ¬s.Passes c) : FileKept q q s ((onMessage msg).exec s).2 := by
  have harrive := arrive_keepsFile hb h
  rw [onMessage_arrives, exec_bind]
  rcases hx : (arrive msg).exec s with ⟨r, u⟩
  rw [hx] at harrive
  cases r with
  | error e => exact harrive.weaken
  | ok arrived =>
    cases arrived with
    | none => exact harrive.weaken
    | some e =>
      obtain ⟨hc, hp⟩ := arrive_brings hb e u hx
      obtain ⟨o, hprobe⟩ := arrive_probes msg s e u hx
      obtain ⟨c', bytes⟩ := e
      cases hc
      exact absorbAndExecute_keepsFile harrive (fun he => hq he hp) hprobe bytes

/-- On a volume where the file of each path is found at its place, a frame and the barrier after it
leave the content, the mode and the time of the file of a path. -/
def KeepsFile (s : Session) (place : RelPath → RelPath) (msg : Message) (q : RelPath) : Prop :=
  (flushInstalls.exec ((onMessage msg).exec s).2).2.tree.fileAt (join s.root (place q)) =
    s.tree.fileAt (join s.root (place q))

instance (s : Session) (place : RelPath → RelPath) (msg : Message) (q : RelPath) :
    Decidable (s.KeepsFile place msg q) := inferInstanceAs (Decidable (_ = _))

/-- The guard stops a file whose path is another spelling of an indexed one. -/
theorem stopped_of_present {e : Entry} (hcase : s.fs.caseInsensitive = true) (hq : q ≠ c.path)
    (hget : s.engine.index.get q = some e) (he : e.winner.state = .present sig)
    (hkind : c.kind ≠ .removed)
    (hsame : Platform.lowercase c.path.raw = Platform.lowercase q.raw) : ¬s.Passes c := by
  intro hp
  have hcollides : s.collidesWithExisting c.path = true := by
    have hraw : c.path.raw ≠ q.raw := fun h => hq (RelPath.ext_raw h.symm)
    rw [collidesWithExisting, hcase, Bool.true_and, List.any_eq_true]
    refine ⟨(q, e), s.engine.index.mem_iter.2 hget, ?_⟩
    simp only [he, collides, hraw, hsame, ne_eq, not_false_eq_true, decide_true, Bool.and_self]
  cases hk : c.kind with
  | removed => exact hkind hk
  | modified sig =>
    rw [hp sig hk] at hcollides
    cases hcollides

/-- A frame spares every present path other than its own, but for one of the same place that the
guard does not see, and one whose file the frame's path leads to through a link. -/
theorem others_spared (place : RelPath → RelPath) {msg : Message} {c : RemoteChange} {q : RelPath}
    {e : Entry} (ha : s.Anchored) (hcase : s.fs.caseInsensitive = true)
    (hb : s.brings msg = some c) (hget : s.engine.index.get q = some e)
    (he : e.winner.state = .present sig) (hq : q ≠ c.path)
    (hstaged : ∀ i ∈ s.pendingInstalls, i.path ≠ place q)
    (hlink : place q ≠ c.path → ¬Leads s.tree s.root c.path (place q))
    (hseen : place q = c.path → c.kind ≠ .removed ∧
      Platform.lowercase c.path.raw = Platform.lowercase q.raw) : s.KeepsFile place msg q := by
  have hstart : FileKept c.path (place q) s s := .refl ha hstaged fun hne => hlink hne.symm
  have hstopped : c.path = place q → ¬s.Passes c := by
    intro hsame
    obtain ⟨hkind, hlower⟩ := hseen hsame.symm
    exact stopped_of_present hcase hq hget he hkind hlower
  exact ((flushInstalls_keepsFile _).after (onMessage_keepsFile hb hstart hstopped)).file

/-- Every path that is indexed as present has its file on the volume. -/
def shows (s : Session) (place : RelPath → RelPath) : Bool :=
  s.engine.index.iter.all fun e => match e.2.winner.state, s.diskExpectation (place e.1) with
    | .present sig, .ok disk => (Expectation.present sig).eq disk
    | .present _, .error _ => false
    | .tombstone, _ => true

end

end Session

/-- The full case folding of a name, as far as it goes here: that of `ß` is `ss`. -/
def foldCase (name : List Char) : List Char :=
  name.flatMap fun c => if c = 'ß' then ['s', 's'] else [c.toLower]

/-- The place of a path on a volume that folds case and has one name, as `p` spells it. -/
def foldedAt (p r : RelPath) : RelPath := if foldCase r.raw = foldCase p.raw then p else r

/-- A session on a volume that folds case, with a file of content `1` at `p`. -/
def foldedSession (p : RelPath) (index : Index) : Session :=
  { Session.start rootDir syncAll (.new ⟨1⟩ index) .new
      (((FileTree.empty : Tree).put rootDir .dir).put (join rootDir p) (.file [0x31] 0o644 7)) with
    fs := ⟨true, false⟩ }

def ownEntry : Entry := .single (VectorClock.new.tick ⟨1⟩) (.present oneSig)

def sharpPath : RelPath := ⟨['ß'], by decide⟩

def doublePath : RelPath := ⟨['s', 's'], by decide⟩

def upperFirst : RelPath := ⟨['A'], by decide⟩

/-- The file is indexed as `ss`. -/
def doubleSession : Session := foldedSession sharpPath (Index.new.upsert doublePath ownEntry)

/-- A change to content `2` that wins over ours. -/
def risingChange (p : RelPath) : RemoteChange :=
  ⟨p, .modified { twoSig with mtimeMs := 9 }, VectorClock.new.tick ⟨2⟩⟩

/-- The file is indexed as `a` and as `A`. -/
def twiceSession : Session :=
  foldedSession firstPath ((Index.new.upsert firstPath ownEntry).upsert upperFirst ownEntry)

/-- A removal of `a` by a peer that knows our version. -/
def firstRemoval : RemoteChange := ⟨firstPath, .removed, (VectorClock.new.tick ⟨1⟩).tick ⟨2⟩⟩

/-- A change of `ß` overwrites the file of `ss`, which the guard takes for another one, and a
removal of `a` removes the file of `A`. -/
theorem collisions_missed :
    letI := folding
    (doubleSession.shows (foldedAt sharpPath) = true ∧
      foldedAt sharpPath doublePath = foldedAt sharpPath sharpPath ∧
      ¬doubleSession.KeepsFile (foldedAt sharpPath) (.change (risingChange sharpPath) (some [0x32]))
        doublePath) ∧
    twiceSession.shows (foldedAt firstPath) = true ∧
      foldedAt firstPath upperFirst = foldedAt firstPath firstPath ∧
      ¬twiceSession.KeepsFile (foldedAt firstPath) (.change firstRemoval none) upperFirst := by
  let platform := folding
  refine ⟨⟨?_, ?_, ?_⟩, ?_, ?_, ?_⟩
  · decide +kernel
  · decide
  · decide +kernel
  · decide +kernel
  · decide
  · decide +kernel

/-- A change of `a` is refused and spares the file of `A`. -/
theorem upper_spared :
    letI := folding
    twiceSession.KeepsFile (foldedAt firstPath) (.change (risingChange firstPath) (some [0x32]))
      upperFirst := by
  let platform := folding
  have hanchored : twiceSession.Anchored := by
    constructor
    · decide
    · intro i hi
      cases hi
  refine Session.others_spared (e := ownEntry) (foldedAt firstPath) hanchored rfl rfl ?_ rfl ?_ ?_
    ?_ ?_
  · decide
  · decide
  · intro i hi
    cases hi
  · intro hne
    exact absurd (by decide) hne
  · intro _
    exact ⟨by decide, by decide⟩

end Tomo
