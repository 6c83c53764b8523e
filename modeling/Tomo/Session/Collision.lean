import Tomo.History.Content
import Tomo.Session.Carrying
import Tomo.Session.Pump

namespace Tomo
set_option autoImplicit true

/-- An error of the history store, or of content that fails its check. -/
def CliError.overContent : CliError → Bool
  | .history _ | .integrity _ => true
  | .refused .. | .io .. | .snapshot .. | .scan .. | .protocolMismatch _ | .versionMismatch _
  | .transport => false

section
variable {t : Tree} {l : List PendingInstall}

/-- Installing makes no links, removes nothing and leaves directories and files what they are. -/
theorem installAll_keeps (t : Tree) (l : List PendingInstall) :
    (t.Linkless → (installAll t l).1.Linkless) ∧
      (∀ p, t.get p = some .dir → (installAll t l).1.get p = some .dir) ∧
      ∀ p, t.isFile p = true → (installAll t l).1.isFile p = true := by
  induction l generalizing t with
  | nil => exact ⟨id, fun _ => id, fun _ => id⟩
  | cons i rest ih =>
    rw [installAll]
    split
    · exact ⟨id, fun _ => id, fun _ => id⟩
    next staged _ =>
      split
      · exact ⟨id, fun _ => id, fun _ => id⟩
      next u hu =>
        obtain ⟨q, _, hd, hget⟩ := FileTree.install_spec hu
        obtain ⟨h1, h2, h3⟩ := ih u
        refine ⟨fun hl => h1 fun p k hk => ?_, fun p hp => h2 p ?_, fun p hp => h3 p ?_⟩
        · rw [hget] at hk
          split at hk
          · cases hk
          · exact hl p k hk
        · rw [hget, if_neg, hp]
          rintro rfl
          exact hd hp
        · rw [FileTree.isFile_iff] at hp ⊢
          rw [hget]
          split
          · exact ⟨_, _, _, rfl⟩
          · exact hp

end

namespace Session
open Eff
variable [Platform] {s s' : Session} {p : RelPath} {c : RemoteChange} {bytes : Option Bytes}
  {x : SessionM α} {f : α → SessionM β}

/-- A computation that does not fail over what it finds in the tree. -/
def Unhurt (x : SessionM α) (s : Session) : Prop :=
  ∀ e, (x.exec s).1 = .error e → e.overContent = true

omit [Platform] in
theorem Unhurt.of_ok (h : x.exec s = (.ok a, s')) : Unhurt x s := by
  intro e he
  rw [h] at he
  cases he

omit [Platform] in
theorem Unhurt.bind (hx : Unhurt x s) (hf : ∀ a s', x.exec s = (.ok a, s') → Unhurt (f a) s') :
    Unhurt (x >>= f) s := by
  unfold Unhurt at *
  rcases he : x.exec s with ⟨r, s'⟩
  cases r with
  | error e =>
    rw [exec_bind_error he]
    rw [he] at hx
    intro e' h
    cases h
    exact hx e rfl
  | ok a =>
    rw [exec_bind_ok he]
    exact hf a s' he

omit [Platform] in
theorem Books.unhurt (h : Books x s) : Unhurt x s := by
  intro e he
  obtain ⟨k, rfl⟩ := h.error e he
  rfl

theorem stagePresent_fails (h : s.Open p) {sig : ContentSig} {bytes : Bytes}
    (hm : matchesSig bytes sig = true)
    (he : (stagePresent s.tree s.root s.diskFull s.wallMs s.createdDirs p sig bytes).result =
      .error e) : ∃ op path, e = .io op path .nospc := by
  cases hfull : s.diskFull with
  | true =>
    obtain ⟨dirs, op, path, hst⟩ :=
      stagePresent_full h.linkless h.root_dir h.above hm s.createdDirs s.wallMs
    rw [hfull, hst] at he
    cases he
    exact ⟨op, path, rfl⟩
  | false =>
    obtain ⟨u, hu, _⟩ := FileTree.createDirAll_clear (clear_above (h.linkless.straight _) h.above)
    simp only [stagePresent, hm, Bool.true_eq_false, ↓reduceIte, hfull, Bool.false_eq_true,
      checkParents_linkless h.linkless h.root_dir, hu] at he
    split at he <;> cases he

theorem writePresent_unhurt (h : s.Open p) (sig : ContentSig) (bytes : Bytes) :
    Unhurt (writePresent p sig bytes) s := by
  cases hm : matchesSig bytes sig with
  | false =>
    intro e he
    rw [writePresent_mismatch h.unstaged hm] at he
    cases he
    rfl
  | true =>
    refine Unhurt.bind (.of_ok (flushPendingInstallFor_unstaged h.unstaged)) fun _ s' hx => ?_
    rw [flushPendingInstallFor_unstaged h.unstaged] at hx
    cases hx
    intro e he
    simp only [exec_get_bind, exec_set_bind] at he
    split at he
    · cases he
    · cases he
    · cases he
    next e' _ hn hr =>
      obtain ⟨op, path, rfl⟩ := stagePresent_fails h hm hr
      exact (hn op path rfl).elim

theorem materialize_unhurt (h : s.Open p) (sig : ContentSig) (bytes : Option Bytes) :
    Unhurt (materialize p sig bytes) s := by
  by_cases hskip : s.Skips p sig bytes
  · obtain ⟨q, b, m, k, hq, hg⟩ := locate_readVerified hskip.2
    obtain ⟨u, hu, _⟩ := setExecMode_spec hq hg sig.exec
    intro e he
    rw [materialize_skips hskip, hu] at he
    cases he
  · cases hf : bytes.filter fun b => matchesSig b sig with
    | some b =>
      have he : (materialize p sig bytes).exec s = (writePresent p sig b).exec s := by
        simp only [materialize, exec_get_bind, hf]
        rfl
      intro e
      rw [he]
      exact writePresent_unhurt h sig b e
    | none =>
      have hr : (readVerified s.tree s.root p sig).isSome = false := by
        rw [← Bool.not_eq_true]
        exact fun hr => hskip ⟨hf, hr⟩
      simp only [Unhurt, materialize, exec_get_bind, hf, hr]
      have hb := liftHistory_books (s.history.contentByHash sig.hash) s
      refine hb.unhurt.bind fun cas s' he => ?_
      have hc := hb.core
      rw [he] at hc
      cases cas with
      | none => exact .of_ok rfl
      | some b => exact writePresent_unhurt (h.of_core hc) sig b

theorem doApply_unhurt (h : s.Open p) (target : Expectation) (bytes : Option Bytes) :
    Unhurt (doApply p target bytes) s := by
  cases target with
  | absent =>
    by_cases hd : s.tree.get (join s.root p) = some .dir
    · exact .of_ok (applyAbsentGuarded_dir h hd)
    · obtain ⟨tree, _, hx⟩ := applyAbsentGuarded_file h hd
      exact .of_ok hx
  | present sig =>
    obtain ⟨o, hprobe⟩ := h.probe
    rcases preparePresentTarget_spec sig bytes hprobe with ⟨_, hb, hne⟩ | ⟨hdir, _⟩
    · refine hb.unhurt.bind fun ready s' he => ?_
      cases ready with
      | true =>
        rw [he] at hne
        exact (hne rfl).elim
      | false => exact .of_ok rfl
    · intro e
      rw [doApply, applyPresentBySig_file hprobe hdir]
      exact materialize_unhurt h sig bytes e

omit [Platform] in
theorem Open.of_eq (h : s.Open p) (hr : s'.root = s.root) (ht : s'.tree = s.tree)
    (hp : s'.pendingInstalls = s.pendingInstalls) : s'.Open p where
  linkless := ht ▸ h.linkless
  root_dir := by rw [ht, hr]; exact h.root_dir
  above := by rw [ht, hr]; exact h.above
  unstaged := by rw [hp]; exact h.unstaged

omit [Platform] in
theorem observed_open (h : s.Open p) (q : RelPath) (disk : Expectation) :
    (s.observed q disk).Open p := by
  rw [observed]
  split
  · exact h.of_eq rfl rfl rfl
  · exact h

omit [Platform] in
theorem observed_healthy (h : s.Healthy) (q : RelPath) (disk : Expectation) :
    (s.observed q disk).Healthy := by
  rw [observed]
  split
  · exact h
  · exact h

theorem absorbAndExecute_unhurt (h : s.Open c.path) (hs : s.Healthy) :
    Unhurt (absorbAndExecute c bytes) s := by
  intro e he
  rw [absorbAndExecute_exec] at he
  have hcarry : Unhurt (carryOut c.path (s.engine.applyTarget c) bytes) (s.absorbed c) := by
    cases s.engine.applyTarget c with
    | some target =>
      have ho : (s.absorbed c).Open c.path := h.of_eq rfl rfl rfl
      exact doApply_unhurt ho target bytes
    | none => exact .of_ok rfl
  refine hcarry.bind (fun _ s' hx => ?_) e he
  have hl : Leaves frame (carryOut c.path (s.engine.applyTarget c) bytes) (s.absorbed c) := by
    cases s.engine.applyTarget c with
    | some target => exact (doApply_works ..).leaves
    | none => rfl
  rw [Leaves, hx] at hl
  have hs' : (s.absorbed c).Healthy := hs
  exact (fileAbsorbed_files (hs'.of_frame hl) c bytes).books.unhurt

/-- A frame is carried out without an error of the tree exactly when no regular file stands above
its path. -/
theorem deliver_unhurt_iff (hl : s.tree.Linkless) (hr : s.tree.get s.root = some .dir)
    (hn : ∀ i ∈ s.pendingInstalls, i.path ≠ c.path) (hs : s.Healthy) :
    Unhurt (deliver c bytes) s ↔ s.tree.underFile (join s.root c.path) = false := by
  cases hu : s.tree.underFile (join s.root c.path) with
  | true =>
    have hd : s.diskExpectation c.path = .error (.snapshot c.path .notdir) := by
      rw [diskExpectation, snapshot_linkless hl, if_pos hu]
    refine iff_of_false (fun h => ?_) (by decide)
    have he := h (.snapshot c.path .notdir)
    rw [deliver, exec_bind_error (reconcile_error hd)] at he
    cases he rfl
  | false =>
    refine iff_of_true ?_ rfl
    have ho : s.Open c.path := ⟨hl, hr, hu, hn⟩
    obtain ⟨o, hprobe⟩ := ho.probe
    obtain ⟨disk, hd⟩ : ∃ disk, s.diskExpectation c.path = .ok disk := by
      rw [diskExpectation, hprobe]
      cases o with
      | none => exact ⟨_, rfl⟩
      | some sig => exact ⟨_, rfl⟩
    have hs' := observed_healthy hs c.path disk
    have hb := (fileObserved_files (s := s) hs' c.path disk).books
    refine Unhurt.bind (fun e he => ?_) fun _ s' hx => ?_
    · rw [reconcile_exec hd] at he
      exact hb.unhurt e he
    · rw [reconcile_exec hd] at hx
      have hc := hb.core
      rw [hx] at hc
      exact absorbAndExecute_unhurt ((observed_open ho c.path disk).of_core hc) (hs'.of_core hc)

/-- If a file is staged for the path, every staged file can be renamed into place. -/
def Installs (s : Session) (p : RelPath) : Prop :=
  s.stagedFor p = true → (installAll s.tree s.pendingInstalls).2.2 = none

/-- The tree once what is staged for the path is installed. -/
def treeFor (s : Session) (p : RelPath) : Tree :=
  if s.stagedFor p then (installAll s.tree s.pendingInstalls).1 else s.tree

omit [Platform] in
theorem treeFor_keeps (s : Session) (p : RelPath) :
    (s.tree.Linkless → (s.treeFor p).Linkless) ∧
      (∀ q, s.tree.get q = some .dir → (s.treeFor p).get q = some .dir) ∧
      ∀ q, s.tree.isFile q = true → (s.treeFor p).isFile q = true := by
  rw [treeFor]
  split
  · exact installAll_keeps s.tree s.pendingInstalls
  · exact ⟨id, fun _ => id, fun _ => id⟩

omit [Platform] in
theorem flushPendingInstallFor_outcome (s : Session) (p : RelPath) :
    (¬s.Installs p ∧ ∃ path e s',
        (flushPendingInstallFor p).exec s = (.error (.io .renameIntoPlace path e), s')) ∨
      (s.Installs p ∧ ∃ s', (flushPendingInstallFor p).exec s = (.ok ⟨⟩, s') ∧
        s'.tree = s.treeFor p ∧ (∀ i ∈ s'.pendingInstalls, i.path ≠ p) ∧ s'.frame = s.frame) := by
  have hl := (flushPendingInstallFor_works p s).leaves
  by_cases h : s.stagedFor p = true
  · have hx : (flushPendingInstallFor p).exec s = flushInstalls.exec s := by
      simp only [flushPendingInstallFor, exec_get_bind, h, ↓reduceIte]
    rw [Leaves, hx] at hl
    rw [hx, Installs, treeFor, if_pos h]
    simp only [flushInstalls, exec_get_bind] at hl ⊢
    split at hl
    next tree pending path e he =>
      rw [he]
      exact .inl ⟨fun hn => Option.some_ne_none _ (hn h), path, e, _, rfl⟩
    next tree pending he =>
      rw [he]
      exact .inr ⟨fun _ => rfl, _, rfl, rfl, (fun i hi => by cases hi), hl⟩
  · have hn : ∀ i ∈ s.pendingInstalls, i.path ≠ p := fun i hi he =>
      h (List.any_eq_true.2 ⟨i, hi, by rw [he, decide_eq_true_eq]⟩)
    rw [flushPendingInstallFor_unstaged hn, Installs, treeFor, if_neg h]
    exact .inr ⟨fun hs => (h hs).elim, s, rfl, rfl, hn, rfl⟩

omit [Platform] in
/-- A computation after the flush of what is staged for a path. -/
theorem flush_unhurt_iff {x : SessionM Unit} {Q : Prop}
    (h : ∀ s', s'.tree = s.treeFor p → (∀ i ∈ s'.pendingInstalls, i.path ≠ p) →
      s'.frame = s.frame → (Unhurt x s' ↔ Q)) :
    Unhurt (do flushPendingInstallFor p; x) s ↔ s.Installs p ∧ Q := by
  rcases s.flushPendingInstallFor_outcome p with ⟨hi, path, e, s', hx⟩ | ⟨hi, s', hx, ht, hn, hf⟩
  · refine iff_of_false (fun hu => ?_) fun hq => hi hq.1
    have he := hu (.io .renameIntoPlace path e)
    rw [exec_bind_error hx] at he
    cases he rfl
  · rw [and_iff_right hi, ← h s' ht hn hf, Unhurt, Unhurt, exec_bind_ok hx]

/-- Whether a frame is refused because its file would overwrite another under case folding. -/
def refusesCase (s : Session) (c : RemoteChange) : Bool :=
  match c.kind with
  | .removed => false
  | .modified _ => s.collidesWithExisting c.path

/-- Whether a frame gets as far as the apply path. -/
def Reached (s : Session) (c : RemoteChange) : Prop :=
  s.paused = false ∧ s.allowCrossing c.path .inbound = true ∧ s.refusesCase c = false

/-- The content a finished assembly verifies. -/
def verified (s : Session) (a : Assembly) : Option Bytes :=
  (assembleChunks s.chunkFiles a.manifest).filter fun b => matchesSig b a.sig

theorem caseCollisionRefused_clear (h : s.refusesCase c = false) (bytes : Option Bytes) :
    (caseCollisionRefused c bytes).exec s = (.ok false, s) := by
  obtain ⟨p, kind, version⟩ := c
  cases kind with
  | removed => rfl
  | modified sig =>
    have hc : s.collidesWithExisting p = false := h
    simp only [caseCollisionRefused, exec_get_bind, hc, Bool.false_eq_true, ↓reduceIte, exec_pure]

theorem caseCollisionRefused_refuses (h : s.refusesCase c = true)
    (hx : (caseCollisionRefused c bytes).exec s = (.ok r, s')) : r = true := by
  obtain ⟨p, kind, version⟩ := c
  cases kind with
  | removed => cases h
  | modified sig =>
    have hc : s.collidesWithExisting p = true := h
    simp only [caseCollisionRefused, exec_get_bind, hc, ↓reduceIte] at hx
    rcases ho : (preserveCollidedIncoming p sig version bytes).exec s with ⟨o, u⟩
    cases o with
    | error e =>
      rw [exec_bind_error ho] at hx
      cases hx
    | ok a =>
      rw [exec_bind_ok ho] at hx
      cases hx
      rfl

/-- Nothing stands in the way of a frame: what is staged for its path can be installed, and then
no regular file stands above it. -/
structure Clearway (s : Session) (p : RelPath) : Prop where
  installs : s.Installs p
  above : (s.treeFor p).underFile (join s.root p) = false

/-- The install of what is staged for a path, then the delivery. -/
theorem flush_deliver_iff {f : Session → Session} (hl : s.tree.Linkless)
    (hr : s.tree.get s.root = some .dir) (hs : s.Healthy)
    (hf : ∀ s, (f s).tree = s.tree ∧ (f s).root = s.root ∧
      (f s).pendingInstalls = s.pendingInstalls ∧ (f s).transport = s.transport) :
    Unhurt (do
      flushPendingInstallFor c.path
      modify f
      deliver c bytes) s ↔ s.Clearway c.path := by
  have hk := s.treeFor_keeps c.path
  have hroot {s' : Session} (h : s'.frame = s.frame) : s'.root = s.root := by
    have h' : s'.frame.root = s.frame.root := by rw [h]
    exact h'
  have hx := @flush_unhurt_iff s c.path (do
    modify f
    deliver c bytes) ((s.treeFor c.path).underFile (join s.root c.path) = false)
    fun s' ht hn hfr => by
      obtain ⟨h1, h2, h3, h4⟩ := hf s'
      have hd := @deliver_unhurt_iff _ (f s') c bytes (by rw [h1, ht]; exact hk.1 hl)
        (by rw [h1, h2, ht, hroot hfr]; exact hk.2.1 _ hr) (by rw [h3]; exact hn)
        (fun t => by rw [h4]; exact hs.of_frame hfr t)
      rw [h1, h2, ht, hroot hfr] at hd
      exact hd
  exact hx.trans ⟨fun h => ⟨h.1, h.2⟩, fun h => ⟨h.1, h.2⟩⟩

omit [Platform] in
theorem clearway_congr (ht : s'.tree = s.tree) (hr : s'.root = s.root)
    (hp : s'.pendingInstalls = s.pendingInstalls) : s'.Clearway p ↔ s.Clearway p := by
  have hi : s'.Installs p ↔ s.Installs p := by rw [Installs, Installs, stagedFor, stagedFor, ht, hp]
  have hu : s'.treeFor p = s.treeFor p := by rw [treeFor, treeFor, stagedFor, stagedFor, ht, hp]
  constructor
  · exact fun h => ⟨hi.1 h.installs, by rw [← hu, ← hr]; exact h.above⟩
  · exact fun h => ⟨hi.2 h.installs, by rw [hu, hr]; exact h.above⟩

theorem onMessage_change_unhurt_iff (hl : s.tree.Linkless) (hr : s.tree.get s.root = some .dir)
    (hs : s.Healthy) (c : RemoteChange) (bytes : Option Bytes) :
    Unhurt (onMessage (.change c bytes)) s ↔ (s.Reached c → s.Clearway c.path) := by
  simp only [Unhurt, onMessage, exec_get_bind, isContentFrame, Bool.and_true, Reached]
  cases hp : s.paused with
  | true => exact iff_of_true (fun e he => by cases he) fun h => by cases h.1
  | false =>
    simp only [Bool.false_eq_true, ↓reduceIte, onChange, exec_get_bind, true_and]
    cases ha : s.allowCrossing c.path .inbound with
    | false => exact iff_of_true (fun e he => by cases he) fun h => by cases h.1
    | true =>
      simp only [↓reduceIte, true_and]
      cases hc : s.refusesCase c with
      | true =>
        refine iff_of_true ?_ fun h => by cases h
        refine (caseCollisionRefused_books c bytes s).unhurt.bind fun r s' hx => ?_
        rw [caseCollisionRefused_refuses hc hx]
        exact .of_ok rfl
      | false =>
        obtain ⟨_, s', hx, hcore⟩ := (flushQueuedSend_files hs c.path).exec_eq
        have ht : s'.core.tree = s.core.tree := by rw [hcore]
        have hroot : s'.core.root = s.core.root := by rw [hcore]
        have hpend : s'.core.pendingInstalls = s.core.pendingInstalls := by rw [hcore]
        simp only [core] at ht hroot hpend
        have hd := @flush_deliver_iff _ s' c bytes (fun s => s.abandonSuperseded c.path)
          (by rwa [ht]) (by rwa [ht, hroot]) (hs.of_core hcore) fun s => by
            obtain ⟨a, f, h⟩ := s.abandonSuperseded_only c.path
            rw [h]
            exact ⟨rfl, rfl, rfl, rfl⟩
        rw [exec_bind_ok (caseCollisionRefused_clear hc bytes)]
        simp only [Bool.false_eq_true, ↓reduceIte]
        rw [exec_bind_ok hx]
        simp only [forall_const]
        exact hd.trans (clearway_congr ht hroot hpend)

theorem completeAssembly_unhurt_iff (hl : s.tree.Linkless) (hr : s.tree.get s.root = some .dir)
    (hs : s.Healthy) {a : Assembly} {bytes : Bytes} (ha : s.assemblies[p]? = some a)
    (hv : s.verified a = some bytes) :
    Unhurt (completeAssembly p) s ↔ s.Installs a.change.path ∧
      (s.refusesCase a.change = false →
        (s.treeFor a.change.path).underFile (join s.root a.change.path) = false) := by
  let start := { s with assemblies := s.assemblies.erase p }.cleanAssemblyChunks a
  have hx : (completeAssembly p).exec s = Eff.exec (do
      flushPendingInstallFor a.change.path
      if ← caseCollisionRefused a.change (some bytes) then pure ()
      else deliver a.change (some bytes)) start := by
    rw [verified] at hv
    simp only [completeAssembly, exec_get_bind, ha, exec_set_bind, hv, start]
    rfl
  have hk := start.treeFor_keeps a.change.path
  rw [Unhurt, hx]
  refine flush_unhurt_iff fun s' ht hn hfr => ?_
  have he : s'.refusesCase a.change = s.refusesCase a.change := by
    have he : s'.frame.engine = start.frame.engine := by rw [hfr]
    have hf : s'.frame.fs = start.frame.fs := by rw [hfr]
    have he' : s'.engine = s.engine := he
    have hf' : s'.fs = s.fs := hf
    rw [refusesCase, refusesCase]
    cases a.change.kind with
    | removed => rfl
    | modified sig => rw [collidesWithExisting, collidesWithExisting, he', hf']
  have hroot : s'.root = s.root := by
    have h' : s'.frame.root = start.frame.root := by rw [hfr]
    exact h'
  cases hc : s.refusesCase a.change with
  | true =>
    refine iff_of_true ?_ fun h => by cases h
    refine (caseCollisionRefused_books a.change _ s').unhurt.bind fun r u hu => ?_
    rw [caseCollisionRefused_refuses (he.trans hc) hu]
    exact .of_ok rfl
  | false =>
    rw [Unhurt, exec_bind_ok (caseCollisionRefused_clear (he.trans hc) _)]
    simp only [Bool.false_eq_true, ↓reduceIte, forall_const]
    have hs' : start.Healthy := hs
    have hd := @deliver_unhurt_iff _ s' a.change (some bytes) (by rw [ht]; exact hk.1 hl)
      (by rw [ht, hroot]; exact hk.2.1 _ hr) hn (hs'.of_frame hfr)
    rw [ht, hroot] at hd
    exact hd

/-- The tracked files above a path are in history, and the path is staged below a directory. -/
def KeepsAbove (s s' : Session) (p : RelPath) : Prop :=
  ∀ (q : RelPath) c sig b m k, q.components ++ [c] <+: p.components →
    s.engine.winnerState q = some (.present sig) → s.tree.get (join s.root q) = some (.file b m k) →
    s'.history.Keeps q b ∧ s'.stagedFor p = true ∧
      s'.tree.get (join s.root p).dropLast = some .dir

/-- A frame that is carried out ends without an error of the tree; where it was `reached` and
brings a file, what stands in its way is kept and the file is staged. -/
def Survives (x : SessionM Unit) (s : Session) (c : RemoteChange) (reached : Prop) : Prop :=
  Unhurt x s ∧ (reached → ∀ sig, c.kind = .modified sig → KeepsAbove s (x.exec s).2 c.path)

theorem keepsAbove_clear (h : (s.treeFor p).underFile (join s.root p) = false) (s' : Session) :
    KeepsAbove s s' p := by
  rintro q c sig b m k ⟨d, hd⟩ _ hg
  rw [Bool.eq_false_iff, Ne, FileTree.underFile_iff] at h
  refine (h ⟨join s.root q, c, d, ?_, (s.treeFor_keeps p).2.2 _ ?_⟩).elim
  · rw [join, ← hd, join, List.append_assoc, List.append_assoc, List.singleton_append]
  · exact FileTree.isFile_iff.2 ⟨b, m, k, hg⟩

/-- A frame of content survives what it finds on disk exactly when what is staged for its path
can be installed and no regular file stands above the path then. -/
theorem content_survives_iff (hl : s.tree.Linkless) (hr : s.tree.get s.root = some .dir)
    (hs : s.Healthy) :
    (∀ c bytes, Survives (onMessage (.change c bytes)) s c (s.Reached c) ↔
      (s.Reached c → s.Clearway c.path)) ∧
    ∀ p a, s.assemblies[p]? = some a → (s.verified a).isSome = true →
      (Survives (completeAssembly p) s a.change (s.refusesCase a.change = false) ↔
        s.Installs a.change.path ∧ (s.refusesCase a.change = false →
          (s.treeFor a.change.path).underFile (join s.root a.change.path) = false)) := by
  constructor
  · intro c bytes
    rw [Survives, onMessage_change_unhurt_iff hl hr hs]
    exact ⟨And.left, fun h => ⟨h, fun hc _ _ => keepsAbove_clear (h hc).above _⟩⟩
  · intro p a ha hv
    obtain ⟨bytes, hv⟩ := Option.isSome_iff_exists.1 hv
    rw [Survives, completeAssembly_unhurt_iff hl hr hs ha hv]
    exact ⟨And.left, fun h => ⟨h, fun hc _ _ => keepsAbove_clear (h.2 hc) _⟩⟩

end Session

/-- The path of a file inside the directory `foo`. -/
def insidePath : RelPath := ⟨['f', 'o', 'o', '/', 'x'], by decide⟩

def insideChange : RemoteChange :=
  ⟨insidePath, .modified oneSig, VectorClock.new.tick ⟨2⟩⟩

/-- A file below a tracked one ends the session before the collision is looked at. -/
theorem onMessage_ends_below_file :
    letI := tabulated shortHashes
    fooSession.tree.get rootDir = some .dir ∧
      fooSession.tree.get (join rootDir fooPath) = some (.file [0x31] 0o644 7) ∧
      ((Session.onMessage (.change insideChange (some [0x31]))).exec fooSession).1 =
        .error (.snapshot insidePath .notdir) := by
  decide +kernel

theorem fooTree_linkless (b : UInt8) : (fooTree b).Linkless :=
  (FileTree.linkless_empty.put fun l h => by cases h).put fun l h => by cases h

/-- A new version of the tracked file is carried out. -/
theorem foo_survives :
    letI := tabulated shortHashes
    Session.Survives (Session.onMessage (.change ⟨fooPath, .removed, VectorClock.new.tick ⟨2⟩⟩ none))
      fooSession ⟨fooPath, .removed, VectorClock.new.tick ⟨2⟩⟩
      (fooSession.Reached ⟨fooPath, .removed, VectorClock.new.tick ⟨2⟩⟩) := by
  let platform := tabulated shortHashes
  have hs : fooSession.Healthy := fun t ht => by cases ht
  refine ((Session.content_survives_iff (fooTree_linkless 0x31) (by decide) hs).1 _ none).2 ?_
  exact fun _ => ⟨fun h => absurd h (by decide), by decide⟩

end Tomo
