import Tomo.Engine.Recovery
import Tomo.Session.Refusal

namespace Tomo
set_option autoImplicit true

/-- A file whose staging runs out of space leaves the tree as it was. -/
theorem stagePresent_nospc [Platform] {t : Tree}
    (h : (stagePresent t root full wallMs dirs rel sig bytes).result =
      .error (.io op path .nospc)) :
    (stagePresent t root full wallMs dirs rel sig bytes).tree = t := by
  unfold stagePresent at h ⊢
  split
  · rfl
  next hm =>
    rw [if_neg hm] at h
    split
    · rfl
    next hc =>
      rw [hc] at h
      dsimp only at h ⊢
      split
      · split <;> rfl
      next hp =>
        rw [if_neg hp] at h
        split
        next u hu =>
          rw [hu] at h
          cases full with
          | true => exact FileTree.createDirAll_full_eq hu
          | false => cases h
        next => rfl

/-- The entry of a path knows every version that was absorbed there. -/
theorem Engine.handleRemote_knows (e : Engine) (c : RemoteChange) :
    ∃ entry, (e.handleRemote c).1.index.get c.path = some entry ∧
      entry.knows c.version = true := by
  obtain ⟨_, hget, _⟩ := e.absorbRemote_spec c.path (stateFromKind c.kind) c.version
  have hidx := hget c.path
  rw [if_pos rfl] at hidx
  refine ⟨_, hidx, ?_⟩
  rw [Entry.knows_iff]
  cases e.index.get c.path with
  | none => exact ⟨_, List.mem_singleton_self _, le_rfl⟩
  | some entry =>
    rcases absorb_outcome entry c.version (stateFromKind c.kind) with ⟨hk, ha⟩ | ⟨hk, _⟩
    · rw [absorbed, ha]
      exact (entry.knows_iff c.version).1 hk
    · exact ⟨_, (Entry.mem_absorb hk _).2 (.inl rfl), le_rfl⟩

namespace Session
open Eff Engine
variable [Platform] {s s' t u : Session} {p : RelPath} {sig : ContentSig} {c : RemoteChange}
  {bytes : Option Bytes}

/-- The bytes that an apply stages: those of the frame, else those of the history where the disk
does not have them. -/
def stagedBytes (s : Session) (p : RelPath) (sig : ContentSig) (remoteBytes : Option Bytes) :
    Option Bytes :=
  match remoteBytes.filter fun b => matchesSig b sig with
  | some b => some b
  | none =>
    if (readVerified s.tree s.root p sig).isSome then none
    else match s.history.contentByHash sig.hash with
      | .ok cas => cas
      | .error _ => none

/-- The file that a change calls for runs out of space while it is staged. -/
structure RunsOut (s : Session) (c : RemoteChange) (bytes : Option Bytes) (sig : ContentSig) :
    Prop where
  target : s.engine.applyTarget c = some (.present sig)
  unstaged : s.stagedFor c.path = false
  clear : typeCollision s.tree s.root c.path.components = none
  full : ∃ b op path, s.stagedBytes c.path sig bytes = some b ∧
    (stagePresent s.tree s.root s.diskFull s.wallMs s.createdDirs c.path sig b).result =
      .error (.io op path .nospc)

theorem writePresent_runsOut (hst : s.stagedFor p = false)
    (hfull : (stagePresent s.tree s.root s.diskFull s.wallMs s.createdDirs p sig b).result =
      .error (.io op path .nospc)) :
    ∃ dirs, (writePresent p sig b).exec s = (.ok ⟨⟩, { s with
      createdDirs := dirs
      diskStalled := true
      lastStallRetry := s.nowMs }) := by
  refine ⟨(stagePresent s.tree s.root s.diskFull s.wallMs s.createdDirs p sig b).createdDirs, ?_⟩
  simp only [writePresent, flushPendingInstallFor, bind_assoc, exec_get_bind, hst,
    Bool.false_eq_true, ↓reduceIte, pure_bind, exec_set_bind, stagePresent_nospc hfull, hfull]
  rfl

/-- The apply goes through: it notes that the disk is full, and writes nothing. -/
theorem RunsOut.doApply (h : s.RunsOut c bytes sig) :
    ∃ dirs, (Session.doApply c.path (.present sig) bytes).exec (s.absorbed c) =
      (.ok ⟨⟩, { s.absorbed c with
        createdDirs := dirs
        diskStalled := true
        lastStallRetry := s.nowMs }) := by
  obtain ⟨b, op, path, hb, hfull⟩ := h.full
  have hprep : (preparePresentTarget c.path sig bytes).exec (s.absorbed c) =
      (.ok true, s.absorbed c) := by
    have hc : typeCollision (s.absorbed c).tree (s.absorbed c).root c.path.components = none :=
      h.clear
    simp only [preparePresentTarget, exec_get_bind, hc, exec_pure]
  have hwrite : ∃ dirs, (writePresent c.path sig b).exec (s.absorbed c) =
      (.ok ⟨⟩, { s.absorbed c with
        createdDirs := dirs
        diskStalled := true
        lastStallRetry := s.nowMs }) := writePresent_runsOut (s := s.absorbed c) h.unstaged hfull
  have hmat : (materialize c.path sig bytes).exec (s.absorbed c) =
      (writePresent c.path sig b).exec (s.absorbed c) := by
    have hread : readVerified (s.absorbed c).tree (s.absorbed c).root c.path sig =
        readVerified s.tree s.root c.path sig := rfl
    have hhist : (s.absorbed c).history = s.history := rfl
    rw [stagedBytes] at hb
    simp only [materialize, exec_get_bind]
    cases hf : bytes.filter fun b => matchesSig b sig with
    | some b' =>
      rw [hf] at hb
      cases hb
      rfl
    | none =>
      rw [hf] at hb
      dsimp only at hb
      split at hb
      · cases hb
      next hr =>
        split at hb
        next cas hcas =>
          subst hb
          rw [Bool.not_eq_true] at hr
          simp only [hread, hr, hhist, hcas, Option.isNone_none, Option.isSome_none, Bool.and_false,
            Bool.or_false, Bool.false_eq_true, ↓reduceIte, liftHistory, pure_bind, byteSource,
            Option.isSome_some, Option.getD_some]
        next => cases hb
  obtain ⟨dirs, hd⟩ := hwrite
  refine ⟨dirs, ?_⟩
  change (applyPresentBySig c.path sig bytes).exec (s.absorbed c) = _
  rw [applyPresentBySig, exec_bind_ok hprep]
  exact hmat.trans hd

/-- The entry is that of the absorbed change, and the disk is as it was. -/
theorem RunsOut.absorbed (h : t.RunsOut c bytes sig)
    (hs : s = ((absorbAndExecute c bytes).exec t).2) :
    s.engine = (t.engine.handleRemote c).1 ∧ s.ground = t.ground := by
  obtain ⟨dirs, happly⟩ := h.doApply
  have hcarry : (carryOut c.path (t.engine.applyTarget c) bytes).exec (t.absorbed c) =
      (.ok ⟨⟩, { t.absorbed c with
        createdDirs := dirs
        diskStalled := true
        lastStallRetry := t.nowMs }) := by
    rw [h.target]
    exact happly
  have hpaper : ∀ a ∈ t.engine.paperwork c, a.isPaper = true := fun a ha =>
    (Engine.paperwork_paper t.engine c a ha).1
  rw [absorbAndExecute_exec, exec_bind_ok hcarry] at hs
  rw [hs]
  exact ⟨engine_beside.executeActions _ _ _ _ hpaper _ _,
    ground_beside.executeActions _ _ _ _ hpaper _ _⟩

/-- A regular file of the content stands at a path. -/
def OnDisk (s : Session) (p : RelPath) (sig : ContentSig) : Prop :=
  s.fileAt p = true ∧ ∃ shown, snapshot s.tree s.root p = .ok (some shown) ∧ sig.eq shown = true

/-- The file that wins a path is on disk. -/
def Materialized (s : Session) (p : RelPath) : Prop :=
  ∀ sig, s.engine.winnerState p = some (.present sig) → s.OnDisk p sig

/-- Nothing hides a path from the walk of a scan. -/
structure Visible (s : Session) (p : RelPath) : Prop where
  root_dir : s.tree.get s.root = some .dir
  named : s.Named
  entered : s.Entered p

theorem OnDisk.of_ground (h : s.OnDisk p sig) (hg : s'.ground = s.ground) : s'.OnDisk p sig := by
  have ht : s'.tree = s.tree := congrArg Prod.fst hg
  have hr : s'.root = s.root := congrArg Prod.snd hg
  rw [OnDisk, fileAt, ht, hr]
  exact h

theorem OnDisk.not_differs (h : s.OnDisk p sig) (hw : s.engine.winnerState p = some (.present sig))
    (hf : snapshot s.tree s.root p = .ok (some shown)) :
    diskDiffers s.engine.index p shown = false := by
  obtain ⟨_, shown', hf', he⟩ := h
  rw [hf] at hf'
  cases hf'
  rw [diskDiffers]
  rw [winnerState] at hw
  rw [hw]
  simp only [he, Bool.not_true]

/-- A scan has nothing to report of a path whose winner is on disk. -/
theorem OnDisk.scan_silent (h : s.OnDisk p sig)
    (hw : s.engine.winnerState p = some (.present sig)) (hv : s.Visible p)
    (hs : scanDiff s = .ok changes) : ∀ c ∈ changes, c.path ≠ p := by
  obtain ⟨onDisk, hwalk, hspec⟩ := walkTree_spec hv.root_dir hv.named
  rw [scanDiff_collects hwalk] at hs
  cases hs
  intro c hc hp
  obtain ⟨⟨q, k⟩, hm, rfl⟩ := List.mem_map.1 hc
  obtain rfl : q = p := hp
  rw [Std.ExtTreeMap.mem_toList_iff_getElem?_eq_some] at hm
  obtain ⟨shown, hf, _⟩ := h.2
  have hseen : onDisk[q]? = some shown := (hspec q shown).2 ⟨h.1, hv.entered, hf⟩
  rcases (collect_reports q k).1 hm with ⟨shown', rfl, hd, hdiff⟩ | ⟨_, hn, _⟩
  · rw [hseen] at hd
    cases hd
    rw [h.not_differs hw hf] at hdiff
    cases hdiff
  · rw [hseen] at hn
    cases hn

/-- What follows from local changes leaves the disk alone. -/
theorem executeLocal_ground (e : Engine) (c : LocalChange) (s : Session) :
    Leaves ground (execute (e.handleLocal c).2 none none) s :=
  .get <| ground_beside.executeActions _ _ _ _
    (fun a ha => (e.handleLocal_paper c a ha).1) _ s

theorem absorbLocal_ground (c : LocalChange) (s : Session) : Leaves ground (absorbLocal c) s := by
  have hl : Leaves ground (do
      if (s.engine.handleLocal c).2 = [] then pure () else markDirty
      execute (s.engine.handleLocal c).2 none none)
      { s with engine := (s.engine.handleLocal c).1 } := by
    refine .ite (executeLocal_ground s.engine c _) ?_
    exact Leaves.bind (.modify rfl) fun _ u _ => executeLocal_ground s.engine c u
  exact hl

/-- The entry of a path and the disk are as they were. -/
structure Same (p : RelPath) (s s' : Session) : Prop where
  entry : s'.engine.index.get p = s.engine.index.get p
  ground : s'.ground = s.ground

omit [Platform] in
theorem Same.refl (p : RelPath) (s : Session) : Same p s s := ⟨rfl, rfl⟩

omit [Platform] in
theorem Same.trans (h : Same p s t) (h' : Same p t u) : Same p s u :=
  ⟨h'.entry.trans h.entry, h'.ground.trans h.ground⟩

omit [Platform] in
/-- Local changes of other paths leave a path as it is. -/
theorem scan_same {f : LocalChange → SessionM Unit} {changes : List LocalChange}
    (hf : ∀ c u, ((f c).exec u).2.engine = (u.engine.handleLocal c).1 ∧
      ((f c).exec u).2.ground = u.ground)
    (hc : ∀ c ∈ changes, c.path ≠ p) (s : Session) : Same p s ((changes.forM f).exec s).2 := by
  have hforM : Upholds (Same p s) (changes.forM f) s := by
    refine .forM (fun c hm u => ⟨fun h => h.trans ⟨?_, (hf c u).2⟩⟩) s
    rw [(hf c u).1, u.engine.handleLocal_other (hc c hm)]
  exact hforM.after (.refl p s)

theorem startupScan_same (h : s.OnDisk p sig) (hw : s.engine.winnerState p = some (.present sig))
    (hv : s.Visible p) : Same p s (startupScan.exec s).2 := by
  rw [startupScan, exec_get_bind]
  split
  · exact .refl p s
  next changes hs =>
    refine scan_same (fun c u => ⟨?_, ?_⟩) (h.scan_silent hw hv hs) s
    · exact executeLocal_engine u.engine c { u with engine := (u.engine.handleLocal c).1 }
    · exact executeLocal_ground u.engine c { u with engine := (u.engine.handleLocal c).1 }

theorem maybeRescan_same (h : s.OnDisk p sig) (hw : s.engine.winnerState p = some (.present sig))
    (hv : s.Visible p) : Same p s (maybeRescan.exec s).2 := by
  rw [maybeRescan, exec_get_bind, exec_ite]
  split
  · exact .refl p s
  · rw [exec_set_bind, rescan, exec_get_bind]
    split
    · exact ⟨rfl, rfl⟩
    next changes hs =>
      have hsame := scan_same (fun c u => ⟨absorbLocal_engine c u, absorbLocal_ground c u⟩)
        (h.scan_silent hw hv hs) { s with rescanPending := false }
      exact ⟨hsame.entry, hsame.ground⟩

/-- A signal for a path whose winner is on disk tells the engine nothing new. -/
theorem onWatch_same (h : s.OnDisk p sig) (hw : s.engine.winnerState p = some (.present sig))
    (hst : s.stagedFor p = false) (kind : PendingKind) :
    Same p s ((onWatch (.pending p kind)).exec s).2 := by
  simp only [onWatch, flushPendingInstallFor, bind_assoc, exec_get_bind, hst, Bool.false_eq_true,
    ↓reduceIte, pure_bind]
  cases hk : resolve s.tree s.root p kind with
  | error e => exact ⟨rfl, rfl⟩
  | ok k =>
    refine ⟨?_, absorbLocal_ground _ s⟩
    dsimp only
    rw [absorbLocal_engine]
    obtain ⟨shown, hf, _⟩ := h.2
    have hobs : s.observe p k = .modified shown := by
      have hk : k = .removed ∨ k = .modified shown := by
        cases kind with
        | gone =>
          cases hk
          exact .inl rfl
        | dirty =>
          rw [resolve, hf] at hk
          cases hk
          exact .inr rfl
      rcases hk with rfl | rfl
      · simp only [observe, hf, ite_self]
      · simp only [observe, hf, ite_self]
    rw [hobs, s.engine.handleLocal_known (h.not_differs hw hf)]

omit [Platform] in
theorem maybeRetryStall_same (p : RelPath) (s : Session) :
    Same p s (maybeRetryStall.exec s).2 := by
  have he : Leaves engine maybeRetryStall s :=
    .get <| .ite (.pure _ _ s) (Leaves.bind (.set rfl) fun _ u _ => engine_beside.ship _ u)
  have hg : Leaves ground maybeRetryStall s :=
    .get <| .ite (.pure _ _ s) (Leaves.bind (.set rfl) fun _ u _ => ground_beside.ship _ u)
  exact ⟨congrArg (fun e : Engine => e.index.get p) he, hg⟩

/-- What comes after a change, where neither the user nor another frame touches its path. -/
inductive Later (p : RelPath) : Session → Session → Prop where
  | startupScan (s : Session) (h : s.Visible p) : Later p s (startupScan.exec s).2
  | rescan (s : Session) (h : s.Visible p) : Later p s (maybeRescan.exec s).2
  | watch (s : Session) (kind : PendingKind) (h : s.stagedFor p = false) :
      Later p s ((onWatch (.pending p kind)).exec s).2
  | retryStall (s : Session) : Later p s (maybeRetryStall.exec s).2
  | elsewhere (s s' : Session) (he : s'.engine.index.get p = s.engine.index.get p)
      (hd : ∀ sig, s.OnDisk p sig → s'.OnDisk p sig) : Later p s s'

theorem Same.onDisk (hs : Same p s s') (h : s.OnDisk p sig) :
    s'.engine.index.get p = s.engine.index.get p ∧ s'.OnDisk p sig :=
  ⟨hs.entry, h.of_ground hs.ground⟩

/-- A winner that is on disk stays there, with nothing minted for its path. -/
theorem Later.keeps (hl : Later p s s') (h : s.OnDisk p sig)
    (hw : s.engine.winnerState p = some (.present sig)) :
    s'.engine.index.get p = s.engine.index.get p ∧ s'.OnDisk p sig := by
  cases hl with
  | startupScan hv => exact (startupScan_same h hw hv).onDisk h
  | rescan hv => exact (maybeRescan_same h hw hv).onDisk h
  | watch kind hst => exact (onWatch_same h hw hst kind).onDisk h
  | retryStall => exact (maybeRetryStall_same p s).onDisk h
  | elsewhere _ he hd => exact ⟨he, hd sig h⟩

theorem Later.run (hrun : Relation.ReflTransGen (Later p) s s') (h : s.OnDisk p sig)
    (hw : s.engine.winnerState p = some (.present sig)) :
    s'.engine.index.get p = s.engine.index.get p ∧ s'.OnDisk p sig := by
  induction hrun with
  | refl => exact ⟨rfl, h⟩
  | tail _ hl ih =>
    obtain ⟨he, hd⟩ := ih
    have hw' := hw
    rw [winnerState, ← he, ← winnerState] at hw'
    obtain ⟨he', hd'⟩ := hl.keeps hd hw'
    exact ⟨he'.trans he, hd'⟩

/-- A change whose file runs out of space while it is staged is absorbed all the same, so that no
peer sends it again; its path is sound ever after if and only if its content is on disk already. -/
theorem RunsOut.materialized_iff (h : t.RunsOut c bytes sig)
    (hs : s = ((absorbAndExecute c bytes).exec t).2) :
    (∀ (peer : Index), ∀ d ∈ uncoveredHeads peer s.engine.index, d.path = c.path →
        ¬d.version ≤ c.version) ∧
      ((∀ s', Relation.ReflTransGen (Later c.path) s s' → s'.Materialized c.path ∧
          s'.engine.index.get c.path = s.engine.index.get c.path) ↔ t.OnDisk c.path sig) := by
  obtain ⟨hengine, hground⟩ := h.absorbed hs
  obtain ⟨_, w, hwin, hw⟩ := Engine.applyTarget_some h.target
  have hwin : s.engine.winnerState c.path = some (.present sig) := by
    cases w with
    | tombstone => cases hw
    | present sig' =>
      cases hw
      rw [hengine, hwin]
  refine ⟨fun peer d hd hp hle => ?_, fun hall => ?_, fun hdisk s' hrun => ?_⟩
  · obtain ⟨entry, hg, hk⟩ := t.engine.handleRemote_knows c
    obtain ⟨head, hm, hv⟩ := (entry.knows_iff c.version).1 hk
    rw [uncoveredHeads] at hd
    obtain ⟨⟨q, e⟩, _, hd⟩ := List.mem_flatMap.1 hd
    obtain ⟨g, hgm, rfl⟩ := List.mem_map.1 hd
    obtain rfl : q = c.path := hp
    have hun := (List.mem_filter.1 hgm).2
    rw [hengine, hg] at hun
    have hcov := (covered_iff g.version entry.heads).2 ⟨head, hm, hle.trans hv⟩
    simp only [hcov, Bool.not_true, Bool.false_eq_true] at hun
  · exact ((hall s .refl).1 sig hwin).of_ground hground.symm
  · obtain ⟨he, hd⟩ := Later.run hrun (hdisk.of_ground hground) hwin
    refine ⟨fun sig' hw' => ?_, he⟩
    rw [winnerState, he, ← winnerState, hwin] at hw'
    cases hw'
    exact hd

end Session

/-- A connected session that tracks nothing, on a full disk. -/
def fullSession : Session :=
  { Session.start rootDir syncAll (.new ⟨1⟩ .new) .new ((FileTree.empty : Tree).put rootDir .dir)
      with
    transport := some ⟨false⟩
    connected := true
    helloReceived := true
    diskFull := true }

/-- The session when it absorbs the peer's file `foo`. -/
def fullAbsorbing : Session :=
  letI := tabulated shortHashes
  framedSession fullSession (modifiedAt fooPath) [0x31]

def fullStalled : Session :=
  letI := tabulated shortHashes
  fullSession.after (.burst [dirFrame])

/-- The session once there is room again. -/
def fullFreed : Session :=
  letI := tabulated shortHashes
  fullStalled.after (.around ⟨fullStalled.tree, false, 5000, 0, false, false⟩)

def fullRetried : Session :=
  letI := tabulated shortHashes
  fullFreed.after .retryStall

/-- The session once the watcher has asked for a rescan. -/
def fullSignalled : Session :=
  letI := tabulated shortHashes
  fullRetried.after (.burst [⟨.watch .needsRescan, false, 0⟩])

def fullQuiet : Session :=
  letI := tabulated shortHashes
  fullSignalled.after (.around ⟨fullSignalled.tree, false, 6000, 0, false, false⟩)

def fullRescanned : Session :=
  letI := tabulated shortHashes
  fullQuiet.after .rescan

/-- The peer's index, which has the file. -/
def fooIndex : Index :=
  Index.new.upsert fooPath (.single (modifiedAt fooPath).version (.present oneSig))

/-- The file is absorbed and not written; the retry asks for nothing, and a rescan mints the removal
of the file and sends it. -/
theorem stall_removes :
    letI := tabulated shortHashes
    Relation.ReflTransGen Session.Step fullSession fullRescanned ∧
      fullSession.Absorbs [dirFrame] (modifiedAt fooPath) (some [0x31]) fullAbsorbing ∧
      fullAbsorbing.RunsOut (modifiedAt fooPath) (some [0x31]) oneSig ∧
      fullStalled.engine.winnerState fooPath = some (.present oneSig) ∧
      ¬fullStalled.OnDisk fooPath oneSig ∧
      fullRetried.sent = fullStalled.sent ++ [.indexExchange fullStalled.engine.index] ∧
      Session.uncoveredHeads fooIndex fullStalled.engine.index = [] ∧
      fullRescanned.engine.winnerState fooPath = some .tombstone ∧
      (fullRescanned.sent.map fun m => match m with
        | .change c _ => some (c.path, c.kind)
        | _ => none) = [none, some (fooPath, .removed)] := by
  let platform := tabulated shortHashes
  have hab : fullSession.Absorbs [dirFrame] (modifiedAt fooPath) (some [0x31]) fullAbsorbing :=
    framed_absorbs (by decide +kernel)
  have hout : fullAbsorbing.RunsOut (modifiedAt fooPath) (some [0x31]) oneSig :=
    ⟨by decide +kernel, by decide +kernel, by decide +kernel, [0x31], .writeStaging,
      join rootDir fooPath, by decide +kernel, by decide +kernel⟩
  have hdisk : fullStalled.fileAt fooPath = false := by decide +kernel
  refine ⟨?_, hab, hout, by decide +kernel, fun h => ?_, by decide +kernel, by decide +kernel,
    by decide +kernel, by decide +kernel⟩
  · exact .tail (.tail (.tail (.tail (.tail (.tail .refl ⟨.burst [dirFrame], rfl⟩)
      ⟨.around _, rfl⟩) ⟨.retryStall, rfl⟩) ⟨.burst _, rfl⟩) ⟨.around _, rfl⟩) ⟨.rescan, rfl⟩
  · rw [h.1] at hdisk
    cases hdisk

/-- A session on a full disk with the file on disk, whose entry is a tombstone. -/
def fullShowing : Session :=
  { Session.start rootDir syncAll (.new ⟨1⟩ (Index.new.upsert fooPath
      (.single (VectorClock.new.tick ⟨1⟩) .tombstone))) .new (fooTree 0x31) with
    diskFull := true }

def fullShown : Session :=
  letI := tabulated shortHashes
  ((Session.absorbAndExecute (modifiedAt fooPath) (some [0x31])).exec fullShowing).2

/-- There the path is sound ever after. -/
theorem stall_sound :
    letI := tabulated shortHashes
    fullShowing.OnDisk fooPath oneSig ∧
      ∀ s', Relation.ReflTransGen (Session.Later fooPath) fullShown s' →
        s'.Materialized fooPath ∧
          s'.engine.index.get fooPath = fullShown.engine.index.get fooPath := by
  let platform := tabulated shortHashes
  have hout : fullShowing.RunsOut (modifiedAt fooPath) (some [0x31]) oneSig :=
    ⟨by decide +kernel, by decide +kernel, by decide +kernel, [0x31], .writeStaging,
      join rootDir fooPath, by decide +kernel, by decide +kernel⟩
  have hsnap : snapshot fullShowing.tree fullShowing.root fooPath =
      .ok (some ⟨oneSig.hash, 1, false, 7⟩) := by decide +kernel
  have hdisk : fullShowing.OnDisk fooPath oneSig := ⟨by decide +kernel, _, hsnap, by decide +kernel⟩
  exact ⟨hdisk, (hout.materialized_iff (s := fullShown) rfl).2.2 hdisk⟩

end Tomo
