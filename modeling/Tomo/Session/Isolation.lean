import Tomo.Session.Escape
import Tomo.Session.Running
import Tomo.Session.Scanning

namespace Tomo
set_option autoImplicit true

/-- What of an object is not its mode. -/
def Node.content : Node N → Node N
  | .file bytes _ mtime => .file bytes 0 mtime
  | .dir => .dir
  | .link target => .link target

/-- The places that a file system which identifies names by `fold` takes for the state directory
of `root`, or for something in it. -/
def InState (fold : Name → Name) (root q : List Name) : Prop :=
  ∃ c rest, q = root ++ c :: rest ∧ fold c = fold tomoDir

/-- A path does not begin with a spelling of the state directory. -/
def RelPath.Beyond (fold : Name → Name) (p : RelPath) : Prop :=
  ∀ c, p.components.head? = some c → fold c ≠ fold tomoDir

variable {fold : Name → Name} {p : RelPath}

theorem RelPath.Beyond.within (h : p.Beyond fold) : Within (RelPath.Beyond fold) p := by
  intro d hd c hc
  apply h
  obtain ⟨rest, hrest⟩ := hd
  rw [← hrest, List.head?_append, hc]
  rfl

theorem RelPath.Beyond.clears (h : p.Beyond fold) (root : List Name) :
    FileTree.Clears (InState fold root) root p.components := by
  rintro r hr ⟨rest, hrest⟩ ⟨c, l, hq, hc⟩
  have hcl : r = c :: l := List.append_cancel_left hq
  apply h c _ hc
  rw [← hrest, hcl]
  rfl

namespace Session
open Eff

/-- The session has left what lies in the state directory as it was, and can go on so. -/
structure Untouched (fold : Name → Name) (s₀ s : Session) : Prop extends
    Reaches (InState fold s₀.root) s where
  root : s.root = s₀.root
  state : ∀ q, InState fold s₀.root q →
    (s.tree.get q).map Node.content = (s₀.tree.get q).map Node.content

variable {s₀ s s' : Session} {x : SessionM α}

theorem Untouched.sparing (h : Untouched fold s₀ s) (hs : Sparing (InState fold s₀.root) s s') :
    Untouched fold s₀ s' where
  toReaches := hs.reaches
  root := hs.root.trans h.root
  state q hq := by
    rw [hs.tree.spared q hq]
    exact h.state q hq

/-- Over the same disk it takes only that nothing new is staged. -/
theorem Untouched.fewer (h : Untouched fold s₀ s) (hr : s'.root = s.root) (ht : s'.tree = s.tree)
    (hp : s'.pendingInstalls ⊆ s.pendingInstalls) : Untouched fold s₀ s' := by
  refine h.sparing (.tree_only h.toReaches hr ?_ fun i hi => ⟨i, hp hi, rfl, rfl⟩)
  rw [ht]
  exact .refl _ _ _

theorem Untouched.of_stake (h : Untouched fold s₀ s) (hs : s'.stake = s.stake) :
    Untouched fold s₀ s' := by
  have hr : s'.stake.root = s.stake.root := by rw [hs]
  have ht : s'.stake.tree = s.stake.tree := by rw [hs]
  have hp : s'.stake.pendingInstalls = s.stake.pendingInstalls := by rw [hs]
  refine h.fewer hr ht ?_
  rw [show s'.pendingInstalls = s.pendingInstalls from hp]
  exact List.Subset.refl _

theorem Untouched.unstage (h : Untouched fold s₀ s) :
    Untouched fold s₀ { s with pendingInstalls := [] } := h.fewer rfl rfl (List.nil_subset _)

theorem Stays.untouched (hx : Untouched fold s₀ s → Stays (InState fold s₀.root) x s) :
    Upholds (Untouched fold s₀) x s := ⟨fun h => h.sparing (hx h)⟩

section
variable [Platform]

/-- Setting a mode leaves every content, wherever the path leads. -/
theorem Untouched.skips (h : Untouched fold s₀ s) (hskip : s.Skips p sig bytes) :
    Untouched fold s₀ ((materialize p sig bytes).exec s).2 := by
  obtain ⟨q, b, m, k, hq, hg⟩ := locate_readVerified hskip.2
  obtain ⟨u, hu, hget⟩ := setExecMode_spec hq hg sig.exec
  rw [materialize_skips hskip, hu]
  refine ⟨⟨h.toReaches.toAnchored.chmod hg hget, h.clears⟩, h.root, fun r hr => ?_⟩
  rw [← h.state r hr, hget]
  split
  next hqr =>
    rw [← hqr, hg]
    rfl
  next => rfl

/-- Applying a change to a probed path beyond the state directory leaves that directory alone. -/
theorem doApply_untouched (hp : p.Beyond fold) (target : Expectation) (bytes : Option Bytes)
    (hprobe : snapshot s.tree s.root p = .ok o) :
    Upholds (Untouched fold s₀) (doApply p target bytes) s := by
  refine .assuming fun h => ?_
  have hs : s.Reaches (InState fold s₀.root) := h.toReaches
  have hclear : FileTree.Clears (InState fold s₀.root) s.root p.components := by
    rw [h.root]
    exact hp.clears s₀.root
  cases target with
  | absent => exact Stays.untouched fun _ => applyAbsentGuarded_stays hs hclear
  | present sig =>
    cases hdir : pathIsDir s.tree (join s.root p) with
    | true => exact Stays.untouched fun _ => applyPresentBySig_dir hprobe hs hdir
    | false =>
      have hx : (doApply p (.present sig) bytes).exec s = (materialize p sig bytes).exec s :=
        applyPresentBySig_file hprobe hdir
      constructor
      intro _
      rw [hx]
      by_cases hskip : s.Skips p sig bytes
      · exact h.skips hskip
      · exact h.sparing (materialize_stays hs hclear hskip)

theorem untouched_tended (allowed : RelPath → Prop) : Tended allowed (Untouched fold s₀) where
  indifferent h hs _ := h.of_stake hs
  quit h := h.fewer rfl rfl (List.nil_subset _)
  hangUp h _ := h.of_stake rfl
  speak h _ := h.of_stake rfl
  serve h _ := h.of_stake rfl
  bulk := shipBulkSubbatch_upholds (fun h hs _ => h.of_stake hs) fun {s} h =>
    (goOffline_stake s).elim h.of_stake h.unstage.of_stake
  flush s := Stays.untouched fun h => flushInstalls_stays h.toReaches
  store _ _ _ _ _ s := Stays.untouched fun h => (storeVersion_books ..).stays h.toReaches
  note _ _ _ _ _ s := Stays.untouched fun h => (noteVersion_files ..).books.stays h.toReaches
  conflict _ s := Stays.untouched fun h => (recordConflictCapture_books ..).stays h.toReaches
  pump s := Stays.untouched fun h => (pumpHistory_books s).stays h.toReaches
  drain s := Stays.untouched fun h => (drainHistory_books s).stays h.toReaches

theorem untouched_tacit : Tacit (RelPath.Beyond fold) (Untouched fold s₀) where
  toTended := untouched_tended _
  apply hp target bytes s hprobe := by
    obtain ⟨o, ho⟩ := hprobe
    exact doApply_untouched hp.self target bytes ho
  tacit h hs := h.of_stake hs
  unstage h := h.unstage

/-- No frame of a pass that the rules let in is about a spelling of the state directory, and the
root stays a directory. -/
def PassBeyond (fold : Name → Name) (s : Session) : Pass → Prop
  | .burst batch => ∀ a ∈ batch, ∀ msg, a.item = .message msg →
      msg.Admitted s.config (RelPath.Beyond fold)
  | .around w => w.tree.get s.root = some .dir
  | _ => True

/-- The session itself leaves the state directory alone, in all that it does in one pass. -/
theorem Untouched.after (h : Steady s.config (RelPath.Beyond fold) (Untouched fold s₀) s)
    (pass : Pass) (hp : s.PassBeyond fold pass) (hw : ∀ w, pass ≠ .around w) :
    Steady s.config (RelPath.Beyond fold) (Untouched fold s₀) (s.after pass) := by
  have hk : Tended (fun _ => True) (Untouched fold s₀) := untouched_tended _
  have ht : Tacit (RelPath.Beyond fold) (Untouched fold s₀) := untouched_tacit
  have hall := s.passAdmitted_all
  cases pass with
  | startupScan => exact (hk.startupScan (hall .startupScan)).after h
  | completeHistory => exact (hk.reconcileHistoryCompleteness (hall .completeHistory)).after h
  | connect => exact (ht.onConnected s).after h
  | burst batch =>
    refine (hk.processBurst (fun a ha s' => ?_) s).map.after h
    refine hk.processIncoming (fun _ _ => a.item.admitted_all s.config) (fun msg hm hq s' => ?_)
      fun hq => ht.aboutPause hq s'
    refine ht.onMessage (hp a ha msg hm) fun h => ?_
    rw [hq] at h
    cases h
  | shipBulk => exact (hk.shipBulkSubbatch s).after h
  | rescan => exact (hk.maybeRescan (hall .rescan)).after h
  | pumpHistory => exact ((pumpHistory_books s).works.upholds (hk.pump s)).after h
  | retryStall => exact (hk.maybeRetryStall s).after h
  | drainHistory => exact ((drainHistory_books s).works.upholds (hk.drain s)).after h
  | around w => exact (hw w rfl).elim

omit [Platform] in
theorem core_pendingInstalls (h : s'.core = s.core) : s'.pendingInstalls = s.pendingInstalls := by
  have hp : s'.core.pendingInstalls = s.core.pendingInstalls := by rw [h]
  exact hp

/-- Nothing gets staged where nothing is applied. -/
theorem unstaged_tended : Tended (fun _ => True) fun s => s.pendingInstalls = [] where
  indifferent {s s'} h hs _ := by
    have hp : s'.stake.pendingInstalls = s.stake.pendingInstalls := by rw [hs]
    exact (show s'.pendingInstalls = s.pendingInstalls from hp).trans h
  quit _ := rfl
  hangUp h _ := h
  speak h _ := h
  serve h _ := h
  bulk := by
    refine shipBulkSubbatch_upholds (fun {s s'} h hs _ => ?_) fun {s} h => ?_
    · have hp : s'.stake.pendingInstalls = s.stake.pendingInstalls := by rw [hs]
      exact (show s'.pendingInstalls = s.pendingInstalls from hp).trans h
    · rw [goOffline]
      split
      · exact h
      · obtain ⟨f, hf⟩ := suspendTransfers_only
          { s with transport := none, connected := false, helloReceived := false }
        rw [hf]
  flush s := by
    constructor
    intro h
    simp only [flushInstalls, exec_get_bind, h, installAll, exec_set]
  store _ _ _ _ _ s := ⟨fun h => (core_pendingInstalls (storeVersion_books ..).core).trans h⟩
  note _ _ _ _ _ s := ⟨fun h => (core_pendingInstalls (noteVersion_files ..).books.core).trans h⟩
  conflict _ s := ⟨fun h => (core_pendingInstalls (recordConflictCapture_books ..).core).trans h⟩
  pump s := ⟨fun h => (core_pendingInstalls (pumpHistory_books s).core).trans h⟩
  drain s := ⟨fun h => (core_pendingInstalls (drainHistory_books s).core).trans h⟩

/-- A session between two passes of its loop. -/
structure Idle (fold : Name → Name) (s : Session) : Prop where
  root_dir : s.tree.get s.root = some .dir
  unstaged : s.pendingInstalls = []
  assembling : ∀ (p : RelPath) (a : Assembly), s.assemblies[p]? = some a →
    Within (RelPath.Beyond fold) a.change.path

omit [Platform] in
theorem Idle.untouched (h : Idle fold s) :
    Steady s.config (RelPath.Beyond fold) (Untouched fold s) s := by
  refine ⟨⟨⟨⟨h.root_dir, fun i hi => ?_⟩, fun i hi => ?_⟩, rfl, fun _ _ => rfl⟩, rfl, h.assembling⟩
  · rw [h.unstaged] at hi
    cases hi
  · rw [h.unstaged] at hi
    cases hi

/-- A pass that goes through leaves nothing staged. -/
theorem after_unstaged (h : s.pendingInstalls = []) {pass : Pass}
    (hok : ((work pass).exec s).1 = .ok ⟨⟩) : (s.after pass).pendingInstalls = [] := by
  have hk := unstaged_tended
  have hall := s.passAdmitted_all
  have hs : Steady s.config (fun _ => True) (fun s => s.pendingInstalls = []) s :=
    ⟨h, rfl, fun _ _ _ _ _ => trivial⟩
  cases pass with
  | startupScan => exact ((hk.startupScan (hall .startupScan)).after hs).holds
  | completeHistory =>
    exact ((hk.reconcileHistoryCompleteness (hall .completeHistory)).after hs).holds
  | connect =>
    have hhealthy : Healthy { s with transport := some ⟨false⟩ } := by
      rintro t ⟨⟩
      rfl
    simp only [after, work, onConnected, exec_modify_bind, exec_get_bind]
    rw [send_exec hhealthy]
    exact h
  | burst batch =>
    have hburst : ∃ leave, ((processBurst batch).exec s).1 = .ok leave := by
      rcases hx : (work (.burst batch)).exec s with ⟨r, u⟩
      rw [hx] at hok
      cases hok
      obtain ⟨leave, hleave⟩ := ok_of_map hx
      exact ⟨leave, by rw [hleave]⟩
    obtain ⟨leave, hleave⟩ := hburst
    obtain ⟨u, _, hflush⟩ := processBurst_ok hleave
    simp only [flushInstalls, exec_get_bind] at hflush
    split at hflush
    · cases hflush
    · rw [exec_set] at hflush
      rw [← (Prod.mk.inj hflush).2]
  | shipBulk => exact ((hk.shipBulkSubbatch s).after hs).holds
  | rescan => exact ((hk.maybeRescan (hall .rescan)).after hs).holds
  | pumpHistory => exact (((pumpHistory_books s).works.upholds (hk.pump s)).after hs).holds
  | retryStall => exact ((hk.maybeRetryStall s).after hs).holds
  | drainHistory => exact (((drainHistory_books s).works.upholds (hk.drain s)).after hs).holds
  | around w => exact h

/-- A pass that goes through and takes up no spelling of the state directory. -/
def BeyondStep (fold : Name → Name) (s s' : Session) : Prop :=
  ∃ pass, s.PassBeyond fold pass ∧ ((work pass).exec s).1 = .ok ⟨⟩ ∧ s' = s.after pass

theorem Idle.step (h : Idle fold s) (hstep : BeyondStep fold s s') : Idle fold s' := by
  obtain ⟨pass, hp, hok, rfl⟩ := hstep
  have hn := after_unstaged h.unstaged hok
  by_cases hw : ∃ w, pass = .around w
  · obtain ⟨w, rfl⟩ := hw
    exact ⟨hp, hn, h.assembling⟩
  · have hs := Untouched.after h.untouched pass hp fun w he => hw ⟨w, he⟩
    refine ⟨hs.holds.root_dir, hn, hs.assembling⟩

theorem Idle.run (h : Idle fold s) (hrun : Relation.ReflTransGen (BeyondStep fold) s s') :
    Idle fold s' := by
  induction hrun with
  | refl => exact h
  | tail _ hstep ih => exact ih.step hstep

/-- In a run that takes up no spelling of the state directory no pass changes what lies there. -/
theorem BeyondRun.state_kept (fold : Name → Name) (hroot : s.tree.get s.root = some .dir)
    (hn : s.pendingInstalls = []) (ha : s.assemblies = ∅)
    (hrun : Relation.ReflTransGen (BeyondStep fold) s s') (pass : Pass)
    (hp : s'.PassBeyond fold pass) (hw : ∀ w, pass ≠ .around w) (q : List Name)
    (hq : InState fold s'.root q) :
    ((s'.after pass).tree.get q).map Node.content = (s'.tree.get q).map Node.content := by
  have hidle : Idle fold s := by
    refine ⟨hroot, hn, fun p a hp => ?_⟩
    rw [ha, Std.ExtTreeMap.getElem?_empty] at hp
    cases hp
  exact (Untouched.after (hidle.run hrun).untouched pass hp hw).holds.state q hq

end

end Session

/-- A file system that folds the case of names, with the hashes of short contents. -/
abbrev folding : Platform :=
  { tabulated shortHashes with lowercase := fun name => name.map Char.toLower }

/-- The state directory in another spelling. -/
def upperPath : RelPath := ⟨".TOMO/x".toList, by decide⟩

def plainConfig : Config := ((Config.fromRaw plainGlobs true []).toOption).getD syncAll

/-- A session on such a file system, with the state directory in place. -/
def foldingSession : Session :=
  { Session.start rootDir plainConfig (.new ⟨1⟩ .new) .new
      (((FileTree.empty : Tree).put rootDir .dir).put (rootDir ++ [tomoDir]) .dir) with
    fs := ⟨true, false⟩ }

/-- A peer sends a file for the other spelling. -/
def upperWritten : Session :=
  letI := folding
  foldingSession.after (.burst [⟨.message (.change (modifiedAt upperPath) (some [0x31])), false, 0⟩])

/-- The rules let the frame in, no collision is found, and the file is written. -/
theorem upper_written :
    letI := folding
    Config.fromRaw plainGlobs true [] = .ok plainConfig ∧
      foldingSession.tree.get rootDir = some .dir ∧
      InState Platform.lowercase rootDir (join rootDir upperPath) ∧
      foldingSession.tree.get (join rootDir upperPath) = none ∧
      upperWritten.tree.get (join rootDir upperPath) = some (.file [0x31] 0o644 0) := by
  let platform := folding
  refine ⟨rfl, by decide, ⟨".TOMO".toList, [['x']], by decide, by decide⟩, by decide, ?_⟩
  decide +kernel

/-- A file for another path is written beside the state directory. -/
theorem beside_written :
    letI := folding
    ((foldingSession.after (.burst [⟨.message (.change (modifiedAt firstPath) (some [0x31])), false,
      0⟩])).tree.get (join rootDir upperPath)).map Node.content =
        (foldingSession.tree.get (join rootDir upperPath)).map Node.content := by
  let platform := folding
  refine Session.BeyondRun.state_kept Platform.lowercase (by decide) rfl rfl .refl _ ?_
    (fun w h => by cases h) _ ⟨".TOMO".toList, [['x']], by decide, by decide⟩
  intro a ha msg hm
  cases List.mem_singleton.1 ha
  cases hm
  intro _
  apply RelPath.Beyond.within
  intro c hc
  cases hc
  decide

end Tomo
