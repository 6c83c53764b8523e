import Tomo.Session.Plain

namespace Tomo
set_option autoImplicit true

namespace Session
open Eff

/-- A path in a tree without links, with no regular file above it and nothing staged for it. -/
structure Open (s : Session) (p : RelPath) : Prop where
  linkless : s.tree.Linkless
  root_dir : s.tree.get s.root = some .dir
  above : s.tree.underFile (join s.root p) = false
  unstaged : ∀ i ∈ s.pendingInstalls, i.path ≠ p

section
variable [Platform] {s s' : Session} {p : RelPath} {sig : ContentSig} {bytes : Bytes}
  {remoteBytes : Option Bytes}

omit [Platform] in
theorem Open.of_core (h : s.Open p) (hc : s'.core = s.core) : s'.Open p := by
  have hr : s'.core.root = s.core.root := by rw [hc]
  have ht : s'.core.tree = s.core.tree := by rw [hc]
  have hp : s'.core.pendingInstalls = s.core.pendingInstalls := by rw [hc]
  simp only [core] at hr ht hp
  constructor
  · rw [ht]
    exact h.linkless
  · rw [ht, hr]
    exact h.root_dir
  · rw [ht, hr]
    exact h.above
  · rw [hp]
    exact h.unstaged

theorem Open.probe (h : s.Open p) : ∃ o, snapshot s.tree s.root p = .ok o := by
  rw [snapshot_linkless h.linkless, h.above]
  exact ⟨_, rfl⟩

omit [Platform] in
theorem flushPendingInstallFor_unstaged (h : ∀ i ∈ s.pendingInstalls, i.path ≠ p) :
    (flushPendingInstallFor p).exec s = (.ok ⟨⟩, s) := by
  have hn : s.stagedFor p = false := by
    rw [stagedFor, List.any_eq_false]
    intro i hi
    simpa using h i hi
  simp only [flushPendingInstallFor, exec_get_bind, hn, Bool.false_eq_true, ↓reduceIte, exec_pure]

omit [Platform] in
theorem applyAbsentGuarded_dir (h : s.Open p) (hd : s.tree.get (join s.root p) = some .dir) :
    (applyAbsentGuarded p).exec s = (.ok ⟨⟩, { s with createdDirs := [], rescanPending := true }) := by
  rw [applyAbsentGuarded, exec_bind_ok (flushPendingInstallFor_unstaged h.unstaged)]
  simp only [exec_modify_bind, exec_get_bind, (pathIsDir_iff h.linkless _).2 hd, ↓reduceIte,
    exec_set]

omit [Platform] in
theorem applyAbsentGuarded_file (h : s.Open p) (hd : s.tree.get (join s.root p) ≠ some .dir) :
    ∃ tree, applyAbsent s.tree s.root p = .ok tree ∧
      (applyAbsentGuarded p).exec s = (.ok ⟨⟩, { s with createdDirs := [], tree }) := by
  obtain ⟨v, _, hv⟩ := applyAbsent_linkless h.linkless h.root_dir h.above hd
  refine ⟨_, hv, ?_⟩
  have hdir : pathIsDir s.tree (join s.root p) = false := by
    rw [Bool.eq_false_iff, Ne, pathIsDir_iff h.linkless]
    exact hd
  rw [applyAbsentGuarded, exec_bind_ok (flushPendingInstallFor_unstaged h.unstaged)]
  simp only [exec_modify_bind, exec_get_bind, hdir, Bool.false_eq_true, ↓reduceIte, hv, exec_set]

/-- The install a file is staged for. -/
def staging (s : Session) (p : RelPath) (sig : ContentSig) (bytes : Bytes) : PendingInstall :=
  ⟨some ⟨bytes, execMode sig.exec, s.wallMs⟩, join s.root p, p, sig⟩

theorem writePresent_room (h : s.Open p) (hm : matchesSig bytes sig = true)
    (hfull : s.diskFull = false) (hdirs : ∀ d ∈ s.createdDirs, s.tree.get d = some .dir) :
    ∃ tree createdDirs, (writePresent p sig bytes).exec s = (.ok ⟨⟩, { s with
        tree, createdDirs, pendingInstalls := s.pendingInstalls ++ [s.staging p sig bytes] }) ∧
      (∀ r, tree.get r =
        if r <+: (join s.root p).dropLast then some .dir else s.tree.get r) ∧
      ∀ d ∈ createdDirs, d ∈ s.createdDirs ∨ d = (join s.root p).dropLast := by
  obtain ⟨u, dirs, hst, hget, hd⟩ :=
    stagePresent_room h.linkless h.root_dir h.above hm hdirs s.wallMs
  refine ⟨u, dirs, ?_, hget, hd⟩
  rw [writePresent, exec_bind_ok (flushPendingInstallFor_unstaged h.unstaged)]
  simp only [exec_get_bind, exec_set_bind, hfull, hst, exec_modify]
  rfl

theorem writePresent_full (h : s.Open p) (hm : matchesSig bytes sig = true)
    (hfull : s.diskFull = true) :
    ∃ createdDirs, (writePresent p sig bytes).exec s = (.ok ⟨⟩, { s with
      createdDirs, diskStalled := true, lastStallRetry := s.nowMs }) := by
  obtain ⟨dirs, op, path, hst⟩ :=
    stagePresent_full h.linkless h.root_dir h.above hm s.createdDirs s.wallMs
  refine ⟨dirs, ?_⟩
  rw [writePresent, exec_bind_ok (flushPendingInstallFor_unstaged h.unstaged)]
  simp only [exec_get_bind, exec_set_bind, hfull, hst]
  rfl

theorem writePresent_mismatch (h : ∀ i ∈ s.pendingInstalls, i.path ≠ p)
    (hm : matchesSig bytes sig = false) :
    (writePresent p sig bytes).exec s = (.error (.integrity p), s) := by
  rw [writePresent, exec_bind_ok (flushPendingInstallFor_unstaged h)]
  simp only [exec_get_bind, exec_set_bind, stagePresent, hm, ↓reduceIte, exec_throw]

end

end Session

end Tomo
