import Tomo.Session.Filing
import Tomo.Session.Rules
import Tomo.Session.Running
import Tomo.Session.Scanning

namespace Tomo
set_option autoImplicit true

/-- Whether the rules leave the versions of a path to history. -/
def Config.keepsHistory (cfg : Config) (p : RelPath) : Prop :=
  (cfg.classify p).cls ≠ .syncedUnversioned

namespace Session
variable [Platform] {s s' : Session}

/-- The rows that a session has added to both tables are about paths that keep a history. -/
def RowsKept (s s' : Session) : Prop :=
  (∃ l, s'.history.versions = s.history.versions ++ l ∧ ∀ r ∈ l, s.config.keepsHistory r.path) ∧
    ∃ l, s'.history.conflicts = s.history.conflicts ++ l ∧ ∀ r ∈ l, s.config.keepsHistory r.path

/-- In a run that takes up no path without a history, and none below one, no such path gets a row. -/
theorem AdmittedRun.rows_kept (hn : s.pressure.staging = ∅) (ha : s.assemblies = ∅)
    (hrun : Relation.ReflTransGen (AdmittedStep s.config.keepsHistory) s s') : RowsKept s s' := by
  have hsteady : Steady s.config s.config.keepsHistory
      (Filed s.config.keepsHistory s.history.versions s.history.conflicts) s' := by
    induction hrun with
    | refl =>
      refine ⟨⟨⟨⟨[], by simp⟩, ⟨[], by simp⟩⟩, fun p hp => ?_⟩, rfl, fun p a hp => ?_⟩
      · rw [hn, Std.ExtTreeMap.getElem?_empty] at hp
        cases hp
      · rw [ha, Std.ExtTreeMap.getElem?_empty] at hp
        cases hp
    | tail _ hstep ih =>
      obtain ⟨pass, hp, rfl⟩ := hstep
      exact filed_kept.after pass hp (fun _ _ h => h) ih
  exact ⟨hsteady.holds.rows.versions, hsteady.holds.rows.conflicts⟩

end Session

/-- Everything is synced, but the versions of `foo` are not to be kept. -/
def fooRules : List Rule := [⟨"foo".toList, .syncedUnversioned, .both⟩]

def fooConfig : Config := ((Config.fromRaw plainGlobs true fooRules).toOption).getD syncAll

/-- A session under that rule that has not seen the file `foo` on disk yet. -/
def unseenSession : Session := .start rootDir fooConfig (.new ⟨1⟩ .new) .new (fooTree 0x31)

/-- The watcher reports `foo`. -/
def fooReported : Session :=
  letI := tabulated shortHashes
  unseenSession.after (.burst [⟨.watch (.pending fooPath .dirty), false, 0⟩])

def fooDrained : Session :=
  letI := tabulated shortHashes
  fooReported.after .drainHistory

/-- A version of a file without a history is stored like any other. -/
theorem unversioned_recorded :
    letI := tabulated shortHashes
    Config.fromRaw plainGlobs true fooRules = .ok fooConfig ∧
      (fooConfig.classify fooPath).cls = .syncedUnversioned ∧
      Relation.ReflTransGen Session.Step unseenSession fooDrained ∧
      fooDrained.history.versions.map VersionRow.path = [fooPath] ∧
      ¬Session.RowsKept unseenSession fooDrained := by
  let platform := tabulated shortHashes
  have hc : (fooConfig.classify fooPath).cls = .syncedUnversioned := by decide +kernel
  have hv : fooDrained.history.versions.map VersionRow.path = [fooPath] := by decide +kernel
  have hrun : Relation.ReflTransGen Session.Step unseenSession fooDrained :=
    (Relation.ReflTransGen.single ⟨_, rfl⟩).tail (b := fooReported) ⟨_, rfl⟩
  refine ⟨rfl, hc, hrun, hv, ?_⟩
  rintro ⟨⟨l, hl, hall⟩, _⟩
  have hm : fooPath ∈ fooDrained.history.versions.map VersionRow.path := by
    rw [hv]
    exact List.mem_singleton.2 rfl
  obtain ⟨r, hr, hp⟩ := List.mem_map.1 hm
  rw [hl] at hr
  apply hall r hr
  rw [hp]
  exact hc

/-- A version of another file is stored, and of that one only. -/
theorem other_recorded :
    letI := tabulated shortHashes
    Session.RowsKept unseenSession (unseenSession.after
      (.burst [⟨.message (.change (modifiedAt firstPath) (some [0x31])), false, 0⟩])) := by
  let platform := tabulated shortHashes
  refine Session.AdmittedRun.rows_kept rfl rfl (.single ⟨_, ?_, rfl⟩)
  intro a ha
  cases List.mem_singleton.1 ha
  exact fun _ => .of_single (show (fooConfig.classify firstPath).cls ≠ .syncedUnversioned by
    decide +kernel) (by decide)

end Tomo
