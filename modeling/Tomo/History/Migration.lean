import Tomo.History.Check
import Tomo.Lib.Grouping

namespace Tomo
set_option autoImplicit true
open Grouping

/-- What the index `versions_identity` is on. -/
abbrev VersionCells.identity (r : VersionCells) : List Char × SqlValue × Bytes :=
  (r.path, r.state, r.clock)

inductive MigrateError where
  | duplicateColumn
  | notNull
  | foreignKey
  | unique
  | nestedTransaction
  | noTransaction
deriving DecidableEq

/-- A history file with what its schema has: `state` is `NOT NULL`, and the identity index, where
it exists, admits no second row. -/
@[ext] structure HistoryFile where
  tables : Database
  hasExec : Bool
  hasIdentity : Bool
  userVersion : Nat
  stated : ∀ r ∈ tables.versions, r.state ≠ .null
  unique : hasIdentity = true → (tables.versions.map VersionCells.identity).Nodup

namespace Database

@[ext] theorem ext_tables {a b : Database} (hv : a.versions = b.versions) (hc : a.chunks = b.chunks)
    (hk : a.conflicts = b.conflicts) : a = b := by
  cases a
  cases b
  cases hv
  cases hc
  cases hk
  rfl

/-- The SQL comparison: `NULL` equals nothing. -/
def sqlEq (a b : SqlValue) : Bool := decide (a ≠ .null ∧ a = b)

/-- The correlated subquery: the lowest id of the group that the version `id` is in. -/
def minVersion (db : Database) (id : Int) : Option Int :=
  (db.versions.flatMap fun w =>
    if w.id = id then
      (db.versions.filter fun v =>
        decide (v.path = w.path) && sqlEq v.state w.state && decide (v.clock = w.clock)).map
          VersionCells.id
    else []).min?

/-- `SELECT MIN(id) FROM versions GROUP BY path, state, clock`. -/
def groupMinima (db : Database) : List Int :=
  db.versions.filterMap fun r => least VersionCells.identity VersionCells.id db.versions r.identity

end Database

namespace HistoryFile

/-- `ALTER TABLE versions ADD COLUMN exec INTEGER NOT NULL DEFAULT 0`. -/
def addExec (f : HistoryFile) : Except MigrateError HistoryFile :=
  if f.hasExec then .error .duplicateColumn
  else .ok
    { f with
      tables :=
        { f.tables with
          versions := f.tables.versions.map fun r => { r with exec := .integer 0 }
          keyed := by
            rw [List.map_map]
            exact f.tables.keyed }
      hasExec := true
      stated := by
        intro r hr
        obtain ⟨w, hw, rfl⟩ := List.mem_map.1 hr
        exact f.stated w hw
      unique := by
        intro h
        rw [List.map_map]
        exact f.unique h }

/-- An `UPDATE` of the table `conflicts`, row by row. -/
def updateConflicts (f : HistoryFile)
    (update : ConflictCells → Except MigrateError ConflictCells) :
    Except MigrateError HistoryFile := do
  let conflicts ← f.tables.conflicts.mapM update
  pure { f with tables := { f.tables with conflicts := conflicts } }

/-- The column is `NOT NULL`. -/
def required : Option Int → Except MigrateError Int
  | some id => .ok id
  | none => .error .notNull

def repointWinners (f : HistoryFile) : Except MigrateError HistoryFile :=
  f.updateConflicts fun c => do
    let id ← required (f.tables.minVersion c.winner)
    pure { c with winner := id }

def repointLosers (f : HistoryFile) : Except MigrateError HistoryFile :=
  f.updateConflicts fun c => do
    let id ← required (f.tables.minVersion c.loser)
    pure { c with loser := id }

/-- A row that a conflict refers to cannot go. -/
def deleteDuplicates (f : HistoryFile) : Except MigrateError HistoryFile :=
  let kept := f.tables.groupMinima
  let gone := (f.tables.versions.map VersionCells.id).filter fun id => decide (id ∉ kept)
  if f.tables.conflicts.any fun c => decide (c.winner ∈ gone ∨ c.loser ∈ gone) then
    .error .foreignKey
  else .ok
    { f with
      tables :=
        { f.tables with
          versions := f.tables.versions.filter fun r => decide (r.id ∈ kept)
          keyed := f.tables.keyed.sublist (List.filter_sublist.map _) }
      stated := fun r hr => f.stated r (List.mem_filter.1 hr).1
      unique := fun h => (f.unique h).sublist (List.filter_sublist.map _) }

/-- `CREATE UNIQUE INDEX versions_identity`. -/
def createIdentity (f : HistoryFile) : Except MigrateError HistoryFile :=
  if h : (f.tables.versions.map VersionCells.identity).Nodup then
    .ok { f with hasIdentity := true, unique := fun _ => h }
  else .error .unique

/-- `PRAGMA user_version`. -/
def stamp (f : HistoryFile) : Except MigrateError HistoryFile := .ok { f with userVersion := 3 }

end HistoryFile

inductive Statement where
  | begin
  | commit
  | change (run : HistoryFile → Except MigrateError HistoryFile)

/-- What the file holds for good, and what an open transaction would make of it. -/
structure Connection where
  durable : HistoryFile
  pending : Option HistoryFile

/-- Outside a transaction a statement commits at once. -/
def Statement.exec (c : Connection) : Statement → Except MigrateError Connection
  | .begin =>
    match c.pending with
    | some _ => .error .nestedTransaction
    | none => .ok { c with pending := some c.durable }
  | .commit =>
    match c.pending with
    | some f => .ok ⟨f, none⟩
    | none => .error .noTransaction
  | .change run =>
    match c.pending with
    | some f => do
      let f ← run f
      pure { c with pending := some f }
    | none => do
      let f ← run c.durable
      pure ⟨f, none⟩

namespace HistoryFile

def dedupVersions : List Statement :=
  [.begin, .change repointWinners, .change repointLosers, .change deleteDuplicates, .commit]

/-- The statements of `migrate` on a file whose tables exist. -/
def script (f : HistoryFile) : List Statement :=
  (if f.hasExec then [] else [.change addExec]) ++
    (if f.hasIdentity then [] else dedupVersions ++ [.change createIdentity]) ++ [.change stamp]

def migrate (f : HistoryFile) : Except MigrateError HistoryFile := do
  let c ← f.script.foldlM Statement.exec ⟨f, none⟩
  pure c.durable

/-- The file after a crash behind the first `k` statements of `migrate`: an open transaction is
rolled back. -/
def crashed (f : HistoryFile) (k : Nat) : Except MigrateError HistoryFile := do
  let c ← (f.script.take k).foldlM Statement.exec ⟨f, none⟩
  pure c.durable

variable {f g : HistoryFile}

/-- The winner and the loser of every conflict are stored. -/
def Referenced (f : HistoryFile) : Prop :=
  ∀ c ∈ f.tables.conflicts, (∃ r ∈ f.tables.versions, r.id = c.winner) ∧
    ∃ r ∈ f.tables.versions, r.id = c.loser

/-- The lowest id of the group of the version `id`. -/
def canonical (f : HistoryFile) (id : Int) : Int :=
  ((f.tables.versions.find? fun w => decide (w.id = id)).bind fun w =>
    least VersionCells.identity VersionCells.id f.tables.versions w.identity).getD id

theorem find_id {r : VersionCells} (hr : r ∈ f.tables.versions) :
    (f.tables.versions.find? fun w => decide (w.id = r.id)) = some r :=
  Database.versionRow_mem hr

theorem canonical_mem {r : VersionCells} (hr : r ∈ f.tables.versions) :
    least VersionCells.identity VersionCells.id f.tables.versions r.identity =
      some (f.canonical r.id) := by
  obtain ⟨b, _, _, hb⟩ := exists_survivor VersionCells.identity VersionCells.id hr
  rw [canonical, find_id hr, Option.bind_some, hb, Option.getD_some]

/-- The subquery finds the lowest id of the group. -/
theorem minVersion_eq {r : VersionCells} (hr : r ∈ f.tables.versions) :
    f.tables.minVersion r.id = some (f.canonical r.id) := by
  rw [← canonical_mem hr, Database.minVersion, flatMap_num _ f.tables.keyed hr, least]
  congr 2
  refine List.filter_congr fun v _ => ?_
  have hs : Database.sqlEq v.state r.state = decide (v.state = r.state) := by
    rw [Database.sqlEq, Bool.eq_iff_iff, decide_eq_true_iff, decide_eq_true_iff]
    constructor
    · exact fun h => h.2
    · exact fun h => ⟨h ▸ f.stated r hr, h⟩
  rw [hs, Bool.eq_iff_iff]
  simp only [VersionCells.identity, Bool.and_eq_true, decide_eq_true_iff, Prod.mk.injEq, and_assoc]

/-- The row with the cell that `ALTER TABLE` gives it. -/
def filled (f : HistoryFile) (r : VersionCells) : VersionCells :=
  if f.hasExec then r else { r with exec := .integer 0 }

@[simp] theorem filled_id (f : HistoryFile) (r : VersionCells) : (f.filled r).id = r.id := by
  unfold filled
  split <;> rfl

@[simp] theorem filled_identity (f : HistoryFile) (r : VersionCells) :
    (f.filled r).identity = r.identity := by
  unfold filled
  split <;> rfl

/-- The file with the column `exec`. -/
def withExec (f : HistoryFile) : HistoryFile :=
  { f with
    tables :=
      { f.tables with
        versions := f.tables.versions.map f.filled
        keyed := by
          rw [List.map_map]
          exact (List.map_congr_left fun r _ => (f.filled_id r).symm) ▸ f.tables.keyed }
    hasExec := true
    stated := by
      intro r hr
      obtain ⟨w, hw, rfl⟩ := List.mem_map.1 hr
      rw [show (f.filled w).state = w.state from congrArg (·.2.1) (f.filled_identity w)]
      exact f.stated w hw
    unique := by
      intro h
      rw [List.map_map]
      exact (List.map_congr_left fun r _ => (f.filled_identity r).symm) ▸ f.unique h }

def repointed (f : HistoryFile) (c : ConflictCells) : ConflictCells :=
  { c with winner := f.canonical c.winner, loser := f.canonical c.loser }

/-- The file with one row of each identity. -/
def deduped (f : HistoryFile) : HistoryFile :=
  { f with
    tables :=
      { f.tables with
        versions := survivors VersionCells.identity VersionCells.id f.tables.versions
        conflicts := f.tables.conflicts.map f.repointed
        keyed := f.tables.keyed.sublist (survivors_sublist.map _) }
    stated := fun r hr => f.stated r (survivors_sublist.subset hr)
    unique := fun h => (f.unique h).sublist (survivors_sublist.map _) }

theorem deduped_unique (f : HistoryFile) :
    (f.deduped.tables.versions.map VersionCells.identity).Nodup := survivors_nodup f.tables.keyed

def indexed (f : HistoryFile) : HistoryFile :=
  { f.deduped with hasIdentity := true, unique := fun _ => f.deduped_unique }

/-- What a migration makes of a file. -/
def migrated (f : HistoryFile) : HistoryFile := { f.withExec.indexed with userVersion := 3 }

theorem withExec_eq_self (h : f.hasExec = true) : f.withExec = f := by
  have hf : f.filled = id := by
    funext r
    exact if_pos h
  refine HistoryFile.ext (Database.ext_tables ?_ rfl rfl) h.symm rfl rfl
  exact (congrArg (f.tables.versions.map ·) hf).trans (List.map_id _)

theorem canonical_eq_self (hu : (f.tables.versions.map VersionCells.identity).Nodup) (n : Int) :
    f.canonical n = n := by
  rw [canonical]
  cases hfind : f.tables.versions.find? fun w => decide (w.id = n) with
  | none => rfl
  | some w =>
    have hw := List.mem_of_find?_eq_some hfind
    have hid : w.id = n := by simpa using List.find?_some hfind
    have hself : w ∈ survivors VersionCells.identity VersionCells.id f.tables.versions := by
      rw [survivors_eq_self hu]
      exact hw
    rw [Option.bind_some, of_decide_eq_true (List.mem_filter.1 hself).2, Option.getD_some, hid]

/-- Where each identity has one row, there is nothing to do. -/
theorem deduped_eq_self (hu : (f.tables.versions.map VersionCells.identity).Nodup) :
    f.deduped = f := by
  have hc : f.repointed = id := by
    funext c
    simp only [repointed, canonical_eq_self hu, id_eq]
  refine HistoryFile.ext (Database.ext_tables (survivors_eq_self hu) rfl ?_) rfl rfl rfl
  exact (congrArg (f.tables.conflicts.map ·) hc).trans (List.map_id _)

theorem indexed_eq_of_deduped (hd : f.deduped = g.deduped) : f.indexed = g.indexed := by
  unfold indexed
  simp only [hd]

theorem migrated_withExec (f : HistoryFile) : f.withExec.migrated = f.migrated := by
  unfold migrated
  simp only [withExec_eq_self (f := f.withExec) rfl]

theorem migrated_deduped (h : f.hasExec = true) : f.deduped.migrated = f.migrated := by
  have he : f.deduped.withExec = f.deduped := withExec_eq_self h
  have hi : f.deduped.indexed = f.indexed :=
    indexed_eq_of_deduped (deduped_eq_self f.deduped_unique)
  unfold migrated
  simp only [he, hi, withExec_eq_self h]

theorem indexed_indexed (f : HistoryFile) : f.indexed.indexed = f.indexed := by
  have hd : f.indexed.deduped = f.indexed := deduped_eq_self f.deduped_unique
  rw [HistoryFile.ext_iff]
  exact ⟨congrArg (·.tables) hd, rfl, rfl, rfl⟩

theorem migrated_indexed (h : f.hasExec = true) : f.indexed.migrated = f.migrated := by
  have he : f.indexed.withExec = f.indexed := withExec_eq_self h
  unfold migrated
  simp only [he, indexed_indexed, withExec_eq_self h]

theorem migrated_migrated (f : HistoryFile) : f.migrated.migrated = f.migrated := by
  have he : f.migrated.withExec = f.migrated := withExec_eq_self rfl
  have hd : f.migrated.deduped = f.migrated := deduped_eq_self f.withExec.deduped_unique
  rw [HistoryFile.ext_iff]
  refine ⟨?_, rfl, rfl, rfl⟩
  exact congrArg (·.tables) ((congrArg deduped he).trans hd)

/-- The file with other conflict rows. -/
def withConflicts (f : HistoryFile) (conflicts : List ConflictCells) : HistoryFile :=
  { f with tables := { f.tables with conflicts := conflicts } }

theorem updateConflicts_eq {update : ConflictCells → Except MigrateError ConflictCells}
    {set : ConflictCells → ConflictCells} (h : ∀ c ∈ f.tables.conflicts, update c = .ok (set c)) :
    f.updateConflicts update = .ok (f.withConflicts (f.tables.conflicts.map set)) := by
  have hm : f.tables.conflicts.mapM update = .ok (f.tables.conflicts.map set) := by
    rw [Outcome.mapM_ok, List.forall₂_map_right_iff, List.forall₂_same]
    exact h
  simp only [updateConflicts, hm, bind, Except.bind]
  rfl

theorem repointWinners_eq (hr : f.Referenced) : f.repointWinners =
    .ok (f.withConflicts (f.tables.conflicts.map fun c =>
      { c with winner := f.canonical c.winner })) := by
  refine updateConflicts_eq fun c hc => ?_
  obtain ⟨r, hmem, hid⟩ := (hr c hc).1
  simp only [← hid, minVersion_eq hmem, required, bind, Except.bind]
  rfl

theorem repointLosers_eq (hr : f.Referenced) : f.repointLosers =
    .ok (f.withConflicts (f.tables.conflicts.map fun c =>
      { c with loser := f.canonical c.loser })) := by
  refine updateConflicts_eq fun c hc => ?_
  obtain ⟨r, hmem, hid⟩ := (hr c hc).2
  simp only [← hid, minVersion_eq hmem, required, bind, Except.bind]
  rfl

/-- A row is of lowest id in its group where the grouping query yields that id. -/
theorem mem_groupMinima {r : VersionCells} (hr : r ∈ f.tables.versions) :
    r.id ∈ f.tables.groupMinima ↔
      least VersionCells.identity VersionCells.id f.tables.versions r.identity = some r.id := by
  rw [Database.groupMinima, List.mem_filterMap]
  constructor
  · rintro ⟨w, _, hw⟩
    obtain ⟨b, hb, hk, he⟩ := (least_eq_some.1 hw).1
    have hbr : b = r := List.inj_on_of_nodup_map f.tables.keyed hb hr he
    rw [← hbr, hk, hw, hbr]
  · intro h
    exact ⟨r, hr, h⟩

theorem canonical_kept {r : VersionCells} (hr : r ∈ f.tables.versions) :
    f.canonical r.id ∈ f.tables.groupMinima :=
  List.mem_filterMap.2 ⟨r, hr, canonical_mem hr⟩

theorem deleteDuplicates_eq (hc : ∀ c ∈ f.tables.conflicts,
    c.winner ∈ f.tables.groupMinima ∧ c.loser ∈ f.tables.groupMinima) :
    f.deleteDuplicates = .ok (f.deduped.withConflicts f.tables.conflicts) := by
  have hgone (n : Int) (hn : n ∈ f.tables.groupMinima) : n ∉ (f.tables.versions.map
      VersionCells.id).filter fun id => decide (id ∉ f.tables.groupMinima) := by
    intro h
    exact of_decide_eq_true (List.mem_filter.1 h).2 hn
  have hnone : (f.tables.conflicts.any fun c => decide
      (c.winner ∈ (f.tables.versions.map VersionCells.id).filter
          (fun id => decide (id ∉ f.tables.groupMinima)) ∨
        c.loser ∈ (f.tables.versions.map VersionCells.id).filter
          (fun id => decide (id ∉ f.tables.groupMinima)))) = false := by
    rw [List.any_eq_false]
    intro c hm h
    rcases of_decide_eq_true h with h | h
    · exact hgone _ (hc c hm).1 h
    · exact hgone _ (hc c hm).2 h
  have hkept : (f.tables.versions.filter fun r => decide (r.id ∈ f.tables.groupMinima)) =
      survivors VersionCells.identity VersionCells.id f.tables.versions := by
    refine List.filter_congr fun r hr => ?_
    rw [Bool.eq_iff_iff, decide_eq_true_iff, decide_eq_true_iff]
    exact mem_groupMinima hr
  simp only [deleteDuplicates, hnone, Bool.false_eq_true, ↓reduceIte, hkept]
  rfl

theorem exec_pending {c : Connection} {run : HistoryFile → Except MigrateError HistoryFile}
    (hp : c.pending = some f) (hr : run f = .ok g) :
    Statement.exec c (.change run) = .ok { c with pending := some g } := by
  simp only [Statement.exec, hp, hr, bind, Except.bind]
  rfl

theorem exec_autocommit {run : HistoryFile → Except MigrateError HistoryFile} (hr : run f = .ok g) :
    Statement.exec ⟨f, none⟩ (.change run) = .ok ⟨g, none⟩ := by
  simp only [Statement.exec, hr, bind, Except.bind]
  rfl

/-- From `c` the statements lead to `c'`, and a crash anywhere among them leaves a file that
satisfies `P`. -/
structure Passes (P : HistoryFile → Prop) (l : List Statement) (c c' : Connection) : Prop where
  whole : l.foldlM Statement.exec c = .ok c'
  cut : ∀ k, ∃ d, (l.take k).foldlM Statement.exec c = .ok d ∧ P d.durable

namespace Passes
variable {P : HistoryFile → Prop} {c c' c'' : Connection} {s : Statement} {l m : List Statement}

theorem nil (hp : P c.durable) : Passes P [] c c where
  whole := rfl
  cut := by
    intro k
    rw [List.take_nil]
    exact ⟨c, rfl, hp⟩

theorem cons (hp : P c.durable) (hs : s.exec c = .ok c') (h : Passes P l c' c'') :
    Passes P (s :: l) c c'' where
  whole := by
    rw [List.foldlM_cons, hs]
    exact h.whole
  cut := by
    intro k
    cases k with
    | zero => exact ⟨c, rfl, hp⟩
    | succ k =>
      obtain ⟨d, hd, hpd⟩ := h.cut k
      refine ⟨d, ?_, hpd⟩
      rw [List.take_succ_cons, List.foldlM_cons, hs]
      exact hd

theorem append (h : Passes P l c c') (h' : Passes P m c' c'') : Passes P (l ++ m) c c'' where
  whole := by
    rw [List.foldlM_append, h.whole]
    exact h'.whole
  cut := by
    intro k
    rw [List.take_append, List.foldlM_append]
    rcases le_or_gt l.length k with hk | hk
    · obtain ⟨d, hd, hpd⟩ := h'.cut (k - l.length)
      refine ⟨d, ?_, hpd⟩
      rw [List.take_of_length_le hk, h.whole]
      exact hd
    · obtain ⟨d, hd, hpd⟩ := h.cut k
      refine ⟨d, ?_, hpd⟩
      rw [hd, Nat.sub_eq_zero_of_le hk.le, List.take_zero]
      rfl

end Passes

/-- The transaction goes through, and until it is committed a crash leaves the file as it was. -/
theorem dedupVersions_passes {P : HistoryFile → Prop} (hr : f.Referenced) (hf : P f)
    (hd : P f.deduped) : Passes P dedupVersions ⟨f, none⟩ ⟨f.deduped, none⟩ := by
  let winners := f.withConflicts (f.tables.conflicts.map fun c =>
    { c with winner := f.canonical c.winner })
  let both := winners.withConflicts (winners.tables.conflicts.map fun c =>
    { c with loser := f.canonical c.loser })
  have hwinners : winners.Referenced := by
    intro d hd
    obtain ⟨c, hc, rfl⟩ := List.mem_map.1 hd
    obtain ⟨r, hmem, hid⟩ := (hr c hc).1
    obtain ⟨⟨b, hb, _, he⟩, _⟩ := least_eq_some.1 (canonical_mem hmem)
    exact ⟨⟨b, hb, by rw [he, hid]⟩, (hr c hc).2⟩
  have hconflicts : both.tables.conflicts = f.tables.conflicts.map f.repointed := List.map_map
  have hkept : ∀ c ∈ both.tables.conflicts,
      c.winner ∈ both.tables.groupMinima ∧ c.loser ∈ both.tables.groupMinima := by
    intro d hd
    rw [hconflicts] at hd
    obtain ⟨c, hc, rfl⟩ := List.mem_map.1 hd
    obtain ⟨⟨r, hmem, hid⟩, q, hq, hqid⟩ := hr c hc
    have hwinner : f.canonical c.winner ∈ f.tables.groupMinima := hid ▸ canonical_kept hmem
    have hloser : f.canonical c.loser ∈ f.tables.groupMinima := hqid ▸ canonical_kept hq
    exact ⟨hwinner, hloser⟩
  have hend : both.deduped.withConflicts both.tables.conflicts = f.deduped :=
    HistoryFile.ext (Database.ext_tables rfl rfl hconflicts) rfl rfl rfl
  have hdelete : both.deleteDuplicates = .ok f.deduped := by
    rw [deleteDuplicates_eq hkept, hend]
  refine .cons hf rfl (.cons hf (exec_pending rfl (repointWinners_eq hr)) ?_)
  refine .cons hf (exec_pending rfl (repointLosers_eq hwinners)) ?_
  exact .cons hf (exec_pending rfl hdelete) (.cons hf rfl (.nil hd))

theorem Referenced.withExec (hr : f.Referenced) : f.withExec.Referenced := by
  intro c hc
  obtain ⟨⟨r, hmem, hid⟩, q, hq, hqid⟩ := hr c hc
  exact ⟨⟨f.filled r, List.mem_map_of_mem hmem, by rw [filled_id, hid]⟩,
    f.filled q, List.mem_map_of_mem hq, by rw [filled_id, hqid]⟩

/-- A stored id stands for a kept row of its identity. -/
theorem canonical_survivor {r : VersionCells} (hr : r ∈ f.tables.versions) :
    ∃ b ∈ f.deduped.tables.versions, b.identity = r.identity ∧ b.id = f.canonical r.id := by
  obtain ⟨b, hb, hk, he⟩ :=
    exists_survivor VersionCells.identity VersionCells.id hr
  rw [canonical_mem hr] at he
  exact ⟨b, hb, hk, (Option.some.inj he).symm⟩

theorem Referenced.deduped (hr : f.Referenced) : f.deduped.Referenced := by
  intro d hd
  obtain ⟨c, hc, rfl⟩ := List.mem_map.1 hd
  obtain ⟨⟨r, hmem, hid⟩, q, hq, hqid⟩ := hr c hc
  obtain ⟨b, hb, _, hbid⟩ := canonical_survivor hmem
  obtain ⟨b', hb', _, hbid'⟩ := canonical_survivor hq
  exact ⟨⟨b, hb, by rw [hbid, hid]; rfl⟩, b', hb', by rw [hbid', hqid]; rfl⟩

theorem createIdentity_deduped (f : HistoryFile) :
    f.deduped.createIdentity = .ok f.indexed := dif_pos f.deduped_unique

/-- The migration succeeds, and a crash anywhere in it leaves a file that migrates to the same. -/
theorem script_passes (hr : f.Referenced) :
    Passes (fun x => x.migrated = f.migrated ∧ x.Referenced) f.script ⟨f, none⟩
      ⟨f.migrated, none⟩ := by
  have he : f.withExec.migrated = f.migrated ∧ f.withExec.Referenced :=
    ⟨migrated_withExec f, hr.withExec⟩
  have hd : f.withExec.deduped.migrated = f.migrated ∧ f.withExec.deduped.Referenced :=
    ⟨(migrated_deduped rfl).trans he.1, he.2.deduped⟩
  have hi : f.withExec.indexed.migrated = f.migrated ∧ f.withExec.indexed.Referenced :=
    ⟨(migrated_indexed rfl).trans he.1, he.2.deduped⟩
  have hm : f.migrated.migrated = f.migrated ∧ f.migrated.Referenced :=
    ⟨migrated_migrated f, he.2.deduped⟩
  have hexec : Passes (fun x => x.migrated = f.migrated ∧ x.Referenced)
      (if f.hasExec then [] else [.change addExec]) ⟨f, none⟩ ⟨f.withExec, none⟩ := by
    cases hx : f.hasExec with
    | true =>
      rw [if_pos rfl, withExec_eq_self hx]
      exact .nil ⟨rfl, hr⟩
    | false =>
      have hadd : f.addExec = .ok f.withExec := by
        simp only [addExec, hx, Bool.false_eq_true, ↓reduceIte, Except.ok.injEq]
        refine HistoryFile.ext (Database.ext_tables ?_ rfl rfl) rfl rfl rfl
        refine List.map_congr_left fun r _ => ?_
        rw [filled, hx]
        rfl
      rw [if_neg Bool.false_ne_true]
      exact .cons ⟨rfl, hr⟩ (exec_autocommit hadd) (.nil he)
  have hidentity : Passes (fun x => x.migrated = f.migrated ∧ x.Referenced)
      (if f.hasIdentity then [] else dedupVersions ++ [.change createIdentity])
      ⟨f.withExec, none⟩ ⟨f.withExec.indexed, none⟩ := by
    cases hx : f.hasIdentity with
    | true =>
      have hself : f.withExec.indexed = f.withExec := by
        rw [HistoryFile.ext_iff]
        exact ⟨congrArg (·.tables) (deduped_eq_self (f.withExec.unique hx)), rfl, hx.symm, rfl⟩
      rw [if_pos rfl, hself]
      exact .nil he
    | false =>
      rw [if_neg Bool.false_ne_true]
      refine (dedupVersions_passes he.2 he hd).append ?_
      exact .cons hd (exec_autocommit (createIdentity_deduped f.withExec)) (.nil hi)
  exact (hexec.append hidentity).append (.cons hi (exec_autocommit rfl) (.nil hm))

theorem migrate_eq (hr : f.Referenced) : f.migrate = .ok f.migrated := by
  rw [migrate, (script_passes hr).whole]
  rfl

theorem crashed_migrates (hr : f.Referenced) (k : Nat) :
    ∃ x, f.crashed k = .ok x ∧ x.migrate = .ok f.migrated := by
  obtain ⟨d, hd, hm, hrd⟩ := (script_passes hr).cut k
  refine ⟨d.durable, ?_, ?_⟩
  · rw [crashed, hd]
    rfl
  · rw [migrate_eq hrd, hm]

/-- A row that is the first of its identity. -/
def Lowest (f : HistoryFile) (r : VersionCells) : Prop :=
  r ∈ f.tables.versions ∧ ∀ w ∈ f.tables.versions, w.identity = r.identity → r.id ≤ w.id

theorem mem_migrated {v : VersionCells} :
    v ∈ f.migrated.tables.versions ↔ ∃ r, f.Lowest r ∧ v = f.filled r := by
  have hm : v ∈ f.migrated.tables.versions ↔ v ∈ f.withExec.tables.versions ∧
      ∀ w ∈ f.withExec.tables.versions, w.identity = v.identity → v.id ≤ w.id := mem_survivors
  rw [hm]
  constructor
  · rintro ⟨hv, hle⟩
    obtain ⟨r, hr, rfl⟩ := List.mem_map.1 hv
    refine ⟨r, ⟨hr, fun w hw hk => ?_⟩, rfl⟩
    have hrw := hle _ (List.mem_map_of_mem hw) (by rw [filled_identity, filled_identity, hk])
    rwa [filled_id, filled_id] at hrw
  · rintro ⟨r, ⟨hr, hle⟩, rfl⟩
    refine ⟨List.mem_map_of_mem hr, fun w hw hk => ?_⟩
    obtain ⟨q, hq, rfl⟩ := List.mem_map.1 hw
    rw [filled_identity, filled_identity] at hk
    rw [filled_id, filled_id]
    exact hle q hq hk

/-- Reading a row takes the chunks and the cells that a migration leaves alone. -/
theorem getContent_migrated [Platform] {r : VersionCells} (hr : f.Lowest r) :
    f.migrated.tables.getContent r.id = f.tables.getContent r.id := by
  have hread (l : List Bytes) :
      f.migrated.tables.readChunks r.id l = f.tables.readChunks r.id l := by
    induction l with
    | nil => rfl
    | cons hash l ih =>
      rw [Database.readChunks, Database.readChunks, ih]
      rfl
  have hrow := Database.versionRow_mem (mem_migrated.2 ⟨r, hr, rfl⟩)
  rw [filled_id] at hrow
  have hcells : f.migrated.tables.rowContent (f.filled r) = f.tables.rowContent r := by
    unfold Database.rowContent
    simp only [filled]
    split <;> simp only [hread]
  rw [Database.getContent, hrow, Database.getContent, Database.versionRow_mem hr.1]
  exact hcells

/-- The id `n` of `f` and the id `m` of `g` are of rows of one identity. -/
def Stands (f g : HistoryFile) (n m : Int) : Prop :=
  ∃ r ∈ f.tables.versions, ∃ v ∈ g.tables.versions, r.id = n ∧ v.id = m ∧ v.identity = r.identity

theorem stands_canonical {r : VersionCells} (hr : r ∈ f.tables.versions) :
    f.Stands f.migrated r.id (f.withExec.canonical r.id) := by
  have hmem : f.filled r ∈ f.withExec.tables.versions := List.mem_map_of_mem hr
  obtain ⟨v, hv, hk, hid⟩ := canonical_survivor hmem
  rw [filled_identity] at hk
  rw [filled_id] at hid
  exact ⟨r, hr, v, hv, rfl, hid, hk⟩

/-- A migration keeps the first row of each identity, with every conflict and with what the kept
rows read back as, and is not disturbed by a crash. -/
theorem migrate_keeps [Platform] (hr : f.Referenced) :
    ∃ g, f.migrate = .ok g ∧
      (∀ r ∈ f.tables.versions, ∃ v ∈ g.tables.versions, v.identity = r.identity ∧
        (∀ w ∈ f.tables.versions, w.identity = r.identity → v.id ≤ w.id) ∧
        ∀ w ∈ g.tables.versions, w.identity = r.identity → w = v) ∧
      (∀ v ∈ g.tables.versions, ∃ r ∈ f.tables.versions, v = f.filled r) ∧
      List.Forall₂ (fun c d => d.id = c.id ∧ d.path = c.path ∧ d.wallMs = c.wallMs ∧
        d.resolved = c.resolved ∧ f.Stands g c.winner d.winner ∧ f.Stands g c.loser d.loser)
        f.tables.conflicts g.tables.conflicts ∧
      g.migrate = .ok g ∧ (∀ k, ∃ x, f.crashed k = .ok x ∧ x.migrate = .ok g) ∧
      (∀ r, f.Lowest r → g.tables.getContent r.id = f.tables.getContent r.id) ∧
      ∀ b, (∃ n, g.tables.getContent n = .ok b) ↔
        ∃ r, f.Lowest r ∧ f.tables.getContent r.id = .ok b := by
  refine ⟨f.migrated, migrate_eq hr, ?_, ?_, ?_, ?_, crashed_migrates hr,
    fun r => getContent_migrated, fun b => ?_⟩
  · intro r hmem
    obtain ⟨a, ha, hk, _⟩ :=
      exists_survivor VersionCells.identity VersionCells.id hmem
    have hlow : f.Lowest a := mem_survivors.1 ha
    refine ⟨f.filled a, mem_migrated.2 ⟨a, hlow, rfl⟩, by rw [filled_identity, hk], ?_, ?_⟩
    · intro w hw hwk
      rw [filled_id]
      exact hlow.2 w hw (hwk.trans hk.symm)
    · intro w hw hwk
      obtain ⟨q, hq, rfl⟩ := mem_migrated.1 hw
      rw [filled_identity] at hwk
      rw [survivor_unique f.tables.keyed (mem_survivors.2 hq) ha (hwk.trans hk.symm)]
  · intro v hv
    obtain ⟨r, hlow, rfl⟩ := mem_migrated.1 hv
    exact ⟨r, hlow.1, rfl⟩
  · have hc : f.migrated.tables.conflicts = f.tables.conflicts.map f.withExec.repointed := rfl
    rw [hc, List.forall₂_map_right_iff, List.forall₂_same]
    intro c hm
    obtain ⟨⟨r, hmem, hid⟩, q, hq, hqid⟩ := hr c hm
    have hwinner := stands_canonical hmem
    have hloser := stands_canonical hq
    rw [hid] at hwinner
    rw [hqid] at hloser
    exact ⟨rfl, rfl, rfl, rfl, hwinner, hloser⟩
  · obtain ⟨x, hx, hmx⟩ := crashed_migrates hr f.script.length
    have hwhole : f.crashed f.script.length = .ok f.migrated := by
      rw [crashed, List.take_length, (script_passes hr).whole]
      rfl
    rw [hwhole] at hx
    cases hx
    exact hmx
  · constructor
    · rintro ⟨n, hn⟩
      have hn' := hn
      rw [Database.getContent] at hn'
      split at hn'
      · cases hn'
      next v hfind =>
        obtain ⟨hv, hid⟩ := Database.versionRow_some hfind
        obtain ⟨r, hlow, rfl⟩ := mem_migrated.1 hv
        rw [filled_id] at hid
        refine ⟨r, hlow, ?_⟩
        rw [← getContent_migrated hlow, hid, hn]
    · rintro ⟨r, hlow, hb⟩
      exact ⟨r.id, (getContent_migrated hlow).trans hb⟩

end HistoryFile

/-- Two versions of one identity, with two contents. -/
def doubled : HistoryFile :=
  letI := tabulated shortHashes
  { tables :=
      { versions :=
          [⟨1, ['a'], .integer 1, .blob (Platform.blake3 [0x31]).bytes, .integer 1,
            .blob (Platform.blake3 [0x31]).bytes, [], .integer 0⟩,
          ⟨2, ['a'], .integer 1, .blob (Platform.blake3 [0x32]).bytes, .integer 1,
            .blob (Platform.blake3 [0x32]).bytes, [], .integer 0⟩]
        chunks :=
          [⟨.blob (Platform.blake3 [0x31]).bytes, .integer 1,
            .blob (Platform.zstdEncode [0x31])⟩,
          ⟨.blob (Platform.blake3 [0x32]).bytes, .integer 1,
            .blob (Platform.zstdEncode [0x32])⟩]
        conflicts := [⟨1, ['a'], 2, 1, 0, false⟩]
        keyed := by decide }
    hasExec := false
    hasIdentity := false
    userVersion := 1
    stated := by decide
    unique := fun h => by cases h }

theorem doubled_referenced : doubled.Referenced := by
  unfold HistoryFile.Referenced
  decide

/-- The second content is lost with its row. -/
theorem doubled_loses :
    letI := tabulated shortHashes
    doubled.tables.getContent 2 = .ok [0x32] ∧
      ∃ g, doubled.migrate = .ok g ∧ ∀ n, g.tables.getContent n ≠ .ok [0x32] := by
  let platform := tabulated shortHashes
  refine ⟨by decide +kernel, doubled.migrated, HistoryFile.migrate_eq doubled_referenced, ?_⟩
  intro n hn
  have hrows : doubled.migrated.tables.versions.map VersionCells.id = [1] := by decide +kernel
  by_cases h : n = 1
  · have hone : doubled.migrated.tables.getContent 1 = .ok [0x31] := by decide +kernel
    rw [h, hone] at hn
    cases hn
  · have hnone : doubled.migrated.tables.versionRow n = none := by
      refine List.find?_eq_none.2 fun r hr he => h ?_
      have hmem := List.mem_map_of_mem (f := VersionCells.id) hr
      rw [hrows, List.mem_singleton] at hmem
      rw [← of_decide_eq_true he, hmem]
    rw [Database.getContent, hnone] at hn
    cases hn

theorem doubled_migrates :
    letI := tabulated shortHashes
    ∃ g, doubled.migrate = .ok g ∧ g.migrate = .ok g ∧
      ∀ k, ∃ x, doubled.crashed k = .ok x ∧ x.migrate = .ok g := by
  let platform := tabulated shortHashes
  obtain ⟨g, hg, _, _, _, hagain, hcrash, _⟩ := HistoryFile.migrate_keeps doubled_referenced
  exact ⟨g, hg, hagain, hcrash⟩

end Tomo
