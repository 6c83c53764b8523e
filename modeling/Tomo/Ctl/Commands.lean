import Tomo.Session.Escape
import Tomo.Transport.SshConfig

namespace Tomo
set_option autoImplicit true

/-- A project on disk, with the ids of the conflicts whose `resolved` column is set. -/
structure Project where
  root : List Name
  tree : Tree
  history : HistoryStore
  resolved : List Nat
  wallMs : Nat

/-- The calls to the store that can fail on their own. -/
inductive StoreOp where
  | open
  | conflicts
  | log
  | content
deriving DecidableEq

/-- What fails for reasons outside the project while a command runs. -/
structure Faults where
  io : IoOp → Option Errno
  /-- How many components `create_dir_all` makes before it fails. -/
  made : Nat
  store : StoreOp → Bool
  /-- The conflicts whose rows cannot be written. -/
  marks : Nat → Bool

inductive CommandError where
  | cli (e : CliError)
  | history (e : HistoryError)
  | database
  | noHistory (path : RelPath)
  | versionNotFound (id : Int) (path : RelPath)
  | onlyOneVersion (path : RelPath)
  | tombstoneToStdout (id : Nat) (path : RelPath)
  | noConflict (id : Int)
  | noConflictOnPath (path : RelPath)
  | headMissing (id : Nat) (path : RelPath)
  | loserIsDeletion (conflict : Nat) (path : RelPath)
  | sidecarPath (name : List Char) (e : PathError)
deriving DecidableEq

/-- What a command reports once it is through. -/
inductive Report where
  | printed (bytes : Bytes)
  | restored (path : RelPath) (version size : Nat) (deleted : Bool)
  | kept (path : RelPath) (newly : Bool)
  | wrote (path : RelPath) (size loser : Nat)
  | deleted (path : RelPath) (loser : Nat)
  | keptBoth (path sidecar : RelPath) (size : Nat)
  | acknowledged (count : Nat)
  | unresolved (path : RelPath) (newly : Bool)
deriving DecidableEq

inductive ResolveKind where
  | keep
  | take
  | both
deriving DecidableEq

inductive Selector where
  | id (id : Int)
  | path (path : RelPath)
deriving DecidableEq

inductive Command where
  | restore (path : RelPath) (version : Option Int) (stdout : Bool)
  | restoreCtl (path : RelPath) (version : Int)
  | resolve (target : Selector) (kind : ResolveKind)
  | resolveCtl (id : Int) (kind : ResolveKind)
  | keepAll
  | unresolveCtl (id : Int)
deriving DecidableEq

abbrev CommandM := Eff Project CommandError

/-- `create_dir_all`: the outcome, and the tree with the directories made so far. -/
def Faults.createDirAll (f : Faults) (t : Tree) (parent : List Name) :
    Except CliError Unit × Tree :=
  match f.io .createParent, t.isDir parent with
  | some e, false =>
    (.error (.io .createParent parent e),
      match t.createDirAll false (parent.take f.made) with
      | .ok u => u
      | .error _ => t)
  | _, _ =>
    match t.createDirAll false parent with
    | .ok u => (.ok (), u)
    | .error e => (.error (.io .createParent parent e), t)

/-- The names `--both` tries: `<base>.theirs`, `<base>.theirs-2`, and so on. -/
def theirs (base : List Char) : Nat → List Char
  | 0 => base ++ ".theirs".toList
  | n + 1 => base ++ (".theirs-".toList ++ Nat.toDigits 10 (n + 2))

/-- The first name from the `n`th on that is free, or the last of so many. -/
def sidecarFrom (taken : List Char → Bool) (base : List Char) : Nat → Nat → List Char
  | 0, n => theirs base n
  | fuel + 1, n =>
    if taken (theirs base n) then sidecarFrom taken base fuel (n + 1) else theirs base n

/-- Newest first: the greater `wall_ms`, then the greater id. -/
def newerFirst (a b : ConflictRow) : Bool :=
  decide (b.wallMs < a.wallMs ∨ b.wallMs = a.wallMs ∧ b.id ≤ a.id)

def findRecord (records : List ConflictRow) (id : Int) : Except CommandError ConflictRow :=
  match records.find? fun r => decide ((r.id : Int) = id) with
  | some r => .ok r
  | none => .error (.noConflict id)

def pickNewestOnPath (unresolved : List ConflictRow) (path : RelPath) :
    Except CommandError ConflictRow :=
  match (unresolved.filter fun r => decide (r.path = path)).mergeSort newerFirst with
  | r :: _ => .ok r
  | [] => .error (.noConflictOnPath path)

def findVersion (versions : List VersionMeta) (id : Nat) (path : RelPath) :
    Except CommandError VersionMeta :=
  match versions.find? fun m => decide (m.id = id) with
  | some m => .ok m
  | none => .error (.headMissing id path)

def findRequested (versions : List VersionMeta) (id : Int) (path : RelPath) :
    Except CommandError VersionMeta :=
  match versions.find? fun m => decide ((m.id : Int) = id) with
  | some m => .ok m
  | none => .error (.versionNotFound id path)

def resolveRestoreVersion (versions : List VersionMeta) (requested : Option Int) (path : RelPath) :
    Except CommandError VersionMeta :=
  match requested with
  | some id => findRequested versions id path
  | none => match versions[1]? with
    | some m => .ok m
    | none => .error (.onlyOneVersion path)

def isTombstone (m : VersionMeta) : Bool := decide (m.state = .tombstone)

namespace Project

def conflicts (s : Project) (unresolvedOnly : Bool) : List ConflictRow :=
  if unresolvedOnly then s.history.conflicts.filter fun r => decide (r.id ∉ s.resolved)
  else s.history.conflicts

/-- `Path::exists`, which follows links, of a name that is a path. -/
def taken (s : Project) (cand : List Char) : Bool :=
  match RelPath.new cand with
  | .ok rel => match s.tree.stat true (join s.root rel) with
    | .ok _ => true
    | .error _ => false
  | .error _ => false

/-- The first free sidecar name; among more names than there are objects one is free. -/
def sidecarName (s : Project) (base : List Char) : List Char :=
  sidecarFrom s.taken base s.tree.nodes.size 0

def selectUnresolved (s : Project) : Selector → Except CommandError ConflictRow
  | .id id => findRecord (s.conflicts true) id
  | .path path => pickNewestOnPath (s.conflicts true) path

def orThrow (r : Except CommandError α) : CommandM α :=
  match r with
  | .ok a => pure a
  | .error e => throw e

/-- A query of the store. -/
def query (f : Faults) (op : StoreOp) (read : Project → Except CommandError α) : CommandM α := do
  let s ← get
  if f.store op then throw .database
  else orThrow (read s)

def openStore (f : Faults) : CommandM Unit := query f .open fun _ => .ok ()

section
variable [Platform]

def log (f : Faults) (path : RelPath) : CommandM (List VersionMeta) :=
  query f .log fun s => .ok (s.history.log path)

def getContent (f : Faults) (id : Nat) : CommandM Bytes :=
  query f .content fun s => (s.history.getContent id).mapError .history

/-- Stage the bytes with their mode, and rename them into place. -/
def atomicWriteMode (f : Faults) (full : List Name) (bytes : Bytes) (exec : Bool) :
    CommandM Unit := do
  let s ← get
  match f.io .writeStaging, f.io .renameIntoPlace with
  | some e, _ => throw (.cli (.io .writeStaging full e))
  | none, some e => throw (.cli (.io .renameIntoPlace full e))
  | none, none =>
    match s.tree.install full (.file bytes (execMode exec) s.wallMs) with
    | .ok u => set { s with tree := u }
    | .error e => throw (.cli (.io .renameIntoPlace full e))

def applyPresent (f : Faults) (rel : RelPath) (expected : ContentSig) (bytes : Bytes) :
    CommandM Unit := do
  let s ← get
  if matchesSig bytes expected = false then throw (.cli (.integrity rel))
  else match checkParents s.tree s.root rel.components with
    | some why => throw (.cli (.refused rel why))
    | none => do
      let (made, u) := f.createDirAll s.tree (join s.root rel).dropLast
      set { s with tree := u }
      orThrow (made.mapError .cli)
      atomicWriteMode f (join s.root rel) bytes expected.exec

def applyAbsent (f : Faults) (rel : RelPath) : CommandM Unit := do
  let s ← get
  match checkParents s.tree s.root rel.components, f.io .removeFile with
  | some why, _ => throw (.cli (.refused rel why))
  | none, some e => throw (.cli (.io .removeFile (join s.root rel) e))
  | none, none =>
    match Tomo.applyAbsent s.tree s.root rel with
    | .ok u => set { s with tree := u }
    | .error e => throw (.cli e)

/-- Bring a recorded version of `rel` into the tree, and yield its size. -/
def adopt (f : Faults) (rel : RelPath) (target : VersionMeta) : CommandM Nat :=
  match target.state with
  | .present sig => do
    let bytes ← getContent f target.id
    applyPresent f rel sig bytes
    pure sig.size
  | .tombstone => do
    applyAbsent f rel
    pure 0

def runRestore (f : Faults) (rel : RelPath) (version : Option Int) (stdout : Bool) :
    CommandM Report := do
  openStore f
  let versions ← log f rel
  if versions = [] then throw (.noHistory rel)
  else do
    let target ← orThrow (resolveRestoreVersion versions version rel)
    if stdout then
      match target.state with
      | .present _ => .printed <$> getContent f target.id
      | .tombstone => throw (.tombstoneToStdout target.id rel)
    else do
      let size ← adopt f rel target
      pure (.restored rel target.id size (isTombstone target))

def restoreCtl (f : Faults) (rel : RelPath) (version : Int) : CommandM Report := do
  openStore f
  let versions ← log f rel
  if versions = [] then throw (.noHistory rel)
  else do
    let target ← orThrow (findRequested versions version rel)
    let size ← adopt f rel target
    pure (.restored rel target.id size (isTombstone target))

/-- The two heads of a conflict, the winner first. -/
def heads (f : Faults) (r : ConflictRow) : CommandM (VersionMeta × VersionMeta) := do
  let versions ← log f r.path
  let winner ← orThrow (findVersion versions r.winner r.path)
  let loser ← orThrow (findVersion versions r.loser r.path)
  pure (winner, loser)

/-- The content of both heads, where both are present, for the diff that is shown. -/
def computeDiff (f : Faults) (winner loser : VersionMeta) : CommandM (Option (Bytes × Bytes)) :=
  match loser.state, winner.state with
  | .present _, .present _ => do
    let old ← getContent f loser.id
    let new ← getContent f winner.id
    pure (some (old, new))
  | _, _ => pure none

end

/-- Set the flag of a conflict; whether this call set it. -/
def markConflictResolved (f : Faults) (id : Nat) : CommandM Bool := do
  let s ← get
  if f.marks id then throw .database
  else if s.history.conflicts.any (fun r => r.id == id) ∧ id ∉ s.resolved then do
    set { s with resolved := id :: s.resolved }
    pure true
  else pure false

/-- Clear the flag of a conflict; whether this call cleared it. -/
def markConflictUnresolved (f : Faults) (id : Nat) : CommandM Bool := do
  let s ← get
  if f.marks id then throw .database
  else do
    set { s with resolved := s.resolved.filter (· ≠ id) }
    pure (decide (id ∈ s.resolved))

def ackOne (f : Faults) (r : ConflictRow) : CommandM Report := do
  let newly ← markConflictResolved f r.id
  pure (.kept r.path newly)

def keepEach (f : Faults) : List ConflictRow → CommandM Nat
  | [] => pure 0
  | r :: rest => do
    let newly ← markConflictResolved f r.id
    let acked ← keepEach f rest
    pure (acked + newly.toNat)

def resolveKeepAll (f : Faults) : CommandM Report := do
  openStore f
  let unresolved ← query f .conflicts fun s => .ok (s.conflicts true)
  .acknowledged <$> keepEach f unresolved

def unresolveCtl (f : Faults) (id : Int) : CommandM Report := do
  openStore f
  let r ← query f .conflicts fun s => findRecord (s.conflicts false) id
  let newly ← markConflictUnresolved f r.id
  pure (.unresolved r.path newly)

section
variable [Platform]

/-- Adopt the loser of a conflict into the tree, then acknowledge the conflict. -/
def takeLoserOne (f : Faults) (r : ConflictRow) : CommandM Report := do
  let (_, loser) ← heads f r
  let size ← adopt f r.path loser
  let _ ← markConflictResolved f r.id
  pure (if isTombstone loser then .deleted r.path loser.id else .wrote r.path size loser.id)

/-- Write the loser of a conflict beside the winner, then acknowledge the conflict. -/
def bothOne (f : Faults) (r : ConflictRow) : CommandM Report := do
  let (_, loser) ← heads f r
  match loser.state with
  | .tombstone => throw (.loserIsDeletion r.id r.path)
  | .present sig => do
    let bytes ← getContent f loser.id
    let s ← get
    match RelPath.new (s.sidecarName r.path.raw) with
    | .error e => throw (.sidecarPath (s.sidecarName r.path.raw) e)
    | .ok sidecar => do
      applyPresent f sidecar sig bytes
      let _ ← markConflictResolved f r.id
      pure (.keptBoth r.path sidecar sig.size)

def applyKind (f : Faults) (r : ConflictRow) : ResolveKind → CommandM Report
  | .keep => ackOne f r
  | .take => takeLoserOne f r
  | .both => bothOne f r

def run (f : Faults) : Command → CommandM Report
  | .restore path version stdout => runRestore f path version stdout
  | .restoreCtl path version => restoreCtl f path version
  | .resolve target kind => do
    openStore f
    let r ← query f .conflicts fun s => s.selectUnresolved target
    applyKind f r kind
  | .resolveCtl id kind => do
    openStore f
    let r ← query f .conflicts fun s => findRecord (s.conflicts false) id
    applyKind f r kind
  | .keepAll => resolveKeepAll f
  | .unresolveCtl id => unresolveCtl f id

end

end Project

inductive Choice where
  | keep
  | take
  | both
  | skip
  | quit
deriving DecidableEq

def parseChoice (input : Text) : Option Choice :=
  let answer := Text.toAsciiLowercase (Text.trim input)
  if answer = "k".toList ∨ answer = "keep".toList then some .keep
  else if answer = "t".toList ∨ answer = "take".toList then some .take
  else if answer = "b".toList ∨ answer = "both".toList then some .both
  else if answer = "s".toList ∨ answer = "skip".toList then some .skip
  else if answer = "q".toList ∨ answer = "quit".toList then some .quit
  else none

/-- The prompt loop of `--interactive`: the conflict that was shown and waits for an answer, and
those that come after it. -/
structure Prompt where
  asked : Option ConflictRow
  rest : List ConflictRow

/-- A project, and a prompt loop that may be open in some terminal. -/
structure Desktop where
  project : Project
  prompt : Option Prompt

/-- What can happen to a project. The session and other programs change its tree and add to its
history. -/
inductive DesktopMove where
  | command (f : Faults) (c : Command)
  | interactive (f : Faults)
  | shows (f : Faults)
  | answers (f : Faults) (line : Option Text)
  | outside (tree : Tree) (history : HistoryStore) (wallMs : Nat)

namespace Desktop
variable [Platform]
open Project

/-- The loop goes on as `next` says, unless `x` fails. -/
def carryOn (d : Desktop) (x : CommandM α) (next : α → Option Prompt) : Desktop :=
  match x.exec d.project with
  | (.ok a, s) => ⟨s, next a⟩
  | (.error _, s) => ⟨s, none⟩

def step (d : Desktop) : DesktopMove → Desktop
  | .command f c => { d with project := ((run f c).exec d.project).2 }
  | .interactive f =>
    d.carryOn (do
      openStore f
      query f .conflicts fun s => .ok (s.conflicts true)) fun records => some ⟨none, records⟩
  | .shows f =>
    match d.prompt with
    | some ⟨none, r :: rest⟩ =>
      d.carryOn (do
        let (winner, loser) ← heads f r
        computeDiff f winner loser) fun _ => some ⟨some r, rest⟩
    | some ⟨none, []⟩ => { d with prompt := none }
    | some ⟨some _, _⟩ | none => d
  | .answers f line =>
    match d.prompt with
    | some ⟨some r, rest⟩ =>
      match line with
      | none => { d with prompt := none }
      | some line =>
        match parseChoice line with
        | none => d
        | some .quit => { d with prompt := none }
        | some .skip => { d with prompt := some ⟨none, rest⟩ }
        | some .keep => d.carryOn (applyKind f r .keep) fun _ => some ⟨none, rest⟩
        | some .take => d.carryOn (applyKind f r .take) fun _ => some ⟨none, rest⟩
        | some .both => d.carryOn (applyKind f r .both) fun _ => some ⟨none, rest⟩
    | some ⟨none, _⟩ | none => d
  | .outside tree history wallMs => { d with project := { d.project with tree, history, wallMs } }

def run (d : Desktop) (moves : List DesktopMove) : Desktop := moves.foldl step d

end Desktop

end Tomo
