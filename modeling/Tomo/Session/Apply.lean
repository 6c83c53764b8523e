import Tomo.Session.State

namespace Tomo
set_option autoImplicit true

/-- The mode of an installed file. -/
def execMode (exec : Bool) : Nat := if exec then 0o755 else 0o644

def isExecutable (mode : Nat) : Bool := mode.testBit 6

section
variable [Platform] (t : Tree) (root : List Name)

/-- Stat, read and hash the regular file at a path; only a missing file is absent. -/
def snapshot (rel : RelPath) : Except Errno (Option ContentSig) :=
  match t.stat false (join root rel) with
  | .error .noent => .ok none
  | .error e => .error e
  | .ok (.file _ mode mtime) =>
    match t.read (join root rel) with
    | .error .noent => .ok none
    | .error e => .error e
    | .ok bytes => .ok (some ⟨Platform.blake3 bytes, bytes.length, isExecutable mode, mtime⟩)
  | .ok .dir | .ok (.link _) => .ok none

/-- Read the file at a path and return its bytes if they match `sig`. -/
def readVerified (rel : RelPath) (sig : ContentSig) : Option Bytes :=
  match t.read (join root rel) with
  | .ok bytes => if matchesSig bytes sig then some bytes else none
  | .error _ => none

def shouldSend (current : Option Bytes) (expected : ContentSig) : Bool :=
  match current with
  | some bytes => matchesSig bytes expected
  | none => false

end

section
variable (t : Tree) (root : List Name)

def canonicalRoot : List Name :=
  match t.canonicalize root with
  | .ok c => c
  | .error _ => root

/-- How the parent walk of `check_parents` ends: through the parents, early, or refused. -/
inductive ParentWalk where
  | through
  | stopped
  | refused (why : ApplyRefused)
deriving DecidableEq

/-- The `lstat` walk over the parent components after `seen`. -/
def walkParents (seen : List Name) : List Name → ParentWalk
  | [] => .through
  | c :: rest =>
    let rel := seen ++ [c]
    match t.stat false (root ++ rel) with
    | .error _ => .stopped
    | .ok (.link dest) =>
      let escapes := match t.canonicalize (root ++ rel) with
        | .ok q => !decide (canonicalRoot t root <+: q)
        | .error _ => true
      .refused (.symlinkParent rel dest escapes)
    | .ok .dir | .ok (.file ..) => walkParents rel rest

/-- A path relative to the root where it lies below it. -/
def stripRoot (p : List Name) : List Name := if root <+: p then p.drop root.length else p

/-- An existing ancestor must resolve inside the root; `none` where it does not exist. -/
def ancestorVerdict (a : List Name) : Option (Option ApplyRefused) :=
  match t.canonicalize a with
  | .ok q =>
    if canonicalRoot t root <+: q then some none else some (some (.escapesRoot (stripRoot root a) q))
  | .error _ => none

/-- The verdict on the deepest existing ancestor among the first `n` components. -/
def checkAncestor (full : List Name) : Nat → Option ApplyRefused
  | 0 => (ancestorVerdict t root []).getD none
  | n + 1 => (ancestorVerdict t root (full.take (n + 1))).getD (checkAncestor full n)

/-- Why a write or a deletion at `root ++ comps` must not go through its parents. -/
def checkParents (comps : List Name) : Option ApplyRefused :=
  if comps = [] then none
  else match walkParents t root [] comps.dropLast with
    | .refused why => some why
    | .stopped => none
    | .through =>
      let parent := (root ++ comps).dropLast
      checkAncestor t root parent parent.length

inductive TypeCollision where
  | targetIsDir
  | parentIsFile (ancestor : List Name)
deriving DecidableEq

/-- The first parent after `seen` that is a regular file. -/
def fileParent (seen : List Name) : List Name → Option (List Name)
  | [] => none
  | c :: rest =>
    match t.stat false (root ++ (seen ++ [c])) with
    | .error _ => none
    | .ok (.file ..) => some (root ++ (seen ++ [c]))
    | .ok .dir | .ok (.link _) => fileParent (seen ++ [c]) rest

def pathIsDir (full : List Name) : Bool :=
  match t.stat false full with
  | .ok .dir => true
  | _ => false

def typeCollision (comps : List Name) : Option TypeCollision :=
  if pathIsDir t (root ++ comps) then some .targetIsDir
  else (fileParent t root [] comps.dropLast).map .parentIsFile

/-- Remove empty directories from the first `n` components of `comps` upward. -/
def pruneEmptyParents (comps : List Name) : Tree → Nat → Tree
  | t, 0 => t
  | t, n + 1 => match t.rmdir (root ++ comps.take (n + 1)) with
    | .ok u => pruneEmptyParents comps u n
    | .error _ => t

/-- Remove the file at a path, then the parents left empty. -/
def applyAbsent (rel : RelPath) : Except CliError Tree :=
  match checkParents t root rel.components with
  | some why => .error (.refused rel why)
  | none =>
    match t.unlink (join root rel) with
    | .ok u => .ok (pruneEmptyParents root rel.components u (rel.components.length - 1))
    | .error .noent => .ok (pruneEmptyParents root rel.components t (rel.components.length - 1))
    | .error e => .error (.io .removeFile (join root rel) e)

/-- Bring the mode of an already correct file into line; a missing file is fine. -/
def setExecMode (rel : RelPath) (exec : Bool) : Except CliError Tree :=
  match t.chmod (join root rel) (execMode exec) with
  | .ok u => .ok u
  | .error .noent => .ok t
  | .error e => .error (.io .setFileMode (join root rel) e)

end

/-- The outcome of staging a file: the tree and the directory cache it leaves, and the staged
file or the error. -/
structure Staging where
  tree : Tree
  createdDirs : List (List Name)
  result : Except CliError StagedFile

/-- Verify, guard, make the parents, and write the staged file without renaming it. -/
def stagePresent [Platform] (t : Tree) (root : List Name) (full : Bool) (wallMs : Nat)
    (createdDirs : List (List Name)) (rel : RelPath) (expected : ContentSig) (bytes : Bytes) :
    Staging :=
  if matchesSig bytes expected = false then ⟨t, createdDirs, .error (.integrity rel)⟩
  else match checkParents t root rel.components with
    | some why => ⟨t, createdDirs, .error (.refused rel why)⟩
    | none =>
      let parent := (join root rel).dropLast
      let write (t : Tree) (dirs : List (List Name)) : Staging :=
        if full then ⟨t, dirs, .error (.io .writeStaging (join root rel) .nospc)⟩
        else ⟨t, dirs, .ok ⟨bytes, execMode expected.exec, wallMs⟩⟩
      if parent ∈ createdDirs then write t createdDirs
      else match t.createDirAll full parent with
        | .ok u => write u (parent :: createdDirs)
        | .error e => ⟨t, parent :: createdDirs, .error (.io .createParent parent e)⟩

end Tomo
