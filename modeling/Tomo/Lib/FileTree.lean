import Mathlib.Data.List.Infix
import Mathlib.Tactic.Common
import Std.Data.ExtTreeMap

namespace Tomo
set_option autoImplicit true
set_option linter.unusedSectionVars false

/-- The error numbers of the file-system calls. -/
inductive Errno where
  | noent
  | notdir
  | isdir
  | notempty
  | exist
  | busy
  | loop
  | nospc
deriving DecidableEq

/-- The text of a symbolic link, split into steps; `none` is `..`. -/
structure Link (N : Type) where
  absolute : Bool
  steps : List (Option N)
deriving DecidableEq

/-- A file-system object. Only regular files keep a mode and a modification time. -/
inductive Node (N : Type) where
  | file (bytes : List UInt8) (mode : Nat) (mtime : Nat)
  | dir
  | link (target : Link N)
deriving DecidableEq

/-- A file system: objects under absolute paths, each inside a directory. -/
structure FileTree (N : Type) [Ord N] [Std.TransOrd N] where
  nodes : Std.ExtTreeMap (List N) (Node N)
  root_dir : nodes[([] : List N)]? = some .dir
  parent_dir : ∀ (d : List N) (c : N), d ++ [c] ∈ nodes → nodes[d]? = some .dir

namespace FileTree
variable {N : Type} [Ord N] [Std.TransOrd N] [Std.LawfulEqOrd N] [DecidableEq N]

/-- The object at a location, no links followed. -/
def get (t : FileTree N) (p : List N) : Option (Node N) := t.nodes[p]?

@[simp] theorem get_nil (t : FileTree N) : t.get [] = some .dir := t.root_dir

theorem ext_get {t u : FileTree N} (h : ∀ p, t.get p = u.get p) : t = u := by
  cases t
  cases u
  congr 1
  exact Std.ExtTreeMap.ext_getElem? h

theorem get_parent (t : FileTree N) (h : t.get (d ++ [c]) = some n) : t.get d = some .dir := by
  apply t.parent_dir d c
  rw [Std.ExtTreeMap.mem_iff_isSome_getElem?]
  exact Option.isSome_iff_exists.2 ⟨n, h⟩

/-- Whatever exists lies inside real directories. -/
theorem get_above (t : FileTree N) (h : t.get (p ++ q) = some n) (hq : q ≠ []) :
    t.get p = some .dir := by
  induction q using List.reverseRecOn generalizing n with
  | nil => exact (hq rfl).elim
  | append_singleton q c ih =>
    rw [← List.append_assoc] at h
    have hd := t.get_parent h
    by_cases hn : q = []
    · subst hn
      rwa [List.append_nil] at hd
    · exact ih hd hn

/-- The empty file system: only the root. -/
def empty : FileTree N where
  nodes := (∅ : Std.ExtTreeMap (List N) (Node N)).insert [] .dir
  root_dir := by simp
  parent_dir d c h := by
    rw [Std.ExtTreeMap.mem_insert, Std.compare_eq_iff_eq] at h
    rcases h with h | h
    · exact absurd h.symm (List.append_ne_nil_of_right_ne_nil d (List.cons_ne_nil c []))
    · exact (Std.ExtTreeMap.not_mem_empty h).elim

/-- Whether nothing lies inside the location. -/
def isLeaf (t : FileTree N) (p : List N) : Bool :=
  t.nodes.keys.all fun q => decide (q = [] ∨ q.dropLast ≠ p)

theorem isLeaf_iff (t : FileTree N) (p : List N) :
    t.isLeaf p = true ↔ ∀ c, t.get (p ++ [c]) = none := by
  simp only [isLeaf, List.all_eq_true, Std.ExtTreeMap.mem_keys, decide_eq_true_eq]
  constructor
  · intro h c
    by_contra hne
    have hm : p ++ [c] ∈ t.nodes := by
      rw [Std.ExtTreeMap.mem_iff_isSome_getElem?, Option.isSome_iff_ne_none]
      exact hne
    rcases h _ hm with he | he
    · exact List.append_ne_nil_of_right_ne_nil p (List.cons_ne_nil c []) he
    · exact he List.dropLast_concat
  · intro h q hq
    by_contra hne
    rw [not_or, not_not] at hne
    obtain ⟨hn, rfl⟩ := hne
    rw [Std.ExtTreeMap.mem_iff_isSome_getElem?, Option.isSome_iff_ne_none] at hq
    apply hq
    have hc := h (q.getLast hn)
    rwa [List.dropLast_append_getLast] at hc

/-- Whether an object may be placed at `p`: its directory exists, and what is not a directory
has nothing inside. -/
def Fits (t : FileTree N) (p : List N) (n : Node N) : Prop :=
  p ≠ [] ∧ t.get p.dropLast = some .dir ∧ (n = .dir ∨ t.isLeaf p = true)

instance (t : FileTree N) (p : List N) (n : Node N) : Decidable (t.Fits p n) :=
  inferInstanceAs (Decidable (_ ∧ _ ∧ _))

/-- Place an object; nothing happens where it does not fit. -/
def put (t : FileTree N) (p : List N) (n : Node N) : FileTree N :=
  if h : t.Fits p n then
    { nodes := t.nodes.insert p n
      root_dir := by
        simpa only [Std.ExtTreeMap.getElem?_insert, Std.compare_eq_iff_eq, if_neg h.1] using t.root_dir
      parent_dir := by
        intro d c hm
        rw [Std.ExtTreeMap.mem_insert, Std.compare_eq_iff_eq] at hm
        simp only [Std.ExtTreeMap.getElem?_insert, Std.compare_eq_iff_eq]
        by_cases hp : p = d ++ [c]
        · subst hp
          have hd := h.2.1
          rw [List.dropLast_concat] at hd
          rw [if_neg (fun he => List.cons_ne_nil c [] (List.append_right_eq_self.1 he))]
          exact hd
        · have hm' := hm.resolve_left hp
          by_cases hd : p = d
          · subst hd
            rw [if_pos rfl]
            rcases h.2.2 with rfl | hl
            · rfl
            · have hnone := (t.isLeaf_iff p).1 hl c
              rw [Std.ExtTreeMap.mem_iff_isSome_getElem?, Option.isSome_iff_ne_none] at hm'
              exact (hm' hnone).elim
          · rw [if_neg hd]
            exact t.parent_dir d c hm' }
  else t

theorem get_put {t : FileTree N} (h : t.Fits p n) (q : List N) :
    (t.put p n).get q = if p = q then some n else t.get q := by
  rw [put, dif_pos h]
  simp only [get, Std.ExtTreeMap.getElem?_insert, Std.compare_eq_iff_eq]

/-- Remove an object that has nothing inside. -/
def erase (t : FileTree N) (p : List N) : FileTree N :=
  if h : p ≠ [] ∧ t.isLeaf p = true then
    { nodes := t.nodes.erase p
      root_dir := by
        simpa only [Std.ExtTreeMap.getElem?_erase, Std.compare_eq_iff_eq, if_neg h.1] using t.root_dir
      parent_dir := by
        intro d c hm
        rw [Std.ExtTreeMap.mem_erase] at hm
        simp only [Std.ExtTreeMap.getElem?_erase, Std.compare_eq_iff_eq]
        have hd : p ≠ d := by
          rintro rfl
          have hnone := (t.isLeaf_iff p).1 h.2 c
          rw [Std.ExtTreeMap.mem_iff_isSome_getElem?, Option.isSome_iff_ne_none] at hm
          exact hm.2 hnone
        rw [if_neg hd]
        exact t.parent_dir d c hm.2 }
  else t

theorem get_erase {t : FileTree N} (hp : p ≠ []) (hl : t.isLeaf p = true) (q : List N) :
    (t.erase p).get q = if p = q then none else t.get q := by
  rw [erase, dif_pos ⟨hp, hl⟩]
  simp only [get, Std.ExtTreeMap.getElem?_erase, Std.compare_eq_iff_eq]

/-- One walk along a path from a directory; a link hands the rest of the path to `jump`. -/
def walk (t : FileTree N) (follow : Bool) (jump : List N → List (Option N) → Except Errno (List N))
    (cur : List N) : List (Option N) → Except Errno (List N)
  | [] => .ok cur
  | step :: rest =>
    if t.get cur = some .dir then
      match step with
      | none => walk t follow jump cur.dropLast rest
      | some c =>
        match t.get (cur ++ [c]) with
        | none => if rest = [] then .ok (cur ++ [c]) else .error .noent
        | some (.link l) =>
          if rest = [] ∧ follow = false then .ok (cur ++ [c])
          else jump (if l.absolute then [] else cur) (l.steps ++ rest)
        | some _ => walk t follow jump (cur ++ [c]) rest
    else .error .notdir

/-- A walk that follows at most so many links. -/
def resolve (t : FileTree N) (follow : Bool) : Nat → List N → List (Option N) →
    Except Errno (List N)
  | 0 => fun _ _ => .error .loop
  | links + 1 => t.walk follow (t.resolve follow links)

/-- Where a path leads; the last component may be free. The kernel follows forty links. -/
def locate (t : FileTree N) (follow : Bool) (p : List N) : Except Errno (List N) :=
  t.resolve follow 41 [] (p.map some)

/-- The object a path names: `lstat` without, `stat` with `follow`. -/
def stat (t : FileTree N) (follow : Bool) (p : List N) : Except Errno (Node N) := do
  let q ← t.locate follow p
  match t.get q with
  | some n => .ok n
  | none => .error .noent

def read (t : FileTree N) (p : List N) : Except Errno (List UInt8) := do
  match ← t.stat true p with
  | .file bytes _ _ => .ok bytes
  | .dir => .error .isdir
  | .link _ => .error .loop

def readLink (t : FileTree N) (p : List N) : Except Errno (Link N) := do
  match ← t.stat false p with
  | .link l => .ok l
  | .file .. | .dir => .error .noent

/-- The location of an existing object, all links resolved. -/
def canonicalize (t : FileTree N) (p : List N) : Except Errno (List N) := do
  let q ← t.locate true p
  match t.get q with
  | some _ => .ok q
  | none => .error .noent

def isDir (t : FileTree N) (p : List N) : Bool :=
  match t.stat true p with
  | .ok .dir => true
  | _ => false

def unlink (t : FileTree N) (p : List N) : Except Errno (FileTree N) := do
  let q ← t.locate false p
  match t.get q with
  | none => .error .noent
  | some .dir => .error .isdir
  | some (.file ..) | some (.link _) => .ok (t.erase q)

def rmdir (t : FileTree N) (p : List N) : Except Errno (FileTree N) := do
  let q ← t.locate false p
  match t.get q with
  | none => .error .noent
  | some (.file ..) | some (.link _) => .error .notdir
  | some .dir =>
    if q = [] then .error .busy
    else if t.isLeaf q then .ok (t.erase q) else .error .notempty

/-- `full` is a disk with no room for another directory. -/
def mkdir (t : FileTree N) (full : Bool) (p : List N) : Except Errno (FileTree N) := do
  let q ← t.locate false p
  match t.get q with
  | some _ => .error .exist
  | none => if full then .error .nospc else .ok (t.put q .dir)

/-- `create_dir_all` on the first `n` components of `p`: try, make the parents, try again. -/
def mkdirs (t : FileTree N) (full : Bool) (p : List N) : Nat → Except Errno (FileTree N)
  | 0 => match t.mkdir full [] with
    | .ok u => .ok u
    | .error e => if t.isDir [] then .ok t else .error e
  | n + 1 => match t.mkdir full (p.take (n + 1)) with
    | .ok u => .ok u
    | .error .noent => do
      let u ← t.mkdirs full p n
      match u.mkdir full (p.take (n + 1)) with
      | .ok v => .ok v
      | .error e => if u.isDir (p.take (n + 1)) then .ok u else .error e
    | .error e => if t.isDir (p.take (n + 1)) then .ok t else .error e

def createDirAll (t : FileTree N) (full : Bool) (p : List N) : Except Errno (FileTree N) :=
  t.mkdirs full p p.length

/-- `rename` of a staged regular file over `p`. -/
def install (t : FileTree N) (p : List N) (n : Node N) : Except Errno (FileTree N) := do
  let q ← t.locate false p
  match t.get q with
  | some .dir => .error .isdir
  | some (.file ..) | some (.link _) | none => .ok (t.put q n)

def chmod (t : FileTree N) (p : List N) (mode : Nat) : Except Errno (FileTree N) := do
  let q ← t.locate true p
  match t.get q with
  | none => .error .noent
  | some (.file bytes _ mtime) => .ok (t.put q (.file bytes mode mtime))
  | some .dir | some (.link _) => .ok t

end FileTree

end Tomo
