import Tomo.Lib.Confinement

namespace Tomo
set_option autoImplicit true
set_option linter.unusedSectionVars false

namespace FileTree
variable {N : Type} [Ord N] [Std.TransOrd N] [Std.LawfulEqOrd N] [DecidableEq N]
  {t u : FileTree N} {p q x d root comps : List N} {o : Option (Node N)} {full : Bool}
  {jump jump' : List N → List (Option N) → Except Errno (List N)} {cur : List N}

/-- The content, the mode and the time of the regular file at a location. -/
def fileAt (t : FileTree N) (q : List N) : Option (List UInt8 × Nat × Nat) :=
  match t.get q with
  | some (.file b m k) => some (b, m, k)
  | _ => none

theorem fileAt_of_get (h : u.get q = t.get q) : u.fileAt q = t.fileAt q := by
  rw [fileAt, fileAt, h]

theorem fileAt_none (h : t.get q = none ∨ t.get q = some .dir) : t.fileAt q = none := by
  rw [fileAt]
  rcases h with h | h <;> rw [h]

theorem isFile_of_fileAt (h : t.fileAt q = some f) : t.isFile q = true := by
  rw [fileAt] at h
  rw [isFile_iff]
  split at h
  next b m k hg => exact ⟨b, m, k, hg⟩
  next => cases h

/-- Making a directory changes no file. -/
theorem mkdir_fileAt (h : t.mkdir full p = .ok u) (r : List N) : u.fileAt r = t.fileAt r := by
  obtain ⟨q, _, hn, hget⟩ := mkdir_spec h
  by_cases hq : q = r
  · subst hq
    rw [fileAt_none (.inl hn), fileAt_none (.inr (by rw [hget, if_pos rfl]))]
  · exact fileAt_of_get (by rw [hget, if_neg hq])

theorem mkdirs_fileAt (n : Nat) (h : t.mkdirs full p n = .ok u) (r : List N) :
    u.fileAt r = t.fileAt r := by
  induction n generalizing u with
  | zero =>
    rw [mkdirs] at h
    split at h
    next v hv =>
      cases h
      exact mkdir_fileAt hv r
    · split at h
      · cases h
        rfl
      · cases h
  | succ n ih =>
    rw [mkdirs] at h
    split at h
    next v hv =>
      cases h
      exact mkdir_fileAt hv r
    · simp only [bind, Except.bind] at h
      split at h
      · cases h
      next v hv =>
        have hparents := ih hv
        split at h
        next w hw =>
          cases h
          exact (mkdir_fileAt hw r).trans hparents
        next =>
          split at h
          · cases h
            exact hparents
          · cases h
    · split at h
      · cases h
        rfl
      · cases h

theorem createDirAll_fileAt (h : t.createDirAll full p = .ok u) (r : List N) :
    u.fileAt r = t.fileAt r := mkdirs_fileAt _ h r

/-- Removing an empty directory changes no file. -/
theorem rmdir_fileAt (h : t.rmdir p = .ok u) (r : List N) : u.fileAt r = t.fileAt r := by
  obtain ⟨q, _, hd, _, hget⟩ := rmdir_spec h
  by_cases hq : q = r
  · subst hq
    rw [fileAt_none (.inr hd), fileAt_none (.inl (by rw [hget, if_pos rfl]))]
  · exact fileAt_of_get (by rw [hget, if_neg hq])

/-- `u` is `t` but for the object at one location. -/
def Pokes (x : List N) (o : Option (Node N)) (t u : FileTree N) : Prop :=
  ∀ r, u.get r = if x = r then o else t.get r

theorem Pokes.fileAt (h : Pokes x o t u) (hq : x ≠ q) : u.fileAt q = t.fileAt q :=
  fileAt_of_get (by rw [h, if_neg hq])

/-- A walk that ends at an existing object, past a regular file that was put somewhere, ends
there without that file too. -/
theorem walk_poked (h : Pokes x (some (.file b m k)) t u)
    (hj : ∀ a l, jump' a l = .ok q → jump a l = .ok q) (hx : x ≠ q) {l : List (Option N)}
    (hw : u.walk true jump' cur l = .ok q) : t.walk true jump cur l = .ok q := by
  induction l generalizing cur with
  | nil => exact hw
  | cons step rest ih =>
    simp only [walk] at hw ⊢
    split at hw
    next hd =>
      have hcur : t.get cur = some .dir := by
        rw [h] at hd
        split at hd
        · cases hd
        · exact hd
      rw [if_pos hcur]
      cases step with
      | none => exact ih hw
      | some c =>
        dsimp only at hw ⊢
        by_cases hc : x = cur ++ [c]
        · -- the walk would end at the new file, or fail below it
          rw [h, if_pos hc] at hw
          dsimp only at hw
          cases rest with
          | nil =>
            cases hw
            exact (hx hc).elim
          | cons e rest =>
            have hn : u.get (cur ++ [c]) ≠ some .dir := by
              rw [h, if_pos hc]
              exact fun h => by cases h
            simp only [walk, hn, ↓reduceIte] at hw
            cases hw
        · rw [h, if_neg hc] at hw
          cases hg : t.get (cur ++ [c]) with
          | none =>
            rw [hg] at hw
            exact hw
          | some n =>
            rw [hg] at hw
            cases n with
            | file b' m' k' => exact ih hw
            | dir => exact ih hw
            | link l =>
              dsimp only at hw ⊢
              split at hw
              next hr => exact (Bool.false_ne_true hr.2.symm).elim
              next hr =>
                rw [if_neg hr]
                exact hj _ _ hw
    next => cases hw

/-- What a path leads to past a file that was put elsewhere, it led to before. -/
theorem locate_poked (h : Pokes x (some (.file b m k)) t u) (hx : x ≠ q)
    (hl : u.locate true p = .ok q) : t.locate true p = .ok q := by
  have hres (links : Nat) (a : List N) (l : List (Option N))
      (hr : u.resolve true links a l = .ok q) : t.resolve true links a l = .ok q := by
    induction links generalizing a l with
    | zero => cases hr
    | succ links ih => exact walk_poked h ih hx hr
  exact hres 41 [] _ hl

end FileTree

end Tomo
