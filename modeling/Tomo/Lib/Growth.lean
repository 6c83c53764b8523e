import Tomo.Lib.Confinement

namespace Tomo
set_option autoImplicit true
set_option linter.unusedSectionVars false

namespace FileTree
variable {N : Type} [Ord N] [Std.TransOrd N] [Std.LawfulEqOrd N] [DecidableEq N]
  {t u v : FileTree N} {p q cur : List N}

/-- `u` has everything that `t` has, with the same content. -/
structure Grows (t u : FileTree N) : Prop where
  dirs : ∀ {p}, t.get p = some .dir → u.get p = some .dir
  links : ∀ {p l}, t.get p = some (.link l) → u.get p = some (.link l)
  files : ∀ {p b m k}, t.get p = some (.file b m k) → ∃ m' k', u.get p = some (.file b m' k')

namespace Grows

theorem refl (t : FileTree N) : Grows t t := ⟨id, id, fun h => ⟨_, _, h⟩⟩

theorem trans (h : Grows t u) (h' : Grows u v) : Grows t v where
  dirs hp := h'.dirs (h.dirs hp)
  links hp := h'.links (h.links hp)
  files hp := by
    obtain ⟨m, k, hu⟩ := h.files hp
    exact h'.files hu

/-- A new object where there was none. -/
theorem fresh (hn : t.get q = none) (h : ∀ r, u.get r = if q = r then o else t.get r) :
    Grows t u := by
  have hget (r : List N) (n : Node N) (hr : t.get r = some n) : u.get r = some n := by
    rw [h, if_neg, hr]
    rintro rfl
    rw [hn] at hr
    cases hr
  exact ⟨hget _ _, hget _ _, fun hp => ⟨_, _, hget _ _ hp⟩⟩

theorem walk {jump jump' : List N → List (Option N) → Except Errno (List N)} (hg : Grows t u)
    (hj : ∀ a l q, jump a l = .ok q → t.get q ≠ none → jump' a l = .ok q)
    {l : List (Option N)} (h : t.walk follow jump cur l = .ok q) (hq : t.get q ≠ none) :
    u.walk follow jump' cur l = .ok q := by
  induction l generalizing cur with
  | nil => exact h
  | cons step rest ih =>
    by_cases hd : t.get cur = some .dir
    · cases step with
      | none =>
        simp only [FileTree.walk, hd, hg.dirs hd, ↓reduceIte] at h ⊢
        exact ih h
      | some c =>
        simp only [FileTree.walk, hd, hg.dirs hd, ↓reduceIte] at h ⊢
        cases hn : t.get (cur ++ [c]) with
        | none =>
          rw [hn] at h
          dsimp only at h
          split at h
          · cases h
            exact (hq hn).elim
          · cases h
        | some n =>
          rw [hn] at h
          cases n with
          | file b m k =>
            obtain ⟨m', k', hu⟩ := hg.files hn
            rw [hu]
            exact ih h
          | dir =>
            rw [hg.dirs hn]
            exact ih h
          | link l =>
            rw [hg.links hn]
            dsimp only at h ⊢
            split at h
            next hr =>
              rw [if_pos hr]
              exact h
            next hr =>
              rw [if_neg hr]
              exact hj _ _ _ h hq
    · simp only [FileTree.walk, hd, ↓reduceIte] at h
      cases h

/-- What a path leads to, it still leads to. -/
theorem locate (hg : Grows t u) (h : t.locate follow p = .ok q) (hq : t.get q ≠ none) :
    u.locate follow p = .ok q := by
  have hres (links : Nat) (a : List N) (l : List (Option N)) (q : List N)
      (h : t.resolve follow links a l = .ok q) (hq : t.get q ≠ none) :
      u.resolve follow links a l = .ok q := by
    induction links generalizing a l q with
    | zero => cases h
    | succ links ih => exact hg.walk ih h hq
  exact hres 41 [] _ q h hq

end Grows

theorem stat_spec (h : t.stat follow p = .ok n) :
    ∃ q, t.locate follow p = .ok q ∧ t.get q = some n := by
  rw [stat] at h
  cases hq : t.locate follow p with
  | error e =>
    rw [hq] at h
    cases h
  | ok q =>
    rw [hq] at h
    simp only [bind, Except.bind] at h
    cases hn : t.get q with
    | none =>
      rw [hn] at h
      cases h
    | some k =>
      rw [hn] at h
      cases h
      exact ⟨q, rfl, hn⟩

/-- A walk that ends at an object has met one under the last component of the path. -/
theorem walk_last {jump : List N → List (Option N) → Except Errno (List N)}
    (hj : ∀ a l q, jump a (l ++ [some c]) = .ok q → t.get q ≠ none →
      ∃ d, t.get (d ++ [c]) ≠ none) {l : List (Option N)}
    (h : t.walk true jump cur (l ++ [some c]) = .ok q) (hq : t.get q ≠ none) :
    ∃ d, t.get (d ++ [c]) ≠ none := by
  induction l generalizing cur with
  | nil =>
    rw [List.nil_append] at h
    simp only [walk] at h
    split at h
    next =>
      cases hn : t.get (cur ++ [c]) with
      | none =>
        rw [hn] at h
        cases h
        exact (hq hn).elim
      | some n => exact ⟨cur, by simp [hn]⟩
    next => cases h
  | cons step l ih =>
    cases step with
    | none =>
      simp only [List.cons_append, walk] at h
      split at h
      next => exact ih h
      next => cases h
    | some x =>
      have hne : l ++ [some c] ≠ [] := List.append_ne_nil_of_right_ne_nil _ (List.cons_ne_nil _ _)
      simp only [List.cons_append, walk, hne, false_and, ↓reduceIte] at h
      split at h
      next =>
        split at h
        · cases h
        · rw [← List.append_assoc] at h
          exact hj _ _ _ h hq
        · exact ih h
      next => cases h

/-- What exists has an object under its last component. -/
theorem stat_last (h : t.stat true (p ++ [c]) = .ok n) : ∃ d, t.get (d ++ [c]) ≠ none := by
  obtain ⟨q, hq, hn⟩ := stat_spec h
  have hres (links : Nat) (a : List N) (l : List (Option N)) (q : List N)
      (h : t.resolve true links a (l ++ [some c]) = .ok q) (hq : t.get q ≠ none) :
      ∃ d, t.get (d ++ [c]) ≠ none := by
    induction links generalizing a l q with
    | zero => cases h
    | succ links ih => exact walk_last ih h hq
  rw [locate, List.map_append] at hq
  exact hres 41 [] _ q hq (by simp [hn])

theorem read_spec (h : t.read p = .ok b) :
    ∃ q m k, t.locate true p = .ok q ∧ t.get q = some (.file b m k) := by
  rw [read] at h
  cases hs : t.stat true p with
  | error e =>
    rw [hs] at h
    cases h
  | ok n =>
    rw [hs] at h
    obtain ⟨q, hq, hn⟩ := stat_spec hs
    cases n with
    | file b m k =>
      cases h
      exact ⟨q, m, k, hq, hn⟩
    | dir => cases h
    | link l => cases h

theorem read_of_locate (hq : t.locate true p = .ok q) (hg : t.get q = some (.file b m k)) :
    t.read p = .ok b := by
  rw [read, stat, hq]
  simp only [bind, Except.bind, hg]

/-- What could be read can be read. -/
theorem Grows.read (hg : Grows t u) (h : t.read p = .ok b) : u.read p = .ok b := by
  obtain ⟨q, m, k, hq, hn⟩ := read_spec h
  obtain ⟨m', k', hu⟩ := hg.files hn
  exact read_of_locate (hg.locate hq (by simp [hn])) hu

theorem mkdir_grows (h : t.mkdir full p = .ok u) : Grows t u := by
  obtain ⟨q, _, hn, hget⟩ := mkdir_spec h
  exact .fresh hn hget

/-- Making a directory with its parents is a row of single steps. -/
theorem createDirAll_steps {R : FileTree N → FileTree N → Prop} (hrefl : ∀ t, R t t)
    (htrans : ∀ {a b c}, R a b → R b c → R a c)
    (hmk : ∀ {a b : FileTree N} {p}, a.mkdir full p = .ok b → R a b)
    (h : t.createDirAll full p = .ok u) : R t u := by
  have hmkdirs (n : Nat) (u : FileTree N) (h : t.mkdirs full p n = .ok u) : R t u := by
    induction n generalizing u with
    | zero =>
      rw [mkdirs] at h
      split at h
      next he =>
        cases h
        exact hmk he
      next =>
        split at h
        · cases h
          exact hrefl t
        · cases h
    | succ n ih =>
      rw [mkdirs] at h
      split at h
      next he =>
        cases h
        exact hmk he
      next =>
        cases hu : t.mkdirs full p n with
        | error e =>
          rw [hu] at h
          cases h
        | ok w =>
          rw [hu] at h
          simp only [bind, Except.bind] at h
          split at h
          next he =>
            cases h
            exact htrans (ih w hu) (hmk he)
          next =>
            split at h
            · cases h
              exact ih _ hu
            · cases h
      next =>
        split at h
        · cases h
          exact hrefl t
        · cases h
  exact hmkdirs _ u h

theorem createDirAll_grows (h : t.createDirAll full p = .ok u) : Grows t u :=
  createDirAll_steps .refl .trans mkdir_grows h

/-- Making directories changes nothing that is there. -/
theorem createDirAll_keeps (h : t.createDirAll full p = .ok u) (hr : t.get r = some n) :
    u.get r = some n := by
  have hkeeps : ∀ r n, t.get r = some n → u.get r = some n := by
    refine createDirAll_steps (R := fun a b => ∀ r n, a.get r = some n → b.get r = some n)
      (fun _ _ _ => id) (fun h h' r n hr => h' r n (h r n hr)) ?_ h
    intro a b p hm r n hr
    obtain ⟨q, _, hn, hget⟩ := mkdir_spec hm
    rw [hget, if_neg, hr]
    rintro rfl
    rw [hn] at hr
    cases hr
  exact hkeeps r n hr

/-- On a full disk no directory is made. -/
theorem createDirAll_full_eq (h : t.createDirAll true p = .ok u) : u = t := by
  refine createDirAll_steps (R := fun a b => b = a) (fun _ => rfl) (fun h h' => h'.trans h) ?_ h
  intro a b p hm
  simp only [mkdir] at hm
  cases hq : a.locate false p with
  | error e =>
    rw [hq] at hm
    cases hm
  | ok q =>
    rw [hq] at hm
    simp only [bind, Except.bind, ↓reduceIte] at hm
    split at hm <;> cases hm

theorem chmod_grows (h : t.chmod p mode = .ok u) : Grows t u := by
  obtain ⟨q, _, ⟨b, m, k, hn, hget⟩ | ⟨_, rfl⟩⟩ := chmod_spec h
  · have hother (r : List N) (n : Node N) (hr : t.get r = some n) (hf : ∀ b m k, n ≠ .file b m k) :
        u.get r = some n := by
      rw [hget, if_neg, hr]
      rintro rfl
      rw [hn] at hr
      cases hr
      exact hf b m k rfl
    refine ⟨fun h => hother _ _ h (by simp), fun h => hother _ _ h (by simp), fun {r b' m' k'} hr => ?_⟩
    rw [hget]
    split
    next he =>
      subst he
      rw [hn] at hr
      cases hr
      exact ⟨_, _, rfl⟩
    next => exact ⟨_, _, hr⟩
  · exact .refl u

end FileTree

end Tomo
