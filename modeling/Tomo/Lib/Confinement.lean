import Tomo.Lib.Resolution

namespace Tomo
set_option autoImplicit true
set_option linter.unusedSectionVars false

namespace FileTree
variable {N : Type} [Ord N] [Std.TransOrd N] [Std.LawfulEqOrd N] [DecidableEq N]
  {t u v : FileTree N} {p q d root comps : List N} {c : N} {n : Node N}
  {jump : List N → List (Option N) → Except Errno (List N)} {cur : List N} {follow full : Bool}

/-- A walk that starts with real directories goes on from the last of them. -/
theorem walk_append (hd : t.get (cur ++ d) = some .dir) :
    t.walk follow jump cur ((d ++ p).map some) = t.walk follow jump (cur ++ d) (p.map some) := by
  induction d generalizing cur with
  | nil => rw [List.append_nil, List.nil_append]
  | cons c d ih =>
    have hcur : t.get cur = some .dir := t.get_above hd (List.cons_ne_nil c d)
    rw [List.append_cons] at hd ⊢
    rw [← ih hd, List.cons_append, List.map_cons]
    have hc : t.get (cur ++ [c]) = some .dir := by
      by_cases hn : d = []
      · subst hn
        rwa [List.append_nil] at hd
      · exact t.get_above hd hn
    simp only [walk, hcur, hc, ↓reduceIte]

theorem locate_append (hd : t.get d = some .dir) :
    t.locate follow (d ++ p) = t.walk follow (t.resolve follow 40) d (p.map some) := by
  have h : t.walk follow (t.resolve follow 40) [] ((d ++ p).map some) =
      t.walk follow (t.resolve follow 40) ([] ++ d) (p.map some) := walk_append hd
  exact h

/-- No symbolic link at a proper prefix of `comps` below `root`. -/
def Unlinked (t : FileTree N) (root comps : List N) : Prop :=
  ∀ r c s, comps = r ++ c :: s → ∀ l, t.get (root ++ r) ≠ some (.link l)

theorem Unlinked.take (h : t.Unlinked root comps) (k : Nat) : t.Unlinked root (comps.take k) := by
  intro r c s hr
  have he : comps = r ++ c :: (s ++ comps.drop k) := by
    rw [← List.cons_append, ← List.append_assoc, ← hr, List.take_append_drop]
  exact h r c _ he

/-- Without links on the way a walk ends where it was sent, if it ends at all. -/
theorem walk_unlinked (h : t.Unlinked cur p)
    (hw : t.walk false jump cur (p.map some) = .ok q) : q = cur ++ p := by
  induction p generalizing cur with
  | nil =>
    rw [List.map_nil, walk] at hw
    cases hw
    rw [List.append_nil]
  | cons c p ih =>
    have hrest : t.Unlinked (cur ++ [c]) p := by
      intro r e s hr l
      rw [List.append_assoc]
      exact h (c :: r) e s (by rw [hr, List.cons_append]) l
    rw [List.append_cons]
    simp only [List.map_cons, walk] at hw
    split at hw
    next hd =>
      cases hg : t.get (cur ++ [c]) with
      | none =>
        rw [hg] at hw
        dsimp only at hw
        split at hw
        next hn =>
          cases hw
          rw [List.map_eq_nil_iff.1 hn, List.append_nil]
        next => cases hw
      | some k =>
        rw [hg] at hw
        cases k with
        | file b m s => exact ih hrest hw
        | dir => exact ih hrest hw
        | link l =>
          cases p with
          | nil =>
            cases hw
            rw [List.append_nil]
          | cons e s => exact (h [c] e s rfl l hg).elim
    next => cases hw

theorem locate_unlinked (hr : t.get root = some .dir) (h : t.Unlinked root comps)
    (hl : t.locate false (root ++ comps) = .ok q) : q = root ++ comps := by
  rw [locate_append hr] at hl
  exact walk_unlinked h hl

/-- Resolving a longer path first resolves its beginning. -/
theorem resolve_append {links : Nat} {l l' : List (Option N)} (hl : l' ≠ [])
    (h : t.resolve true links cur l = .ok q) (hq : t.get q ≠ none) :
    ∃ k, t.resolve follow links cur (l ++ l') = t.resolve follow (k + 1) q l' := by
  induction links generalizing cur l with
  | zero => cases h
  | succ links ih =>
    simp only [resolve] at h ⊢
    induction l generalizing cur with
    | nil =>
      rw [walk] at h
      cases h
      exact ⟨links, rfl⟩
    | cons step rest ihl =>
      by_cases hd : t.get cur = some .dir
      · cases step with
        | none =>
          simp only [walk, hd, ↓reduceIte, List.cons_append] at h ⊢
          exact ihl h
        | some c =>
          simp only [walk, hd, ↓reduceIte, List.cons_append] at h ⊢
          have hne : rest ++ l' ≠ [] := List.append_ne_nil_of_right_ne_nil rest hl
          cases hg : t.get (cur ++ [c]) with
          | none =>
            rw [hg] at h
            dsimp only at h
            split at h
            next hr =>
              cases h
              exact (hq hg).elim
            next => cases h
          | some k =>
            rw [hg] at h
            cases k with
            | file b m s => exact ihl h
            | dir => exact ihl h
            | link k =>
              dsimp only at h ⊢
              rw [if_neg fun h => hne h.1]
              rw [if_neg fun h => Bool.false_ne_true h.2.symm] at h
              rw [← List.append_assoc]
              exact ih h
      · simp only [walk, hd, ↓reduceIte] at h
        cases h

/-- Nothing can be found below a regular file, however it is reached. -/
theorem locate_below_file (h : t.locate false p = .ok q) (hq : t.get q = some (.file b m k))
    (hs : d ≠ []) : t.locate follow (p ++ d) = .error .notdir := by
  have hf : t.locate true p = .ok q := by
    apply locate_follow h
    intro l hl
    rw [hq] at hl
    cases hl
  obtain ⟨c, s, rfl⟩ := List.exists_cons_of_ne_nil hs
  have hne : (c :: s).map some ≠ [] := List.cons_ne_nil _ _
  obtain ⟨n, hn⟩ := @resolve_append _ _ _ _ _ t q _ follow _ _ _ hne hf (by simp [hq])
  rw [locate, List.map_append, hn]
  simp only [resolve, List.map_cons, walk, hq, Option.some.injEq, reduceCtorEq, ↓reduceIte]

/-- Nothing that lies on the way from `root` to `comps` is spared. -/
def Clears (S : List N → Prop) (root comps : List N) : Prop :=
  ∀ r, r ≠ [] → r <+: comps → ¬S (root ++ r)

theorem Clears.take {S : List N → Prop} (h : Clears S root comps) (k : Nat) :
    Clears S root (comps.take k) :=
  fun r hr hp => h r hr (hp.trans (List.take_prefix k comps))

theorem Clears.outside (root comps : List N) : Clears (fun q => ¬root <+: q) root comps :=
  fun _ _ _ h => h (List.prefix_append _ _)

/-- A change of the tree that spares a set of places, makes no links and keeps the root. -/
structure Confined (S : List N → Prop) (root : List N) (t u : FileTree N) : Prop where
  root_dir : t.get root = some .dir → u.get root = some .dir
  links : ∀ q l, u.get q = some (.link l) → t.get q = some (.link l)
  spared : ∀ q, S q → u.get q = t.get q

variable {S : List N → Prop}

namespace Confined

theorem refl (S : List N → Prop) (root : List N) (t : FileTree N) : Confined S root t t :=
  ⟨id, fun _ _ => id, fun _ _ => rfl⟩

theorem trans (h : Confined S root t u) (h' : Confined S root u v) : Confined S root t v where
  root_dir hr := h'.root_dir (h.root_dir hr)
  links q l hl := h.links q l (h'.links q l hl)
  spared q hq := (h'.spared q hq).trans (h.spared q hq)

theorem unlinked (h : Confined S root t u) (hu : t.Unlinked root comps) : u.Unlinked root comps :=
  fun r c s hr l hl => hu r c s hr l (h.links _ _ hl)

/-- Changing one object strictly below the root to something that is no link. -/
theorem update (hp : comps ≠ []) (hs : Clears S root comps) (hn : ∀ l, o ≠ some (.link l))
    (h : ∀ r, u.get r = if root ++ comps = r then o else t.get r) : Confined S root t u where
  root_dir hr := by
    rw [h, if_neg fun he => hp (List.append_right_eq_self.1 he), hr]
  links q l hl := by
    rw [h] at hl
    split at hl
    · exact (hn l hl).elim
    · exact hl
  spared q hq := by
    rw [h, if_neg]
    rintro rfl
    exact hs comps hp (List.prefix_refl comps) hq

end Confined

section
variable (hr : t.get root = some .dir) (hu : t.Unlinked root comps) (hp : comps ≠ [])
  (hs : Clears S root comps)
include hr hu hp hs

theorem unlink_confined (h : t.unlink (root ++ comps) = .ok u) : Confined S root t u := by
  obtain ⟨q, n, hl, _, _, hget⟩ := unlink_spec h
  rw [locate_unlinked hr hu hl] at hget
  exact .update hp hs (fun l h => by cases h) hget

theorem install_confined (hn : ∀ l, n ≠ .link l) (h : t.install (root ++ comps) n = .ok u) :
    Confined S root t u := by
  obtain ⟨q, hl, _, hget⟩ := install_spec h
  rw [locate_unlinked hr hu hl] at hget
  exact .update hp hs (fun l h => hn l (Option.some.inj h)) hget

theorem rmdir_confined (h : t.rmdir (root ++ comps) = .ok u) : Confined S root t u := by
  obtain ⟨q, hl, _, _, hget⟩ := rmdir_spec h
  rw [locate_unlinked hr hu hl] at hget
  exact .update hp hs (fun l h => by cases h) hget

end

theorem mkdir_spec (h : t.mkdir full p = .ok u) :
    ∃ q, t.locate false p = .ok q ∧ t.get q = none ∧
      ∀ r, u.get r = if q = r then some .dir else t.get r := by
  rw [mkdir] at h
  cases hq : t.locate false p with
  | error e =>
    rw [hq] at h
    cases h
  | ok q =>
    rw [hq] at h
    simp only [bind, Except.bind] at h
    cases hg : t.get q with
    | some n =>
      rw [hg] at h
      cases h
    | none =>
      rw [hg] at h
      dsimp only at h
      split at h
      · cases h
      · cases h
        refine ⟨q, rfl, hg, fun r => get_put (fits_dir ?_ hg) r⟩
        apply (locate_parent hq).resolve_left
        rintro rfl
        rw [get_nil] at hg
        cases hg

theorem mkdir_confined (hr : t.get root = some .dir) (hu : t.Unlinked root comps)
    (hs : Clears S root comps) (h : t.mkdir full (root ++ comps) = .ok u) : Confined S root t u := by
  obtain ⟨q, hl, hn, hget⟩ := mkdir_spec h
  have hq := locate_unlinked hr hu hl
  rw [hq] at hget hn
  refine .update (o := some .dir) ?_ hs (fun l h => by cases h) hget
  rintro rfl
  rw [List.append_nil, hr] at hn
  cases hn

/-- Making directories up to a length that covers the root stays below the root. -/
theorem mkdirs_confined (hr : t.get root = some .dir) (hu : t.Unlinked root comps)
    (hs : Clears S root comps) (n : Nat)
    (h : t.mkdirs full (root ++ comps) (root.length + n) = .ok u) : Confined S root t u := by
  have htake (k : Nat) : (root ++ comps).take (root.length + k) = root ++ comps.take k := by
    rw [List.take_append, List.take_of_length_le (Nat.le_add_right _ _), Nat.add_sub_cancel_left]
  induction n generalizing u with
  | zero =>
    have hexist : t.mkdir full root = .error .exist := mkdir_exist hr
    have hroot : (root ++ comps).take root.length = root := by
      have h := htake 0
      rwa [Nat.add_zero, List.take_zero, List.append_nil] at h
    rw [Nat.add_zero] at h
    cases hlen : root.length with
    | zero =>
      rw [hlen, List.take_zero] at hroot
      subst hroot
      rw [hlen, mkdirs, hexist] at h
      simp only [isDir_get hr, ↓reduceIte] at h
      cases h
      exact .refl S [] t
    | succ k =>
      rw [hlen, mkdirs, ← hlen, hroot, hexist] at h
      simp only [isDir_get hr, ↓reduceIte] at h
      cases h
      exact .refl S root t
  | succ n ih =>
    rw [← Nat.add_assoc, mkdirs, Nat.add_assoc, htake (n + 1)] at h
    split at h
    next v hv =>
      cases h
      exact mkdir_confined hr (hu.take _) (hs.take _) hv
    · simp only [bind, Except.bind] at h
      split at h
      · cases h
      next v hv =>
        have hc := ih hv
        split at h
        next w hw =>
          cases h
          exact hc.trans (mkdir_confined (hc.root_dir hr) (hc.unlinked (hu.take _)) (hs.take _) hw)
        next =>
          split at h
          · cases h
            exact hc
          · cases h
    · split at h
      · cases h
        exact .refl S root t
      · cases h

end FileTree

end Tomo
