import Tomo.Session.Delivery
import Tomo.Session.Escape

namespace Tomo
set_option autoImplicit true

section
variable {t u : Tree} {root : List Name} {rel : RelPath}

theorem stat_straight (ht : t.Straight p) (follow : Bool) :
    t.stat follow p =
      (t.get p).elim (.error (if t.underFile p = true then .notdir else .noent)) .ok := by
  cases hg : t.get p with
  | none => exact FileTree.stat_none ht hg
  | some n => exact FileTree.stat_get hg fun l h => ht p (List.prefix_refl p) l (by rw [hg, h])

theorem walkParents_straight {seen rest : List Name} (ht : t.Straight (root ++ (seen ++ rest)))
    (why : ApplyRefused) : walkParents t root seen rest ≠ .refused why := by
  induction rest generalizing seen with
  | nil => exact fun h => by cases h
  | cons c rest ih =>
    have hnext : t.Straight (root ++ ((seen ++ [c]) ++ rest)) := by
      rwa [List.append_assoc seen, List.singleton_append]
    have hpre : root ++ (seen ++ [c]) <+: root ++ ((seen ++ [c]) ++ rest) := by
      rw [← List.append_assoc root (seen ++ [c]) rest]
      exact List.prefix_append _ _
    rw [walkParents, stat_straight fun r hr => hnext r (hr.trans hpre)]
    cases hg : t.get (root ++ (seen ++ [c])) with
    | none => exact fun h => by cases h
    | some n =>
      cases n with
      | file b m k => exact ih hnext
      | dir => exact ih hnext
      | link l => exact (hnext _ hpre l hg).elim

section
variable (hr : t.get root = some .dir)
include hr

theorem canonicalRoot_dir : canonicalRoot t root = root := by
  rw [canonicalRoot, FileTree.canonicalize, FileTree.locate_get hr fun l h => by cases h]
  simp only [bind, Except.bind, hr]

theorem ancestorVerdict_straight {a : List Name} (ht : t.Straight (root ++ a)) :
    ancestorVerdict t root (root ++ a) =
      if (t.get (root ++ a)).isSome then some none else none := by
  rw [ancestorVerdict, canonicalRoot_dir hr, FileTree.canonicalize, FileTree.locate_straight ht]
  cases hg : t.get (root ++ a) with
  | none =>
    split
    next q h =>
      split at h
      · simp only [bind, Except.bind, hg] at h
        cases h
      · cases h
    next => rfl
  | some n =>
    have hd : t.get (root ++ a).dropLast = some .dir := by
      by_cases hn : root ++ a = []
      · rw [hn]
        exact t.get_nil
      · rw [← List.dropLast_append_getLast hn] at hg
        exact t.get_parent hg
    rw [if_pos hd]
    simp only [bind, Except.bind, hg, List.prefix_append, ↓reduceIte, Option.isSome_some]

/-- Where there are no links above it no write and no deletion is refused. -/
theorem checkParents_straight {comps : List Name} (ht : t.Straight (root ++ comps.dropLast)) :
    checkParents t root comps = none := by
  rw [checkParents]
  split
  · rfl
  next hne =>
    cases hw : walkParents t root [] comps.dropLast with
    | refused why => exact (walkParents_straight ht _ hw).elim
    | stopped => rfl
    | through =>
      dsimp only
      rw [List.dropLast_append_of_ne_nil hne]
      have hcheck (k : Nat) : checkAncestor t root (root ++ comps.dropLast) (root.length + k) =
          none := by
        have htake (k : Nat) :
            (root ++ comps.dropLast).take (root.length + k) = root ++ comps.dropLast.take k := by
          rw [List.take_append, List.take_of_length_le (Nat.le_add_right _ _),
            Nat.add_sub_cancel_left]
        have hpre (k : Nat) : t.Straight (root ++ comps.dropLast.take k) := by
          intro r hr
          apply ht r (hr.trans _)
          rw [← htake]
          exact List.take_prefix _ _
        have hroot := ancestorVerdict_straight hr (hpre 0)
        rw [List.take_zero, List.append_nil, hr] at hroot
        induction k with
        | zero =>
          have h0 := htake 0
          rw [List.take_zero, List.append_nil, Nat.add_zero] at h0
          cases hn : root.length with
          | zero =>
            rw [List.length_eq_zero_iff] at hn
            subst hn
            simp only [checkAncestor, hroot, Option.isSome_some, ↓reduceIte, Option.getD_some]
          | succ n =>
            rw [Nat.add_zero, checkAncestor, ← hn, h0, hroot]
            rfl
        | succ k ih =>
          rw [← Nat.add_assoc, checkAncestor, Nat.add_assoc, htake (k + 1),
            ancestorVerdict_straight hr (hpre (k + 1))]
          split
          · rfl
          · exact ih
      rw [List.length_append]
      exact hcheck _

end

/-- Above a path that no regular file stands over there are directories, or nothing, unless there
is a link. -/
theorem clear_above (ht : t.Straight (join root rel).dropLast)
    (hu : t.underFile (join root rel) = false) : t.Clear (join root rel).dropLast := by
  intro r hp
  cases hg : t.get r with
  | none => exact .inl rfl
  | some n =>
    cases n with
    | dir => exact .inr rfl
    | link l => exact (ht r hp l hg).elim
    | file b m k =>
      obtain ⟨s, hs⟩ := hp
      have hne : join root rel ≠ [] := List.append_ne_nil_of_right_ne_nil _ rel.components_ne_nil
      have hfull : join root rel = r ++ (s ++ [(join root rel).getLast hne]) := by
        rw [← List.append_assoc, hs, List.dropLast_append_getLast]
      rw [Bool.eq_false_iff, Ne, FileTree.underFile_iff] at hu
      obtain ⟨c, s', hcs⟩ := List.exists_cons_of_ne_nil
        (List.append_ne_nil_of_right_ne_nil s (List.cons_ne_nil ((join root rel).getLast hne) []))
      exact (hu ⟨r, c, s', by rw [hfull, hcs], FileTree.isFile_iff.2 ⟨b, m, k, hg⟩⟩).elim

variable (hl : t.Linkless)
include hl

theorem stat_linkless (follow : Bool) (p : List Name) :
    t.stat follow p =
      (t.get p).elim (.error (if t.underFile p = true then .notdir else .noent)) .ok :=
  stat_straight (hl.straight p) follow

theorem pathIsDir_iff (p : List Name) : pathIsDir t p = true ↔ t.get p = some .dir := by
  rw [pathIsDir, stat_linkless hl]
  cases hg : t.get p with
  | none => simp
  | some n => cases n <;> simp

theorem read_linkless (p : List Name) :
    t.read p = match t.get p with
      | none => .error (if t.underFile p = true then .notdir else .noent)
      | some (.file bytes _ _) => .ok bytes
      | some .dir => .error .isdir
      | some (.link _) => .error .loop := by
  rw [FileTree.read, stat_linkless hl]
  cases t.get p with
  | none => rfl
  | some n => cases n <;> rfl

omit hl in
theorem not_underFile (h : t.get p = some n) : t.underFile p = false := by
  rw [Bool.eq_false_iff, Ne, FileTree.underFile_iff]
  rintro ⟨r, c, s, rfl, hf⟩
  rw [FileTree.isFile, t.get_above h (List.cons_ne_nil c s)] at hf
  cases hf

/-- A path can be probed unless a regular file stands above it. -/
theorem snapshot_linkless [Platform] (rel : RelPath) :
    snapshot t root rel =
      if t.underFile (join root rel) = true then .error .notdir
      else .ok (match t.get (join root rel) with
        | some (.file bytes mode mtime) =>
          some ⟨Platform.blake3 bytes, bytes.length, isExecutable mode, mtime⟩
        | some .dir | some (.link _) | none => none) := by
  rw [snapshot, stat_linkless hl, read_linkless hl]
  cases hg : t.get (join root rel) with
  | none =>
    cases t.underFile (join root rel) <;> rfl
  | some n =>
    rw [not_underFile hg]
    cases n with
    | file b m k => rfl
    | dir => rfl
    | link l => rfl

variable (hr : t.get root = some .dir)
include hr

theorem checkParents_linkless (comps : List Name) : checkParents t root comps = none :=
  checkParents_straight hr (hl.straight _)

omit hl hr in
theorem unlink_file (hg : t.get p = some (.file b m k)) :
    ∃ v, t.unlink p = .ok v ∧ ∀ r, v.get r = if p = r then none else t.get r := by
  have hd : t.get p ≠ some .dir := by
    rw [hg]
    exact fun h => by cases h
  have hp : p ≠ [] := by
    rintro rfl
    exact hd t.get_nil
  refine ⟨t.erase p, ?_, FileTree.get_erase hp (FileTree.leaf_of_not_dir hd)⟩
  rw [FileTree.unlink, FileTree.locate_get hg fun l h => by cases h]
  simp only [bind, Except.bind, hg]

/-- A deletion takes the file away and prunes what it leaves empty. -/
theorem applyAbsent_linkless (hu : t.underFile (join root rel) = false)
    (hd : t.get (join root rel) ≠ some .dir) :
    ∃ v, (∀ r, v.get r = if join root rel = r then none else t.get r) ∧
      applyAbsent t root rel =
        .ok (pruneEmptyParents root rel.components v (rel.components.length - 1)) := by
  rw [applyAbsent, checkParents_linkless hl hr]
  dsimp only
  cases hg : t.get (join root rel) with
  | none =>
    refine ⟨t, fun r => ?_, ?_⟩
    · split
      next h => rw [← h, hg]
      next => rfl
    · have hn : t.unlink (join root rel) = .error .noent := by
        rw [FileTree.unlink, FileTree.locate_straight (hl.straight _), hu]
        split
        · simp only [bind, Except.bind, hg]
        · rfl
      rw [hn]
  | some n =>
    cases n with
    | dir => exact (hd hg).elim
    | link l => exact (hl _ l hg).elim
    | file b m k =>
      obtain ⟨v, hv, hget⟩ := unlink_file hg
      exact ⟨v, hget, by rw [hv]⟩

variable [Platform] {sig : ContentSig} {bytes : Bytes} {dirs : List (List Name)}

/-- With room on the disk a file that matches is staged, in directories that exist then. -/
theorem stagePresent_room (hu : t.underFile (join root rel) = false)
    (hm : matchesSig bytes sig = true) (hdirs : ∀ d ∈ dirs, t.get d = some .dir) (wallMs : Nat) :
    ∃ u dirs', stagePresent t root false wallMs dirs rel sig bytes =
        ⟨u, dirs', .ok ⟨bytes, execMode sig.exec, wallMs⟩⟩ ∧
      (∀ r, u.get r = if r <+: (join root rel).dropLast then some .dir else t.get r) ∧
      ∀ d ∈ dirs', d ∈ dirs ∨ d = (join root rel).dropLast := by
  simp only [stagePresent, hm, Bool.true_eq_false, ↓reduceIte, checkParents_linkless hl hr,
    Bool.false_eq_true]
  by_cases hp : (join root rel).dropLast ∈ dirs
  · rw [if_pos hp]
    refine ⟨t, dirs, rfl, fun r => ?_, fun d hd => .inl hd⟩
    split
    next h =>
      obtain ⟨s, hs⟩ := h
      have hd := hdirs _ hp
      by_cases hn : s = []
      · rw [← hs, hn, List.append_nil] at hd
        exact hd
      · rw [← hs] at hd
        exact t.get_above hd hn
    next => rfl
  · rw [if_neg hp]
    obtain ⟨u, hu, hget⟩ := FileTree.createDirAll_clear (clear_above (hl.straight _) hu)
    exact ⟨u, _, by rw [hu], hget, fun d hd => (List.mem_cons.1 hd).symm⟩

/-- On a full disk staging fails and leaves the tree as it is. -/
theorem stagePresent_full (hu : t.underFile (join root rel) = false)
    (hm : matchesSig bytes sig = true) (dirs : List (List Name)) (wallMs : Nat) :
    ∃ dirs' op path, stagePresent t root true wallMs dirs rel sig bytes =
      ⟨t, dirs', .error (.io op path .nospc)⟩ := by
  simp only [stagePresent, hm, Bool.true_eq_false, ↓reduceIte, checkParents_linkless hl hr]
  split
  · exact ⟨_, _, _, rfl⟩
  · rw [FileTree.createDirAll_full (clear_above (hl.straight _) hu)]
    by_cases hd : t.get (join root rel).dropLast = some .dir
    · rw [if_pos hd]
      exact ⟨_, _, _, rfl⟩
    · rw [if_neg hd]
      exact ⟨_, _, _, rfl⟩

end

end Tomo
