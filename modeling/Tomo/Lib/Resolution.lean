import Tomo.Lib.FileTree

namespace Tomo
set_option autoImplicit true
set_option linter.unusedSectionVars false

namespace FileTree
variable {N : Type} [Ord N] [Std.TransOrd N] [Std.LawfulEqOrd N] [DecidableEq N]
  {t u : FileTree N} {p q d : List N} {c : N} {n : Node N}
  {jump : List N → List (Option N) → Except Errno (List N)} {cur : List N} {follow : Bool}

/-- A walk through real directories arrives where it was sent. -/
theorem walk_dirs (hd : ∀ r c s, p = r ++ c :: s → t.get (cur ++ r) = some .dir)
    (hl : follow = true → ∀ l, t.get (cur ++ p) ≠ some (.link l)) :
    t.walk follow jump cur (p.map some) = .ok (cur ++ p) := by
  induction p generalizing cur with
  | nil => simp only [List.map_nil, walk, List.append_nil]
  | cons c p ih =>
    have hcur := hd [] c p rfl
    rw [List.append_nil] at hcur
    have hrec : t.walk follow jump (cur ++ [c]) (p.map some) = .ok (cur ++ [c] ++ p) := by
      apply ih
      · intro r e s hp
        rw [List.append_assoc]
        exact hd (c :: r) e s (by rw [hp, List.cons_append])
      · intro hf l
        rw [List.append_assoc]
        exact hl hf l
    rw [List.append_assoc] at hrec
    simp only [List.map_cons, walk, hcur, ↓reduceIte]
    cases hp : p with
    | nil =>
      subst hp
      rw [List.map_nil, walk] at hrec
      cases hg : t.get (cur ++ [c]) with
      | none => rfl
      | some n =>
        cases n with
        | file => rfl
        | dir => rfl
        | link l =>
          cases follow with
          | false => rfl
          | true => exact (hl rfl l hg).elim
    | cons e s =>
      have hc := hd [c] e s (by rw [hp]; rfl)
      rw [hc, ← hp]
      exact hrec

theorem locate_dirs (hd : t.get p.dropLast = some .dir)
    (hl : follow = true → ∀ l, t.get p ≠ some (.link l)) : t.locate follow p = .ok p := by
  apply @walk_dirs N _ _ _ _ t p _ [] follow _ hl
  intro r c s hp
  rw [List.nil_append]
  rw [hp, List.dropLast_append_cons] at hd
  cases s with
  | nil => simpa using hd
  | cons e s =>
    rw [List.dropLast_cons_cons] at hd
    exact t.get_above hd (List.cons_ne_nil _ _)

/-- An existing object that is no link is found where it is. -/
theorem locate_get (h : t.get p = some n) (hl : ∀ l, n ≠ .link l) : t.locate follow p = .ok p := by
  apply locate_dirs
  · by_cases hp : p = []
    · subst hp
      exact t.get_nil
    · rw [← List.dropLast_append_getLast hp] at h
      exact t.get_parent h
  · rintro _ l hg
    rw [h] at hg
    cases hg
    exact hl l rfl

/-- What a walk finds stands in a directory. -/
theorem walk_parent (hcur : cur = [] ∨ t.get cur.dropLast = some .dir)
    (hj : ∀ a l q, jump a l = .ok q → t.get a = some .dir → q = [] ∨ t.get q.dropLast = some .dir)
    {l : List (Option N)} (h : t.walk follow jump cur l = .ok q) :
    q = [] ∨ t.get q.dropLast = some .dir := by
  induction l generalizing cur with
  | nil =>
    rw [walk] at h
    cases h
    exact hcur
  | cons step rest ih =>
    cases step with
    | none =>
      simp only [walk] at h
      split at h
      next hdir =>
        apply ih _ h
        by_cases hn : cur = []
        · exact .inl (by rw [hn]; rfl)
        · right
          by_cases hn' : cur.dropLast = []
          · rw [hn']
            exact t.get_nil
          · have hp := hcur.resolve_left hn
            rw [← List.dropLast_append_getLast hn'] at hp
            exact t.get_parent hp
      next => cases h
    | some c =>
      simp only [walk] at h
      split at h
      next hdir =>
        have hc : t.get (cur ++ [c]).dropLast = some .dir := by rwa [List.dropLast_concat]
        split at h
        · split at h
          · cases h
            exact .inr hc
          · cases h
        · split at h
          · cases h
            exact .inr hc
          · apply hj _ _ _ h
            split
            · exact t.get_nil
            · exact hdir
        · exact ih (.inr hc) h
      next => cases h

theorem locate_parent (h : t.locate follow p = .ok q) : q = [] ∨ t.get q.dropLast = some .dir := by
  have hres (links : Nat) (a : List N) (l : List (Option N)) (q : List N)
      (h : t.resolve follow links a l = .ok q) (ha : t.get a = some .dir) :
      q = [] ∨ t.get q.dropLast = some .dir := by
    induction links generalizing a l q with
    | zero => cases h
    | succ links ih =>
      apply walk_parent _ (fun a l q hq hd => ih a l q hq hd) h
      by_cases hn : a = []
      · exact .inl hn
      · rw [← List.dropLast_append_getLast hn] at ha
        exact .inr (t.get_parent ha)
  exact hres 41 [] _ q h t.get_nil

/-- What is found without following a final link, and is none, is found with following too. -/
theorem walk_follow {jump' : List N → List (Option N) → Except Errno (List N)}
    (hj : ∀ a l q, jump a l = .ok q → (∀ k, t.get q ≠ some (.link k)) → jump' a l = .ok q)
    {l : List (Option N)} (h : t.walk false jump cur l = .ok q)
    (hq : ∀ k, t.get q ≠ some (.link k)) : t.walk true jump' cur l = .ok q := by
  induction l generalizing cur with
  | nil => exact h
  | cons step rest ih =>
    by_cases hd : t.get cur = some .dir
    · cases step with
      | none =>
        simp only [walk, hd, ↓reduceIte] at h ⊢
        exact ih h
      | some c =>
        simp only [walk, hd, ↓reduceIte] at h ⊢
        cases hg : t.get (cur ++ [c]) with
        | none =>
          rw [hg] at h
          exact h
        | some n =>
          rw [hg] at h
          cases n with
          | file b m k => exact ih h
          | dir => exact ih h
          | link k =>
            dsimp only at h ⊢
            by_cases hr : rest = []
            · rw [if_pos ⟨hr, trivial⟩] at h
              cases h
              exact (hq k hg).elim
            · rw [if_neg fun h => hr h.1] at h
              rw [if_neg fun h => hr h.1]
              exact hj _ _ _ h hq
    · simp only [walk, hd, ↓reduceIte] at h
      cases h

theorem locate_follow (h : t.locate false p = .ok q) (hq : ∀ k, t.get q ≠ some (.link k)) :
    t.locate true p = .ok q := by
  have hres (links : Nat) (a : List N) (l : List (Option N)) (q : List N)
      (h : t.resolve false links a l = .ok q) (hq : ∀ k, t.get q ≠ some (.link k)) :
      t.resolve true links a l = .ok q := by
    induction links generalizing a l q with
    | zero => cases h
    | succ links ih => exact walk_follow ih h hq
  exact hres 41 [] _ q h hq

/-- A location that is no directory has nothing inside. -/
theorem leaf_of_not_dir (h : t.get p ≠ some .dir) : t.isLeaf p = true := by
  rw [isLeaf_iff]
  intro c
  by_contra hc
  obtain ⟨n, hn⟩ := Option.ne_none_iff_exists'.1 hc
  exact h (t.get_parent hn)

/-- A regular file fits wherever a path leads, unless a directory stands there. -/
theorem fits_file (h : t.locate follow p = .ok q) (hq : t.get q ≠ some .dir) (n : Node N) :
    t.Fits q n := by
  have hne : q ≠ [] := by
    rintro rfl
    exact hq t.get_nil
  exact ⟨hne, (locate_parent h).resolve_left hne, .inr (leaf_of_not_dir hq)⟩

/-- No symbolic links anywhere. -/
def Linkless (t : FileTree N) : Prop := ∀ p l, t.get p ≠ some (.link l)

/-- No symbolic link on the way to the location, nor at it. -/
def Straight (t : FileTree N) (p : List N) : Prop := ∀ r, r <+: p → ∀ l, t.get r ≠ some (.link l)

theorem linkless_empty : (empty : FileTree N).Linkless := by
  intro p l h
  simp only [get, empty, Std.ExtTreeMap.getElem?_insert] at h
  split at h
  · cases h
  · simp at h

theorem Linkless.put (h : t.Linkless) (hn : ∀ l, n ≠ .link l) : (t.put p n).Linkless := by
  intro q l hq
  by_cases hf : t.Fits p n
  · rw [get_put hf] at hq
    split at hq
    · cases hq
      exact hn l rfl
    · exact h q l hq
  · rw [FileTree.put, dif_neg hf] at hq
    exact h q l hq

theorem Linkless.straight (h : t.Linkless) (p : List N) : t.Straight p := fun r _ => h r

/-- Whether a regular file stands at the location. -/
def isFile (t : FileTree N) (p : List N) : Bool :=
  match t.get p with
  | some (.file ..) => true
  | _ => false

theorem isFile_iff : t.isFile p = true ↔ ∃ b m s, t.get p = some (.file b m s) := by
  unfold isFile
  cases h : t.get p with
  | none => simp
  | some n => cases n <;> simp

/-- Whether a walk from `cur` would have to pass through a regular file. -/
def blocked (t : FileTree N) (cur : List N) : List N → Bool
  | [] => false
  | c :: p => t.isFile cur || t.blocked (cur ++ [c]) p

/-- A proper ancestor of the location is a regular file. -/
def underFile (t : FileTree N) (p : List N) : Bool := t.blocked [] p

theorem blocked_iff :
    t.blocked cur p = true ↔ ∃ r c s, p = r ++ c :: s ∧ t.isFile (cur ++ r) = true := by
  induction p generalizing cur with
  | nil =>
    constructor
    · intro h
      cases h
    · rintro ⟨r, c, s, h, _⟩
      cases r <;> cases h
  | cons c p ih =>
    rw [blocked, Bool.or_eq_true, ih]
    constructor
    · rintro (h | ⟨r, e, s, rfl, h⟩)
      · exact ⟨[], c, p, rfl, by rwa [List.append_nil]⟩
      · exact ⟨c :: r, e, s, rfl, by rwa [List.append_cons]⟩
    · rintro ⟨r, e, s, h, hf⟩
      cases r with
      | nil =>
        rw [List.append_nil] at hf
        exact .inl hf
      | cons a r =>
        rw [List.cons_append, List.cons.injEq] at h
        obtain ⟨rfl, rfl⟩ := h
        rw [List.append_cons] at hf
        exact .inr ⟨r, e, s, rfl, hf⟩

theorem underFile_iff :
    t.underFile p = true ↔ ∃ r c s, p = r ++ c :: s ∧ t.isFile r = true := blocked_iff

theorem blocked_of_get (h : t.get (cur ++ p) = some n) : t.blocked cur p = false := by
  rw [Bool.eq_false_iff, Ne, blocked_iff]
  rintro ⟨r, c, s, rfl, hf⟩
  rw [← List.append_assoc] at h
  rw [isFile, t.get_above h (List.cons_ne_nil c s)] at hf
  cases hf

theorem blocked_of_none (h : t.get cur = none) : t.blocked cur p = false := by
  rw [Bool.eq_false_iff, Ne, blocked_iff]
  rintro ⟨r, c, s, rfl, hf⟩
  obtain ⟨b, m, k, hk⟩ := isFile_iff.1 hf
  by_cases hr : r = []
  · subst hr
    rw [List.append_nil, h] at hk
    cases hk
  · rw [t.get_above hk hr] at h
    cases h

/-- A walk that meets no link either arrives or names what stopped it. -/
theorem walk_straight (ht : t.Straight (cur ++ p)) (hcur : t.get cur = some n) :
    t.walk follow jump cur (p.map some) =
      if p = [] ∨ t.get (cur ++ p.dropLast) = some .dir then .ok (cur ++ p)
      else .error (if t.blocked cur p = true then .notdir else .noent) := by
  induction p generalizing cur n with
  | nil => simp only [List.map_nil, walk, List.append_nil, true_or, ↓reduceIte]
  | cons c p ih =>
    cases n with
    | link l => exact (ht cur (List.prefix_append _ _) l hcur).elim
    | file b m k =>
      have hd : t.get (cur ++ (c :: p).dropLast) ≠ some .dir := by
        intro hd
        cases hp : (c :: p).dropLast with
        | nil =>
          rw [hp, List.append_nil, hcur] at hd
          cases hd
        | cons e s =>
          rw [hp] at hd
          rw [t.get_above hd (List.cons_ne_nil e s)] at hcur
          cases hcur
      have hb : t.isFile cur = true := isFile_iff.2 ⟨b, m, k, hcur⟩
      simp only [List.map_cons, walk, hcur, reduceCtorEq, ↓reduceIte, hd, or_self, blocked, hb,
        Bool.true_or, Option.some.injEq]
    | dir =>
      have hb : t.isFile cur = false := by simp only [isFile, hcur]
      rw [List.append_cons] at ht
      simp only [List.map_cons, walk, hcur, ↓reduceIte, reduceCtorEq, false_or, blocked, hb,
        Bool.false_or]
      cases hg : t.get (cur ++ [c]) with
      | none =>
        cases p with
        | nil => simp [hcur]
        | cons e s =>
          have hd : t.get (cur ++ (c :: e :: s).dropLast) ≠ some .dir := by
            intro hd
            rw [List.dropLast_cons_cons, List.append_cons] at hd
            by_cases hs : (e :: s).dropLast = []
            · rw [hs, List.append_nil, hg] at hd
              cases hd
            · rw [t.get_above hd hs] at hg
              cases hg
          simp only [List.map_cons, reduceCtorEq, ↓reduceIte, hd, blocked_of_none hg,
            Bool.false_eq_true]
      | some n =>
        have hrec := ih ht hg
        have hl : ∀ l, n ≠ .link l := fun l hl =>
          ht (cur ++ [c]) (List.prefix_append _ _) l (by rw [hg, hl])
        cases p with
        | nil =>
          rw [List.append_assoc] at hrec
          cases n with
          | link l => exact (hl l rfl).elim
          | file => simpa [hcur] using hrec
          | dir => simpa [hcur] using hrec
        | cons e s =>
          simp only [reduceCtorEq, false_or, ← List.append_cons] at hrec
          rw [List.dropLast_cons_cons]
          cases n with
          | link l => exact (hl l rfl).elim
          | file => exact hrec
          | dir => exact hrec

theorem locate_straight (ht : t.Straight p) :
    t.locate follow p = if t.get p.dropLast = some .dir then .ok p
      else .error (if t.underFile p = true then .notdir else .noent) := by
  have h : t.walk follow (t.resolve follow 40) [] (p.map some) =
      if p = [] ∨ t.get p.dropLast = some .dir then .ok p
      else .error (if t.blocked [] p = true then .notdir else .noent) :=
    walk_straight ht t.get_nil
  rw [locate, resolve, h, underFile]
  by_cases hp : p = []
  · subst hp
    simp
  · simp only [hp, false_or]

/-- `lstat` in a real directory. -/
theorem stat_in_dir (hd : t.get p.dropLast = some .dir) :
    t.stat false p = (t.get p).elim (.error .noent) .ok := by
  rw [stat, locate_dirs hd fun h => by cases h]
  simp only [bind, Except.bind]
  cases t.get p <;> rfl

theorem stat_get (h : t.get p = some n) (hl : ∀ l, n ≠ .link l) : t.stat follow p = .ok n := by
  rw [stat, locate_get h hl]
  simp only [bind, Except.bind, h]

theorem stat_none (ht : t.Straight p) (h : t.get p = none) :
    t.stat follow p = .error (if t.underFile p = true then .notdir else .noent) := by
  rw [stat, locate_straight ht]
  split
  next hd =>
    have hu : t.underFile p = false := by
      rw [Bool.eq_false_iff, Ne, underFile_iff]
      rintro ⟨r, c, s, rfl, hf⟩
      rw [List.dropLast_append_cons] at hd
      by_cases hs : (c :: s).dropLast = []
      · rw [hs, List.append_nil] at hd
        rw [isFile, hd] at hf
        cases hf
      · rw [isFile, t.get_above hd hs] at hf
        cases hf
    simp only [bind, Except.bind, h, hu, Bool.false_eq_true, ↓reduceIte]
  next => rfl

section
variable {full : Bool}

theorem unlink_spec (h : t.unlink p = .ok u) :
    ∃ q n, t.locate false p = .ok q ∧ t.get q = some n ∧ n ≠ .dir ∧
      ∀ r, u.get r = if q = r then none else t.get r := by
  rw [unlink] at h
  cases hq : t.locate false p with
  | error e =>
    rw [hq] at h
    cases h
  | ok q =>
    rw [hq] at h
    simp only [bind, Except.bind] at h
    cases hn : t.get q with
    | none =>
      rw [hn] at h
      cases h
    | some n =>
      rw [hn] at h
      have hd : n ≠ .dir := by
        rintro rfl
        cases h
      refine ⟨q, n, rfl, hn, hd, fun r => ?_⟩
      have hu : u = t.erase q := by
        cases n with
        | dir => exact (hd rfl).elim
        | file => cases h; rfl
        | link => cases h; rfl
      have hne : t.get q ≠ some .dir := by
        rw [hn]
        exact fun he => hd (Option.some.inj he)
      rw [hu, get_erase _ (leaf_of_not_dir hne)]
      rintro rfl
      exact hne t.get_nil

theorem install_spec (h : t.install p n = .ok u) :
    ∃ q, t.locate false p = .ok q ∧ t.get q ≠ some .dir ∧
      ∀ r, u.get r = if q = r then some n else t.get r := by
  rw [install] at h
  cases hq : t.locate false p with
  | error e =>
    rw [hq] at h
    cases h
  | ok q =>
    rw [hq] at h
    simp only [bind, Except.bind] at h
    have hd : t.get q ≠ some .dir := by
      intro hd
      rw [hd] at h
      cases h
    refine ⟨q, rfl, hd, fun r => ?_⟩
    have hu : u = t.put q n := by
      split at h
      · cases h
      · cases h; rfl
      · cases h; rfl
      · cases h; rfl
    rw [hu, get_put (fits_file hq hd n)]

/-- A regular file can be installed exactly where its directory stands and no directory is in
its place. -/
theorem install_ok (hd : t.get p.dropLast = some .dir) (hp : t.get p ≠ some .dir) (n : Node N) :
    ∃ u, t.install p n = .ok u ∧ ∀ r, u.get r = if p = r then some n else t.get r := by
  have hq : t.locate false p = .ok p := locate_dirs hd fun h => by cases h
  have hu : t.install p n = .ok (t.put p n) := by
    rw [install, hq]
    simp only [bind, Except.bind]
    split
    next h => exact (hp h).elim
    all_goals rfl
  exact ⟨_, hu, fun r => get_put (fits_file hq hp n) r⟩

theorem mkdir_new (hd : t.get p.dropLast = some .dir) (hp : t.get p = none) :
    t.mkdir full p = if full then .error .nospc else .ok (t.put p .dir) := by
  rw [mkdir, locate_dirs hd fun h => by cases h]
  simp only [bind, Except.bind, hp]

theorem mkdir_exist (hp : t.get p = some .dir) : t.mkdir full p = .error .exist := by
  rw [mkdir, locate_get hp fun l h => by cases h]
  simp only [bind, Except.bind, hp]

theorem fits_dir (hd : t.get p.dropLast = some .dir) (hp : t.get p = none) : t.Fits p .dir := by
  refine ⟨?_, hd, .inl rfl⟩
  rintro rfl
  rw [get_nil] at hp
  cases hp

/-- Every prefix of the location is a directory or missing. -/
def Clear (t : FileTree N) (p : List N) : Prop :=
  ∀ r, r <+: p → t.get r = none ∨ t.get r = some .dir

theorem Clear.straight (h : t.Clear p) : t.Straight p := by
  intro r hr l hl
  rcases h r hr with hn | hd
  · rw [hn] at hl
    cases hl
  · rw [hd] at hl
    cases hl

theorem Clear.not_under (h : t.Clear p) : t.underFile p = false := by
  rw [Bool.eq_false_iff, Ne, underFile_iff]
  rintro ⟨r, c, s, rfl, hf⟩
  obtain ⟨b, m, k, hk⟩ := isFile_iff.1 hf
  rcases h r (List.prefix_append _ _) with hn | hd
  · rw [hn] at hk
    cases hk
  · rw [hd] at hk
    cases hk

theorem Clear.mono (h : t.Clear p) (hq : q <+: p) : t.Clear q := fun r hr => h r (hr.trans hq)

theorem isDir_get (h : t.get p = some .dir) : t.isDir p = true := by
  rw [isDir, stat_get h fun l h => by cases h]

/-- Where nothing but directories stands on the way, `create_dir_all` makes the missing ones. -/
theorem createDirAll_clear (hc : t.Clear p) :
    ∃ u, t.createDirAll false p = .ok u ∧
      ∀ r, u.get r = if r <+: p then some .dir else t.get r := by
  suffices h : ∀ n, n ≤ p.length → ∃ u, t.mkdirs false p n = .ok u ∧
      ∀ r, u.get r = if r <+: p.take n then some .dir else t.get r by
    obtain ⟨u, hu, hget⟩ := h p.length le_rfl
    rw [List.take_length] at hget
    exact ⟨u, hu, hget⟩
  intro n hn
  induction n with
  | zero =>
    refine ⟨t, ?_, fun r => ?_⟩
    · rw [mkdirs, mkdir_exist t.get_nil]
      simp only [isDir_get t.get_nil, ↓reduceIte]
    · simp only [List.take_zero, List.prefix_nil]
      split
      next h => rw [h, get_nil]
      next => rfl
  | succ n ih =>
    obtain ⟨u, hu, hget⟩ := ih (Nat.le_of_succ_le hn)
    have hq : p.take (n + 1) = p.take n ++ [p[n]] := by rw [List.take_append_getElem]
    have hlast : (p.take (n + 1)).dropLast = p.take n := by rw [hq, List.dropLast_concat]
    have hpre : p.take (n + 1) <+: p := List.take_prefix _ _
    have hstep (r : List N) : r <+: p.take (n + 1) ↔ r <+: p.take n ∨ r = p.take (n + 1) := by
      rw [hq, List.prefix_concat_iff]
      exact or_comm
    cases hg : t.get (p.take (n + 1)) with
    | some k =>
      -- the directory is there already, and so is everything above it
      have hd : t.get (p.take (n + 1)) = some .dir := by
        rcases hc _ hpre with h | h
        · rw [hg] at h
          cases h
        · exact h
      refine ⟨t, ?_, fun r => ?_⟩
      · rw [mkdirs, mkdir_exist hd]
        simp only [isDir_get hd, ↓reduceIte]
      · split
        next h =>
          obtain ⟨s, hs⟩ := h
          by_cases hn : s = []
          · rw [← hs, hn, List.append_nil] at hd
            exact hd
          · rw [← hs] at hd
            exact t.get_above hd hn
        next => rfl
    | none =>
      cases hd : t.get (p.take n) with
      | some k =>
        have hd' : t.get (p.take (n + 1)).dropLast = some .dir := by
          rw [hlast]
          rcases hc _ (List.take_prefix n p) with h | h
          · rw [hd] at h
            cases h
          · exact h
        refine ⟨t.put (p.take (n + 1)) .dir, ?_, fun r => ?_⟩
        · rw [mkdirs, mkdir_new hd' hg]
          rfl
        · simp only [get_put (fits_dir hd' hg), hstep]
          by_cases hr : p.take (n + 1) = r
          · rw [if_pos hr, if_pos (.inr hr.symm)]
          · rw [if_neg hr]
            split
            next h =>
              obtain ⟨s, hs⟩ := h.resolve_right fun h => hr h.symm
              rw [hlast, ← hs] at hd'
              by_cases hn : s = []
              · rwa [hn, List.append_nil] at hd'
              · exact t.get_above hd' hn
            next => rfl
      | none =>
        have hmk : t.mkdir false (p.take (n + 1)) = .error .noent := by
          rw [mkdir, locate_straight (hc.mono hpre).straight, hlast, hd,
            (hc.mono hpre).not_under]
          rfl
        have hud : u.get (p.take (n + 1)).dropLast = some .dir := by
          rw [hlast, hget, if_pos (List.prefix_refl _)]
        have hun : u.get (p.take (n + 1)) = none := by
          rw [hget, if_neg, hg]
          intro h
          have hlen := h.length_le
          rw [List.length_take, List.length_take] at hlen
          omega
        refine ⟨u.put (p.take (n + 1)) .dir, ?_, fun r => ?_⟩
        · simp only [mkdirs, hmk, hu, bind, Except.bind, mkdir_new hud hun, Bool.false_eq_true,
            ↓reduceIte]
        · simp only [get_put (fits_dir hud hun), hstep]
          by_cases hr : p.take (n + 1) = r
          · rw [if_pos hr, if_pos (.inr hr.symm)]
          · rw [if_neg hr, hget]
            simp only [Ne.symm hr, or_false]

/-- On a full disk nothing is made: the directory is there already, or it never will be. -/
theorem createDirAll_full (hc : t.Clear p) :
    t.createDirAll true p = if t.get p = some .dir then .ok t else .error .nospc := by
  suffices h : ∀ n, n ≤ p.length → t.mkdirs true p n =
      if t.get (p.take n) = some .dir then .ok t else .error .nospc by
    have hlen := h p.length le_rfl
    rwa [List.take_length] at hlen
  intro n hn
  induction n with
  | zero =>
    rw [List.take_zero, if_pos t.get_nil, mkdirs, mkdir_exist t.get_nil]
    simp only [isDir_get t.get_nil, ↓reduceIte]
  | succ n ih =>
    have hpre : p.take (n + 1) <+: p := List.take_prefix _ _
    rw [mkdirs]
    rcases hc _ hpre with hg | hg
    · have hlast : (p.take (n + 1)).dropLast = p.take n := by
        rw [List.take_succ_eq_append_getElem (by omega), List.dropLast_concat]
      rw [if_neg (by rw [hg]; exact fun h => by cases h)]
      by_cases hd : t.get (p.take n) = some .dir
      · rw [mkdir_new (by rwa [hlast]) hg]
        simp only [↓reduceIte]
        rw [isDir, stat_none (hc.mono hpre).straight hg]
        rfl
      · have hmk : t.mkdir true (p.take (n + 1)) = .error .noent := by
          rw [mkdir, locate_straight (hc.mono hpre).straight, hlast, if_neg hd,
            (hc.mono hpre).not_under]
          rfl
        rw [hmk, ih (by omega), if_neg hd]
        rfl
    · rw [if_pos hg, mkdir_exist hg]
      simp only [isDir_get hg, ↓reduceIte]

theorem rmdir_spec (h : t.rmdir p = .ok u) :
    ∃ q, t.locate false p = .ok q ∧ t.get q = some .dir ∧ t.isLeaf q = true ∧
      ∀ r, u.get r = if q = r then none else t.get r := by
  rw [rmdir] at h
  cases hq : t.locate false p with
  | error e =>
    rw [hq] at h
    cases h
  | ok q =>
    rw [hq] at h
    simp only [bind, Except.bind] at h
    cases hn : t.get q with
    | none =>
      rw [hn] at h
      cases h
    | some n =>
      rw [hn] at h
      cases n with
      | file => cases h
      | link => cases h
      | dir =>
        dsimp only at h
        split at h
        · cases h
        next hne =>
          split at h
          next hl =>
            cases h
            exact ⟨q, rfl, hn, hl, fun r => get_erase hne hl r⟩
          next => cases h

theorem chmod_spec (h : t.chmod p mode = .ok u) :
    ∃ q, t.locate true p = .ok q ∧
      ((∃ b m k, t.get q = some (.file b m k) ∧
          ∀ r, u.get r = if q = r then some (.file b mode k) else t.get r) ∨
        (∀ b m k, t.get q ≠ some (.file b m k)) ∧ u = t) := by
  rw [chmod] at h
  cases hq : t.locate true p with
  | error e =>
    rw [hq] at h
    cases h
  | ok q =>
    rw [hq] at h
    simp only [bind, Except.bind] at h
    refine ⟨q, rfl, ?_⟩
    cases hn : t.get q with
    | none =>
      rw [hn] at h
      cases h
    | some n =>
      rw [hn] at h
      cases n with
      | file b m k =>
        cases h
        have hd : t.get q ≠ some .dir := by
          rw [hn]
          exact fun h => by cases h
        exact .inl ⟨b, m, k, rfl, fun r => get_put (fits_file hq hd _) r⟩
      | dir =>
        cases h
        exact .inr ⟨fun b m k h => (by cases h), rfl⟩
      | link l =>
        cases h
        exact .inr ⟨fun b m k h => (by cases h), rfl⟩

end

end FileTree

end Tomo
