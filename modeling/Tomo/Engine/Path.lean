import Mathlib.Tactic.Common
import Std.Data.ExtTreeMap

namespace Tomo
set_option autoImplicit true

/-- One component of a path. -/
abbrev Name := List Char

inductive PathError where
  | empty
  | absolute
  | trailingSlash
  | backslash
  | nulByte
  | controlChar
  | emptyComponent
  | dotComponent
  | reservedTomo
deriving DecidableEq

/-- The name of the state directory at the project root. -/
def tomoDir : Name := ['.', 't', 'o', 'm', 'o']

/-- The component loop of `RelPath::new`. -/
def checkComponents : List Name → Option PathError
  | [] => none
  | c :: cs =>
    if c = [] then some .emptyComponent
    else if c = ['.'] ∨ c = ['.', '.'] then some .dotComponent
    else checkComponents cs

/-- The first rule of `RelPath::new` that `raw` violates. -/
def pathError (raw : List Char) : Option PathError :=
  if raw = [] then some .empty
  else if raw.any fun c => c.toNat == 0 then some .nulByte
  else if raw.any fun c => c.toNat < 0x20 then some .controlChar
  else if raw.any fun c => c.toNat == 0x5c then some .backslash
  else if raw.head? = some '/' then some .absolute
  else if raw.getLast? = some '/' then some .trailingSlash
  else
    let comps := raw.splitOn '/'
    match checkComponents comps with
    | some e => some e
    | none => if comps.head? = some tomoDir then some .reservedTomo else none

/-- A validated, normalized, repo-relative path. -/
structure RelPath where
  raw : List Char
  valid : pathError raw = none
deriving DecidableEq

namespace RelPath

theorem valid_single : pathError ['a'] = none := by decide

def new (raw : List Char) : Except PathError RelPath :=
  match h : pathError raw with
  | some e => .error e
  | none => .ok ⟨raw, h⟩

/-- Lexicographic over the underlying string, as the index iterates. -/
instance : Ord RelPath := ⟨compareOn RelPath.raw⟩

instance : Std.TransOrd RelPath := inferInstanceAs (Std.TransCmp (compareOn RelPath.raw))

theorem ext_raw {p q : RelPath} (h : p.raw = q.raw) : p = q := by
  cases p
  cases q
  cases h
  rfl

instance : Std.LawfulEqOrd RelPath where
  eq_of_compare h := ext_raw (Std.LawfulEqOrd.compare_eq_iff_eq.1 h)

def components (p : RelPath) : List Name := p.raw.splitOn '/'

theorem components_injective {p q : RelPath} (h : p.components = q.components) : p = q := by
  apply ext_raw
  have he := congrArg (fun l => ['/'].intercalate l) h
  simpa only [components, List.intercalate_splitOn] using he

theorem components_ne_nil (p : RelPath) : p.components ≠ [] := List.splitOn_ne_nil _ _

theorem checkComponents_mem {cs : List Name} (h : checkComponents cs = none) (hc : c ∈ cs) :
    c ≠ [] ∧ c ≠ ['.'] ∧ c ≠ ['.', '.'] := by
  induction cs with
  | nil => cases hc
  | cons d cs ih =>
    rw [checkComponents] at h
    split at h
    · cases h
    · split at h
      · cases h
      · rcases List.mem_cons.1 hc with rfl | hc
        · simp_all
        · exact ih h hc

theorem valid_components (p : RelPath) :
    checkComponents p.components = none ∧ p.components.head? ≠ some tomoDir := by
  have h := p.valid
  unfold pathError at h
  repeat' split at h
  all_goals first | contradiction | skip
  dsimp only at h
  split at h
  · contradiction
  · split at h
    · contradiction
    · exact ⟨by assumption, by assumption⟩

/-- No component of a path is empty, `.` or `..`, so joining it never climbs. -/
theorem component_plain (p : RelPath) (hc : c ∈ p.components) :
    c ≠ [] ∧ c ≠ ['.'] ∧ c ≠ ['.', '.'] :=
  checkComponents_mem p.valid_components.1 hc

theorem mem_intercalate {comps : List Name} {x : Char} (h : x ∈ ['/'].intercalate comps) :
    x = '/' ∨ ∃ c ∈ comps, x ∈ c := by
  induction comps with
  | nil => simp at h
  | cons c cs ih =>
    cases cs with
    | nil =>
      rw [List.intercalate_singleton] at h
      exact .inr ⟨c, List.mem_cons_self, h⟩
    | cons d cs =>
      rw [List.intercalate_cons_cons, List.mem_append, List.mem_append, List.mem_singleton] at h
      rcases h with (h | h) | h
      · exact .inr ⟨c, List.mem_cons_self, h⟩
      · exact .inl h
      · rcases ih h with h | ⟨e, he, hx⟩
        · exact .inl h
        · exact .inr ⟨e, List.mem_cons_of_mem c he, hx⟩

theorem mem_intercalate_of_mem {comps : List Name} {x : Char} (hc : c ∈ comps) (hx : x ∈ c) :
    x ∈ ['/'].intercalate comps := by
  induction comps with
  | nil => cases hc
  | cons d cs ih =>
    cases cs with
    | nil =>
      rw [List.intercalate_singleton]
      rwa [← List.mem_singleton.1 hc]
    | cons e cs =>
      rw [List.intercalate_cons_cons, List.mem_append, List.mem_append]
      rcases List.mem_cons.1 hc with rfl | hc
      · exact .inl (.inl hx)
      · exact .inr (ih hc)

theorem checkComponents_append {cs ds : List Name} (h : checkComponents (cs ++ ds) = none) :
    checkComponents cs = none := by
  induction cs with
  | nil => rfl
  | cons c cs ih =>
    rw [List.cons_append, checkComponents] at h
    rw [checkComponents]
    split
    · rwa [if_pos (by assumption)] at h
    next hn =>
      rw [if_neg hn] at h
      split
      · rwa [if_pos (by assumption)] at h
      next hd =>
        rw [if_neg hd] at h
        exact ih h

/-- Joined components begin and end inside a component. -/
theorem intercalate_ends {comps : List Name} (hne : comps ≠ [])
    (hc : ∀ c ∈ comps, c ≠ [] ∧ '/' ∉ c) :
    ['/'].intercalate comps ≠ [] ∧ (['/'].intercalate comps).head? ≠ some '/' ∧
      (['/'].intercalate comps).getLast? ≠ some '/' := by
  induction comps with
  | nil => exact (hne rfl).elim
  | cons c cs ih =>
    obtain ⟨hn, hs⟩ := hc c List.mem_cons_self
    have hhead : c.head? ≠ some '/' := fun h => hs (List.mem_of_head? h)
    cases cs with
    | nil =>
      rw [List.intercalate_singleton]
      exact ⟨hn, hhead, fun h => hs (List.mem_of_getLast? h)⟩
    | cons d cs =>
      obtain ⟨hne', _, hl⟩ := ih (List.cons_ne_nil d cs) fun e he => hc e (List.mem_cons_of_mem c he)
      rw [List.intercalate_cons_cons]
      refine ⟨List.append_ne_nil_of_right_ne_nil _ hne', ?_, ?_⟩
      · obtain ⟨x, c, rfl⟩ := List.exists_cons_of_ne_nil hn
        exact hhead
      · rw [List.getLast?_append, List.getLast?_eq_some_getLast hne', Option.some_or,
          ← List.getLast?_eq_some_getLast hne']
        exact hl

theorem mem_splitOn {raw : List Char} {c : Name} (h : c ∈ raw.splitOn '/') : '/' ∉ c := by
  induction raw generalizing c with
  | nil =>
    rw [List.splitOn_nil, List.mem_singleton] at h
    rw [h]
    exact List.not_mem_nil
  | cons x raw ih =>
    rw [List.splitOn_cons_eq_if_modifyHead] at h
    split at h
    · rcases List.mem_cons.1 h with rfl | h
      · exact List.not_mem_nil
      · exact ih h
    next hx =>
      obtain ⟨d, ds, hd⟩ := List.exists_cons_of_ne_nil (List.splitOn_ne_nil '/' raw)
      rw [hd, List.modifyHead_cons, List.mem_cons] at h
      rw [hd] at ih
      rcases h with rfl | h
      · rw [List.mem_cons, not_or]
        exact ⟨fun he => hx (beq_iff_eq.2 he.symm), ih List.mem_cons_self⟩
      · exact ih (List.mem_cons_of_mem d h)

/-- The rules of `RelPath::new`, together. -/
theorem pathError_eq_none (raw : List Char) : pathError raw = none ↔
    raw ≠ [] ∧ (∀ c ∈ raw, 0x20 ≤ c.toNat ∧ c.toNat ≠ 0x5c) ∧ raw.head? ≠ some '/' ∧
      raw.getLast? ≠ some '/' ∧ checkComponents (raw.splitOn '/') = none ∧
      (raw.splitOn '/').head? ≠ some tomoDir := by
  have hchars : (∀ c ∈ raw, 0x20 ≤ c.toNat ∧ c.toNat ≠ 0x5c) ↔
      ¬(raw.any fun c => c.toNat == 0) = true ∧ ¬(raw.any fun c => c.toNat < 0x20) = true ∧
        ¬(raw.any fun c => c.toNat == 0x5c) = true := by
    simp only [List.any_eq_true, not_exists, not_and, beq_iff_eq, decide_eq_true_eq, Nat.not_lt]
    constructor
    · intro h
      refine ⟨fun c hc h0 => ?_, fun c hc => (h c hc).1, fun c hc => (h c hc).2⟩
      have := (h c hc).1
      omega
    · rintro ⟨_, h1, h2⟩ c hc
      exact ⟨h1 c hc, h2 c hc⟩
  rw [pathError, hchars]
  dsimp only
  constructor
  · intro h
    repeat' split at h
    all_goals first | contradiction | skip
    next h0 h1 h2 h3 h4 h5 _ hc h6 => exact ⟨h0, ⟨h1, h2, h3⟩, h4, h5, hc, h6⟩
  · rintro ⟨h0, ⟨h1, h2, h3⟩, h4, h5, hc, h6⟩
    rw [if_neg h0, if_neg h1, if_neg h2, if_neg h3, if_neg h4, if_neg h5, hc]
    exact if_neg h6

/-- The directories a path lies in have paths too. -/
theorem exists_prefix (p : RelPath) {comps : List Name} (h : comps <+: p.components)
    (hne : comps ≠ []) : ∃ d : RelPath, d.components = comps := by
  have hplain (c : Name) (hc : c ∈ comps) : c ≠ [] ∧ '/' ∉ c :=
    ⟨(p.component_plain (h.subset hc)).1, mem_splitOn (h.subset hc)⟩
  have hsplit : (['/'].intercalate comps).splitOn '/' = comps :=
    List.splitOn_intercalate '/' (fun c hc => (hplain c hc).2) hne
  obtain ⟨hn, hh, hl⟩ := intercalate_ends hne hplain
  obtain ⟨_, hchars, _, _, hcheck, hhead⟩ := (pathError_eq_none p.raw).1 p.valid
  have hvalid : pathError (['/'].intercalate comps) = none := by
    rw [pathError_eq_none, hsplit]
    refine ⟨hn, fun x hx => ?_, hh, hl, ?_, ?_⟩
    · rcases mem_intercalate hx with rfl | ⟨c, hc, hxc⟩
      · decide
      · apply hchars
        have hm := mem_intercalate_of_mem (h.subset hc) hxc
        rwa [components, List.intercalate_splitOn] at hm
    · obtain ⟨rest, hr⟩ := h
      rw [← components, ← hr] at hcheck
      exact checkComponents_append hcheck
    · obtain ⟨rest, hr⟩ := h
      obtain ⟨c, cs, rfl⟩ := List.exists_cons_of_ne_nil hne
      intro he
      apply hhead
      rw [components] at hr
      rw [← hr]
      exact he
  exact ⟨⟨_, hvalid⟩, hsplit⟩

theorem new_eq_ok {raw : List Char} {p : RelPath} :
    new raw = .ok p ↔ p.raw = raw := by
  rw [new]
  split
  next e he =>
    constructor
    · intro h
      cases h
    · rintro rfl
      rw [p.valid] at he
      cases he
  next hv =>
    constructor
    · intro h
      cases h
      rfl
    · rintro rfl
      rfl

theorem components_of_raw (p : RelPath) (h : p.raw = ['/'].intercalate comps)
    (hs : ∀ c ∈ comps, '/' ∉ c) : p.components = comps := by
  have hne : comps ≠ [] := by
    rintro rfl
    have hv := p.valid
    rw [h] at hv
    cases hv
  rw [components, h]
  exact List.splitOn_intercalate '/' hs hne

/-- A text without a slash lengthens the last component. -/
theorem splitOn_append {s : List Char} (hs : '/' ∉ s) (raw : List Char) :
    (raw ++ s).splitOn '/' =
      (raw.splitOn '/').dropLast ++ [(raw.splitOn '/').getLast (List.splitOn_ne_nil _ _) ++ s] := by
  have hint (ds : List (List Char)) (l : List Char) :
      ['/'].intercalate (ds ++ [l ++ s]) = ['/'].intercalate (ds ++ [l]) ++ s := by
    induction ds with
    | nil => simp
    | cons d ds ih =>
      obtain ⟨e, es, he⟩ := List.exists_cons_of_ne_nil
        (List.append_ne_nil_of_right_ne_nil ds (List.cons_ne_nil (l ++ s) []))
      obtain ⟨e', es', he'⟩ := List.exists_cons_of_ne_nil
        (List.append_ne_nil_of_right_ne_nil ds (List.cons_ne_nil l []))
      rw [List.cons_append, List.cons_append, he, he', List.intercalate_cons_cons,
        List.intercalate_cons_cons, ← he, ← he', ih]
      simp only [List.append_assoc]
  have hraw := hint (raw.splitOn '/').dropLast ((raw.splitOn '/').getLast (List.splitOn_ne_nil _ _))
  rw [List.dropLast_concat_getLast, List.intercalate_splitOn] at hraw
  rw [← hraw]
  apply List.splitOn_intercalate
  · intro c hc hslash
    rcases List.mem_append.1 hc with hc | hc
    · exact mem_splitOn ((List.dropLast_sublist _).subset hc) hslash
    · rw [List.mem_singleton.1 hc] at hslash
      rcases List.mem_append.1 hslash with h | h
      · exact mem_splitOn (List.getLast_mem _) h
      · exact hs h
  · exact List.append_ne_nil_of_right_ne_nil _ (List.cons_ne_nil _ _)

end RelPath

end Tomo
