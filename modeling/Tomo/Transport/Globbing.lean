import Tomo.Transport.SshConfig

namespace Tomo
set_option autoImplicit true

/-- Whether a pattern matches a text; `run t s` says that a star may lead from `t` on to `s`. -/
inductive Glob (run : Text → Text → Prop) : Text → Text → Prop where
  | nil : Glob run [] []
  | any (h : Glob run p t) : Glob run ('?' :: p) (c :: t)
  | char (hs : c ≠ '*') (hq : c ≠ '?') (he : c.toLower = d.toLower) (h : Glob run p t) :
      Glob run (c :: p) (d :: t)
  | star (hr : run t s) (h : Glob run p s) : Glob run ('*' :: p) t

/-- A star stands for any run of characters. -/
def anyRun (t s : Text) : Prop := s <:+ t

/-- A star that meets a star in the text stands for just that one. -/
def firmRun (t s : Text) : Prop := s <:+ t ∧ ∀ r, t = '*' :: r → s = r

namespace Glob
variable {run run' : Text → Text → Prop} {p s t : Text}

theorem mono (hr : ∀ t s, run t s → run' t s) (h : Glob run p t) : Glob run' p t := by
  induction h with
  | nil => exact .nil
  | any _ ih => exact .any ih
  | char hs hq he _ ih => exact .char hs hq he ih
  | star hrun _ ih => exact .star (hr _ _ hrun) ih

/-- Only stars match the empty text. -/
theorem nil_iff (hr : ∀ s, run [] s ↔ s = []) : Glob run p [] ↔ p.all (· == '*') = true := by
  constructor
  · intro h
    generalize ht : ([] : Text) = t at h
    induction h with
    | nil => rfl
    | any => cases ht
    | char => cases ht
    | star hrun _ ih =>
      subst ht
      exact ih ((hr _).1 hrun).symm
  · intro h
    induction p with
    | nil => exact .nil
    | cons c p ih =>
      rw [List.all_cons, Bool.and_eq_true, beq_iff_eq] at h
      rw [h.1]
      exact .star ((hr []).2 rfl) (ih h.2)

end Glob

/-- Folding moves the upper-case letters, onto the lower-case ones. -/
theorem toLower_cases (c : Char) : c.toLower = c ∨ 97 ≤ c.toLower.toNat ∧
    c.toLower.toNat ≤ 122 ∧ c.toNat = c.toLower.toNat - 32 := by
  by_cases h : c.val ≥ 'A'.val ∧ c.val ≤ 'Z'.val
  · have hlo : 65 ≤ c.toNat := UInt32.le_iff_toNat_le.1 h.1
    have hhi : c.toNat ≤ 90 := UInt32.le_iff_toNat_le.1 h.2
    have hgap : ('a'.val - 'A'.val).toNat = 32 := rfl
    have hval : c.toLower.toNat = c.toNat + 32 := by
      have hlower : c.toLower = _ := dif_pos h
      rw [hlower]
      refine (UInt32.toNat_add _ _).trans ((Nat.mod_eq_of_lt ?_).trans ?_)
      · have hc : c.val.toNat = c.toNat := rfl
        omega
      · rw [hgap]
        rfl
    right
    omega
  · left
    exact dif_neg h

theorem toLower_eq_iff {x : Char} (hx : x.toLower = x) (hsmall : x.toNat < 97) (c : Char) :
    c.toLower = x ↔ c = x := by
  constructor
  · intro h
    rcases toLower_cases c with he | ⟨hlo, _⟩
    · rw [← he, h]
    · rw [h] at hlo
      omega
  · rintro rfl
    exact hx

theorem toLower_toLower (c : Char) : c.toLower.toLower = c.toLower := by
  rcases toLower_cases c.toLower with h | ⟨_, _, h⟩
  · exact h
  · rcases toLower_cases c with hc | ⟨hlo, _⟩
    · rw [hc, hc]
    · omega

/-- A character of the pattern that is no star takes a character of the text. -/
def Takes (c d : Char) : Prop := c = '?' ∨ c.toLower = d.toLower

theorem firmRun_drop {text s : Text} (h : firmRun (text.drop k) s) :
    ∃ q, k ≤ q ∧ s = text.drop q ∧ (text[k]? = some '*' → q = k + 1) := by
  by_cases hd : text[k]? = some '*'
  · obtain ⟨hlt, he⟩ := List.getElem?_eq_some_iff.1 hd
    have hcons : text.drop k = '*' :: text.drop (k + 1) := by
      rw [List.drop_eq_getElem_cons hlt, he]
    exact ⟨k + 1, Nat.le_succ k, h.2 _ hcons, fun _ => rfl⟩
  · have hs := List.suffix_iff_eq_drop.1 h.1
    rw [List.drop_drop] at hs
    exact ⟨_, Nat.le_add_right _ _, hs, fun h => (hd h).elim⟩

namespace GlobState
variable {pattern text : Text} {g : GlobState} {i j : Nat}

/-- A match that begins no earlier than a literal one has got no less far after as many
characters of the pattern. -/
theorem glob_past (hc : pattern[a]? = some c) (hd : text[m]? = some d) (ht : Takes c d)
    (hk : m ≤ k) (h : Glob firmRun (pattern.drop a) (text.drop k)) :
    ∃ q, m + 1 ≤ q ∧ Glob firmRun (pattern.drop (a + 1)) (text.drop q) := by
  obtain ⟨hlt, rfl⟩ := List.getElem?_eq_some_iff.1 hc
  rw [List.drop_eq_getElem_cons hlt] at h
  generalize htail : text.drop k = rest at h
  have hnext {e : Char} {t : Text} (he : text.drop k = e :: t) : t = text.drop (k + 1) := by
    rw [← List.tail_drop, he]
    rfl
  generalize hx : pattern[a] = x at h ht
  cases h with
  | any h =>
    rw [hnext htail] at h
    exact ⟨k + 1, Nat.succ_le_succ hk, h⟩
  | char _ _ _ h =>
    rw [hnext htail] at h
    exact ⟨k + 1, Nat.succ_le_succ hk, h⟩
  | star hr h =>
    rw [← htail] at hr
    obtain ⟨q, hq, rfl, hfirm⟩ := firmRun_drop hr
    have hstar : d = '*' := by
      rcases ht with ht | ht
      · cases ht
      · exact (toLower_eq_iff rfl (by decide) d).1 ht.symm
    subst hstar
    refine ⟨q, ?_, h⟩
    by_cases hmk : m = k
    · subst hmk
      exact (hfirm hd).ge
    · omega

/-- Since the last star the pattern has been matched character by character. -/
def Tracks (pattern text : Text) (g : GlobState) : Prop :=
  ∀ sp, g.star = some sp → ∃ n, g.p = sp + 1 + n ∧ g.t = g.mark + n ∧
    ∀ i, i < n → ∃ c d, pattern[sp + 1 + i]? = some c ∧ text[g.mark + i]? = some d ∧ Takes c d

theorem Tracks.past (h : Tracks pattern text g) (hs : g.star = some sp) (hk : g.mark ≤ k)
    (hm : Glob firmRun (pattern.drop (sp + 1)) (text.drop k)) :
    ∃ q, g.t ≤ q ∧ Glob firmRun (pattern.drop g.p) (text.drop q) := by
  obtain ⟨n, hp, ht, hlit⟩ := h sp hs
  rw [hp, ht]
  clear hp ht
  induction n with
  | zero => exact ⟨k, hk, hm⟩
  | succ n ih =>
    obtain ⟨q, hq, hm'⟩ := ih fun i hi => hlit i (Nat.lt_succ_of_lt hi)
    obtain ⟨c, d, hc, hd, htake⟩ := hlit n (Nat.lt_succ_self n)
    exact glob_past hc hd htake hq hm'

theorem Tracks.advance (h : Tracks pattern text g) (hc : pattern[g.p]? = some c)
    (hd : text[g.t]? = some d) (ht : Takes c d) : Tracks pattern text g.advance := by
  intro sp hs
  obtain ⟨n, hp, hn, hlit⟩ := h sp hs
  refine ⟨n + 1, ?_, ?_, fun i hi => ?_⟩
  · exact congrArg (· + 1) hp
  · exact congrArg (· + 1) hn
  · rcases Nat.lt_succ_iff_lt_or_eq.1 hi with hi | rfl
    · exact hlit i hi
    · rw [hp] at hc
      rw [hn] at hd
      exact ⟨c, d, hc, hd, ht⟩

theorem tracks_atStar (g : GlobState) : Tracks pattern text g.atStar := by
  intro sp hs
  cases hs
  exact ⟨0, rfl, rfl, fun i hi => by cases hi⟩

theorem tracks_backtrack (g : GlobState) (sp : Nat) : Tracks pattern text (g.backtrack sp) := by
  intro sp' hs
  cases hs
  exact ⟨0, rfl, rfl, fun i hi => by cases hi⟩

theorem takes_iff (hc : pattern[i]? = some c) (hd : text[j]? = some d) :
    ((Text.toAsciiLowercase pattern)[i]? = some '?' ∨
      (Text.toAsciiLowercase pattern)[i]? = (Text.toAsciiLowercase text)[j]?) ↔ Takes c d := by
  simp only [Text.toAsciiLowercase, List.getElem?_map, hc, hd, Option.map_some, Option.some.injEq]
  rw [toLower_eq_iff rfl (by decide), Takes]

theorem star_iff (hc : pattern[i]? = some c) :
    (Text.toAsciiLowercase pattern)[i]? = some '*' ↔ c = '*' := by
  simp only [Text.toAsciiLowercase, List.getElem?_map, hc, Option.map_some, Option.some.injEq]
  exact toLower_eq_iff rfl (by decide) c

/-- Where a literal match is possible it is the only one that is looked for. -/
theorem glob_takes (ht : Takes c d) :
    Glob firmRun (c :: pattern) (d :: text) ↔ Glob firmRun pattern text := by
  constructor
  · intro h
    cases h with
    | any h => exact h
    | char _ _ _ h => exact h
    | star hr h =>
      have hd : d = '*' := by
        rcases ht with ht | ht
        · cases ht
        · exact (toLower_eq_iff rfl (by decide) d).1 ht.symm
      rwa [hr.2 text (by rw [hd])] at h
  · intro h
    by_cases hq : c = '?'
    · rw [hq]
      exact .any h
    · have he := ht.resolve_left hq
      by_cases hs : c = '*'
      · have hd : d = '*' := by
          rw [hs] at he
          exact (toLower_eq_iff rfl (by decide) d).1 he.symm
        rw [hs, hd]
        exact .star ⟨List.suffix_cons _ _, fun r hr => (List.cons.inj hr).2⟩ h
      · exact .char hs hq he h

theorem glob_stuck (hc : c ≠ '*') (ht : ¬Takes c d) : ¬Glob firmRun (c :: pattern) (d :: text) := by
  intro h
  cases h with
  | any => exact ht (.inl rfl)
  | char _ _ he _ => exact ht (.inr he)
  | star => exact hc rfl

/-- A star that meets no star stands for any run of characters. -/
theorem glob_star (hd : text[j]? ≠ some '*') :
    Glob firmRun ('*' :: pattern) (text.drop j) ↔
      ∃ k, j ≤ k ∧ Glob firmRun pattern (text.drop k) := by
  constructor
  · intro h
    generalize ht : text.drop j = t at h
    cases h with
    | char hs => exact (hs rfl).elim
    | star hr h =>
      rw [← ht] at hr
      obtain ⟨k, hk, rfl, _⟩ := firmRun_drop hr
      exact ⟨k, hk, h⟩
  · rintro ⟨k, hk, h⟩
    refine .star ⟨?_, fun r hr => ?_⟩ h
    · obtain ⟨n, rfl⟩ := Nat.exists_eq_add_of_le hk
      rw [← List.drop_drop]
      exact List.drop_suffix _ _
    · have hhead := congrArg List.head? hr
      rw [List.head?_drop] at hhead
      exact (hd hhead).elim

theorem glob_halts (ht : g.t < text.length)
    (hp : ¬(g.p < (Text.toAsciiLowercase pattern).length ∧
      ((Text.toAsciiLowercase pattern)[g.p]? = some '?' ∨
        (Text.toAsciiLowercase pattern)[g.p]? = (Text.toAsciiLowercase text)[g.t]?)))
    (hs : ¬(g.p < (Text.toAsciiLowercase pattern).length ∧
      (Text.toAsciiLowercase pattern)[g.p]? = some '*')) :
    ¬Glob firmRun (pattern.drop g.p) (text.drop g.t) := by
  have hplen : (Text.toAsciiLowercase pattern).length = pattern.length := List.length_map _
  have hd : text[g.t]? = some text[g.t] := List.getElem?_eq_getElem ht
  rw [List.drop_eq_getElem_cons ht]
  by_cases hlt : g.p < pattern.length
  · have hc : pattern[g.p]? = some pattern[g.p] := List.getElem?_eq_getElem hlt
    rw [List.drop_eq_getElem_cons hlt]
    apply glob_stuck
    · intro he
      exact hs ⟨hplen ▸ hlt, (star_iff hc).2 he⟩
    · intro htake
      exact hp ⟨hplen ▸ hlt, (takes_iff hc hd).2 htake⟩
  · rw [List.drop_eq_nil_of_le (Nat.le_of_not_lt hlt)]
    intro h
    cases h

/-- The loop finds a match from where it stands, or one where the last star has taken more. -/
theorem run_iff (h : Tracks pattern text g) :
    g.run (Text.toAsciiLowercase pattern) (Text.toAsciiLowercase text) = true ↔
      Glob firmRun (pattern.drop g.p) (text.drop g.t) ∨ ∃ sp k, g.star = some sp ∧ g.mark < k ∧
        Glob firmRun (pattern.drop (sp + 1)) (text.drop k) := by
  have hplen : (Text.toAsciiLowercase pattern).length = pattern.length := List.length_map _
  have htlen : (Text.toAsciiLowercase text).length = text.length := List.length_map _
  induction g using GlobState.run.induct (Text.toAsciiLowercase pattern)
    (Text.toAsciiLowercase text) with
  | case1 g ht hp ih =>
    obtain ⟨hlt, hp'⟩ := id hp
    have hc : pattern[g.p]? = some pattern[g.p] := List.getElem?_eq_getElem (hplen ▸ hlt)
    have hd : text[g.t]? = some text[g.t] := List.getElem?_eq_getElem (htlen ▸ ht)
    have htake := (takes_iff hc hd).1 hp'
    rw [run, dif_pos ht, dif_pos hp, List.drop_eq_getElem_cons (hplen ▸ hlt),
      List.drop_eq_getElem_cons (l := text) (htlen ▸ ht), glob_takes htake]
    exact ih (h.advance hc hd htake)
  | case2 g ht hp hs ih =>
    obtain ⟨hlt, hs'⟩ := id hs
    have hc : pattern[g.p]? = some pattern[g.p] := List.getElem?_eq_getElem (hplen ▸ hlt)
    have hd : text[g.t]? = some text[g.t] := List.getElem?_eq_getElem (htlen ▸ ht)
    have hstar : pattern[g.p] = '*' := (star_iff hc).1 hs'
    have hmeet : text[g.t]? ≠ some '*' := by
      intro he
      exact hp ⟨hlt, (takes_iff hc he).2 (.inr (by rw [hstar]))⟩
    have hdrop : pattern.drop g.p = '*' :: pattern.drop (g.p + 1) := by
      rw [List.drop_eq_getElem_cons (hplen ▸ hlt), hstar]
    rw [run, dif_pos ht, dif_neg hp, dif_pos hs, hdrop, glob_star hmeet]
    refine (ih (tracks_atStar g)).trans ?_
    constructor
    · rintro (hm | ⟨_, k, ⟨⟩, hk, hm⟩)
      · exact .inl ⟨g.t, Nat.le_refl _, hm⟩
      · exact .inl ⟨k, Nat.le_of_lt hk, hm⟩
    · -- a match for which the star before takes more passes this star no earlier
      have hlater {k : Nat} (hk : g.t ≤ k)
          (hm : Glob firmRun (pattern.drop (g.p + 1)) (text.drop k)) :
          Glob firmRun (pattern.drop g.atStar.p) (text.drop g.atStar.t) ∨
            ∃ sp k, g.atStar.star = some sp ∧ g.atStar.mark < k ∧
              Glob firmRun (pattern.drop (sp + 1)) (text.drop k) := by
        rcases Nat.eq_or_lt_of_le hk with rfl | hk
        · exact .inl hm
        · exact .inr ⟨g.p, k, rfl, hk, hm⟩
      rintro (⟨k, hk, hm⟩ | ⟨sp, k, hsp, hk, hm⟩)
      · exact hlater hk hm
      · obtain ⟨q, hq, hm'⟩ := h.past hsp (Nat.le_of_lt hk) hm
        rw [hdrop] at hm'
        generalize hrest : text.drop q = rest at hm'
        cases hm' with
        | char hne => exact (hne rfl).elim
        | star hr hm' =>
          rw [← hrest] at hr
          obtain ⟨k', hk', rfl, _⟩ := firmRun_drop hr
          exact hlater (hq.trans hk') hm'
  | case3 g ht hp hs sp hsp ih =>
    have hno := glob_halts (htlen ▸ ht) hp hs
    rw [run, dif_pos ht, dif_neg hp, dif_neg hs]
    split
    next sp' hsp' =>
      obtain rfl : sp' = sp := Option.some.inj (hsp'.symm.trans hsp)
      refine (ih (tracks_backtrack g sp')).trans ?_
      constructor
      · rintro (hm | ⟨_, k, ⟨⟩, hk, hm⟩)
        · exact .inr ⟨sp', g.mark + 1, hsp, Nat.lt_succ_self _, hm⟩
        · exact .inr ⟨sp', k, hsp, Nat.lt_of_succ_lt hk, hm⟩
      · rintro (hm | ⟨sp, k, hsp'', hk, hm⟩)
        · exact (hno hm).elim
        · obtain rfl : sp = sp' := Option.some.inj (hsp''.symm.trans hsp)
          rcases Nat.eq_or_lt_of_le (Nat.succ_le_of_lt hk) with rfl | hk
          · exact .inl hm
          · exact .inr ⟨sp, k, rfl, hk, hm⟩
    next hn =>
      rw [hn] at hsp
      cases hsp
  | case4 g ht hp hs hsp =>
    have hno := glob_halts (htlen ▸ ht) hp hs
    rw [run, dif_pos ht, dif_neg hp, dif_neg hs]
    split
    next sp hsp' =>
      rw [hsp] at hsp'
      cases hsp'
    next =>
      constructor
      · intro h
        cases h
      · rintro (hm | ⟨sp, k, hsp', _, _⟩)
        · exact (hno hm).elim
        · rw [hsp] at hsp'
          cases hsp'
  | case5 g ht =>
    have hend : text.drop g.t = [] := List.drop_eq_nil_of_le (by omega)
    have hstars : ((Text.toAsciiLowercase pattern).drop g.p).all (· == '*') = true ↔
        Glob firmRun (pattern.drop g.p) [] := by
      rw [Glob.nil_iff fun s => ⟨fun h => List.suffix_nil.1 h.1, fun h => ⟨h ▸ List.suffix_rfl,
        fun r hr => by cases hr⟩⟩]
      simp only [Text.toAsciiLowercase, ← List.map_drop, List.all_eq_true, List.mem_map,
        forall_exists_index, and_imp, forall_apply_eq_imp_iff₂, beq_iff_eq,
        toLower_eq_iff (x := '*') rfl (by decide)]
    rw [run, dif_neg ht, hstars, hend]
    constructor
    · exact .inl
    · rintro (hm | ⟨sp, k, hsp, hk, hm⟩)
      · exact hm
      · obtain ⟨q, hq, hm'⟩ := h.past hsp (Nat.le_of_lt hk) hm
        have hend' : text.drop q = [] := List.drop_eq_nil_of_le (by omega)
        rwa [hend'] at hm'

end GlobState

/-- The loop looks for the matches in which every star that meets a star takes just that one. -/
theorem globMatch_iff (pattern text : Text) :
    globMatch pattern text = true ↔ Glob firmRun pattern text := by
  have hstart : GlobState.Tracks pattern text .start := by
    intro sp hs
    cases hs
  rw [globMatch, GlobState.run_iff hstart]
  constructor
  · rintro (h | ⟨sp, k, hs, _⟩)
    · exact h
    · cases hs
  · exact .inl

/-- Matching tells whether the pattern matches the text just where no match needs a star that takes
more or less than a star of the text that it meets. -/
theorem globMatch_right_iff (pattern text : Text) :
    (globMatch pattern text = true ↔ Glob anyRun pattern text) ↔
      (Glob anyRun pattern text → Glob firmRun pattern text) := by
  rw [globMatch_iff]
  constructor
  · intro h
    exact h.2
  · intro h
    exact ⟨.mono fun _ _ hr => hr.1, h⟩

/-- In a text without a star no star meets one. -/
theorem Glob.firm (h : Glob anyRun pattern text) (ht : '*' ∉ text) : Glob firmRun pattern text := by
  induction h with
  | nil => exact .nil
  | any _ ih => exact .any (ih fun h => ht (List.mem_cons_of_mem _ h))
  | char hs hq he _ ih => exact .char hs hq he (ih fun h => ht (List.mem_cons_of_mem _ h))
  | star hr _ ih =>
    refine .star ⟨hr, fun r hr' => ?_⟩ (ih fun h => ht (hr.subset h))
    rw [hr'] at ht
    exact (ht List.mem_cons_self).elim

/-- A lone star does not match a text that begins with one. -/
theorem star_misses :
    globMatch ['*'] ['*', 'a'] = false ∧ Glob anyRun ['*'] ['*', 'a'] := by
  constructor
  · rw [Bool.eq_false_iff, Ne, globMatch_iff]
    intro h
    cases h with
    | char hs => exact hs rfl
    | star hr h =>
      rw [hr.2 ['a'] rfl] at h
      cases h
  · exact .star (List.suffix_append ['*', 'a'] []) .nil

end Tomo
