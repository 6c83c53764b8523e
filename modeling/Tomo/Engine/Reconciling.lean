import Tomo.Engine.Knowledge

namespace Tomo
set_option autoImplicit true

namespace Engine
variable {e : Engine} {p q : RelPath} {remote : Index}

theorem collect_nil (f : Engine → α → Engine × List Action) (e : Engine) :
    collect f e [] = (e, []) := rfl

theorem collect_cons (f : Engine → α → Engine × List Action) (e : Engine) (a : α) (l : List α) :
    collect f e (a :: l) =
      ((collect f (f e a).1 l).1, (f e a).2 ++ (collect f (f e a).1 l).2) := by
  have hacc (l : List α) (r : Engine × List Action) :
      l.foldl (fun r a => ((f r.1 a).1, r.2 ++ (f r.1 a).2)) r =
        ((collect f r.1 l).1, r.2 ++ (collect f r.1 l).2) := by
    induction l generalizing r with
    | nil => rw [collect_nil, List.append_nil, List.foldl_nil]
    | cons b l ih =>
      have hb : collect f r.1 (b :: l) = _ := ih ((f r.1 b).1, [] ++ (f r.1 b).2)
      rw [List.foldl_cons, ih, hb]
      simp only [List.nil_append, List.append_assoc]
  exact hacc l ((f e a).1, [] ++ (f e a).2)

/-- The entry of a path once it has absorbed a list of heads. -/
def absorbAll (o : Option Entry) (hs : List Head) : Option Entry :=
  hs.foldl (fun o h => some (absorbed o h.version h.state)) o

/-- What absorbing a list of heads does: one path's entry joins them, nothing is sent. -/
theorem absorbHeads_spec (e : Engine) (p : RelPath) (hs : List Head) :
    (∀ q, (e.absorbHeads p hs).1.index.get q =
        if p = q then absorbAll (e.index.get p) hs else e.index.get q) ∧
      sends (e.absorbHeads p hs).2 = [] := by
  induction hs generalizing e with
  | nil =>
    refine ⟨fun q => ?_, rfl⟩
    split
    · subst q
      rfl
    · rfl
  | cons h hs ih =>
    obtain ⟨_, hget, hsend⟩ := absorbRemote_spec e p h.state h.version
    rw [absorbHeads, collect_cons]
    obtain ⟨hrest, hsends⟩ := ih (e.absorbRemote p h.state h.version).1
    refine ⟨fun q => ?_, ?_⟩
    · refine (hrest q).trans ?_
      rw [hget p, if_pos rfl, hget q]
      split
      · rfl
      · rfl
    · rw [sends_append, hsend]
      exact hsends

/-- The entry of a path once its peer's entry is reconciled. -/
def reconciled (o r : Option Entry) : Option Entry :=
  match r with
  | some r => absorbAll o r.heads
  | none => o

/-- The heads of a path that go to the peer. -/
def missing (o r : Option Entry) : List Head :=
  match r with
  | some r => ((absorbAll o r.heads).elim [] Entry.heads).filter fun h => !covered h.version r.heads
  | none => o.elim [] Entry.heads

theorem sends_sendHeads (p : RelPath) (l : List Head) :
    sends (l.map (sendHead p)) = l.map fun h => ⟨p, kindFromState h.state, h.version⟩ := by
  rw [sends, List.filterMap_map]
  exact congrFun List.filterMap_eq_map l

theorem reconcilePath_spec (remote : Index) (e : Engine) (p : RelPath) :
    (∀ q, (reconcilePath remote e p).1.index.get q =
        if p = q then reconciled (e.index.get p) (remote.get p) else e.index.get q) ∧
      sends (reconcilePath remote e p).2 =
        (missing (e.index.get p) (remote.get p)).map
          fun h => ⟨p, kindFromState h.state, h.version⟩ := by
  have hself (q : RelPath) : e.index.get q = if p = q then e.index.get p else e.index.get q := by
    split
    next h => rw [h]
    next => rfl
  unfold reconcilePath
  cases hr : remote.get p with
  | none =>
    dsimp only
    cases hl : e.index.get p with
    | none =>
      rw [hl] at hself
      exact ⟨hself, rfl⟩
    | some entry =>
      rw [hl] at hself
      exact ⟨hself, sends_sendHeads p entry.heads⟩
  | some r =>
    dsimp only
    obtain ⟨hget, hsend⟩ := absorbHeads_spec e p r.heads
    have hp := hget p
    rw [if_pos rfl] at hp
    cases hl : (e.absorbHeads p r.heads).1.index.get p with
    | none =>
      rw [hl] at hp
      refine ⟨hget, ?_⟩
      rw [hsend, missing, ← hp]
      rfl
    | some entry =>
      rw [hl] at hp
      refine ⟨hget, ?_⟩
      rw [sends_append, hsend, sends_sendHeads, missing, ← hp]
      rfl

/-- A pass over different paths treats each of them on its own. -/
theorem collect_reconcile (remote : Index) {l : List RelPath} (hl : l.Nodup) (e : Engine) :
    (∀ q, (collect (reconcilePath remote) e l).1.index.get q =
        if q ∈ l then reconciled (e.index.get q) (remote.get q) else e.index.get q) ∧
      sends (collect (reconcilePath remote) e l).2 = l.flatMap fun p =>
        (missing (e.index.get p) (remote.get p)).map
          fun h => ⟨p, kindFromState h.state, h.version⟩ := by
  induction l generalizing e with
  | nil =>
    refine ⟨fun q => ?_, rfl⟩
    rw [if_neg List.not_mem_nil]
    rfl
  | cons p l ih =>
    rw [List.nodup_cons] at hl
    obtain ⟨hget, hsend⟩ := reconcilePath_spec remote e p
    obtain ⟨hrest, hsends⟩ := ih hl.2 (reconcilePath remote e p).1
    rw [collect_cons]
    refine ⟨fun q => ?_, ?_⟩
    · rw [hrest q, hget q]
      by_cases hq : p = q
      · subst q
        rw [if_neg hl.1, if_pos rfl, if_pos List.mem_cons_self]
      · rw [if_neg hq]
        by_cases hm : q ∈ l
        · rw [if_pos hm, if_pos (List.mem_cons_of_mem p hm)]
        · rw [if_neg hm, if_neg]
          intro h
          rcases List.mem_cons.1 h with h | h
          · exact hq h.symm
          · exact hm h
    · rw [sends_append, hsend, hsends, List.flatMap_cons]
      congr 1
      refine List.flatMap_congr fun q hq => ?_
      have hne : p ≠ q := fun h => hl.1 (h ▸ hq)
      rw [hget q, if_neg hne]

theorem unionPaths_nodup (a b : Index) : (unionPaths a b).Nodup :=
  Std.ExtTreeMap.nodup_keys

theorem mem_unionPaths (a b : Index) :
    p ∈ unionPaths a b ↔ (a.get p).isSome ∨ (b.get p).isSome := by
  have hfold (l : List (RelPath × Entry)) (m : Std.ExtTreeMap RelPath Unit) :
      p ∈ l.foldl (fun m e => m.insert e.1 ()) m ↔ p ∈ m ∨ p ∈ l.map Prod.fst := by
    induction l generalizing m with
    | nil => simp
    | cons x l ih =>
      rw [List.foldl_cons, ih, Std.ExtTreeMap.mem_insert, Std.compare_eq_iff_eq, List.map_cons,
        List.mem_cons]
      constructor
      · rintro ((h | h) | h)
        · exact .inr (.inl h.symm)
        · exact .inl h
        · exact .inr (.inr h)
      · rintro (h | h | h)
        · exact .inl (.inr h)
        · exact .inl (.inl h.symm)
        · exact .inr h
  have hb : p ∈ b.iter.map Prod.fst ↔ (b.get p).isSome := by
    rw [List.mem_map, Option.isSome_iff_exists]
    constructor
    · rintro ⟨⟨q, x⟩, hx, rfl⟩
      exact ⟨x, (b.mem_iter).1 hx⟩
    · rintro ⟨x, hx⟩
      exact ⟨(p, x), (b.mem_iter).2 hx, rfl⟩
  have ha : p ∈ a.entries.map (fun _ _ => ()) ↔ (a.get p).isSome := by
    rw [Std.ExtTreeMap.mem_iff_isSome_getElem?, Std.ExtTreeMap.getElem?_map, Option.isSome_map]
    rfl
  rw [unionPaths, Std.ExtTreeMap.mem_keys, hfold, ha, hb]

/-- What reconciling with a peer's index does to every path, and what it sends. -/
theorem handlePeerIndex_spec (e : Engine) (remote : Index) :
    (∀ q, (e.handlePeerIndex remote).1.index.get q =
        reconciled (e.index.get q) (remote.get q)) ∧
      ∀ c, c ∈ sends (e.handlePeerIndex remote).2 ↔
        ∃ h ∈ missing (e.index.get c.path) (remote.get c.path),
          c = ⟨c.path, kindFromState h.state, h.version⟩ := by
  obtain ⟨hget, hsend⟩ := collect_reconcile remote (unionPaths_nodup e.index remote) e
  have hout (q : RelPath) (hq : q ∉ unionPaths e.index remote) :
      e.index.get q = none ∧ remote.get q = none := by
    rw [mem_unionPaths, not_or, Bool.not_eq_true, Bool.not_eq_true, Option.isSome_eq_false_iff,
      Option.isSome_eq_false_iff, Option.isNone_iff_eq_none, Option.isNone_iff_eq_none] at hq
    exact hq
  constructor
  · intro q
    rw [handlePeerIndex, hget q]
    split
    · rfl
    next hq =>
      obtain ⟨ha, hb⟩ := hout q hq
      rw [ha, hb]
      rfl
  · intro c
    rw [handlePeerIndex, hsend, List.mem_flatMap]
    constructor
    · rintro ⟨p, _, hc⟩
      obtain ⟨h, hh, rfl⟩ := List.mem_map.1 hc
      exact ⟨h, hh, rfl⟩
    · rintro ⟨h, hh, hc⟩
      refine ⟨c.path, ?_, List.mem_map.2 ⟨h, hh, hc.symm⟩⟩
      by_contra hq
      obtain ⟨ha, hb⟩ := hout c.path hq
      rw [ha, hb] at hh
      cases hh

end Engine

end Tomo
