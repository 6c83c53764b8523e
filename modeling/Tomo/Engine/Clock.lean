import Mathlib.Algebra.Group.Nat.Defs
import Mathlib.Order.Lattice
import Mathlib.Tactic.Common
import Std.Data.ExtTreeMap

namespace Tomo
set_option autoImplicit true

/-- The largest `u64`. -/
def u64Max : Nat := 2 ^ 64 - 1

def saturatingAdd (a b : Nat) : Nat := min (a + b) u64Max

/-- A machine participating in a sync pair. -/
structure ReplicaId where
  id : UInt64
deriving DecidableEq

instance : Ord ReplicaId := ⟨compareOn ReplicaId.id⟩

instance : Std.TransOrd ReplicaId := inferInstanceAs (Std.TransCmp (compareOn ReplicaId.id))

instance : Std.LawfulEqOrd ReplicaId where
  eq_of_compare {a b} h := by
    have he : a.id = b.id := Std.LawfulEqOrd.compare_eq_iff_eq.1 h
    cases a
    cases b
    cases he
    rfl

/-- Result of comparing two vector clocks. -/
inductive Causality where
  | equal
  | before
  | after
  | concurrent
deriving DecidableEq

/-- The final match of `compare` on the two flags of its loop. -/
def Causality.ofAhead : (selfAhead otherAhead : Bool) → Causality
  | false, false => .equal
  | false, true => .before
  | true, false => .after
  | true, true => .concurrent

/-- Per-replica logical counters; a missing replica counts as zero. -/
structure VectorClock where
  counters : Std.ExtTreeMap ReplicaId Nat
deriving DecidableEq

namespace VectorClock

def new : VectorClock := ⟨∅⟩

/-- The counter for `r`, zero if never ticked. -/
def get (c : VectorClock) (r : ReplicaId) : Nat := c.counters[r]?.getD 0

def tick (c : VectorClock) (r : ReplicaId) : VectorClock :=
  ⟨c.counters.insert r (c.get r + 1)⟩

/-- The stored pairs in ascending replica order. -/
def iter (c : VectorClock) : List (ReplicaId × Nat) := c.counters.toList

/-- One pass of the loop of `merge`: the entry exists afterwards, with the larger counter. -/
def mergeEntry (c : VectorClock) (e : ReplicaId × Nat) : VectorClock :=
  ⟨c.counters.insert e.1 (if c.get e.1 < e.2 then e.2 else c.get e.1)⟩

/-- Pointwise maximum. -/
def merge (c other : VectorClock) : VectorClock := other.iter.foldl mergeEntry c

protected def compare (c other : VectorClock) : Causality :=
  let keys := c.counters.keys ++ other.counters.keys
  .ofAhead (keys.any fun r => decide (other.get r < c.get r))
    (keys.any fun r => decide (c.get r < other.get r))

@[simp] theorem get_new (r : ReplicaId) : new.get r = 0 := by
  simp only [get, new, Std.ExtTreeMap.getElem?_empty, Option.getD_none]

theorem get_insert (m : Std.ExtTreeMap ReplicaId Nat) (r q : ReplicaId) (n : Nat) :
    get ⟨m.insert r n⟩ q = if r = q then n else get ⟨m⟩ q := by
  simp only [get, Std.ExtTreeMap.getElem?_insert, Std.compare_eq_iff_eq]
  split <;> rfl

@[simp] theorem get_tick (c : VectorClock) (r q : ReplicaId) :
    (c.tick r).get q = if r = q then c.get r + 1 else c.get q :=
  get_insert c.counters r q _

theorem get_mergeEntry (c : VectorClock) (e : ReplicaId × Nat) (q : ReplicaId) :
    (c.mergeEntry e).get q = if e.1 = q then max (c.get q) e.2 else c.get q := by
  rw [mergeEntry, get_insert]
  by_cases h : e.1 = q
  · subst q
    simp only [↓reduceIte]
    split <;> omega
  · simp only [if_neg h]

theorem get_foldl_mergeEntry (l : List (ReplicaId × Nat)) (c : VectorClock) (q : ReplicaId) :
    (l.foldl mergeEntry c).get q =
      l.foldl (fun m e => if e.1 = q then max m e.2 else m) (c.get q) := by
  induction l generalizing c with
  | nil => rfl
  | cons e l ih => rw [List.foldl_cons, ih, get_mergeEntry, List.foldl_cons]

theorem foldl_max_of_ne (l : List (ReplicaId × Nat)) (n : Nat) (h : ∀ e ∈ l, e.1 ≠ q) :
    l.foldl (fun m e => if e.1 = q then max m e.2 else m) n = n := by
  induction l with
  | nil => rfl
  | cons e l ih =>
    rw [List.foldl_cons, if_neg (h e (List.mem_cons_self ..))]
    exact ih fun e he => h e (List.mem_cons_of_mem _ he)

theorem get_eq_of_mem (c : VectorClock) (h : (r, n) ∈ c.iter) : c.get r = n := by
  rw [iter, Std.ExtTreeMap.mem_toList_iff_getElem?_eq_some] at h
  rw [get, h, Option.getD_some]

theorem iter_distinct (c : VectorClock) : c.iter.Pairwise fun a b => a.1 ≠ b.1 :=
  Std.ExtTreeMap.ordered_keys_toList.imp fun {a b} h he => by
    rw [he, Std.ReflOrd.compare_self] at h
    cases h

theorem foldl_iter (c : VectorClock) (q : ReplicaId) (n : Nat) :
    c.iter.foldl (fun m e => if e.1 = q then max m e.2 else m) n = max n (c.get q) := by
  by_cases hq : ∃ k, (q, k) ∈ c.iter
  · obtain ⟨k, hk⟩ := hq
    obtain ⟨l, l', hl⟩ := List.append_of_mem hk
    have hd := c.iter_distinct
    rw [hl, List.pairwise_append, List.pairwise_cons] at hd
    obtain ⟨_, ⟨hr, _⟩, hc⟩ := hd
    have hleft : ∀ e ∈ l, e.1 ≠ q := fun e he => hc e he _ (List.mem_cons_self ..)
    have hright : ∀ e ∈ l', e.1 ≠ q := fun e he => (hr e he).symm
    rw [hl, List.foldl_append, foldl_max_of_ne l n hleft, List.foldl_cons, if_pos rfl,
      foldl_max_of_ne l' _ hright, c.get_eq_of_mem hk]
  · have hz : c.get q = 0 := by
      cases hg : c.counters[q]? with
      | none => rw [get, hg, Option.getD_none]
      | some k => exact (hq ⟨k, Std.ExtTreeMap.mem_toList_iff_getElem?_eq_some.2 hg⟩).elim
    rw [foldl_max_of_ne, hz, Nat.max_zero]
    rintro ⟨r, k⟩ he rfl
    exact hq ⟨k, he⟩

@[simp] theorem get_merge (c other : VectorClock) (q : ReplicaId) :
    (c.merge other).get q = max (c.get q) (other.get q) := by
  rw [merge, get_foldl_mergeEntry, foldl_iter]

/-- Causal order: pointwise on counters. -/
instance : Preorder VectorClock where
  le a b := ∀ r, a.get r ≤ b.get r
  le_refl _ _ := le_rfl
  le_trans _ _ _ h h' r := (h r).trans (h' r)

theorem le_def {a b : VectorClock} : a ≤ b ↔ ∀ r, a.get r ≤ b.get r := Iff.rfl

theorem get_of_not_mem (c : VectorClock) (h : r ∉ c.counters.keys) : c.get r = 0 := by
  rw [Std.ExtTreeMap.mem_keys] at h
  rw [get, Std.ExtTreeMap.getElem?_eq_none h, Option.getD_none]

theorem any_keys_ahead (a b : VectorClock) :
    ((a.counters.keys ++ b.counters.keys).any fun r => decide (b.get r < a.get r)) = true ↔
      ¬a ≤ b := by
  simp only [List.any_eq_true, List.mem_append, decide_eq_true_eq, le_def, not_forall, not_le]
  constructor
  · rintro ⟨r, _, hr⟩
    exact ⟨r, hr⟩
  · rintro ⟨r, hr⟩
    refine ⟨r, .inl ?_, hr⟩
    by_contra hm
    rw [a.get_of_not_mem hm] at hr
    exact Nat.not_lt_zero _ hr

theorem any_keys_behind (a b : VectorClock) :
    ((a.counters.keys ++ b.counters.keys).any fun r => decide (a.get r < b.get r)) = true ↔
      ¬b ≤ a := by
  rw [← any_keys_ahead b a, List.any_append, List.any_append, Bool.or_comm]

/-- `compare` reads off which of the two clocks dominates. -/
theorem compare_spec (a b : VectorClock) :
    match a.compare b with
    | .equal => a ≤ b ∧ b ≤ a
    | .before => a ≤ b ∧ ¬b ≤ a
    | .after => b ≤ a ∧ ¬a ≤ b
    | .concurrent => ¬a ≤ b ∧ ¬b ≤ a := by
  have hs := any_keys_ahead a b
  have ho := any_keys_behind a b
  unfold VectorClock.compare
  dsimp only
  generalize (a.counters.keys ++ b.counters.keys).any _ = selfAhead at hs ⊢
  generalize (a.counters.keys ++ b.counters.keys).any _ = otherAhead at ho ⊢
  cases selfAhead <;> cases otherAhead <;> simp_all [Causality.ofAhead]

theorem le_iff_compare (a b : VectorClock) :
    a ≤ b ↔ a.compare b = .before ∨ a.compare b = .equal := by
  have h := compare_spec a b
  cases hc : a.compare b <;> rw [hc] at h <;> simp [h]

theorem ge_iff_compare (a b : VectorClock) :
    b ≤ a ↔ a.compare b = .after ∨ a.compare b = .equal := by
  have h := compare_spec a b
  cases hc : a.compare b <;> rw [hc] at h <;> simp [h]

theorem before_iff (a b : VectorClock) : a.compare b = .before ↔ a ≤ b ∧ ¬b ≤ a := by
  have h := compare_spec a b
  cases hc : a.compare b <;> rw [hc] at h <;> simp [h]

theorem le_merge_left (a b : VectorClock) : a ≤ a.merge b := fun r => by
  rw [get_merge]
  exact Nat.le_max_left _ _

theorem le_merge_right (a b : VectorClock) : b ≤ a.merge b := fun r => by
  rw [get_merge]
  exact Nat.le_max_right _ _

theorem merge_le {a b c : VectorClock} (ha : a ≤ c) (hb : b ≤ c) : a.merge b ≤ c := fun r => by
  rw [get_merge]
  exact Nat.max_le.2 ⟨ha r, hb r⟩

theorem new_le (c : VectorClock) : new ≤ c := fun r => by
  rw [get_new]
  exact Nat.zero_le _

theorem le_tick (c : VectorClock) (r : ReplicaId) : c ≤ c.tick r := fun q => by
  rw [get_tick]
  split
  · subst q
    exact Nat.le_succ _
  · exact le_rfl

/-- The invariant of every clock built by `tick` and `merge`: stored counters are positive. -/
def Positive (c : VectorClock) : Prop :=
  ∀ (r : ReplicaId) (n : Nat), c.counters[r]? = some n → 0 < n

theorem positive_new : new.Positive := by
  intro r n h
  rw [new, Std.ExtTreeMap.getElem?_empty] at h
  cases h

theorem Positive.insert {c : VectorClock} (h : c.Positive) (r : ReplicaId) (hn : 0 < n) :
    Positive ⟨c.counters.insert r n⟩ := by
  intro q k hk
  rw [Std.ExtTreeMap.getElem?_insert] at hk
  split at hk
  · cases hk
    exact hn
  · exact h q k hk

theorem Positive.tick {c : VectorClock} (h : c.Positive) (r : ReplicaId) : (c.tick r).Positive :=
  h.insert r (Nat.succ_pos _)

theorem Positive.of_mem {c : VectorClock} (h : c.Positive) (he : (r, n) ∈ c.iter) : 0 < n :=
  h r n (Std.ExtTreeMap.mem_toList_iff_getElem?_eq_some.1 he)

theorem Positive.merge {a b : VectorClock} (ha : a.Positive) (hb : b.Positive) :
    (a.merge b).Positive := by
  have hfold (l : List (ReplicaId × Nat)) (hl : ∀ e ∈ l, 0 < e.2) (c : VectorClock)
      (hc : c.Positive) : (l.foldl mergeEntry c).Positive := by
    induction l generalizing c with
    | nil => exact hc
    | cons e l ih =>
      rw [List.foldl_cons]
      apply ih fun e he => hl e (List.mem_cons_of_mem _ he)
      apply hc.insert
      have he := hl e (List.mem_cons_self ..)
      split <;> omega
  exact hfold b.iter (fun e he => hb.of_mem he) a ha

/-- Positive clocks with the same counters are the same map. -/
theorem Positive.antisymm {a b : VectorClock} (ha : a.Positive) (hb : b.Positive)
    (hab : a ≤ b) (hba : b ≤ a) : a = b := by
  cases a with
  | mk m =>
    cases b with
    | mk m' =>
      congr 1
      apply Std.ExtTreeMap.ext_getElem?
      intro r
      have he := Nat.le_antisymm (hab r) (hba r)
      simp only [get] at he
      cases hm : m[r]? with
      | none =>
        cases hm' : m'[r]? with
        | none => rfl
        | some n =>
          rw [hm, hm'] at he
          exact absurd he.symm (hb r n hm').ne'
      | some n =>
        cases hm' : m'[r]? with
        | none =>
          rw [hm, hm'] at he
          exact absurd he (ha r n hm).ne'
        | some n' =>
          rw [hm, hm'] at he
          exact congrArg some he

end VectorClock

end Tomo
