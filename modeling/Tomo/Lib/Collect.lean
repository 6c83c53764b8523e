import Mathlib.Tactic.Common
import Std.Data.ExtTreeMap

namespace Tomo
set_option autoImplicit true

namespace Collect
variable {κ ν ε σ : Type} [Ord κ] [Std.TransOrd κ] [Std.LawfulEqOrd κ]

/-- Insert what an element stands for, if it stands for anything. -/
def add (f : ε → Option (κ × ν)) (m : Std.ExtTreeMap κ ν) (e : ε) : Std.ExtTreeMap κ ν :=
  match f e with
  | some (k, v) => m.insert k v
  | none => m

def collect (f : ε → Option (κ × ν)) (l : List ε) (m : Std.ExtTreeMap κ ν) : Std.ExtTreeMap κ ν :=
  l.foldl (add f) m

theorem collect_cons (f : ε → Option (κ × ν)) (e : ε) (l : List ε) (m : Std.ExtTreeMap κ ν) :
    collect f (e :: l) m = collect f l (add f m e) := rfl

theorem collect_of_none {f : ε → Option (κ × ν)} {l : List ε} (h : ∀ e ∈ l, f e = none)
    (m : Std.ExtTreeMap κ ν) : collect f l m = m := by
  induction l generalizing m with
  | nil => rfl
  | cons e l ih =>
    rw [collect_cons, add, h e List.mem_cons_self]
    exact ih (fun e he => h e (List.mem_cons_of_mem _ he)) m

/-- Where no two elements disagree about a key, it has the value of whichever stands for it. -/
theorem getElem?_collect {f : ε → Option (κ × ν)} {l : List ε} {k : κ}
    (h : ∀ e ∈ l, ∀ e' ∈ l, ∀ v v', f e = some (k, v) → f e' = some (k, v') → v = v')
    (m : Std.ExtTreeMap κ ν) (v : ν) :
    (collect f l m)[k]? = some v ↔
      (∃ e ∈ l, f e = some (k, v)) ∨ (∀ e ∈ l, ∀ v, f e ≠ some (k, v)) ∧ m[k]? = some v := by
  induction l generalizing m with
  | nil => simp [collect]
  | cons a l ih =>
    have hl := ih fun e he e' he' => h e (List.mem_cons_of_mem a he) e' (List.mem_cons_of_mem a he')
    rw [collect_cons, hl, add]
    cases ha : f a with
    | none => simp [ha]
    | some e =>
      obtain ⟨k', v'⟩ := e
      by_cases hk : k' = k
      · subst hk
        rw [Std.ExtTreeMap.getElem?_insert_self]
        constructor
        · rintro (⟨e, he, hv⟩ | ⟨_, hv⟩)
          · exact .inl ⟨e, List.mem_cons_of_mem a he, hv⟩
          · cases hv
            exact .inl ⟨a, List.mem_cons_self, ha⟩
        · rintro (⟨e, he, hv⟩ | ⟨hno, _⟩)
          · by_cases hex : ∃ e ∈ l, ∃ v, f e = some (k', v)
            · obtain ⟨e', he', w, hw⟩ := hex
              have hvw := h e he e' (List.mem_cons_of_mem a he') v w hv hw
              exact .inl ⟨e', he', by rw [hvw, hw]⟩
            · have hvv := h e he a List.mem_cons_self v v' hv ha
              exact .inr ⟨fun e he v hv => hex ⟨e, he, v, hv⟩, by rw [hvv]⟩
          · exact (hno a List.mem_cons_self v' ha).elim
      · simp [ha, hk, Std.ExtTreeMap.getElem?_insert]

end Collect

end Tomo
