import Mathlib.Tactic.Common

namespace Tomo
set_option autoImplicit true

/-- A computation with a state and errors. An error keeps the state it happened in. -/
abbrev Eff (σ ε α : Type) := ExceptT ε (StateM σ) α

namespace Eff
variable {σ ε α β γ : Type} {s s' : σ} {a : α} {x : Eff σ ε α} {f : α → Eff σ ε β}

/-- Run to an outcome and a final state. -/
def exec (x : Eff σ ε α) (s : σ) : Except ε α × σ := x.run.run s

@[simp] theorem exec_pure (a : α) (s : σ) : exec (pure a : Eff σ ε α) s = (.ok a, s) := (rfl)

@[simp] theorem exec_throw (e : ε) (s : σ) : exec (throw e : Eff σ ε α) s = (.error e, s) := (rfl)

@[simp] theorem exec_get (s : σ) : exec (get : Eff σ ε σ) s = (.ok s, s) := (rfl)

@[simp] theorem exec_set (s s' : σ) : exec (set s' : Eff σ ε PUnit) s = (.ok ⟨⟩, s') := (rfl)

@[simp] theorem exec_modify (f : σ → σ) (s : σ) :
    exec (modify f : Eff σ ε PUnit) s = (.ok ⟨⟩, f s) := (rfl)

/-- What follows a first computation, given how that one went. -/
def thenRun (r : Except ε α × σ) (f : α → Eff σ ε β) : Except ε β × σ :=
  match r with
  | (.ok a, s) => (f a).exec s
  | (.error e, s) => (.error e, s)

@[simp] theorem thenRun_ok (a : α) (s : σ) (f : α → Eff σ ε β) :
    thenRun (.ok a, s) f = (f a).exec s := (rfl)

@[simp] theorem thenRun_error (e : ε) (s : σ) (f : α → Eff σ ε β) :
    thenRun ((.error e, s) : Except ε α × σ) f = (.error e, s) := (rfl)

theorem exec_bind (x : Eff σ ε α) (f : α → Eff σ ε β) (s : σ) :
    (x >>= f).exec s = thenRun (x.exec s) f := by
  simp only [exec, thenRun]
  change (ExceptT.bind x f).run.run s = _
  simp only [ExceptT.bind, ExceptT.run, ExceptT.mk, StateT.run, bind, StateT.bind, ExceptT.bindCont]
  rcases hx : x s with ⟨r, s'⟩
  cases r <;> rfl

@[simp] theorem exec_get_bind (f : σ → Eff σ ε β) (s : σ) : (get >>= f).exec s = (f s).exec s := (rfl)

@[simp] theorem exec_set_bind (f : PUnit → Eff σ ε β) (s s' : σ) :
    (set s' >>= f).exec s = (f ⟨⟩).exec s' := (rfl)

@[simp] theorem exec_modify_bind (g : σ → σ) (f : PUnit → Eff σ ε β) (s : σ) :
    (modify g >>= f).exec s = (f ⟨⟩).exec (g s) := (rfl)

@[simp] theorem exec_throw_bind (e : ε) (f : α → Eff σ ε β) (s : σ) :
    (throw e >>= f).exec s = (.error e, s) := (rfl)

theorem exec_bind_ok (h : x.exec s = (.ok a, s')) : (x >>= f).exec s = (f a).exec s' := by
  rw [exec_bind, h, thenRun_ok]

theorem exec_bind_error (h : x.exec s = (.error e, s')) : (x >>= f).exec s = (.error e, s') := by
  rw [exec_bind, h, thenRun_error]

/-- A computation that succeeds has succeeded at each step. -/
theorem ok_of_bind (h : (x >>= f).exec s = (.ok b, s')) :
    ∃ a u, x.exec s = (.ok a, u) ∧ (f a).exec u = (.ok b, s') := by
  rw [exec_bind] at h
  rcases he : x.exec s with ⟨r, u⟩
  rw [he] at h
  cases r with
  | error e => cases h
  | ok a => exact ⟨a, u, rfl, h⟩

theorem ok_of_map {g : α → β} (h : (g <$> x).exec s = (.ok b, s')) :
    ∃ a, x.exec s = (.ok a, s') := by
  obtain ⟨a, u, hx, hu⟩ := ok_of_bind (f := fun a => pure (g a)) h
  cases hu
  exact ⟨a, hx⟩

@[simp] theorem exec_ite (c : Prop) [Decidable c] (x y : Eff σ ε α) (s : σ) :
    (if c then x else y).exec s = if c then x.exec s else y.exec s := by
  split <;> rfl

theorem exec_tryCatch (x : Eff σ ε α) (h : ε → Eff σ ε α) (s : σ) :
    (tryCatch x h).exec s = match x.exec s with
      | (.ok a, s') => (.ok a, s')
      | (.error e, s') => (h e).exec s' := by
  change (ExceptT.tryCatch x h).run.run s = _
  simp only [exec, ExceptT.tryCatch, ExceptT.run, ExceptT.mk, StateT.run, bind, StateT.bind]
  rcases x s with ⟨r, s'⟩
  cases r <;> rfl

/-- All of `x`, or nothing of it. -/
def transaction (x : Eff σ ε α) : Eff σ ε α := do
  let s ← get
  try x
  catch e =>
    set s
    throw e

theorem exec_transaction (x : Eff σ ε α) (s : σ) :
    (transaction x).exec s = match x.exec s with
      | (.ok a, s') => (.ok a, s')
      | (.error e, _) => (.error e, s) := by
  rw [transaction, exec_get_bind, exec_tryCatch]
  rcases x.exec s with ⟨r, s'⟩
  cases r <;> rfl

/-- What `x` does from `s` satisfies `Q`, of the outcome and the final state. -/
def wp (x : Eff σ ε α) (Q : Except ε α → σ → Prop) (s : σ) : Prop := Q (x.exec s).1 (x.exec s).2

section
variable {Q R : Except ε α → σ → Prop}

theorem wp_mono (h : wp x Q s) (hr : ∀ r s', Q r s' → R r s') : wp x R s := hr _ _ h

theorem wp_bind {Q : Except ε β → σ → Prop}
    (h : wp x (fun r s' => match r with
      | .ok a => wp (f a) Q s'
      | .error e => Q (.error e) s') s) : wp (x >>= f) Q s := by
  rw [wp, exec_bind]
  revert h
  unfold wp
  rcases x.exec s with ⟨r, s'⟩
  cases r <;> exact id

theorem wp_ite {c : Prop} [Decidable c] {y : Eff σ ε α} (hx : c → wp x Q s) (hy : ¬c → wp y Q s) :
    wp (if c then x else y) Q s := by
  split
  next h => exact hx h
  next h => exact hy h

end

/-- `x` leaves an observation of the state as it finds it. -/
def Leaves (g : σ → γ) (x : Eff σ ε α) (s : σ) : Prop := g (x.exec s).2 = g s

namespace Leaves
variable {g : σ → γ}

theorem pure (g : σ → γ) (a : α) (s : σ) : Leaves g (pure a : Eff σ ε α) s := rfl

theorem throw (g : σ → γ) (e : ε) (s : σ) : Leaves g (throw e : Eff σ ε α) s := rfl

theorem set (h : g s' = g s) : Leaves g (set s' : Eff σ ε PUnit) s := h

theorem modify {f : σ → σ} (h : g (f s) = g s) : Leaves g (modify f : Eff σ ε PUnit) s := h

theorem bind (hx : Leaves g x s) (hf : ∀ a s', g s' = g s → Leaves g (f a) s') :
    Leaves g (x >>= f) s := by
  unfold Leaves at *
  rw [exec_bind]
  rcases he : x.exec s with ⟨r, s'⟩
  rw [he] at hx
  cases r with
  | error e => exact hx
  | ok a => exact (hf a s' hx).trans hx

theorem get {f : σ → Eff σ ε β} (h : Leaves g (f s) s) : Leaves g (get >>= f) s := h

theorem map {f : α → β} (hx : Leaves g x s) : Leaves g (f <$> x) s :=
  bind hx fun _ _ _ => rfl

theorem ite {c : Prop} [Decidable c] {y : Eff σ ε α} (hx : Leaves g x s) (hy : Leaves g y s) :
    Leaves g (if c then x else y) s := by
  split
  · exact hx
  · exact hy

theorem forM {f : α → Eff σ ε PUnit} (l : List α) (h : ∀ a ∈ l, ∀ s, Leaves g (f a) s) (s : σ) :
    Leaves g (l.forM f) s := by
  induction l generalizing s with
  | nil => rfl
  | cons a l ih =>
    change Leaves g (f a >>= fun _ => l.forM f) s
    exact bind (h a List.mem_cons_self s) fun _ s' _ =>
      ih (fun b hb => h b (List.mem_cons_of_mem a hb)) s'

end Leaves

/-- `x` does the same from `g s` as from `s`, up to `g`. -/
def Commutes (g : σ → σ) (x : Eff σ ε α) (s : σ) : Prop :=
  x.exec (g s) = ((x.exec s).1, g (x.exec s).2)

namespace Commutes
variable {g : σ → σ}

theorem pure (g : σ → σ) (a : α) (s : σ) : Commutes g (pure a : Eff σ ε α) s := rfl

theorem throw (g : σ → σ) (e : ε) (s : σ) : Commutes g (throw e : Eff σ ε α) s := rfl

theorem modify {f : σ → σ} (h : f (g s) = g (f s)) : Commutes g (modify f : Eff σ ε PUnit) s := by
  rw [Commutes, exec_modify, exec_modify, h]

/-- What is read of the state is not what `g` changes. -/
theorem get {f : σ → Eff σ ε β} (hf : f (g s) = f s) (h : Commutes g (f s) s) :
    Commutes g (get >>= f) s := by
  rw [Commutes, exec_get_bind, exec_get_bind, hf, h]

theorem bind (hx : Commutes g x s) (hf : ∀ a s', x.exec s = (.ok a, s') → Commutes g (f a) s') :
    Commutes g (x >>= f) s := by
  unfold Commutes at *
  rw [exec_bind, exec_bind, hx]
  rcases he : x.exec s with ⟨r, s'⟩
  cases r with
  | error e => rfl
  | ok a => exact hf a s' he

theorem map {f : α → β} (hx : Commutes g x s) : Commutes g (f <$> x) s :=
  bind hx fun a s' _ => pure g (f a) s'

end Commutes

/-- `x` keeps an invariant. -/
structure Upholds (I : σ → Prop) (x : Eff σ ε α) (s : σ) : Prop where
  intro ::
  after : I s → I (x.exec s).2

namespace Upholds
variable {I : σ → Prop}

theorem pure (a : α) (s : σ) : Upholds I (pure a : Eff σ ε α) s := ⟨id⟩

theorem throw (e : ε) (s : σ) : Upholds I (throw e : Eff σ ε α) s := ⟨id⟩

theorem set (h : I s → I s') : Upholds I (set s' : Eff σ ε PUnit) s := ⟨h⟩

theorem modify {f : σ → σ} (h : I s → I (f s)) : Upholds I (modify f : Eff σ ε PUnit) s := ⟨h⟩

theorem get {f : σ → Eff σ ε β} (h : Upholds I (f s) s) : Upholds I (get >>= f) s := ⟨h.after⟩

/-- The invariant may be used to show that it is kept. -/
theorem assuming (h : I s → Upholds I x s) : Upholds I x s := ⟨fun hi => (h hi).after hi⟩

theorem bind_exec (hx : Upholds I x s) (hf : ∀ a s', x.exec s = (.ok a, s') → Upholds I (f a) s') :
    Upholds I (x >>= f) s := by
  constructor
  intro hi
  have hi' := hx.after hi
  rw [exec_bind]
  rcases he : x.exec s with ⟨r, s'⟩
  rw [he] at hi'
  cases r with
  | error e => exact hi'
  | ok a => exact (hf a s' he).after hi'

theorem bind (hx : Upholds I x s) (hf : ∀ a s', Upholds I (f a) s') : Upholds I (x >>= f) s :=
  hx.bind_exec fun a s' _ => hf a s'

theorem map {f : α → β} (hx : Upholds I x s) : Upholds I (f <$> x) s :=
  bind hx fun a s' => pure (f a) s'

theorem ite {c : Prop} [Decidable c] {y : Eff σ ε α} (hx : Upholds I x s) (hy : Upholds I y s) :
    Upholds I (if c then x else y) s := by
  split
  · exact hx
  · exact hy

theorem forM {f : α → Eff σ ε PUnit} {l : List α} (h : ∀ a ∈ l, ∀ s, Upholds I (f a) s) (s : σ) :
    Upholds I (l.forM f) s := by
  induction l generalizing s with
  | nil => exact ⟨id⟩
  | cons a l ih =>
    change Upholds I (f a >>= fun _ => l.forM f) s
    exact bind (h a List.mem_cons_self s) fun _ s' =>
      ih (fun b hb => h b (List.mem_cons_of_mem a hb)) s'

theorem tryCatch {h : ε → Eff σ ε α} (hx : Upholds I x s) (hh : ∀ e s', Upholds I (h e) s') :
    Upholds I (tryCatch x h) s := by
  constructor
  intro hi
  have hi' := hx.after hi
  rw [exec_tryCatch]
  rcases he : x.exec s with ⟨r, s'⟩
  rw [he] at hi'
  cases r with
  | error e => exact (hh e s').after hi'
  | ok a => exact hi'

end Upholds

/-- `x` keeps an invariant, and yields nothing but what satisfies `Q`. -/
structure Ensures (I : σ → Prop) (Q : α → Prop) (x : Eff σ ε α) (s : σ) : Prop where
  intro ::
  after : I s → I (x.exec s).2 ∧ ∀ a, (x.exec s).1 = .ok a → Q a

namespace Ensures
variable {I : σ → Prop} {Q : α → Prop} {P : β → Prop}

theorem pure (hq : Q a) (s : σ) : Ensures I Q (pure a : Eff σ ε α) s :=
  ⟨fun h => ⟨h, fun b hb => by cases hb; exact hq⟩⟩

theorem throw (e : ε) (s : σ) : Ensures I Q (throw e : Eff σ ε α) s :=
  ⟨fun h => ⟨h, fun b hb => by cases hb⟩⟩

theorem get {f : σ → Eff σ ε α} (h : Ensures I Q (f s) s) : Ensures I Q (get >>= f) s := ⟨h.after⟩

theorem assuming (h : I s → Ensures I Q x s) : Ensures I Q x s := ⟨fun hi => (h hi).after hi⟩

theorem bind_exec (hx : Upholds I x s) (hf : ∀ a s', x.exec s = (.ok a, s') → Ensures I P (f a) s') :
    Ensures I P (x >>= f) s := by
  constructor
  intro hi
  have hi' := hx.after hi
  rw [exec_bind]
  rcases he : x.exec s with ⟨r, s'⟩
  rw [he] at hi'
  cases r with
  | error e => exact ⟨hi', fun b hb => by cases hb⟩
  | ok a => exact (hf a s' he).after hi'

/-- What follows yields what the whole does. -/
theorem bind (hx : Upholds I x s) (hf : ∀ a s', Ensures I P (f a) s') :
    Ensures I P (x >>= f) s := bind_exec hx fun a s' _ => hf a s'

theorem ite {c : Prop} [Decidable c] {y : Eff σ ε α} (hx : c → Ensures I Q x s)
    (hy : ¬c → Ensures I Q y s) : Ensures I Q (if c then x else y) s := by
  split
  next h => exact hx h
  next h => exact hy h

theorem upholds_bind_exec (hx : Ensures I Q x s)
    (hf : ∀ a s', Q a → x.exec s = (.ok a, s') → Upholds I (f a) s') : Upholds I (x >>= f) s := by
  constructor
  intro hi
  obtain ⟨hi', hq⟩ := hx.after hi
  rw [exec_bind]
  rcases he : x.exec s with ⟨r, s'⟩
  rw [he] at hi' hq
  cases r with
  | error e => exact hi'
  | ok a => exact (hf a s' (hq a rfl) he).after hi'

/-- What is yielded may be used to go on. -/
theorem upholds_bind (hx : Ensures I Q x s) (hf : ∀ a s', Q a → Upholds I (f a) s') :
    Upholds I (x >>= f) s := hx.upholds_bind_exec fun a s' hq _ => hf a s' hq

/-- What is yielded may be used to yield more. -/
theorem chain (hx : Ensures I Q x s) (hf : ∀ a s', Q a → Ensures I P (f a) s') :
    Ensures I P (x >>= f) s := by
  constructor
  intro hi
  obtain ⟨hi', hq⟩ := hx.after hi
  rw [exec_bind]
  rcases he : x.exec s with ⟨r, s'⟩
  rw [he] at hi' hq
  cases r with
  | error e => exact ⟨hi', fun b hb => by cases hb⟩
  | ok a => exact (hf a s' (hq a rfl)).after hi'

end Ensures

/-- Where `x` succeeds, it keeps an invariant. -/
def Secures (I : σ → Prop) (x : Eff σ ε α) (s : σ) : Prop :=
  ∀ a s', x.exec s = (.ok a, s') → I s → I s'

namespace Secures
variable {I : σ → Prop}

theorem pure (a : α) (s : σ) : Secures I (pure a : Eff σ ε α) s := by
  rintro _ _ ⟨⟩ hi
  exact hi

theorem throw (e : ε) (s : σ) : Secures I (throw e : Eff σ ε α) s := fun _ _ h => by cases h

theorem set (h : I s → I s') : Secures I (set s' : Eff σ ε PUnit) s := by
  rintro _ _ ⟨⟩ hi
  exact h hi

theorem get {f : σ → Eff σ ε β} (h : Secures I (f s) s) : Secures I (get >>= f) s := h

theorem bind (hx : Secures I x s) (hf : ∀ a s', x.exec s = (.ok a, s') → Secures I (f a) s') :
    Secures I (x >>= f) s := by
  intro b s' h hi
  obtain ⟨a, u, hxa, hfa⟩ := ok_of_bind h
  exact hf a u hxa b s' hfa (hx a u hxa hi)

theorem map {f : α → β} (hx : Secures I x s) : Secures I (f <$> x) s :=
  bind hx fun a s' _ => pure (f a) s'

theorem ite {c : Prop} [Decidable c] {y : Eff σ ε α} (hx : Secures I x s) (hy : Secures I y s) :
    Secures I (if c then x else y) s := by
  split
  · exact hx
  · exact hy

theorem forM {f : α → Eff σ ε PUnit} (h : ∀ a s, Secures I (f a) s) (l : List α) (s : σ) :
    Secures I (l.forM f) s := by
  induction l generalizing s with
  | nil => exact pure _ s
  | cons a l ih => exact bind (h a s) fun _ s' _ => ih s'

end Secures

end Eff

end Tomo
