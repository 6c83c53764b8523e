import Mathlib.Data.List.Pairwise
import Mathlib.Logic.Function.Basic
import Mathlib.Logic.Relation
import Mathlib.Tactic.Common

namespace Tomo
set_option autoImplicit true

/-- What a file holds: its bytes, and its mode where one has been set. -/
structure Stored where
  bytes : List UInt8
  mode : Option Nat
deriving DecidableEq

/-- A call on the files of a volume; `barrier` syncs a directory, and all that was written. -/
inductive FileOp (N : Type) where
  | create (t : N)
  | write (t : N) (piece : List UInt8)
  | chmod (t : N) (mode : Nat)
  | sync (t : N)
  | barrier
  | rename (t p : N)
  | remove (t : N)
deriving DecidableEq

/-- A program: its outcome, or a call and how it goes on once that succeeds and once it fails. -/
inductive Prog (N : Type) where
  | done (ok : Bool)
  | op (o : FileOp N) (ok err : Prog N)

namespace Prog

/-- A call whose failure ends the program. -/
def call (o : FileOp N) (ok : Prog N) : Prog N := .op o ok (.done false)

def bind : Prog N → (Bool → Prog N) → Prog N
  | .done r, k => k r
  | .op o ok err, k => .op o (ok.bind k) (err.bind k)

end Prog

/-- Names and the files they are bound to. `past` has the bindings of a name that a power loss can
bring back, the present one among them; a file that is not settled may then hold anything. -/
structure Volume (N : Type) where
  names : N → Option Nat
  past : N → List (Option Nat)
  files : Nat → Stored
  settled : Nat → Bool
  next : Nat

namespace Volume
variable {N : Type} [DecidableEq N]

def bind (v : Volume N) (n : N) (o : Option Nat) : Volume N :=
  { v with names := Function.update v.names n o, past := Function.update v.past n (o :: v.past n) }

def change (v : Volume N) (j : Nat) (c : Stored) : Volume N :=
  { v with files := Function.update v.files j c, settled := Function.update v.settled j false }

def fresh (v : Volume N) (t : N) : Volume N :=
  { (v.change v.next ⟨[], none⟩).bind t (some v.next) with next := v.next + 1 }

/-- A successful call. Renaming and removing need the name; a file whose name is gone takes its
writes where nobody sees them. -/
def exec (v : Volume N) : FileOp N → Option (Volume N)
  | .create t => match v.names t with
    | some j => some (v.change j ⟨[], (v.files j).mode⟩)
    | none => some (v.fresh t)
  | .write t piece => match v.names t with
    | some j => some (v.change j ⟨(v.files j).bytes ++ piece, (v.files j).mode⟩)
    | none => some v
  | .chmod t mode => match v.names t with
    | some j => some (v.change j ⟨(v.files j).bytes, some mode⟩)
    | none => some v
  | .sync t => match v.names t with
    | some j => some { v with settled := Function.update v.settled j true }
    | none => some v
  | .barrier => some { v with settled := fun _ => true, past := fun n => [v.names n] }
  | .rename t p => match v.names t with
    | some j => some ((v.bind p (some j)).bind t none)
    | none => none
  | .remove t => match v.names t with
    | some _ => some (v.bind t none)
    | none => none

/-- The volume after a power loss. -/
def recover (v : Volume N) (pick : N → Nat) (junk : Nat → Stored) : Volume N :=
  let names n := ((v.past n)[pick n]?).getD (v.names n)
  { v with
    names := names
    past := fun n => [names n]
    files := fun j => if v.settled j then v.files j else junk j
    settled := fun _ => true }

/-- No other name has, or may get back, the file of this one. -/
def Private (v : Volume N) (t : N) : Prop :=
  ∀ j, v.names t = some j → ∀ n, some j ∈ v.past n → n = t

/-- What a name shows has not changed. -/
structure Same (v v' : Volume N) (t : N) : Prop where
  name : v'.names t = v.names t
  file : ∀ j, v.names t = some j →
    v'.files j = v.files j ∧ (v.settled j = true → v'.settled j = true)
  alone : v.Private t → v'.Private t

end Volume

/-- Which names are public, what may be found under each (`none` if nothing), and whether power may
fail. -/
structure Rules (N : Type) where
  isPublic : N → Prop
  fits : N → Option Stored → Prop
  lossy : Prop

/-- What a program knows of a private name: that it is unbound, what it holds if it is still there
and whether that is settled, or nothing. -/
inductive Own where
  | blank
  | holds (c : Stored) (settled : Prop)
  | vague

namespace Own

def append (piece : List UInt8) : Own → Own
  | .holds c _ => .holds ⟨c.bytes ++ piece, c.mode⟩ False
  | o => o

def setMode (mode : Nat) : Own → Own
  | .holds c _ => .holds ⟨c.bytes, some mode⟩ False
  | o => o

def settle : Own → Own
  | .holds c _ => .holds c True
  | o => o

end Own

section
variable {N : Type} [DecidableEq N]

/-- A program may make a call: only on names of its own, and it publishes only what fits, settled if
power may fail. -/
def Allows (R : Rules N) (K : N → Option Own) : FileOp N → Prop
  | .create t => K t = some .blank
  | .write t _ | .chmod t _ | .sync t => ∃ c s, K t = some (.holds c s)
  | .barrier => True
  | .rename t p => ∃ c s, K t = some (.holds c s) ∧ (R.lossy → s) ∧ R.isPublic p ∧
      R.fits p (some c)
  | .remove t => (K t).isSome

def onSuccess (K : N → Option Own) : FileOp N → N → Option Own
  | .create t => Function.update K t (some (.holds ⟨[], none⟩ False))
  | .write t piece => Function.update K t ((K t).map (Own.append piece))
  | .chmod t mode => Function.update K t ((K t).map (Own.setMode mode))
  | .sync t => Function.update K t ((K t).map Own.settle)
  | .barrier => fun t => (K t).map Own.settle
  | .rename t _ | .remove t => Function.update K t none

/-- A write that failed has left any part of its piece. -/
def onFailure (K : N → Option Own) : FileOp N → N → Option Own
  | .write t _ => Function.update K t (some .vague)
  | _ => K

/-- A program that keeps to the rules, whatever fails, and what it comes to with each outcome. -/
def Meets (R : Rules N) (K : N → Option Own) : Prog N → (Bool → (N → Option Own) → Prop) → Prop
  | .done r, Q => Q r K
  | .op o ok err, Q => Allows R K o ∧ Meets R (onSuccess K o) ok Q ∧ Meets R (onFailure K o) err Q

def Careful (R : Rules N) (K : N → Option Own) (p : Prog N) : Prop := Meets R K p fun _ _ => True

/-- What is known of a name is so. -/
def Volume.Keeps (v : Volume N) (t : N) : Own → Prop
  | .blank => v.names t = none
  | .holds c s => ∀ j, v.names t = some j → v.files j = c ∧ (s → v.settled j = true)
  | .vague => True

/-- A private name, and what is known of it. -/
structure Volume.Owned (R : Rules N) (v : Volume N) (t : N) (o : Own) : Prop where
  hidden : ¬R.isPublic t
  alone : v.Private t
  keeps : v.Keeps t o

/-- Whatever is or may come back under a public name fits it. -/
structure Volume.Sound (R : Rules N) (v : Volume N) : Prop where
  bound : ∀ n j, some j ∈ v.past n → j < v.next
  current : ∀ n, v.names n ∈ v.past n
  fits : ∀ p, R.isPublic p → ∀ o ∈ v.past p, R.fits p (o.map v.files)
  settled : R.lossy → ∀ p, R.isPublic p → ∀ j, some j ∈ v.past p → v.settled j = true

end

namespace Volume
variable {N : Type} {R : Rules N} {v v' : Volume N} {t n : N} {j : Nat} {c : Stored}

theorem Same.refl (v : Volume N) (t : N) : v.Same v t := ⟨rfl, fun _ _ => ⟨rfl, id⟩, id⟩

theorem Same.trans {v'' : Volume N} (h : v.Same v' t) (h' : v'.Same v'' t) : v.Same v'' t where
  name := h'.name.trans h.name
  file j hj := by
    obtain ⟨hf, hs⟩ := h.file j hj
    obtain ⟨hf', hs'⟩ := h'.file j (h.name.trans hj)
    exact ⟨hf'.trans hf, hs' ∘ hs⟩
  alone := h'.alone ∘ h.alone

theorem Same.keeps (h : v.Same v' t) {o : Own} (hk : v.Keeps t o) : v'.Keeps t o := by
  cases o with
  | blank => exact h.name.trans hk
  | holds c s =>
    intro j hj
    rw [h.name] at hj
    obtain ⟨hc, hs⟩ := hk j hj
    obtain ⟨hf, hset⟩ := h.file j hj
    exact ⟨hf.trans hc, hset ∘ hs⟩
  | vague => trivial

theorem Same.owned (h : v.Same v' t) {o : Own} (ho : v.Owned R t o) : v'.Owned R t o :=
  ⟨ho.hidden, h.alone ho.alone, h.keeps ho.keeps⟩

theorem unshared {o : Own} (ho : v.Owned R t o) (ht : v.names t = some j) :
    ∀ p, R.isPublic p → some j ∉ v.past p := by
  intro p hp hj
  have hpt := ho.alone j ht p hj
  subst hpt
  exact ho.hidden hp

/-- Writing into the file of a private name changes what no other name shows. -/
theorem change_same (hs : v.Sound R) (hp : v.Private t) (ht : v.names t = some j) (hne : n ≠ t) :
    v.Same (v.change j c) n where
  name := rfl
  file i hi := by
    have hij : i ≠ j := by
      rintro rfl
      apply hne
      apply hp i ht n
      rw [← hi]
      exact hs.current n
    exact ⟨Function.update_of_ne hij _ _, fun h => (Function.update_of_ne hij _ _).trans h⟩
  alone := id

theorem change_sound (hs : v.Sound R) (hj : ∀ p, R.isPublic p → some j ∉ v.past p) :
    (v.change j c).Sound R where
  bound := hs.bound
  current := hs.current
  fits p hp o ho := by
    have hf := hs.fits p hp o ho
    cases o with
    | none => exact hf
    | some i =>
      have hij : i ≠ j := by
        rintro rfl
        exact hj p hp ho
      have hfile : (v.change j c).files i = v.files i := Function.update_of_ne hij _ _
      rw [Option.map_some] at hf ⊢
      rwa [hfile]
  settled hl p hp i hi := by
    have hij : i ≠ j := by
      rintro rfl
      exact hj p hp hi
    exact (Function.update_of_ne hij _ _).trans (hs.settled hl p hp i hi)

theorem change_owned {o : Own} (ho : v.Owned R t o) (ht : v.names t = some j) :
    (v.change j c).Owned R t (.holds c False) where
  hidden := ho.hidden
  alone := ho.alone
  keeps i hi := by
    obtain rfl := Option.some.inj (ht.symm.trans hi)
    exact ⟨Function.update_self _ _ _, False.elim⟩

theorem sync_same (v : Volume N) (j : Nat) (n : N) :
    v.Same { v with settled := Function.update v.settled j true } n where
  name := rfl
  file i _ := by
    refine ⟨rfl, fun hi => ?_⟩
    by_cases hij : i = j
    · subst hij
      exact Function.update_self _ _ _
    · exact (Function.update_of_ne hij _ _).trans hi
  alone := id

variable [DecidableEq N]

theorem mem_bind {o o' : Option Nat} (h : o' ∈ (v.bind n o).past t) :
    t = n ∧ o' = o ∨ o' ∈ v.past t := by
  dsimp only [bind] at h
  by_cases htn : t = n
  · subst htn
    rw [Function.update_self] at h
    rcases List.mem_cons.1 h with heq | h
    · exact .inl ⟨rfl, heq⟩
    · exact .inr h
  · rw [Function.update_of_ne htn] at h
    exact .inr h

theorem bind_same {o : Option Nat} (hne : t ≠ n) (ho : ∀ j, o = some j → v.names t ≠ some j) :
    v.Same (v.bind n o) t where
  name := Function.update_of_ne hne _ _
  file _ _ := ⟨rfl, id⟩
  alone hp j hj m hm := by
    have hj' : v.names t = some j := (Function.update_of_ne hne _ _).symm.trans hj
    rcases mem_bind hm with ⟨-, heq⟩ | hm
    · exact absurd hj' (ho j heq.symm)
    · exact hp j hj' m hm

theorem bind_sound {o : Option Nat} (hs : v.Sound R) (hb : ∀ j, o = some j → j < v.next)
    (hf : R.isPublic n →
      R.fits n (o.map v.files) ∧ (R.lossy → ∀ j, o = some j → v.settled j = true)) :
    (v.bind n o).Sound R where
  bound m j hm := by
    rcases mem_bind hm with ⟨-, heq⟩ | hm
    · exact hb j heq.symm
    · exact hs.bound m j hm
  current m := by
    dsimp only [bind]
    by_cases hmn : m = n
    · subst hmn
      rw [Function.update_self, Function.update_self]
      exact List.mem_cons_self
    · rw [Function.update_of_ne hmn, Function.update_of_ne hmn]
      exact hs.current m
  fits p hp o' hm := by
    rcases mem_bind hm with ⟨rfl, rfl⟩ | hm
    · exact (hf hp).1
    · exact hs.fits p hp o' hm
  settled hl p hp j hm := by
    rcases mem_bind hm with ⟨rfl, heq⟩ | hm
    · exact (hf hp).2 hl j heq.symm
    · exact hs.settled hl p hp j hm

theorem unbind_same (hne : t ≠ n) : v.Same (v.bind n none) t := by
  apply bind_same hne
  intro j hj
  cases hj

theorem unbind_sound (hs : v.Sound R) (hn : ¬R.isPublic n) : (v.bind n none).Sound R := by
  apply bind_sound hs
  · intro j hj
    cases hj
  · exact fun hp => absurd hp hn

theorem fresh_sound (hs : v.Sound R) (ht : ¬R.isPublic t) : (v.fresh t).Sound R where
  bound n j hn := by
    rcases mem_bind hn with ⟨-, heq⟩ | hn
    · rw [Option.some.inj heq]
      exact Nat.lt_succ_self _
    · exact Nat.lt_succ_of_lt (hs.bound n j hn)
  current n := by
    dsimp only [fresh, bind, change]
    by_cases hnt : n = t
    · subst hnt
      rw [Function.update_self, Function.update_self]
      exact List.mem_cons_self
    · rw [Function.update_of_ne hnt, Function.update_of_ne hnt]
      exact hs.current n
  fits p hp o ho := by
    rcases mem_bind ho with ⟨rfl, -⟩ | ho
    · exact absurd hp ht
    · have hf := hs.fits p hp o ho
      cases o with
      | none => exact hf
      | some j =>
        have hlt := hs.bound p j ho
        have hfile : (v.fresh t).files j = v.files j :=
          Function.update_of_ne (Nat.ne_of_lt hlt) _ v.files
        rw [Option.map_some] at hf ⊢
        rwa [hfile]
  settled hl p hp j hj := by
    rcases mem_bind hj with ⟨rfl, -⟩ | hj
    · exact absurd hp ht
    · have hlt := hs.bound p j hj
      exact (Function.update_of_ne (Nat.ne_of_lt hlt) _ _).trans (hs.settled hl p hp j hj)

theorem fresh_same (hs : v.Sound R) (hne : n ≠ t) : v.Same (v.fresh t) n where
  name := Function.update_of_ne hne _ _
  file j hj := by
    have hlt := hs.bound n j (hj ▸ hs.current n)
    dsimp only [fresh, bind, change]
    rw [Function.update_of_ne (by omega), Function.update_of_ne (by omega)]
    exact ⟨rfl, id⟩
  alone hp j hj m hm := by
    have hj' : v.names n = some j := (Function.update_of_ne hne _ _).symm.trans hj
    have hlt := hs.bound n j (hj' ▸ hs.current n)
    rcases mem_bind hm with ⟨-, heq⟩ | hm
    · exact absurd (Option.some.inj heq) (Nat.ne_of_lt hlt)
    · exact hp j hj' m hm

theorem fresh_owned (hs : v.Sound R) (ht : ¬R.isPublic t) :
    (v.fresh t).Owned R t (.holds ⟨[], none⟩ False) where
  hidden := ht
  alone j hj m hm := by
    dsimp only [fresh, bind, change] at hj hm
    rw [Function.update_self] at hj
    by_cases hmt : m = t
    · exact hmt
    · rw [Function.update_of_ne hmt] at hm
      have hlt := hs.bound m j hm
      have heq := Option.some.inj hj
      omega
  keeps j hj := by
    dsimp only [fresh, bind, change] at hj ⊢
    rw [Function.update_self] at hj
    obtain rfl := Option.some.inj hj
    exact ⟨Function.update_self _ _ _, False.elim⟩

end Volume

/-- What a step of one program comes to: what it knows afterwards is so, and no name that is neither
its own nor public shows anything else. -/
structure Advances {N : Type} (R : Rules N) (K K' : N → Option Own) (v v' : Volume N) : Prop where
  sound : v'.Sound R
  owned : ∀ t o, K' t = some o → v'.Owned R t o
  same : ∀ n, K n = none → ¬R.isPublic n → v.Same v' n

section
variable {N : Type} [DecidableEq N] {R : Rules N} {v v' : Volume N} {K : N → Option Own} {t : N}

theorem Advances.update (hk : ∀ t o, K t = some o → v.Owned R t o) (ht : (K t).isSome)
    (hsound : v'.Sound R) (hsame : ∀ n, n ≠ t → ¬R.isPublic n → v.Same v' n) (x : Option Own)
    (hx : ∀ o, x = some o → v'.Owned R t o) : Advances R K (Function.update K t x) v v' where
  sound := hsound
  owned n o hn := by
    by_cases hnt : n = t
    · subst hnt
      rw [Function.update_self] at hn
      exact hx o hn
    · rw [Function.update_of_ne hnt] at hn
      have ho := hk n o hn
      exact (hsame n hnt ho.hidden).owned ho
  same n hn hp := by
    apply hsame n _ hp
    rintro rfl
    rw [hn] at ht
    exact Bool.false_ne_true ht

/-- A write, or a change of mode, in a file of one's own. -/
theorem Advances.change {j : Nat} {c : Stored} {s : Prop} (hs : v.Sound R)
    (hk : ∀ t o, K t = some o → v.Owned R t o) (hK : K t = some (.holds c s))
    (ht : v.names t = some j) (c' : Stored) (x : Own)
    (hx : x = .holds c' False ∨ x = .vague) :
    Advances R K (Function.update K t (some x)) v (v.change j c') := by
  have ho := hk t _ hK
  have hco := Volume.change_owned (c := c') ho ht
  apply Advances.update hk (by rw [hK]; rfl) (Volume.change_sound hs (Volume.unshared ho ht))
  · intro n hn _
    exact Volume.change_same hs ho.alone ht hn
  · intro o heq
    obtain rfl := Option.some.inj heq
    refine ⟨hco.hidden, hco.alone, ?_⟩
    rcases hx with rfl | rfl
    · exact hco.keeps
    · trivial

/-- A call on a name of one's own that is gone. -/
theorem Advances.gone (hs : v.Sound R) (hk : ∀ t o, K t = some o → v.Owned R t o)
    (hK : (K t).isSome) (ht : v.names t = none) (x : Own) (hx : x ≠ .blank) :
    Advances R K (Function.update K t (some x)) v v := by
  obtain ⟨o, ho⟩ := Option.isSome_iff_exists.1 hK
  apply Advances.update hk hK hs (fun n _ _ => .refl v n)
  intro o' heq
  obtain rfl := Option.some.inj heq
  have hown := hk t o ho
  refine ⟨hown.hidden, hown.alone, ?_⟩
  cases x with
  | blank => exact absurd rfl hx
  | holds c s =>
    intro j hj
    rw [ht] at hj
    exact absurd hj (Option.some_ne_none j).symm
  | vague => trivial

theorem Advances.write (hs : v.Sound R) (hk : ∀ t o, K t = some o → v.Owned R t o) {c : Stored}
    {s : Prop} (hK : K t = some (.holds c s)) {piece : List UInt8}
    (he : v.exec (.write t piece) = some v') (x : Own)
    (hx : x = .holds ⟨c.bytes ++ piece, c.mode⟩ False ∨ x = .vague) :
    Advances R K (Function.update K t (some x)) v v' := by
  dsimp only [Volume.exec] at he
  split at he
  next j hj =>
    obtain rfl := Option.some.inj he
    obtain ⟨hc, -⟩ := (hk t _ hK).keeps j hj
    rw [hc]
    exact Advances.change hs hk hK hj _ x hx
  next hj =>
    obtain rfl := Option.some.inj he
    apply Advances.gone hs hk (by rw [hK]; rfl) hj
    rcases hx with rfl | rfl <;> exact Own.noConfusion

theorem Advances.barrier (hs : v.Sound R) (hk : ∀ t o, K t = some o → v.Owned R t o)
    (he : v.exec .barrier = some v') : Advances R K (fun t => (K t).map Own.settle) v v' := by
  obtain rfl := Option.some.inj he
  have hsame (n : N) : v.Same { v with settled := fun _ => true, past := fun n => [v.names n] } n :=
    ⟨rfl, fun _ _ => ⟨rfl, fun _ => rfl⟩, fun hp j hj m hm => by
      apply hp j hj m
      rw [List.mem_singleton.1 hm]
      exact hs.current m⟩
  refine ⟨⟨?_, ?_, ?_, ?_⟩, ?_, fun n _ _ => hsame n⟩
  · intro n j hn
    rw [List.mem_singleton] at hn
    exact hs.bound n j (hn ▸ hs.current n)
  · intro n
    exact List.mem_singleton_self _
  · intro p hp o ho
    rw [List.mem_singleton] at ho
    exact hs.fits p hp o (ho ▸ hs.current p)
  · exact fun _ _ _ _ _ => rfl
  · intro t o ht
    obtain ⟨o', ho', rfl⟩ := Option.map_eq_some_iff.1 ht
    have hown := (hsame t).owned (hk t o' ho')
    refine ⟨hown.hidden, hown.alone, ?_⟩
    cases o' with
    | blank => exact hown.keeps
    | holds c s =>
      intro j hj
      exact ⟨(hown.keeps j hj).1, fun _ => rfl⟩
    | vague => trivial

theorem Advances.rename (hs : v.Sound R) (hk : ∀ t o, K t = some o → v.Owned R t o) {p : N}
    (ha : Allows R K (.rename t p)) (he : v.exec (.rename t p) = some v') :
    Advances R K (Function.update K t none) v v' := by
  obtain ⟨c, s, hK, hl, hp, hf⟩ := ha
  have ho := hk t _ hK
  have hpt : p ≠ t := by
    rintro rfl
    exact ho.hidden hp
  dsimp only [Volume.exec] at he
  split at he
  next j hj =>
    obtain rfl := Option.some.inj he
    obtain ⟨hc, hset⟩ := ho.keeps j hj
    have hb : (v.bind p (some j)).Sound R := by
      apply Volume.bind_sound hs
      · intro i hi
        obtain rfl := Option.some.inj hi
        exact hs.bound t j (hj ▸ hs.current t)
      · intro _
        rw [Option.map_some, hc]
        refine ⟨hf, fun hlossy i hi => ?_⟩
        obtain rfl := Option.some.inj hi
        exact hset (hl hlossy)
    apply Advances.update hk (by rw [hK]; rfl)
    · exact Volume.unbind_sound hb ho.hidden
    · intro n hn hnp
      have hne : n ≠ p := by
        rintro rfl
        exact hnp hp
      apply Volume.Same.trans _ (Volume.unbind_same hn)
      apply Volume.bind_same hne
      intro i hi hni
      obtain rfl := Option.some.inj hi
      exact hn (ho.alone j hj n (hni ▸ hs.current n))
    · intro _ h
      cases h
  next => cases he

/-- A call that a program may make, and that succeeds. -/
theorem exec_advances (hs : v.Sound R) (hk : ∀ t o, K t = some o → v.Owned R t o) {o : FileOp N}
    (ha : Allows R K o) (he : v.exec o = some v') : Advances R K (onSuccess K o) v v' := by
  cases o with
  | create t =>
    have ho := hk t _ ha
    have ht : v.names t = none := ho.keeps
    dsimp only [Volume.exec] at he
    rw [ht] at he
    obtain rfl := Option.some.inj he
    apply Advances.update hk (by rw [show K t = some .blank from ha]; rfl)
      (Volume.fresh_sound hs ho.hidden)
    · intro n hn _
      exact Volume.fresh_same hs hn
    · intro x hx
      obtain rfl := Option.some.inj hx
      exact Volume.fresh_owned hs ho.hidden
  | write t piece =>
    obtain ⟨c, s, hK⟩ := ha
    dsimp only [onSuccess]
    rw [hK]
    exact Advances.write hs hk hK he _ (.inl rfl)
  | chmod t mode =>
    obtain ⟨c, s, hK⟩ := ha
    dsimp only [onSuccess]
    rw [hK]
    dsimp only [Volume.exec] at he
    split at he
    next j hj =>
      obtain rfl := Option.some.inj he
      obtain ⟨hc, -⟩ := (hk t _ hK).keeps j hj
      rw [hc]
      exact Advances.change hs hk hK hj _ _ (.inl rfl)
    next hj =>
      obtain rfl := Option.some.inj he
      exact Advances.gone hs hk (by rw [hK]; rfl) hj _ Own.noConfusion
  | sync t =>
    obtain ⟨c, s, hK⟩ := ha
    have ho := hk t _ hK
    dsimp only [onSuccess]
    rw [hK]
    dsimp only [Volume.exec] at he
    split at he
    next j hj =>
      obtain rfl := Option.some.inj he
      have hsame := Volume.sync_same v j
      apply Advances.update hk (by rw [hK]; rfl)
      · refine ⟨hs.bound, hs.current, hs.fits, ?_⟩
        intro hl p hp i hi
        have hij : i ≠ j := by
          rintro rfl
          exact Volume.unshared ho hj p hp hi
        exact (Function.update_of_ne hij _ _).trans (hs.settled hl p hp i hi)
      · intro n _ _
        exact hsame n
      · intro x hx
        obtain rfl := Option.some.inj hx
        have hown := (hsame t).owned ho
        refine ⟨hown.hidden, hown.alone, ?_⟩
        intro i hi
        obtain rfl := Option.some.inj (hj.symm.trans hi)
        exact ⟨(hown.keeps j hj).1, fun _ => Function.update_self _ _ _⟩
    next hj =>
      obtain rfl := Option.some.inj he
      exact Advances.gone hs hk (by rw [hK]; rfl) hj _ Own.noConfusion
  | barrier => exact Advances.barrier hs hk he
  | rename t p => exact Advances.rename hs hk ha he
  | remove t =>
    dsimp only [Volume.exec] at he
    split at he
    next =>
      obtain rfl := Option.some.inj he
      apply Advances.update hk ha
      · obtain ⟨o, ho⟩ := Option.isSome_iff_exists.1 ha
        exact Volume.unbind_sound hs (hk t o ho).hidden
      · intro n hn _
        exact Volume.unbind_same hn
      · intro _ h
        cases h
    next => cases he

theorem onSuccess_write {c : Stored} {s : Prop} (piece : List UInt8)
    (hK : K t = some (.holds c s)) :
    onSuccess K (.write t piece) t = some (.holds ⟨c.bytes ++ piece, c.mode⟩ False) := by
  rw [onSuccess, Function.update_self, hK]
  rfl

theorem onSuccess_chmod {c : Stored} {s : Prop} (mode : Nat) (hK : K t = some (.holds c s)) :
    onSuccess K (.chmod t mode) t = some (.holds ⟨c.bytes, some mode⟩ False) := by
  rw [onSuccess, Function.update_self, hK]
  rfl

theorem onSuccess_sync {c : Stored} {s : Prop} (hK : K t = some (.holds c s)) :
    onSuccess K (.sync t) t = some (.holds c True) := by
  rw [onSuccess, Function.update_self, hK]
  rfl

theorem onSuccess_barrier {c : Stored} {s : Prop} (hK : K t = some (.holds c s)) :
    onSuccess K .barrier t = some (.holds c True) := by
  change (K t).map Own.settle = _
  rw [hK]
  rfl

namespace Meets
variable {p : Prog N} {Q Q' : Bool → (N → Option Own) → Prop}

theorem mono (h : Meets R K p Q) (hQ : ∀ r K', Q r K' → Q' r K') : Meets R K p Q' := by
  induction p generalizing K with
  | done r => exact hQ r K h
  | op o ok err ihok iherr =>
    obtain ⟨ha, hok, herr⟩ := h
    exact ⟨ha, ihok hok, iherr herr⟩

theorem bind {k : Bool → Prog N} (h : Meets R K p Q) (hk : ∀ r K', Q r K' → Meets R K' (k r) Q') :
    Meets R K (p.bind k) Q' := by
  induction p generalizing K with
  | done r => exact hk r K h
  | op o ok err ihok iherr =>
    obtain ⟨ha, hok, herr⟩ := h
    exact ⟨ha, ihok hok, iherr herr⟩

theorem careful (h : Meets R K p Q) : Careful R K p := h.mono fun _ _ _ => trivial

end Meets

/-- A call that fails; of a write, any part may have been done. -/
theorem fail_advances (hs : v.Sound R) (hk : ∀ t o, K t = some o → v.Owned R t o) {o : FileOp N}
    (ha : Allows R K o) : Advances R K (onFailure K o) v v := by
  cases o with
  | write t piece =>
    obtain ⟨c, s, hK⟩ := ha
    apply Advances.update hk (by rw [hK]; rfl) hs (fun n _ _ => .refl v n)
    intro o ho
    obtain rfl := Option.some.inj ho
    have hown := hk t _ hK
    exact ⟨hown.hidden, hown.alone, trivial⟩
  | _ => exact ⟨hs, hk, fun n _ _ => .refl v n⟩

omit [DecidableEq N] in
theorem Volume.recover_sound (hs : v.Sound R) (hl : R.lossy) (pick : N → Nat)
    (junk : Nat → Stored) : (v.recover pick junk).Sound R := by
  have hmem (n : N) : (v.recover pick junk).names n ∈ v.past n := by
    dsimp only [Volume.recover]
    cases hn : (v.past n)[pick n]? with
    | none => exact hs.current n
    | some o => exact List.mem_of_getElem? hn
  refine ⟨?_, ?_, ?_, ?_⟩
  · intro n j hj
    rw [Volume.recover, List.mem_singleton] at hj
    apply hs.bound n j
    rw [hj]
    exact hmem n
  · intro n
    exact List.mem_singleton_self _
  · intro p hp o ho
    rw [Volume.recover, List.mem_singleton] at ho
    have hop : o ∈ v.past p := by
      rw [ho]
      exact hmem p
    have hf := hs.fits p hp o hop
    cases o with
    | none => exact hf
    | some j =>
      have hfile : (v.recover pick junk).files j = v.files j := if_pos (hs.settled hl p hp j hop)
      rw [Option.map_some] at hf ⊢
      rwa [hfile]
  · exact fun _ _ _ _ _ => rfl

end

/-- A program under way, and the names it was given to work under. -/
structure Task (N : Type) where
  temps : List N
  prog : Prog N

structure Machine (N : Type) where
  volume : Volume N
  tasks : Nat → Task N

section
variable {N : Type} [DecidableEq N]

def Task.none : Task N := ⟨[], .done false⟩

/-- What a program knows when it starts: none of its names is there yet. -/
def Task.initial (T : Task N) : N → Option Own :=
  fun t => if t ∈ T.temps then some .blank else .none

def Machine.with (m : Machine N) (v : Volume N) (i : Nat) (T : Task N) : Machine N :=
  ⟨v, Function.update m.tasks i T⟩

/-- What may happen next: a program starts or makes a call, its call fails or is cut short, it is
killed, a private name is swept away, or power is lost and every program with it. -/
inductive Machine.Step (R : Rules N) (Starts : Task N → Prop) : Machine N → Machine N → Prop
  | started {m i T} : Starts T →
      (∀ t ∈ T.temps, m.volume.names t = .none ∧ ¬R.isPublic t ∧ ∀ k, t ∉ (m.tasks k).temps) →
      Step R Starts m (m.with m.volume i T)
  | called {m i o ok err v} : (m.tasks i).prog = .op o ok err → m.volume.exec o = some v →
      Step R Starts m (m.with v i ⟨(m.tasks i).temps, ok⟩)
  | failed {m i o ok err} : (m.tasks i).prog = .op o ok err →
      Step R Starts m (m.with m.volume i ⟨(m.tasks i).temps, err⟩)
  | cut {m i t piece ok err v} (n : Nat) : (m.tasks i).prog = .op (.write t piece) ok err →
      m.volume.exec (.write t (piece.take n)) = some v →
      Step R Starts m (m.with v i ⟨(m.tasks i).temps, err⟩)
  | killed {m} (i : Nat) : Step R Starts m (m.with m.volume i .none)
  | swept {m t v} : ¬R.isPublic t → m.volume.exec (.remove t) = some v →
      Step R Starts m ⟨v, m.tasks⟩
  | lost {m} (pick : N → Nat) (junk : Nat → Stored) : R.lossy →
      Step R Starts m ⟨m.volume.recover pick junk, fun _ => .none⟩

/-- Every task knows what is so, keeps to the rules and shares its names with no other. -/
structure Machine.Runs (R : Rules N) (m : Machine N) (K : Nat → N → Option Own) : Prop where
  sound : m.volume.Sound R
  owned : ∀ i t o, K i t = some o → m.volume.Owned R t o
  careful : ∀ i, Careful R (K i) (m.tasks i).prog
  named : ∀ i t, (K i t).isSome → t ∈ (m.tasks i).temps
  apart : ∀ i k, i ≠ k → ∀ t ∈ (m.tasks i).temps, t ∉ (m.tasks k).temps

theorem onSuccess_named {R : Rules N} {K : N → Option Own} {o : FileOp N} {t : N}
    (ha : Allows R K o) (h : (onSuccess K o t).isSome) : (K t).isSome := by
  have hu {s : N} {x : Option Own} (hx : x.isSome → (K s).isSome)
      (hs : (Function.update K s x t).isSome) : (K t).isSome := by
    by_cases hts : t = s
    · subst hts
      rw [Function.update_self] at hs
      exact hx hs
    · rwa [Function.update_of_ne hts] at hs
  cases o with
  | create s => exact hu (fun _ => by rw [show K s = some .blank from ha]; rfl) h
  | write s piece => exact hu (fun hx => by rwa [Option.isSome_map] at hx) h
  | chmod s mode => exact hu (fun hx => by rwa [Option.isSome_map] at hx) h
  | sync s => exact hu (fun hx => by rwa [Option.isSome_map] at hx) h
  | barrier => rwa [onSuccess, Option.isSome_map] at h
  | rename s p => exact hu (fun hx => by cases hx) h
  | remove s => exact hu (fun hx => by cases hx) h

theorem onFailure_named {R : Rules N} {K : N → Option Own} {o : FileOp N} {t : N}
    (ha : Allows R K o) (h : (onFailure K o t).isSome) : (K t).isSome := by
  cases o with
  | write s piece =>
    obtain ⟨c, e, hK⟩ := ha
    by_cases hts : t = s
    · rw [hts, hK]
      rfl
    · rwa [onFailure, Function.update_of_ne hts] at h
  | _ => exact h

namespace Machine.Runs
variable {R : Rules N} {Starts : Task N → Prop} {m m' : Machine N} {K : Nat → N → Option Own}

/-- One task advances; the others, whose names are their own, do not notice. -/
theorem moved (h : m.Runs R K) {i : Nat} {K' : N → Option Own} {v : Volume N} {p : Prog N}
    (ha : Advances R (K i) K' m.volume v) (hp : Careful R K' p)
    (hn : ∀ t, (K' t).isSome → t ∈ (m.tasks i).temps) :
    (m.with v i ⟨(m.tasks i).temps, p⟩).Runs R (Function.update K i K') := by
  have htemps (k : Nat) :
      ((m.with v i ⟨(m.tasks i).temps, p⟩).tasks k).temps = (m.tasks k).temps := by
    dsimp only [Machine.with]
    by_cases hki : k = i
    · subst hki
      rw [Function.update_self]
    · rw [Function.update_of_ne hki]
  refine ⟨ha.sound, ?_, ?_, ?_, ?_⟩
  · intro k t o ho
    by_cases hki : k = i
    · subst hki
      rw [Function.update_self] at ho
      exact ha.owned t o ho
    · rw [Function.update_of_ne hki] at ho
      have hown := h.owned k t o ho
      apply (ha.same t _ hown.hidden).owned hown
      cases hi : K i t with
      | none => rfl
      | some o' =>
        have hti := h.named i t (by rw [hi]; rfl)
        exact absurd hti (h.apart k i hki t (h.named k t (by rw [ho]; rfl)))
  · intro k
    dsimp only [Machine.with]
    by_cases hki : k = i
    · subst hki
      rw [Function.update_self, Function.update_self]
      exact hp
    · rw [Function.update_of_ne hki, Function.update_of_ne hki]
      exact h.careful k
  · intro k t ht
    rw [htemps]
    by_cases hki : k = i
    · subst hki
      rw [Function.update_self] at ht
      exact hn t ht
    · rw [Function.update_of_ne hki] at ht
      exact h.named k t ht
  · intro k l hkl t ht
    rw [htemps] at ht ⊢
    exact h.apart k l hkl t ht

theorem replaced (h : m.Runs R K) {i : Nat} {T : Task N} (hT : Careful R T.initial T.prog)
    (hf : ∀ t ∈ T.temps,
      m.volume.names t = none ∧ ¬R.isPublic t ∧ ∀ k, t ∉ (m.tasks k).temps) :
    (m.with m.volume i T).Runs R (Function.update K i T.initial) := by
  have hinit {t : N} {o : Own} (ho : T.initial t = some o) : t ∈ T.temps ∧ o = .blank := by
    unfold Task.initial at ho
    split at ho
    next ht =>
      obtain rfl := Option.some.inj ho
      exact ⟨ht, rfl⟩
    next => cases ho
  refine ⟨h.sound, ?_, ?_, ?_, ?_⟩
  · intro k t o ho
    by_cases hki : k = i
    · subst hki
      rw [Function.update_self] at ho
      obtain ⟨ht, rfl⟩ := hinit ho
      obtain ⟨hn, hp, -⟩ := hf t ht
      refine ⟨hp, ?_, hn⟩
      intro j hj
      change m.volume.names t = some j at hj
      rw [hn] at hj
      cases hj
    · rw [Function.update_of_ne hki] at ho
      exact h.owned k t o ho
  · intro k
    dsimp only [Machine.with]
    by_cases hki : k = i
    · subst hki
      rw [Function.update_self, Function.update_self]
      exact hT
    · rw [Function.update_of_ne hki, Function.update_of_ne hki]
      exact h.careful k
  · intro k t ht
    dsimp only [Machine.with]
    by_cases hki : k = i
    · subst hki
      rw [Function.update_self] at ht ⊢
      obtain ⟨o, ho⟩ := Option.isSome_iff_exists.1 ht
      exact (hinit ho).1
    · rw [Function.update_of_ne hki] at ht ⊢
      exact h.named k t ht
  · intro k l hkl t ht
    dsimp only [Machine.with] at ht ⊢
    by_cases hki : k = i
    · subst hki
      rw [Function.update_self] at ht
      rw [Function.update_of_ne (Ne.symm hkl)]
      exact (hf t ht).2.2 l
    · rw [Function.update_of_ne hki] at ht
      by_cases hli : l = i
      · subst hli
        rw [Function.update_self]
        exact fun hl => (hf t hl).2.2 k ht
      · rw [Function.update_of_ne hli]
        exact h.apart k l hkl t ht

theorem none_careful : Careful R (Task.none (N := N)).initial (Task.none (N := N)).prog := trivial

theorem swept (h : m.Runs R K) {t : N} (ht : ¬R.isPublic t) :
    (⟨m.volume.bind t none, m.tasks⟩ : Machine N).Runs R K := by
  refine ⟨Volume.unbind_sound h.sound ht, ?_, h.careful, h.named, h.apart⟩
  intro k n o ho
  have hown := h.owned k n o ho
  by_cases hnt : n = t
  · subst hnt
    have hgone : (m.volume.bind n none).names n = none := Function.update_self _ _ _
    refine ⟨hown.hidden, ?_, ?_⟩
    · intro j hj
      rw [hgone] at hj
      cases hj
    · cases o with
      | blank => exact hgone
      | holds c s =>
        intro j hj
        rw [hgone] at hj
        cases hj
      | vague => trivial
  · exact (Volume.unbind_same hnt).owned hown

/-- What one event preserves. -/
theorem step (h : m.Runs R K) (hS : ∀ T, Starts T → Careful R T.initial T.prog)
    (hm : Machine.Step R Starts m m') : ∃ K', m'.Runs R K' := by
  induction hm with
  | started hT hf => exact ⟨_, h.replaced (hS _ hT) hf⟩
  | @called i o ok err v hp he =>
    have hc := h.careful i
    rw [hp] at hc
    obtain ⟨ha, hok, -⟩ := hc
    have hadv := exec_advances h.sound (h.owned i) ha he
    exact ⟨_, h.moved hadv hok fun t ht => h.named i t (onSuccess_named ha ht)⟩
  | @failed i o ok err hp =>
    have hc := h.careful i
    rw [hp] at hc
    obtain ⟨ha, -, herr⟩ := hc
    have hadv := fail_advances h.sound (h.owned i) ha
    exact ⟨_, h.moved hadv herr fun t ht => h.named i t (onFailure_named ha ht)⟩
  | @cut i t piece ok err v n hp he =>
    have hc := h.careful i
    rw [hp] at hc
    obtain ⟨ha, -, herr⟩ := hc
    obtain ⟨c, s, hK⟩ := id ha
    have hadv := Advances.write h.sound (h.owned i) hK he .vague (.inr rfl)
    exact ⟨_, h.moved hadv herr fun t ht => h.named i t (onFailure_named ha ht)⟩
  | killed i => exact ⟨_, h.replaced none_careful (fun _ ht => by cases ht)⟩
  | @swept t v ht he =>
    dsimp only [Volume.exec] at he
    split at he
    next =>
      obtain rfl := Option.some.inj he
      exact ⟨_, h.swept ht⟩
    next => cases he
  | lost pick junk hl =>
    refine ⟨fun _ _ => none, Volume.recover_sound h.sound hl pick junk, ?_, ?_, ?_, ?_⟩
    · intro _ _ _ ho
      cases ho
    · exact fun _ => none_careful
    · intro _ _ ht
      cases ht
    · intro _ _ _ _ ht
      cases ht

/-- What a whole run preserves. -/
theorem run (h : m.Runs R K) (hS : ∀ T, Starts T → Careful R T.initial T.prog)
    (hm : Relation.ReflTransGen (Machine.Step R Starts) m m') : ∃ K', m'.Runs R K' := by
  induction hm with
  | refl => exact ⟨K, h⟩
  | tail _ hstep ih =>
    obtain ⟨_, h'⟩ := ih
    exact h'.step hS hstep

end Machine.Runs

/-- No program is under way. -/
theorem Volume.Sound.runs {R : Rules N} {v : Volume N} (h : v.Sound R) :
    (⟨v, fun _ => .none⟩ : Machine N).Runs R fun _ _ => .none := by
  refine ⟨h, ?_, fun _ => Machine.Runs.none_careful, ?_, ?_⟩
  · intro _ _ _ ho
    cases ho
  · intro _ _ ht
    cases ht
  · intro _ _ _ _ ht
    cases ht

end

end Tomo
