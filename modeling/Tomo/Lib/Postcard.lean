import Mathlib.Algebra.Group.Nat.Defs
import Mathlib.Tactic.Common
import Std.Data.ExtTreeMap

namespace Tomo
set_option autoImplicit true

/-- A serialised form: how a value is written, and how one is read off the front of the bytes. -/
structure Codec (α : Type) where
  write : α → List UInt8
  read : List UInt8 → Option (α × List UInt8)

/-- Seven bits a byte, the lowest first; the top bit says that more follow. -/
def writeVarint (n : Nat) : List UInt8 :=
  if n < 128 then [UInt8.ofNat n] else UInt8.ofNat (n % 128 + 128) :: writeVarint (n / 128)
termination_by n

/-- Read at most `k` bytes of a varint, the `k`-th of them no larger than `last`. -/
def readVarint (last : Nat) : Nat → List UInt8 → Option (Nat × List UInt8)
  | 0, _ => none
  | _ + 1, [] => none
  | k + 1, b :: bs =>
    if b.toNat < 128 then
      if k = 0 ∧ last < b.toNat then none else some (b.toNat, bs)
    else (readVarint last k bs).map fun r => (b.toNat - 128 + 128 * r.1, r.2)

theorem readVarint_writeVarint (h : n < (last + 1) * 128 ^ k) (hl : last < 128)
    (rest : List UInt8) : readVarint last (k + 1) (writeVarint n ++ rest) = some (n, rest) := by
  induction k generalizing n with
  | zero =>
    rw [Nat.pow_zero, Nat.mul_one] at h
    have hn : (UInt8.ofNat n).toNat = n := by
      rw [UInt8.toNat_ofNat']
      omega
    rw [writeVarint, if_pos (by omega), List.singleton_append, readVarint, hn, if_pos (by omega),
      if_neg (by omega)]
  | succ k ih =>
    rw [writeVarint]
    split
    next hn =>
      have hb : (UInt8.ofNat n).toNat = n := by
        rw [UInt8.toNat_ofNat']
        omega
      rw [List.singleton_append, readVarint, hb, if_pos hn, if_neg (by omega)]
    next hn =>
      have hb : (UInt8.ofNat (n % 128 + 128)).toNat = n % 128 + 128 := by
        rw [UInt8.toNat_ofNat']
        omega
      have hdiv : n / 128 < (last + 1) * 128 ^ k := by
        rw [Nat.div_lt_iff_lt_mul (by decide), Nat.mul_assoc, ← Nat.pow_succ]
        exact h
      rw [List.cons_append, readVarint, hb, if_neg (by omega), ih hdiv, Option.map_some]
      have hn' : n % 128 + 128 - 128 + 128 * (n / 128) = n := by omega
      rw [hn']

namespace Codec

/-- What was written of `x` is read back, whatever follows it. -/
def Reads (c : Codec α) (x : α) : Prop := ∀ rest, c.read (c.write x ++ rest) = some (x, rest)

def byte : Codec UInt8 where
  write b := [b]
  read
    | [] => none
    | b :: bs => some (b, bs)

/-- An unsigned integer of at most `k` bytes on the wire. -/
def varint (k last : Nat) : Codec Nat := ⟨writeVarint, readVarint last k⟩

def u16 : Codec Nat := varint 3 3

def u32 : Codec Nat := varint 5 15

def u64 : Codec Nat := varint 10 1

/-- Lengths travel as 64-bit numbers. -/
def usize : Codec Nat := u64

def bool : Codec Bool where
  write b := [if b then 1 else 0]
  read
    | 0 :: bs => some (false, bs)
    | 1 :: bs => some (true, bs)
    | _ => none

def pair (c : Codec α) (d : Codec β) : Codec (α × β) where
  write x := c.write x.1 ++ d.write x.2
  read bs := (c.read bs).bind fun r => (d.read r.2).map fun s => ((r.1, s.1), s.2)

/-- A value with a check on the way in, as `TryFrom` makes one. -/
def check (c : Codec α) (f : α → Option β) (g : β → α) : Codec β where
  write y := c.write (g y)
  read bs := (c.read bs).bind fun r => (f r.1).map fun y => (y, r.2)

def map (c : Codec α) (f : α → β) (g : β → α) : Codec β where
  write y := c.write (g y)
  read bs := (c.read bs).map fun r => (f r.1, r.2)

/-- `n` values, one after the other. -/
def readMany (c : Codec α) : Nat → List UInt8 → Option (List α × List UInt8)
  | 0, bs => some ([], bs)
  | n + 1, bs => (c.read bs).bind fun r => (readMany c n r.2).map fun s => (r.1 :: s.1, s.2)

/-- A sequence: its length, then its elements. -/
def seq (c : Codec α) : Codec (List α) where
  write xs := usize.write xs.length ++ xs.flatMap c.write
  read bs := (usize.read bs).bind fun r => c.readMany r.1 r.2

/-- `from_bytes`: what follows the value is not looked at. -/
def fromBytes (c : Codec α) (bs : List UInt8) : Option α := (c.read bs).map Prod.fst

/-- A fixed number of bytes. -/
def raw (n : Nat) : Codec {bs : List UInt8 // bs.length = n} where
  write bs := bs.1
  read bs := if h : n ≤ bs.length then some (⟨bs.take n, List.length_take_of_le h⟩, bs.drop n)
    else none

/-- A length, then as many bytes. -/
def bytes : Codec (List UInt8) where
  write bs := usize.write bs.length ++ bs
  read bs := (usize.read bs).bind fun r =>
    if r.1 ≤ r.2.length then some (r.2.take r.1, r.2.drop r.1) else none

/-- The characters that bytes spell, where they are valid UTF-8. -/
def fromUtf8 (bs : List UInt8) : Option (List Char) := bs.toByteArray.utf8Decode?.map Array.toList

def toUtf8 (cs : List Char) : List UInt8 := cs.flatMap String.utf8EncodeChar

def str : Codec (List Char) := bytes.check fromUtf8 toUtf8

/-- An optional value: a byte that says whether one follows. -/
def option (c : Codec α) : Codec (Option α) where
  write
    | none => [0]
    | some x => 1 :: c.write x
  read
    | 0 :: bs => some (none, bs)
    | 1 :: bs => (c.read bs).map fun r => (some r.1, r.2)
    | _ => none

/-- An enumeration of two variants: the number of the variant, then what it holds. -/
def either (c : Codec α) (d : Codec β) : Codec (α ⊕ β) where
  write
    | .inl x => u32.write 0 ++ c.write x
    | .inr y => u32.write 1 ++ d.write y
  read bs := (u32.read bs).bind fun r =>
    match r.1 with
    | 0 => (c.read r.2).map fun s => (.inl s.1, s.2)
    | 1 => (d.read r.2).map fun s => (.inr s.1, s.2)
    | _ => none

/-- A variant that holds nothing. -/
def unit : Codec Unit where
  write _ := []
  read bs := some ((), bs)

section
variable [Ord κ] [Std.TransOrd κ]

/-- The map that a list of records fills: a later record of a key replaces the earlier ones. -/
def ofRecords (l : List (κ × β)) : Std.ExtTreeMap κ β := l.foldl (fun m e => m.insert e.1 e.2) ∅

/-- A map: its size, then its records in ascending key order. -/
def btreeMap (c : Codec κ) (d : Codec β) : Codec (Std.ExtTreeMap κ β) :=
  (c.pair d).seq.map ofRecords Std.ExtTreeMap.toList

end

section
variable {c : Codec α} {d : Codec β}

theorem reads_byte (b : UInt8) : byte.Reads b := fun _ => rfl

theorem reads_unit (u : Unit) : unit.Reads u := fun _ => rfl

theorem reads_bool (b : Bool) : bool.Reads b := by
  intro rest
  cases b <;> rfl

theorem reads_u64 (h : n < 2 ^ 64) : u64.Reads n := by
  apply readVarint_writeVarint _ (by decide)
  exact h

theorem reads_u32 (h : n < 2 ^ 32) : u32.Reads n := by
  apply readVarint_writeVarint _ (by decide)
  exact h

theorem Reads.pair (hx : c.Reads x) (hy : d.Reads y) : (c.pair d).Reads (x, y) := by
  intro rest
  simp only [Codec.pair, List.append_assoc, hx (d.write y ++ rest), Option.bind_some, hy rest,
    Option.map_some]

theorem Reads.check (h : c.Reads x) (hg : g y = x) (hf : f x = some y) :
    (c.check f g).Reads y := by
  intro rest
  simp only [Codec.check, hg, h rest, Option.bind_some, hf, Option.map_some]

theorem Reads.map (h : c.Reads x) (hg : g y = x) (hf : f x = y) : (c.map f g).Reads y := by
  intro rest
  simp only [Codec.map, hg, h rest, Option.map_some, hf]

theorem read_pair (hx : c.Reads x) (bs : List UInt8) :
    (c.pair d).read (c.write x ++ bs) = (d.read bs).map fun s => ((x, s.1), s.2) := by
  simp only [Codec.pair, hx bs, Option.bind_some]

theorem read_inl (bs : List UInt8) :
    (c.either d).read (u32.write 0 ++ bs) = (c.read bs).map fun s => (.inl s.1, s.2) := by
  simp only [either]
  rw [reads_u32 (by decide), Option.bind_some]
  rfl

theorem readMany_length (h : c.readMany n bs = some (xs, rest)) : xs.length = n := by
  induction n generalizing bs xs with
  | zero =>
    cases h
    rfl
  | succ n ih =>
    obtain ⟨r, _, h⟩ := Option.bind_eq_some_iff.1 h
    obtain ⟨s, hs, h⟩ := Option.map_eq_some_iff.1 h
    cases h
    rw [List.length_cons, ih hs]

/-- The bytes do not begin with the number zero. -/
def NoZero (bs : List UInt8) : Prop := ∀ n rest, u64.read bs = some (n, rest) → n ≠ 0

theorem noZero_nil : NoZero [] := by
  intro n rest h
  cases h

theorem noZero_write (h0 : n ≠ 0) (h : n < 2 ^ 64) (rest : List UInt8) :
    NoZero (u64.write n ++ rest) := by
  intro m rest' hread
  rw [reads_u64 h rest] at hread
  cases hread
  exact h0

theorem readMany_flatMap (h : ∀ x ∈ xs, c.Reads x) (rest : List UInt8) :
    c.readMany xs.length (xs.flatMap c.write ++ rest) = some (xs, rest) := by
  induction xs with
  | nil => rfl
  | cons x xs ih =>
    rw [List.flatMap_cons, List.append_assoc, List.length_cons, readMany,
      h x List.mem_cons_self, Option.bind_some, ih fun y hy => h y (List.mem_cons_of_mem x hy)]
    rfl

theorem Reads.seq (h : ∀ x ∈ xs, c.Reads x) (hn : xs.length < 2 ^ 64) : c.seq.Reads xs := by
  intro rest
  simp only [Codec.seq, List.append_assoc]
  rw [usize, reads_u64 hn, Option.bind_some, readMany_flatMap h]

theorem reads_raw (bs : {bs : List UInt8 // bs.length = n}) : (raw n).Reads bs := by
  intro rest
  obtain ⟨bs, rfl⟩ := bs
  simp [raw]

theorem reads_bytes {bs : List UInt8} (h : bs.length < 2 ^ 64) : bytes.Reads bs := by
  intro rest
  simp only [bytes, List.append_assoc]
  rw [usize, reads_u64 h, Option.bind_some, if_pos (by simp), List.take_left, List.drop_left]

theorem fromUtf8_toUtf8 (cs : List Char) : fromUtf8 (toUtf8 cs) = some cs := by
  have h : (toUtf8 cs).toByteArray = cs.utf8Encode := rfl
  rw [fromUtf8, h, List.utf8Decode?_utf8Encode]
  rfl

theorem reads_str (h : (toUtf8 cs).length < 2 ^ 64) : str.Reads cs :=
  (reads_bytes h).check rfl (fromUtf8_toUtf8 cs)

theorem Reads.inl (h : c.Reads x) : (c.either d).Reads (.inl x) := by
  intro rest
  simp only [either, List.append_assoc]
  rw [reads_u32 (by decide), Option.bind_some]
  dsimp only
  rw [h rest]
  rfl

theorem Reads.inr (h : d.Reads y) : (c.either d).Reads (.inr y) := by
  intro rest
  simp only [either, List.append_assoc]
  rw [reads_u32 (by decide), Option.bind_some]
  dsimp only
  rw [h rest]
  rfl

/-- Reading `d` is reading `c` and computing the value from what was read. -/
def Builds (c : Codec α) (d : Codec β) (f : α → β) : Prop :=
  ∀ bs, d.read bs = (c.read bs).map fun r => (f r.1, r.2)

theorem Builds.refl (c : Codec α) : c.Builds c id := by
  intro bs
  exact Option.map_id'.symm

theorem Builds.map {f : α → β} (h : c.Builds d f) (g : β → γ) (g' : γ → β) :
    c.Builds (d.map g g') (g ∘ f) := by
  intro bs
  rw [Codec.map]
  dsimp only
  rw [h bs, Option.map_map]
  rfl

theorem Builds.pair {c' : Codec α'} {d' : Codec β'} {f : α → β} {f' : α' → β'}
    (h : c.Builds d f) (h' : c'.Builds d' f') :
    (c.pair c').Builds (d.pair d') (Prod.map f f') := by
  intro bs
  simp only [Codec.pair]
  rw [h bs]
  cases c.read bs with
  | none => rfl
  | some r =>
    rw [Option.map_some, Option.bind_some, Option.bind_some, h' r.2, Option.map_map, Option.map_map]
    rfl

theorem Builds.readMany {f : α → β} (h : c.Builds d f) (n : Nat) (bs : List UInt8) :
    d.readMany n bs = (c.readMany n bs).map fun r => (r.1.map f, r.2) := by
  induction n generalizing bs with
  | zero => rfl
  | succ n ih =>
    rw [Codec.readMany, Codec.readMany, h bs]
    cases c.read bs with
    | none => rfl
    | some r =>
      rw [Option.map_some, Option.bind_some, Option.bind_some, ih r.2, Option.map_map,
        Option.map_map]
      rfl

theorem Builds.seq {f : α → β} (h : c.Builds d f) : c.seq.Builds d.seq (List.map f) := by
  intro bs
  simp only [Codec.seq]
  cases usize.read bs with
  | none => rfl
  | some r => exact h.readMany r.1 r.2

end

section
variable [DecidableEq κ]

theorem lookup_eq_some_of_mem {l : List (κ × β)} (hd : l.Pairwise fun a b => a.1 ≠ b.1)
    (h : (k, x) ∈ l) : l.lookup k = some x := by
  induction l with
  | nil => cases h
  | cons e l ih =>
    obtain ⟨he, hd⟩ := List.pairwise_cons.1 hd
    rcases List.mem_cons.1 h with rfl | h
    · rw [List.lookup_cons, beq_self_eq_true]
    · have hne : (k == e.1) = false := beq_eq_false_iff_ne.2 (he _ h).symm
      rw [List.lookup_cons, hne]
      exact ih hd h

theorem mem_of_lookup_eq_some {l : List (κ × β)} (h : l.lookup k = some x) : (k, x) ∈ l := by
  obtain ⟨l₁, l₂, rfl, _⟩ := List.lookup_eq_some_iff.1 h
  exact List.mem_append_right l₁ List.mem_cons_self

end

section
variable [Ord κ] [Std.TransOrd κ] [Std.LawfulEqOrd κ]

theorem toList_distinct (m : Std.ExtTreeMap κ β) : m.toList.Pairwise fun a b => a.1 ≠ b.1 :=
  Std.ExtTreeMap.ordered_keys_toList.imp fun {a b} h he => by
    rw [he, Std.ReflOrd.compare_self] at h
    cases h

variable [DecidableEq κ]

theorem getElem?_foldl_insert (l : List (κ × β)) (m : Std.ExtTreeMap κ β) (k : κ) :
    (l.foldl (fun m e => m.insert e.1 e.2) m)[k]? = (l.reverse.lookup k).or m[k]? := by
  induction l generalizing m with
  | nil => rfl
  | cons e l ih =>
    rw [List.foldl_cons, ih, List.reverse_cons, List.lookup_append, Option.or_assoc,
      Std.ExtTreeMap.getElem?_insert, List.lookup_cons, List.lookup_nil]
    simp only [Std.compare_eq_iff_eq]
    congr 1
    by_cases h : e.1 = k
    · simp [h]
    · have h' : (k == e.1) = false := beq_eq_false_iff_ne.2 (Ne.symm h)
      simp [h, h']

/-- A key has the value of its last record. -/
theorem getElem?_ofRecords (l : List (κ × β)) (k : κ) :
    (ofRecords l)[k]? = l.reverse.lookup k := by
  rw [ofRecords, getElem?_foldl_insert, Std.ExtTreeMap.getElem?_empty, Option.or_none]

/-- Records of different keys fill a map with exactly what they say. -/
theorem getElem?_ofRecords_of_distinct {l : List (κ × β)} (hd : l.Pairwise fun a b => a.1 ≠ b.1) :
    (ofRecords l)[k]? = some x ↔ (k, x) ∈ l := by
  have hr : l.reverse.Pairwise fun a b => a.1 ≠ b.1 :=
    List.pairwise_reverse.2 (hd.imp fun h => h.symm)
  rw [getElem?_ofRecords]
  constructor
  · intro h
    exact List.mem_reverse.1 (mem_of_lookup_eq_some h)
  · intro h
    exact lookup_eq_some_of_mem hr (List.mem_reverse.2 h)

theorem ofRecords_toList (m : Std.ExtTreeMap κ β) : ofRecords m.toList = m := by
  apply Std.ExtTreeMap.ext_getElem?
  intro k
  apply Option.ext
  intro x
  rw [getElem?_ofRecords_of_distinct (toList_distinct m),
    Std.ExtTreeMap.mem_toList_iff_getElem?_eq_some]

theorem reads_btreeMap {c : Codec κ} {d : Codec β} {m : Std.ExtTreeMap κ β}
    (h : ∀ e ∈ m.toList, c.Reads e.1 ∧ d.Reads e.2) (hn : m.toList.length < 2 ^ 64) :
    (btreeMap c d).Reads m := by
  have hs : (c.pair d).seq.Reads m.toList := Reads.seq (fun e he => (h e he).1.pair (h e he).2) hn
  exact hs.map rfl (ofRecords_toList m)

end

end Codec

end Tomo
