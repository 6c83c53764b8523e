import Mathlib.Data.List.Flatten
import Mathlib.Data.List.Perm.Subperm
import Mathlib.Order.Defs.LinearOrder
import Mathlib.Order.Nat
import Tomo.Lib.Postcard

namespace Tomo
set_option autoImplicit true

theorem readVarint_lt (h : readVarint last (k + 1) bs = some (n, rest)) :
    n < (last + 1) * 128 ^ k := by
  induction k generalizing bs n with
  | zero =>
    cases bs with
    | nil => cases h
    | cons b bs =>
      rw [readVarint] at h
      split at h
      · split at h
        · cases h
        next hle =>
          cases h
          omega
      · cases h
  | succ k ih =>
    cases bs with
    | nil => cases h
    | cons b bs =>
      have hpos : 0 < 128 ^ k := Nat.pow_pos (by decide)
      have hpow : 128 ^ (k + 1) = 128 ^ k * 128 := Nat.pow_succ _ _
      have hle : 128 ^ k ≤ (last + 1) * 128 ^ k := Nat.le_mul_of_pos_left _ (Nat.succ_pos _)
      rw [hpow, ← Nat.mul_assoc]
      rw [readVarint] at h
      split at h
      next hb =>
        rw [if_neg (by omega)] at h
        cases h
        omega
      next hb =>
        obtain ⟨r, hr, heq⟩ := Option.map_eq_some_iff.1 h
        cases heq
        have hlt := ih hr
        have hb' := b.toNat_lt
        omega

theorem length_writeVarint_cons_le (h : b < 128) :
    (writeVarint (b + 128 * n)).length ≤ (writeVarint n).length + 1 := by
  rw [writeVarint]
  split
  · rw [List.length_singleton]
    omega
  · have hn : (b + 128 * n) / 128 = n := by omega
    exact (congrArg (fun m => (writeVarint m).length + 1) hn).le

/-- No varint is shorter than the one that is written. -/
theorem length_writeVarint_le (h : readVarint last k bs = some (n, rest)) :
    (writeVarint n).length + rest.length ≤ bs.length := by
  induction k generalizing bs n with
  | zero => cases h
  | succ k ih =>
    cases bs with
    | nil => cases h
    | cons b bs =>
      rw [readVarint] at h
      split at h
      next hb =>
        split at h
        · cases h
        · cases h
          rw [writeVarint, if_pos hb]
          exact (Nat.add_comm 1 _).le
      next hb =>
        obtain ⟨r, hr, heq⟩ := Option.map_eq_some_iff.1 h
        cases heq
        have hle := ih hr
        have hlen : (writeVarint (b.toNat - 128 + 128 * r.1)).length ≤ _ :=
          length_writeVarint_cons_le (by have := b.toNat_lt; omega)
        rw [List.length_cons]
        omega

theorem readVarint_append (h : readVarint last k bs = some (n, rest)) (more : List UInt8) :
    readVarint last k (bs ++ more) = some (n, rest ++ more) := by
  induction k generalizing bs n with
  | zero => cases h
  | succ k ih =>
    cases bs with
    | nil => cases h
    | cons b bs =>
      rw [readVarint] at h
      rw [List.cons_append, readVarint]
      split at h
      next hb =>
        rw [if_pos hb]
        split at h
        · cases h
        next hle =>
          cases h
          rw [if_neg hle]
      next hb =>
        obtain ⟨r, hr, heq⟩ := Option.map_eq_some_iff.1 h
        cases heq
        rw [if_neg hb, ih hr]
        rfl

theorem length_writeVarint_mono (h : m ≤ n) : (writeVarint m).length ≤ (writeVarint n).length := by
  induction n using Nat.strongRecOn generalizing m with
  | ind n ih =>
    by_cases hm : m < 128
    · rw [writeVarint, if_pos hm, writeVarint]
      split <;> simp
    · have hn : ¬n < 128 := by omega
      have hlt : n / 128 < n := Nat.div_lt_self (by omega) (by decide)
      have hle := ih _ hlt (Nat.div_le_div_right h)
      rw [writeVarint, if_neg hm, writeVarint.eq_def n, if_neg hn]
      exact Nat.succ_le_succ hle

namespace Codec

/-- What is read can be written, in no more bytes, and is then read back; what follows the bytes
that are needed changes nothing. -/
structure Faithful (c : Codec α) : Prop where
  reads : ∀ {bs x rest}, c.read bs = some (x, rest) → c.Reads x
  length_le : ∀ {bs x rest}, c.read bs = some (x, rest) →
    (c.write x).length + rest.length ≤ bs.length
  append : ∀ {bs x rest}, c.read bs = some (x, rest) →
    ∀ more, c.read (bs ++ more) = some (x, rest ++ more)

theorem Faithful.varint (hl : last < 128) : (varint (k + 1) last).Faithful where
  reads h := readVarint_writeVarint (readVarint_lt h) hl
  length_le := length_writeVarint_le
  append := readVarint_append

theorem Faithful.u16 : u16.Faithful := .varint (by decide)

theorem Faithful.u32 : u32.Faithful := .varint (by decide)

theorem Faithful.u64 : u64.Faithful := .varint (by decide)

theorem reads_u16 (h : n < 2 ^ 16) : u16.Reads n := by
  apply readVarint_writeVarint _ (by decide)
  exact h

theorem u16_lt (h : u16.read bs = some (n, rest)) : n < 2 ^ 16 := readVarint_lt h

theorem u64_lt (h : u64.read bs = some (n, rest)) : n < 2 ^ 64 :=
  readVarint_lt h

theorem Reads.lt (h : u64.Reads n) : n < 2 ^ 64 := u64_lt (h [])

section
variable {c : Codec α} {d : Codec β}

theorem Faithful.byte : byte.Faithful where
  reads _ := reads_byte _
  length_le {bs} x rest h := by
    cases bs with
    | nil => cases h
    | cons b bs =>
      cases h
      exact (Nat.add_comm 1 _).le
  append {bs} x rest h more := by
    cases bs with
    | nil => cases h
    | cons b bs =>
      cases h
      rfl

theorem Faithful.unit : unit.Faithful where
  reads _ := reads_unit _
  length_le h := by
    cases h
    exact (Nat.zero_add _).le
  append h more := by
    cases h
    rfl

theorem bool_cases (h : bool.read bs = some (b, rest)) : bs = (if b then 1 else 0) :: rest := by
  dsimp only [bool] at h
  split at h
  · cases h
    rfl
  · cases h
    rfl
  · cases h

theorem Faithful.bool : bool.Faithful where
  reads _ := reads_bool _
  length_le h := by
    rw [bool_cases h]
    exact (Nat.add_comm 1 _).le
  append {_} b rest h more := by
    rw [bool_cases h]
    exact reads_bool b (rest ++ more)

theorem pair_cases (h : (c.pair d).read bs = some (x, rest)) :
    ∃ mid, c.read bs = some (x.1, mid) ∧ d.read mid = some (x.2, rest) := by
  obtain ⟨r, hr, h⟩ := Option.bind_eq_some_iff.1 h
  obtain ⟨s, hs, heq⟩ := Option.map_eq_some_iff.1 h
  cases heq
  exact ⟨r.2, hr, hs⟩

theorem Faithful.pair (hc : c.Faithful) (hd : d.Faithful) : (c.pair d).Faithful where
  reads h := by
    obtain ⟨mid, hr, hs⟩ := pair_cases h
    exact (hc.reads hr).pair (hd.reads hs)
  length_le {_} x _ h := by
    obtain ⟨mid, hr, hs⟩ := pair_cases h
    have h₁ := hc.length_le hr
    have h₂ := hd.length_le hs
    have hlen : ((c.pair d).write x).length = _ := List.length_append
    omega
  append h more := by
    obtain ⟨mid, hr, hs⟩ := pair_cases h
    simp only [Codec.pair, hc.append hr more, Option.bind_some, hd.append hs more, Option.map_some]

/-- A value computed from one that was read, and taken apart again into one no longer than that. -/
theorem Faithful.mapOn {f : α → β} {g : β → α} (hc : c.Faithful)
    (h : ∀ x, c.Reads x → c.Reads (g (f x)) ∧ f (g (f x)) = f x ∧
      (c.write (g (f x))).length ≤ (c.write x).length) : (c.map f g).Faithful where
  reads hread := by
    obtain ⟨r, hr, heq⟩ := Option.map_eq_some_iff.1 hread
    cases heq
    obtain ⟨hback, hsame, _⟩ := h r.1 (hc.reads hr)
    exact hback.map rfl hsame
  length_le hread := by
    obtain ⟨r, hr, heq⟩ := Option.map_eq_some_iff.1 hread
    cases heq
    obtain ⟨_, _, hle⟩ := h r.1 (hc.reads hr)
    exact (Nat.add_le_add_right hle _).trans (hc.length_le hr)
  append hread more := by
    obtain ⟨r, hr, heq⟩ := Option.map_eq_some_iff.1 hread
    cases heq
    simp only [Codec.map, hc.append hr more, Option.map_some]

theorem Faithful.map {f : α → β} {g : β → α} (hc : c.Faithful)
    (h : ∀ x, c.Reads x → g (f x) = x) : (c.map f g).Faithful := by
  apply hc.mapOn
  intro x hx
  rw [h x hx]
  exact ⟨hx, rfl, le_rfl⟩

theorem Faithful.check {f : α → Option β} {g : β → α} (hc : c.Faithful)
    (h : ∀ x y, f x = some y → g y = x) : (c.check f g).Faithful where
  reads hread := by
    obtain ⟨r, hr, hread⟩ := Option.bind_eq_some_iff.1 hread
    obtain ⟨y, hy, heq⟩ := Option.map_eq_some_iff.1 hread
    cases heq
    exact (hc.reads hr).check (h _ _ hy) hy
  length_le hread := by
    obtain ⟨r, hr, hread⟩ := Option.bind_eq_some_iff.1 hread
    obtain ⟨y, hy, heq⟩ := Option.map_eq_some_iff.1 hread
    cases heq
    have hle := hc.length_le hr
    rw [← h _ _ hy] at hle
    exact hle
  append hread more := by
    obtain ⟨r, hr, hread⟩ := Option.bind_eq_some_iff.1 hread
    obtain ⟨y, hy, heq⟩ := Option.map_eq_some_iff.1 hread
    cases heq
    simp only [Codec.check, hc.append hr more, Option.bind_some, hy, Option.map_some]

theorem readMany_faithful (hc : c.Faithful) (h : c.readMany n bs = some (xs, rest)) :
    (∀ x ∈ xs, c.Reads x) ∧ (xs.flatMap c.write).length + rest.length ≤ bs.length ∧
      ∀ more, c.readMany n (bs ++ more) = some (xs, rest ++ more) := by
  induction n generalizing bs xs with
  | zero =>
    cases h
    exact ⟨List.forall_mem_nil _, (Nat.zero_add _).le, fun _ => rfl⟩
  | succ n ih =>
    obtain ⟨r, hr, h⟩ := Option.bind_eq_some_iff.1 h
    obtain ⟨s, hs, heq⟩ := Option.map_eq_some_iff.1 h
    cases heq
    obtain ⟨hall, hle, happ⟩ := ih hs
    refine ⟨List.forall_mem_cons.2 ⟨hc.reads hr, hall⟩, ?_, fun more => ?_⟩
    · have hle' := hc.length_le hr
      rw [List.flatMap_cons, List.length_append]
      omega
    · rw [readMany, hc.append hr more, Option.bind_some, happ more]
      rfl

theorem seq_cases (h : c.seq.read bs = some (xs, rest)) :
    ∃ mid, usize.read bs = some (xs.length, mid) ∧ c.readMany xs.length mid = some (xs, rest) := by
  obtain ⟨r, hr, hs⟩ := Option.bind_eq_some_iff.1 h
  rw [readMany_length hs]
  exact ⟨r.2, hr, hs⟩

theorem Faithful.seq (hc : c.Faithful) : c.seq.Faithful where
  reads h := by
    obtain ⟨mid, hr, hs⟩ := seq_cases h
    exact Reads.seq (readMany_faithful hc hs).1 (u64_lt hr)
  length_le {_} xs _ h := by
    obtain ⟨mid, hr, hs⟩ := seq_cases h
    have h₁ := Faithful.u64.length_le hr
    obtain ⟨_, h₂, _⟩ := readMany_faithful hc hs
    have hlen : (c.seq.write xs).length = (Codec.u64.write xs.length).length + _ := List.length_append
    omega
  append h more := by
    obtain ⟨mid, hr, hs⟩ := seq_cases h
    have happ : usize.read _ = _ := Faithful.u64.append hr more
    simp only [Codec.seq, happ, Option.bind_some, (readMany_faithful hc hs).2.2 more]

/-- The elements of a list that is read back are themselves read back. -/
theorem Reads.of_seq {xs : List α} (hc : c.Faithful) (h : c.seq.Reads xs) :
    (∀ x ∈ xs, c.Reads x) ∧ xs.length < 2 ^ 64 := by
  obtain ⟨mid, hr, hs⟩ := seq_cases (h [])
  exact ⟨(readMany_faithful hc hs).1, u64_lt hr⟩

theorem Reads.of_map {f : α → β} {g : β → α} (hc : c.Faithful) (h : (c.map f g).Reads y) :
    ∃ x, c.Reads x ∧ f x = y := by
  obtain ⟨r, hr, heq⟩ := Option.map_eq_some_iff.1 (h [])
  exact ⟨r.1, hc.reads hr, congrArg Prod.fst heq⟩

theorem Reads.of_pair (hc : c.Faithful) (hd : d.Faithful) {x : α × β} (h : (c.pair d).Reads x) :
    c.Reads x.1 ∧ d.Reads x.2 := by
  obtain ⟨mid, hr, hs⟩ := pair_cases (h [])
  exact ⟨hc.reads hr, hd.reads hs⟩

theorem Faithful.raw : (raw n).Faithful where
  reads _ := reads_raw _
  length_le {bs} x rest h := by
    dsimp only [Codec.raw] at h ⊢
    split at h
    next hle =>
      cases h
      rw [List.length_take_of_le hle, List.length_drop]
      omega
    · cases h
  append {bs} x rest h more := by
    dsimp only [Codec.raw] at h ⊢
    split at h
    next hle =>
      cases h
      have hle' : n ≤ (bs ++ more).length := by
        rw [List.length_append]
        omega
      rw [dif_pos hle', List.drop_append_of_le_length hle]
      simp only [List.take_append_of_le_length hle]
    · cases h

theorem bytes_cases (h : bytes.read bs = some (x, rest)) : u64.read bs = some (x.length, x ++ rest) := by
  obtain ⟨r, hr, h⟩ := Option.bind_eq_some_iff.1 h
  split at h
  next hle =>
    cases h
    rw [List.length_take_of_le hle, List.take_append_drop]
    exact hr
  · cases h

theorem Faithful.bytes : bytes.Faithful where
  reads h := reads_bytes (u64_lt (bytes_cases h))
  length_le {_} x rest h := by
    have hle := Faithful.u64.length_le (bytes_cases h)
    have hlen : (Codec.bytes.write x).length = (Codec.u64.write x.length).length + x.length :=
      List.length_append
    rw [List.length_append] at hle
    omega
  append {_} x rest h more := by
    have happ : usize.read _ = _ := Faithful.u64.append (bytes_cases h) more
    rw [List.append_assoc] at happ
    dsimp only [Codec.bytes]
    rw [happ, Option.bind_some, if_pos (by simp), List.take_left, List.drop_left]

theorem toUtf8_of_fromUtf8 (h : fromUtf8 bs = some cs) : toUtf8 cs = bs := by
  obtain ⟨a, ha, rfl⟩ := Option.map_eq_some_iff.1 h
  have hsome : bs.toByteArray.utf8Decode?.isSome := Option.isSome_of_eq_some ha
  have hback := ByteArray.utf8Encode_get_utf8Decode? (h := hsome)
  have hget : bs.toByteArray.utf8Decode?.get hsome = a := Option.get_of_eq_some hsome ha
  rw [hget] at hback
  have hsame : (toUtf8 a.toList).toByteArray = bs.toByteArray := hback
  exact List.toByteArray_inj.1 hsame

theorem Faithful.str : str.Faithful := Faithful.bytes.check fun _ _ => toUtf8_of_fromUtf8

theorem option_cases {o : Option α} (h : (option c).read bs = some (o, rest)) :
    o = none ∧ bs = 0 :: rest ∨
      ∃ x bs', o = some x ∧ bs = 1 :: bs' ∧ c.read bs' = some (x, rest) := by
  dsimp only [Codec.option] at h
  split at h
  · cases h
    exact .inl ⟨rfl, rfl⟩
  · obtain ⟨r, hr, heq⟩ := Option.map_eq_some_iff.1 h
    cases heq
    exact .inr ⟨r.1, _, rfl, rfl, hr⟩
  · cases h

theorem reads_none : (option c).Reads none := fun _ => rfl

theorem reads_some {x : α} (h : c.Reads x) : (option c).Reads (some x) := by
  intro rest
  exact congrArg (Option.map _) (h rest)

theorem Faithful.option (hc : c.Faithful) : (option c).Faithful where
  reads h := by
    rcases option_cases h with ⟨rfl, _⟩ | ⟨x, bs', rfl, _, hr⟩
    · exact reads_none
    · exact reads_some (hc.reads hr)
  length_le h := by
    rcases option_cases h with ⟨rfl, rfl⟩ | ⟨x, bs', rfl, rfl, hr⟩
    · exact (Nat.add_comm 1 _).le
    · have hle := hc.length_le hr
      have hlen : ((Codec.option c).write (some x)).length = (c.write x).length + 1 := rfl
      rw [List.length_cons]
      omega
  append h more := by
    rcases option_cases h with ⟨rfl, rfl⟩ | ⟨x, bs', rfl, rfl, hr⟩
    · rfl
    · exact congrArg (Option.map _) (hc.append hr more)

theorem either_cases {s : α ⊕ β} (h : (c.either d).read bs = some (s, rest)) :
    ∃ tag mid, u32.read bs = some (tag, mid) ∧
      (tag = 0 ∧ (∃ x, s = .inl x ∧ c.read mid = some (x, rest)) ∨
        tag = 1 ∧ ∃ y, s = .inr y ∧ d.read mid = some (y, rest)) := by
  obtain ⟨⟨tag, mid⟩, htag, h⟩ := Option.bind_eq_some_iff.1 h
  dsimp only at h
  split at h
  · obtain ⟨r, hr, heq⟩ := Option.map_eq_some_iff.1 h
    cases heq
    exact ⟨0, mid, htag, .inl ⟨rfl, r.1, rfl, hr⟩⟩
  · obtain ⟨r, hr, heq⟩ := Option.map_eq_some_iff.1 h
    cases heq
    exact ⟨1, mid, htag, .inr ⟨rfl, r.1, rfl, hr⟩⟩
  · cases h

theorem Faithful.either (hc : c.Faithful) (hd : d.Faithful) : (c.either d).Faithful where
  reads h := by
    obtain ⟨tag, mid, _, ⟨_, x, rfl, hr⟩ | ⟨_, y, rfl, hr⟩⟩ := either_cases h
    · exact (hc.reads hr).inl
    · exact (hd.reads hr).inr
  length_le h := by
    obtain ⟨tag, mid, htag, ⟨rfl, x, rfl, hr⟩ | ⟨rfl, y, rfl, hr⟩⟩ := either_cases h
    · have h₁ := Faithful.u32.length_le htag
      have h₂ := hc.length_le hr
      have hlen : ((c.either d).write (.inl x)).length = (Codec.u32.write 0).length + _ :=
        List.length_append
      omega
    · have h₁ := Faithful.u32.length_le htag
      have h₂ := hd.length_le hr
      have hlen : ((c.either d).write (.inr y)).length = (Codec.u32.write 1).length + _ :=
        List.length_append
      omega
  append h more := by
    obtain ⟨tag, mid, htag, ⟨rfl, x, rfl, hr⟩ | ⟨rfl, y, rfl, hr⟩⟩ := either_cases h
    · simp only [Codec.either, Faithful.u32.append htag more, Option.bind_some,
        hc.append hr more, Option.map_some]
    · simp only [Codec.either, Faithful.u32.append htag more, Option.bind_some,
        hd.append hr more, Option.map_some]

theorem Reads.of_some {x : α} (hc : c.Faithful) (h : (option c).Reads (some x)) : c.Reads x := by
  rcases option_cases (h []) with ⟨heq, _⟩ | ⟨y, _, heq, _, hr⟩
  · cases heq
  · cases heq
    exact hc.reads hr

theorem Reads.of_inl {x : α} (hc : c.Faithful) (h : (c.either d).Reads (.inl x)) : c.Reads x := by
  obtain ⟨_, _, _, ⟨_, _, heq, hr⟩ | ⟨_, _, heq, _⟩⟩ := either_cases (h [])
  · cases heq
    exact hc.reads hr
  · cases heq

theorem Reads.of_bytes {bs : List UInt8} (h : bytes.Reads bs) : bs.length < 2 ^ 64 :=
  u64_lt (bytes_cases (h []))

theorem Reads.of_str {cs : List Char} (h : str.Reads cs) : (toUtf8 cs).length < 2 ^ 64 := by
  obtain ⟨⟨bs, rest⟩, hr, hread⟩ := Option.bind_eq_some_iff.1 (h [])
  obtain ⟨cs', hcs, heq⟩ := Option.map_eq_some_iff.1 hread
  cases heq
  rw [toUtf8_of_fromUtf8 hcs]
  exact u64_lt (bytes_cases hr)

/-- Nothing that stops before the end of what was written is read. -/
theorem Faithful.read_part (hc : c.Faithful) (h : c.Reads x) {part : List UInt8}
    (hp : part <+: c.write x) (hne : part ≠ c.write x) : c.read part = none := by
  obtain ⟨more, hmore⟩ := hp
  cases hread : c.read part with
  | none => rfl
  | some r =>
    have happ := hc.append hread more
    have hall := h []
    rw [List.append_nil, ← hmore, happ] at hall
    have hnil : r.2 ++ more = [] := congrArg Prod.snd (Option.some.inj hall)
    rw [(List.append_eq_nil_iff.1 hnil).2, List.append_nil] at hmore
    exact absurd hmore hne

/-- Two values that are read back are written as streams neither of which begins the other. -/
theorem Reads.eq_of_begins (hx : c.Reads x) (hy : c.Reads y) (hp : c.write x <+: c.write y) :
    x = y := by
  obtain ⟨more, hmore⟩ := hp
  have h₁ := hx more
  have h₂ := hy []
  rw [List.append_nil, ← hmore, h₁] at h₂
  exact congrArg Prod.fst (Option.some.inj h₂)

end

section
variable [Ord κ] [Std.TransOrd κ] [Std.LawfulEqOrd κ] [DecidableEq κ]

theorem mem_of_mem_ofRecords {l : List (κ × β)} (h : e ∈ (ofRecords l).toList) : e ∈ l := by
  have hget := Std.ExtTreeMap.mem_toList_iff_getElem?_eq_some.1 h
  rw [getElem?_ofRecords] at hget
  exact List.mem_reverse.1 (mem_of_lookup_eq_some hget)

/-- The records that stay are, in some order, among those that came. -/
theorem ofRecords_subperm (l : List (κ × β)) : (ofRecords l).toList.Subperm l := by
  have hnodup : (ofRecords l).toList.Nodup :=
    (toList_distinct (ofRecords l)).imp fun hne heq => hne (congrArg Prod.fst heq)
  exact hnodup.subperm fun _ h => mem_of_mem_ofRecords h

theorem length_flatMap_le_of_subperm {l l' : List α} (h : l.Subperm l') (w : α → List β) :
    (l.flatMap w).length ≤ (l'.flatMap w).length := by
  obtain ⟨k, hperm, hsub⟩ := h
  rw [← (hperm.flatMap_right w).length_eq]
  exact (hsub.flatMap w).length_le

theorem Reads.of_btreeMap {c : Codec κ} {d : Codec β} {m : Std.ExtTreeMap κ β} (hc : c.Faithful)
    (hd : d.Faithful) (h : (btreeMap c d).Reads m) :
    (∀ e ∈ m.toList, c.Reads e.1 ∧ d.Reads e.2) ∧ m.toList.length < 2 ^ 64 := by
  obtain ⟨l, hl, rfl⟩ := h.of_map (hc.pair hd).seq
  obtain ⟨hall, hlen⟩ := hl.of_seq (hc.pair hd)
  have hsub := ofRecords_subperm l
  exact ⟨fun e he => (hall e (hsub.subset he)).of_pair hc hd, hsub.length_le.trans_lt hlen⟩

theorem Faithful.btreeMap {c : Codec κ} {d : Codec β} (hc : c.Faithful) (hd : d.Faithful) :
    (btreeMap c d).Faithful := by
  have hcd := hc.pair hd
  apply hcd.seq.mapOn
  intro l hl
  obtain ⟨hall, hlen⟩ := hl.of_seq hcd
  have hsub := ofRecords_subperm l
  refine ⟨?_, ofRecords_toList _, ?_⟩
  · exact Reads.seq (fun e he => hall e (hsub.subset he)) (hsub.length_le.trans_lt hlen)
  · have h₁ := length_writeVarint_mono hsub.length_le
    have h₂ := length_flatMap_le_of_subperm hsub (c.pair d).write
    have hw (l : List (κ × β)) : ((c.pair d).seq.write l).length =
        (writeVarint l.length).length + (l.flatMap (c.pair d).write).length := List.length_append
    rw [hw, hw]
    omega

end

end Codec

end Tomo
