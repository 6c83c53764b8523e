import Tomo.Lib.Delimiting
import Tomo.Wire.Layout

namespace Tomo
set_option autoImplicit true

/-- Equal clocks, and states that are equal as the source compares them. -/
def Head.Same (a b : Head) : Prop := a.eq b = true

theorem Head.same_iff {a b : Head} :
    a.Same b ↔ a.version = b.version ∧ a.state.identity = b.state.identity := by
  rw [Same, Head.eq, Bool.and_eq_true, decide_eq_true_eq, EntryState.eq_iff]

theorem Head.Same.refl (a : Head) : a.Same a := Head.same_iff.2 ⟨rfl, rfl⟩

theorem Head.Same.symm {a b : Head} (h : a.Same b) : b.Same a := by
  rw [Head.same_iff] at *
  exact ⟨h.1.symm, h.2.symm⟩

theorem Head.Same.trans {a b c : Head} (h : a.Same b) (h' : b.Same c) : a.Same c := by
  rw [Head.same_iff] at *
  exact ⟨h.1.trans h'.1, h.2.trans h'.2⟩

/-- The same heads in the same order. -/
def Entry.Same (e e' : Entry) : Prop := List.Forall₂ Head.Same e.heads e'.heads

/-- What `Entry.Same` compares. -/
def Entry.identity (e : Entry) : List (VectorClock × Option (ContentHash × Nat × Bool)) :=
  e.heads.map fun h => (h.version, h.state.identity)

theorem forall₂_map_eq {f : α → β} {l l' : List α} :
    List.Forall₂ (fun a b => f a = f b) l l' ↔ l.map f = l'.map f := by
  rw [← List.forall₂_eq_eq_eq, List.forall₂_map_left_iff, List.forall₂_map_right_iff]

theorem Entry.same_iff {e e' : Entry} : e.Same e' ↔ e.identity = e'.identity := by
  have hr : Head.Same = fun a b => (a.version, a.state.identity) = (b.version, b.state.identity) := by
    funext a b
    rw [Prod.mk.injEq, Head.same_iff]
  rw [Same, hr, forall₂_map_eq]
  rfl

theorem Entry.rel_iff {o o' : Option Entry} :
    Option.Rel Entry.Same o o' ↔ o.map identity = o'.map identity := by
  cases o with
  | none => cases o' <;> simp
  | some e => cases o' <;> simp [same_iff]

theorem delimits_toLeBytes : Delimits toLeBytes (· < 2 ^ 64) (· = ·) :=
  .of_length (fun a b _ _ => by rw [toLeBytes_length, toLeBytes_length])
    fun _ _ ha hb h => toLeBytes_injective ha hb h

theorem delimits_pairBytes : Delimits pairBytes (fun e => e.2 < 2 ^ 64) (· = ·) :=
  .of_length (fun a b _ _ => by rw [pairBytes_length, pairBytes_length])
    fun _ _ ha hb h => pairBytes_injective ha hb h

theorem delimits_state : Delimits EntryState.encode EntryState.Fits
    fun a b => a.identity = b.identity := by
  intro a b ha hb t t' h
  cases a with
  | tombstone =>
    cases b with
    | tombstone =>
      rw [List.append_cancel_left_eq] at h
      exact ⟨rfl, h⟩
    | present y => cases h
  | present x =>
    cases b with
    | tombstone => cases h
    | present y =>
      simp only [EntryState.encode, List.cons_append, List.append_assoc, List.cons.injEq,
        true_and] at h
      obtain ⟨hhash, h⟩ := List.append_inj h (by rw [x.hash.length_eq, y.hash.length_eq])
      obtain ⟨hsize, h⟩ := delimits_toLeBytes _ _ ha.size hb.size _ _ h
      have heq : x.hash = y.hash := by
        cases hx : x.hash
        cases hy : y.hash
        rw [hx, hy] at hhash
        cases hhash
        rfl
      rw [List.nil_append, List.cons.injEq] at h
      have hexec : x.exec = y.exec := by
        cases hx : x.exec <;> cases hy : y.exec <;> simp [hx, hy] at h ⊢
      refine ⟨?_, h.2⟩
      simp only [EntryState.identity, heq, hsize, hexec]

theorem delimits_head :
    Delimits Head.encode (fun h => h.version.Fits ∧ h.state.Fits) Head.Same := by
  intro a b ha hb t t' h
  simp only [Head.encode, List.append_assoc] at h
  obtain ⟨hlen, h⟩ := delimits_toLeBytes _ _ ha.1.size hb.1.size _ _ h
  obtain ⟨hpairs, h⟩ := delimits_pairBytes.many ha.1.counters hb.1.counters hlen h
  rw [List.forall₂_eq_eq_eq] at hpairs
  obtain ⟨hstate, ht⟩ := delimits_state _ _ ha.2 hb.2 _ _ h
  exact ⟨Head.same_iff.2 ⟨VectorClock.iter_injective hpairs, hstate⟩, ht⟩

theorem Head.encode_ne_nil (h : Head) : h.encode ≠ [] := by
  intro he
  have hlen := congrArg List.length he
  simp only [Head.encode, List.length_append, toLeBytes_length, List.length_nil] at hlen
  omega

/-- Heads that are the same have one encoding. -/
theorem Head.Same.encode {a b : Head} (h : a.Same b) : a.encode = b.encode := by
  obtain ⟨hv, hs⟩ := Head.same_iff.1 h
  have hstate : a.state.encode = b.state.encode := by
    cases ha : a.state with
    | tombstone =>
      cases hb : b.state with
      | tombstone => rfl
      | present y =>
        rw [ha, hb] at hs
        cases hs
    | present x =>
      cases hb : b.state with
      | tombstone =>
        rw [ha, hb] at hs
        cases hs
      | present y =>
        rw [ha, hb] at hs
        simp only [EntryState.identity, Option.some.injEq, Prod.mk.injEq] at hs
        simp only [EntryState.encode, hs.1, hs.2.1, hs.2.2]
  rw [Head.encode, Head.encode, hv, hstate]

namespace Index
variable {i j : Index}

/-- One record of `canonical_bytes`. -/
def record (x : RelPath × Entry) : List UInt8 :=
  toLeBytes (pathBytes x.1).length ++ pathBytes x.1 ++
    (toLeBytes x.2.heads.length ++ x.2.heads.flatMap Head.encode)

theorem canonicalBytes_eq (i : Index) : i.canonicalBytes = i.iter.flatMap record := rfl

/-- One path with the same heads. -/
def SameRecord (x y : RelPath × Entry) : Prop := x.1 = y.1 ∧ x.2.Same y.2

theorem pathBytes_injective {p q : RelPath} (h : pathBytes p = pathBytes q) : p = q := by
  apply RelPath.ext_raw
  have hp := Codec.fromUtf8_toUtf8 p.raw
  have hq := Codec.fromUtf8_toUtf8 q.raw
  have he : Codec.toUtf8 p.raw = Codec.toUtf8 q.raw := h
  rw [he, hq] at hp
  exact (Option.some.inj hp).symm

theorem delimits_record :
    Delimits record (fun x => x.1.Fits ∧ x.2.Fits) SameRecord := by
  intro x y hx hy t t' h
  simp only [record, List.append_assoc] at h
  obtain ⟨hlen, h⟩ := delimits_toLeBytes _ _ hx.1 hy.1 _ _ h
  obtain ⟨hpath, h⟩ := List.append_inj h hlen
  obtain ⟨hcount, h⟩ := delimits_toLeBytes _ _ hx.2.length hy.2.length _ _ h
  obtain ⟨hheads, ht⟩ := delimits_head.many (fun a ha => ⟨hx.2.version a ha, hx.2.state a ha⟩)
    (fun a ha => ⟨hy.2.version a ha, hy.2.state a ha⟩) hcount h
  exact ⟨⟨pathBytes_injective hpath, hheads⟩, ht⟩

theorem record_ne_nil (x : RelPath × Entry) : record x ≠ [] := by
  intro h
  have hlen := congrArg List.length h
  simp only [record, List.length_append, toLeBytes_length, List.length_nil] at hlen
  omega

/-- Records that are the same have one encoding. -/
theorem SameRecord.record {x y : RelPath × Entry} (h : SameRecord x y) : record x = record y := by
  have hflat {l l' : List Head} (hs : List.Forall₂ Head.Same l l') :
      l.flatMap Head.encode = l'.flatMap Head.encode := by
    induction hs with
    | nil => rfl
    | cons hab _ ih => rw [List.flatMap_cons, List.flatMap_cons, hab.encode, ih]
  rw [Index.record, Index.record, h.1, hflat h.2, h.2.length_eq]

/-- Whatever records of two indices are strung together, equal bytes come from equal records. -/
theorem records_same (hi : i.Fits) (hj : j.Fits) (hl : ∀ x ∈ l, x ∈ i.iter)
    (hl' : ∀ x ∈ l', x ∈ j.iter) (h : l.flatMap record = l'.flatMap record) :
    List.Forall₂ SameRecord l l' := by
  apply delimits_record.stream record_ne_nil _ _ h
  · intro x hx
    exact ⟨hi.path x (hl x hx), hi.entry x (hl x hx)⟩
  · intro x hx
    exact ⟨hj.path x (hl' x hx), hj.entry x (hl' x hx)⟩

/-- The same paths, with the same heads at each. -/
def Same (i j : Index) : Prop := ∀ p, Option.Rel Entry.Same (i.get p) (j.get p)

/-- Two indices are the same exactly where their records are, one by one. -/
theorem same_iff : i.Same j ↔ List.Forall₂ SameRecord i.iter j.iter := by
  have hrecord : SameRecord = fun x y => (x.1, x.2.identity) = (y.1, y.2.identity) := by
    funext x y
    rw [Prod.mk.injEq, SameRecord, Entry.same_iff]
  have hmap (i : Index) : (i.entries.map fun _ e => e.identity).toList =
      i.iter.map fun x => (x.1, x.2.identity) := Std.ExtTreeMap.toList_map
  have hsame : i.Same j ↔
      (i.entries.map fun _ e => e.identity) = (j.entries.map fun _ e => e.identity) := by
    constructor
    · intro h
      apply Std.ExtTreeMap.ext_getElem?
      intro p
      rw [Std.ExtTreeMap.getElem?_map, Std.ExtTreeMap.getElem?_map]
      exact Entry.rel_iff.1 (h p)
    · intro h p
      have hp := congrArg (fun m => m[p]?) h
      simp only [Std.ExtTreeMap.getElem?_map] at hp
      exact Entry.rel_iff.2 hp
  rw [hsame, hrecord, forall₂_map_eq, ← hmap, ← hmap, Std.ExtTreeMap.toList_inj]

/-- The canonical bytes of two indices are equal exactly where the indices are the same up to
mtimes, and no string of records of one is a string of other records of the other. -/
theorem canonicalBytes_injective (hi : i.Fits) (hj : j.Fits) :
    (i.canonicalBytes = j.canonicalBytes ↔ i.Same j) ∧
      ∀ l l' : List (RelPath × Entry), (∀ x ∈ l, x ∈ i.iter) → (∀ x ∈ l', x ∈ j.iter) →
        (l.flatMap record = l'.flatMap record ↔ List.Forall₂ SameRecord l l') := by
  have hstrings (l l' : List (RelPath × Entry)) (hl : ∀ x ∈ l, x ∈ i.iter)
      (hl' : ∀ x ∈ l', x ∈ j.iter) :
      l.flatMap record = l'.flatMap record ↔ List.Forall₂ SameRecord l l' := by
    constructor
    · exact records_same hi hj hl hl'
    · intro h
      clear hl hl'
      induction h with
      | nil => rfl
      | cons hxy _ ih => rw [List.flatMap_cons, List.flatMap_cons, hxy.record, ih]
  refine ⟨?_, hstrings⟩
  rw [canonicalBytes_eq, canonicalBytes_eq, same_iff]
  exact hstrings _ _ (fun _ h => h) fun _ h => h

end Index

theorem writtenAt_valid : pathError ['f'] = none := by decide

/-- An index of one file, last written at some time. -/
def writtenAt (mtimeMs : Nat) : Index :=
  Index.new.upsert ⟨['f'], writtenAt_valid⟩
    (.single (VectorClock.new.tick ⟨1⟩) (.present ⟨⟨List.replicate 32 1, by decide⟩, 1, false, mtimeMs⟩))

theorem writtenAt_fits (h : mtimeMs < 2 ^ 64) : (writtenAt mtimeMs).Fits := by
  have hone (x : RelPath × Entry) (hx : x ∈ (writtenAt mtimeMs).iter) :
      x.1.raw = ['f'] ∧ x.2 = .single (VectorClock.new.tick ⟨1⟩)
        (.present ⟨⟨List.replicate 32 1, by decide⟩, 1, false, mtimeMs⟩) := by
    obtain ⟨p, e⟩ := x
    rw [Index.mem_iter, writtenAt, Index.get_upsert, Index.get_new] at hx
    split at hx
    next hp =>
      cases hx
      exact ⟨by rw [← hp], rfl⟩
    next => cases hx
  have hclock : (VectorClock.new.tick ⟨1⟩).Fits := ⟨by decide +kernel, by decide +kernel⟩
  constructor
  · intro x hx
    rw [RelPath.Fits, (hone x hx).1]
    decide +kernel
  · intro x hx
    rw [(hone x hx).2]
    constructor
    · intro g hg
      rw [List.mem_singleton.1 hg]
      exact hclock
    · intro g hg
      rw [List.mem_singleton.1 hg]
      exact ⟨Nat.one_lt_two_pow (by decide), h⟩
    · exact Nat.one_lt_two_pow (by decide)
  · have hle : (writtenAt mtimeMs).iter.length ≤ 1 := by
      rw [Index.iter, Std.ExtTreeMap.length_toList]
      exact Std.ExtTreeMap.size_insert_le
    omega

/-- The mtime of a file is not in the bytes. -/
theorem canonicalBytes_injective_written :
    ((writtenAt 5).canonicalBytes = (writtenAt 9).canonicalBytes ↔
        (writtenAt 5).Same (writtenAt 9)) ∧
      ∀ l l' : List (RelPath × Entry), (∀ x ∈ l, x ∈ (writtenAt 5).iter) →
        (∀ x ∈ l', x ∈ (writtenAt 9).iter) →
        (l.flatMap Index.record = l'.flatMap Index.record ↔
          List.Forall₂ Index.SameRecord l l') :=
  Index.canonicalBytes_injective (writtenAt_fits (by decide)) (writtenAt_fits (by decide))

end Tomo
