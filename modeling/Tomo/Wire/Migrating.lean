import Tomo.Wire.Persist

namespace Tomo
set_option autoImplicit true

open Codec (NoZero)

/-- A head whose state carries an mtime other than zero. -/
def Head.Dated (h : Head) : Prop := ∃ sig, h.state = .present sig ∧ sig.mtimeMs ≠ 0

section
variable {e : LegacyEntry} {h : LegacyHead} {i : LegacyIndex} {sig : LegacySig}

/-- In the place of its mtime the current layout reads what follows a legacy signature. -/
theorem LegacyHead.misread (hs : h.state = .present sig) (hv : h.version.Fits)
    (hsize : sig.size < 2 ^ 64) (rest : List UInt8) :
    Head.codec.read (LegacyHead.codec.write h ++ rest) = (Codec.u64.read rest).map fun r =>
      (⟨h.version, .present ⟨sig.hash, sig.size, sig.exec, r.1⟩⟩, r.2) := by
  have hbytes : LegacyHead.codec.write h ++ rest =
      VectorClock.codec.write h.version ++ (Codec.u32.write 0 ++ (ContentHash.codec.write sig.hash ++
        (Codec.u64.write sig.size ++ (Codec.bool.write sig.exec ++ rest)))) := by
    obtain ⟨v, s⟩ := h
    cases hs
    simp only [LegacyHead.codec, LegacyState.codec, LegacySig.codec, Codec.map, Codec.pair,
      Codec.either, LegacyState.variant, List.append_assoc]
  rw [hbytes, Head.codec, Codec.map]
  dsimp only
  rw [Codec.read_pair (VectorClock.reads hv), EntryState.codec, Codec.map]
  dsimp only
  rw [Codec.read_inl, ContentSig.codec, Codec.map]
  dsimp only
  rw [Codec.read_pair (ContentHash.reads sig.hash), Codec.read_pair (Codec.reads_u64 hsize),
    Codec.read_pair (Codec.reads_bool sig.exec)]
  simp only [Option.map_map]
  rfl

theorem VectorClock.le_of_iter_nil {v w : VectorClock} (h : v.iter = []) : v ≤ w := by
  intro r
  have hv : v.get r = 0 := by
    cases hg : v.counters[r]? with
    | none => rw [get, hg, Option.getD_none]
    | some n =>
      have hm : (r, n) ∈ v.iter := Std.ExtTreeMap.mem_toList_iff_getElem?_eq_some.2 hg
      rw [h] at hm
      cases hm
  rw [hv]
  exact Nat.zero_le _

/-- Next to other heads no head has an empty clock. -/
theorem Entry.Canonical.iter_ne_nil {entry : Entry} (hc : entry.Canonical) :
    ∀ h ∈ entry.heads.tail, h.version.iter ≠ [] := by
  have hpair := hc.concurrent
  intro h hh hnil
  cases hheads : entry.heads with
  | nil =>
    rw [hheads] at hh
    cases hh
  | cons first heads =>
    rw [hheads] at hh hpair
    have hconc := (List.pairwise_cons.1 hpair).1 h hh
    exact ((VectorClock.concurrent_iff _ _).1 hconc).2 (VectorClock.le_of_iter_nil hnil)

theorem noZero_heads {hs : List LegacyHead} (hv : ∀ h ∈ hs, h.version.Fits)
    (hne : ∀ h ∈ hs, h.version.iter ≠ []) (htail : NoZero tail) :
    NoZero (hs.flatMap LegacyHead.codec.write ++ tail) := by
  cases hs with
  | nil => exact htail
  | cons h hs =>
    have hlen : h.version.iter.length ≠ 0 := fun h0 =>
      hne h List.mem_cons_self (List.eq_nil_of_length_eq_zero h0)
    have hpos := fun rest =>
      Codec.noZero_write hlen (hv h List.mem_cons_self).size rest
    rw [List.flatMap_cons]
    simp only [LegacyHead.codec, VectorClock.codec, Codec.btreeMap, Codec.map, Codec.pair, Codec.seq,
      Codec.usize, List.append_assoc]
    exact hpos _

theorem noZero_entries {es : List (RelPath × LegacyEntry)} (hp : ∀ x ∈ es, x.1.Fits) :
    NoZero (es.flatMap (RelPath.codec.pair LegacyEntry.codec).write) := by
  cases es with
  | nil => exact Codec.noZero_nil
  | cons x es =>
    have hlen : (Codec.toUtf8 x.1.raw).length ≠ 0 := by
      intro h0
      have hraw : x.1.raw ≠ [] := ((RelPath.pathError_eq_none _).1 x.1.valid).1
      obtain ⟨c, cs, hcons⟩ := List.exists_cons_of_ne_nil hraw
      have hnil := List.eq_nil_of_length_eq_zero h0
      rw [hcons, Codec.toUtf8, List.flatMap_cons, List.append_eq_nil_iff] at hnil
      exact String.utf8EncodeChar_ne_nil hnil.1
    have hpos := fun rest => Codec.noZero_write hlen (hp x List.mem_cons_self) rest
    rw [List.flatMap_cons]
    simp only [Codec.pair, RelPath.codec, Codec.check, Codec.str, Codec.bytes, Codec.usize,
      List.append_assoc]
    exact hpos _

/-- Read in the current layout, heads with a present one among them get an mtime. -/
theorem heads_misread {hs : List LegacyHead} (hv : ∀ h ∈ hs, h.version.Fits)
    (hf : ∀ h ∈ hs, h.upgrade.state.Fits) (hne : ∀ h ∈ hs.tail, h.version.iter ≠ [])
    (hp : ∃ h ∈ hs, h.state ≠ .tombstone) (htail : NoZero tail)
    (hread : Head.codec.readMany hs.length (hs.flatMap LegacyHead.codec.write ++ tail) =
      some (gs, rest)) : ∃ g ∈ gs, g.Dated := by
  induction hs generalizing gs with
  | nil =>
    obtain ⟨h, hh, _⟩ := hp
    cases hh
  | cons h hs ih =>
    have hvs : ∀ g ∈ hs, g.version.Fits := fun g hg => hv g (List.mem_cons_of_mem h hg)
    rw [List.flatMap_cons, List.append_assoc, List.length_cons, Codec.readMany,
      Option.bind_eq_some_iff] at hread
    obtain ⟨⟨g, bs⟩, hg, hread⟩ := hread
    obtain ⟨⟨gs', rest'⟩, hgs, heq⟩ := Option.map_eq_some_iff.1 hread
    cases heq
    cases hs' : h.state with
    | present sig =>
      have hsize := hf h List.mem_cons_self
      rw [LegacyHead.upgrade, hs'] at hsize
      rw [LegacyHead.misread hs' (hv h List.mem_cons_self) hsize.size, Option.map_eq_some_iff] at hg
      obtain ⟨⟨mtime, bs'⟩, hm, heq⟩ := hg
      cases heq
      exact ⟨_, List.mem_cons_self, _, rfl, noZero_heads hvs hne htail mtime _ hm⟩
    | tombstone =>
      have hreads := Head.reads (h := h.upgrade) (hv h List.mem_cons_self) (hf h List.mem_cons_self)
      rw [LegacyHead.write_tombstone hs', hreads] at hg
      cases hg
      have hp' : ∃ g ∈ hs, g.state ≠ .tombstone := by
        obtain ⟨g, hg, hn⟩ := hp
        rcases List.mem_cons.1 hg with rfl | hg
        · exact (hn hs').elim
        · exact ⟨g, hg, hn⟩
      obtain ⟨d, hd, hdated⟩ := ih hvs (fun g hg => hf g (List.mem_cons_of_mem h hg))
        (fun g hg => hne g (List.mem_of_mem_tail hg)) hp' hgs
      exact ⟨d, List.mem_cons_of_mem _ hd, hdated⟩

theorem entry_misread {entry : Entry} (hf : e.upgrade.Fits) (hc : e.upgrade.Canonical)
    (hp : ∃ h ∈ e.heads, h.state ≠ .tombstone) (htail : NoZero tail)
    (hread : Entry.codec.read (LegacyEntry.codec.write e ++ tail) = some (entry, rest)) :
    ∃ g ∈ entry.heads, g.Dated := by
  have hlen := hf.length
  rw [LegacyEntry.upgrade, List.length_map] at hlen
  have hmap : ∀ h ∈ e.heads, h.upgrade ∈ e.upgrade.heads := fun h hh => List.mem_map_of_mem hh
  simp only [Entry.codec, LegacyEntry.codec, Codec.map, Codec.seq, List.append_assoc,
    Option.map_eq_some_iff, Option.bind_eq_some_iff] at hread
  obtain ⟨⟨gs, rest'⟩, ⟨⟨n, bs⟩, hn, hgs⟩, heq⟩ := hread
  cases heq
  rw [Codec.usize, Codec.reads_u64 hlen] at hn
  cases hn
  apply heads_misread (fun h hh => hf.version _ (hmap h hh)) (fun h hh => hf.state _ (hmap h hh)) _
    hp htail hgs
  intro h hh
  have hne := hc.iter_ne_nil h.upgrade
  rw [LegacyEntry.upgrade, ← List.map_tail] at hne
  exact hne (List.mem_map_of_mem hh)

/-- So do the entries of a file. -/
theorem entries_misread {es : List (RelPath × LegacyEntry)} {raw : List (RelPath × Entry)}
    (hpath : ∀ x ∈ es, x.1.Fits) (hf : ∀ x ∈ es, x.2.upgrade.Fits) (hc : ∀ x ∈ es, x.2.upgrade.Canonical)
    (hp : ∃ x ∈ es, ∃ h ∈ x.2.heads, h.state ≠ .tombstone)
    (hread : (RelPath.codec.pair Entry.codec).readMany es.length
      (es.flatMap (RelPath.codec.pair LegacyEntry.codec).write) = some (raw, rest)) :
    ∃ x ∈ raw, ∃ g ∈ x.2.heads, g.Dated := by
  induction es generalizing raw with
  | nil =>
    obtain ⟨x, hx, _⟩ := hp
    cases hx
  | cons x es ih =>
    have hpaths : ∀ y ∈ es, y.1.Fits := fun y hy => hpath y (List.mem_cons_of_mem x hy)
    rw [List.flatMap_cons, List.length_cons, Codec.readMany, Option.bind_eq_some_iff] at hread
    obtain ⟨⟨y, bs⟩, hy, hread⟩ := hread
    obtain ⟨⟨raw', rest'⟩, hraw, heq⟩ := Option.map_eq_some_iff.1 hread
    cases heq
    have hpair : (RelPath.codec.pair LegacyEntry.codec).write x =
        RelPath.codec.write x.1 ++ LegacyEntry.codec.write x.2 := rfl
    rw [hpair, List.append_assoc, Codec.read_pair (RelPath.reads (hpath x List.mem_cons_self)),
      Option.map_eq_some_iff] at hy
    obtain ⟨⟨entry, bs'⟩, hentry, heq⟩ := hy
    cases heq
    by_cases hx : ∃ h ∈ x.2.heads, h.state ≠ .tombstone
    · exact ⟨_, List.mem_cons_self, entry_misread (hf x List.mem_cons_self)
        (hc x List.mem_cons_self) hx (noZero_entries hpaths) hentry⟩
    · have hall : ∀ h ∈ x.2.heads, h.state = .tombstone := fun h hh =>
        by_contra fun hn => hx ⟨h, hh, hn⟩
      rw [LegacyEntry.write_tombstones hall, Entry.reads (hf x List.mem_cons_self)] at hentry
      cases hentry
      have hp' : ∃ y ∈ es, ∃ h ∈ y.2.heads, h.state ≠ .tombstone := by
        obtain ⟨y, hy, hpy⟩ := hp
        rcases List.mem_cons.1 hy with rfl | hy
        · exact (hx hpy).elim
        · exact ⟨y, hy, hpy⟩
      obtain ⟨z, hz, hdated⟩ := ih hpaths (fun y hy => hf y (List.mem_cons_of_mem x hy))
        (fun y hy => hc y (List.mem_cons_of_mem x hy)) hp' hraw
      exact ⟨z, List.mem_cons_of_mem _ hz, hdated⟩

/-- Read in the current layout, a file with a present head is not its own upgrade. -/
theorem LegacyIndex.misread (h : i.Held) (hp : ¬i.AllTombstones)
    (hread : Index.codec.fromBytes i.store = some index) : index ≠ i.upgrade := by
  rintro rfl
  simp only [Codec.fromBytes, Index.codec, LegacyIndex.store, LegacyIndex.codec, Codec.btreeMap,
    Codec.map, Codec.seq, Option.map_eq_some_iff, Option.bind_eq_some_iff] at hread
  obtain ⟨⟨_, rest⟩, ⟨⟨_, rest⟩, ⟨⟨raw, rest⟩, ⟨⟨n, bs⟩, hn, hraw⟩, heq⟩, heq'⟩, heq''⟩ := hread
  cases heq
  cases heq'
  have hcount := Codec.reads_u64 h.length (i.iter.flatMap (RelPath.codec.pair LegacyEntry.codec).write)
  cases hn.symm.trans hcount
  have hp' : ∃ x ∈ i.iter, ∃ h ∈ x.2.heads, h.state ≠ .tombstone := by
    unfold LegacyIndex.AllTombstones at hp
    push Not at hp
    exact hp
  obtain ⟨x, hx, g, hg, sig, hstate, hm⟩ := entries_misread h.path h.entry h.canonical hp' hraw
  have hget (p : RelPath) : (Codec.ofRecords raw)[p]? = i.upgrade.get p :=
    congrArg (fun j : Index => j.get p) heq''
  -- every path of the index is the path of a record, and there are no more records than paths
  have hsub : i.iter.map Prod.fst ⊆ raw.map Prod.fst := by
    intro p hpath
    obtain ⟨y, hy, rfl⟩ := List.mem_map.1 hpath
    have hsome := hget y.1
    rw [Codec.getElem?_ofRecords, LegacyIndex.get_upgrade,
      Std.ExtTreeMap.mem_toList_iff_getElem?_eq_some.1 hy] at hsome
    have hmem := List.mem_reverse.1 (Codec.mem_of_lookup_eq_some hsome)
    exact List.mem_map_of_mem hmem
  have hnodup : (i.iter.map Prod.fst).Nodup :=
    List.pairwise_map.2 (Codec.toList_distinct i.entries)
  have hlen : (raw.map Prod.fst).length ≤ (i.iter.map Prod.fst).length := by
    rw [List.length_map, List.length_map, Codec.readMany_length hraw]
  have hperm := (List.subperm_of_subset hnodup hsub).perm_of_length_le hlen
  have hdistinct : raw.Pairwise fun a b => a.1 ≠ b.1 :=
    List.pairwise_map.1 (hperm.nodup_iff.1 hnodup)
  have hentry := hget x.1
  rw [(Codec.getElem?_ofRecords_of_distinct hdistinct).2 hx, LegacyIndex.get_upgrade] at hentry
  obtain ⟨entry, _, hupgrade⟩ := Option.map_eq_some_iff.1 hentry.symm
  rw [← hupgrade] at hg
  obtain ⟨head, _, rfl⟩ := List.mem_map.1 hg
  rw [LegacyHead.upgrade] at hstate
  cases hs : head.state with
  | present old =>
    rw [hs] at hstate
    cases hstate
    exact hm rfl
  | tombstone =>
    rw [hs] at hstate
    cases hstate

/-- The file of a legacy index is loaded as its upgrade, and no other reading of it is accepted. -/
structure LegacyIndex.Migrates (i : LegacyIndex) : Prop where
  loads : loadIndex (.ok i.store) = .ok (i.upgrade, false)
  unmistaken : ∀ index, Index.codec.fromBytes i.store = some index → index = i.upgrade

/-- A legacy file migrates exactly when the two layouts agree on it, for want of present files, or
the current decoder rejects it; what the current layout stores is always loaded again. -/
theorem LegacyIndex.migrates_iff (h : i.Held) {current : Index} (hcurrent : current.Fits) :
    (i.Migrates ∧ loadIndex (.ok (storeIndex current)) = .ok (current, false)) ↔
      (i.AllTombstones ∨ Index.codec.fromBytes i.store = none) := by
  constructor
  · rintro ⟨hm, _⟩
    by_contra hn
    obtain ⟨hp, hnone⟩ := not_or.1 hn
    obtain ⟨index, hread⟩ := Option.ne_none_iff_exists'.1 hnone
    exact misread h hp hread (hm.unmistaken index hread)
  · intro hc
    refine ⟨?_, loadIndex_storeIndex hcurrent⟩
    rcases hc with hall | hnone
    · have hfits := fits_upgrade h
      have hstore := store_tombstones hall
      constructor
      · rw [hstore]
        exact loadIndex_storeIndex hfits
      · intro index hread
        rw [hstore, fromBytes_storeIndex hfits] at hread
        cases hread
        rfl
    · constructor
      · rw [loadIndex, hnone]
        dsimp only
        rw [decode_store h]
      · intro index hread
        rw [hnone] at hread
        cases hread

/-- A legacy index of single heads is one that a program could hold. -/
theorem LegacyIndex.held_of_single (h : ∀ x ∈ i.iter, ∃ h, x.2.heads = [h] ∧
      h.version.Fits ∧ h.upgrade.state.Fits) (hp : ∀ x ∈ i.iter, x.1.Fits)
    (hl : i.iter.length < 2 ^ 64) : i.Held where
  canonical x hx := by
    obtain ⟨head, heq, _, _⟩ := h x hx
    rw [LegacyEntry.upgrade, heq]
    exact Entry.canonical_single head.version (upgradeState head.state)
  path := hp
  entry x hx := by
    obtain ⟨head, heq, hv, hs⟩ := h x hx
    rw [LegacyEntry.upgrade, heq]
    constructor
    · intro g hg
      cases List.mem_singleton.1 hg
      exact hv
    · intro g hg
      cases List.mem_singleton.1 hg
      exact hs
    · exact Nat.one_lt_two_pow (by decide)
  length := hl

end

/-- The clock of a replica's first change. -/
def firstClock : VectorClock := VectorClock.new.tick ⟨7⟩

theorem firstClock_fits : firstClock.Fits := ⟨by decide +kernel, by decide +kernel⟩

def bangPath : RelPath := ⟨['!'], by decide⟩

/-- A path of 34 bytes, one more than its first byte says. -/
def longPath : RelPath := ⟨'!' :: List.replicate 33 'a', by decide⟩

def buried : LegacyEntry := ⟨[⟨firstClock, .tombstone⟩]⟩

def kept : LegacyEntry :=
  ⟨[⟨firstClock, .present ⟨⟨List.replicate 32 9, by decide⟩, 5, false⟩⟩]⟩

theorem buriedIndex_held : LegacyIndex.Held ⟨Codec.ofRecords [(longPath, buried)]⟩ := by
  have hiter : LegacyIndex.iter ⟨Codec.ofRecords [(longPath, buried)]⟩ = [(longPath, buried)] := by
    decide +kernel
  apply LegacyIndex.held_of_single
  · intro x hx
    rw [hiter, List.mem_singleton] at hx
    subst x
    exact ⟨_, rfl, firstClock_fits, trivial⟩
  · unfold RelPath.Fits
    decide +kernel
  · decide +kernel

/-- Nothing of a deleted file's record depends on the layout. -/
theorem buried_migrates :
    LegacyIndex.Migrates ⟨Codec.ofRecords [(longPath, buried)]⟩ ∧
      loadIndex (.ok (storeIndex .new)) = .ok (.new, false) := by
  apply (LegacyIndex.migrates_iff buriedIndex_held Index.fits_new).2
  left
  unfold LegacyIndex.AllTombstones
  decide +kernel

def shiftedIndex : LegacyIndex := ⟨Codec.ofRecords [(bangPath, kept), (longPath, buried)]⟩

/-- What the current layout makes of that file: the length of the second path is an mtime, and its
first character the length of another path. -/
def shiftedReading : Index :=
  ⟨Codec.ofRecords
    [(bangPath, ⟨[⟨firstClock, .present ⟨⟨List.replicate 32 9, by decide⟩, 5, false, 34⟩⟩]⟩),
      (⟨List.replicate 33 'a', by decide⟩, ⟨[⟨firstClock, .tombstone⟩]⟩)]⟩

theorem shiftedIndex_held : shiftedIndex.Held := by
  have hiter : shiftedIndex.iter = [(bangPath, kept), (longPath, buried)] := by decide +kernel
  apply LegacyIndex.held_of_single
  · intro x hx
    rw [hiter, List.mem_cons, List.mem_singleton] at hx
    rcases hx with rfl | rfl
    · exact ⟨_, rfl, firstClock_fits, by decide, by decide⟩
    · exact ⟨_, rfl, firstClock_fits, trivial⟩
  · unfold RelPath.Fits
    decide +kernel
  · decide +kernel

/-- A legacy file that loads as another index, which has lost a path and gained one. -/
theorem shifted_not_migrated : shiftedIndex.Held ∧ ¬shiftedIndex.Migrates := by
  refine ⟨shiftedIndex_held, fun h => ?_⟩
  have hbytes : shiftedIndex.store = storeIndex shiftedReading := by decide +kernel
  have hread : Index.codec.fromBytes (storeIndex shiftedReading) = some shiftedReading := by
    decide +kernel
  have hother : shiftedReading ≠ shiftedIndex.upgrade := by decide +kernel
  rw [← hbytes] at hread
  exact hother (h.unmistaken shiftedReading hread)

end Tomo
