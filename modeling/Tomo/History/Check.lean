import Tomo.History.Database
import Tomo.History.Fidelity
import Tomo.Lib.Outcome

namespace Tomo
set_option autoImplicit true

theorem fromSqlInt_toSqlInt (h : n ≤ u64Max) : fromSqlInt (toSqlInt n) = n := by
  have hlt : n < 2 ^ 64 := by
    unfold u64Max at h
    omega
  simp only [fromSqlInt, toSqlInt, UInt64.toUInt64_toInt64, UInt64.toNat_ofNat']
  exact Nat.mod_eq_of_lt hlt

theorem lenU64_le (n : Nat) : lenU64 n ≤ u64Max := Nat.min_le_right _ _

theorem saturatingAdd_lenU64 (n a b : Nat) :
    saturatingAdd (saturatingAdd n (lenU64 a)) b = saturatingAdd n (a + b) := by
  unfold saturatingAdd lenU64
  omega

theorem saturatingAdd_zero (h : n ≤ u64Max) : saturatingAdd n 0 = n := by
  unfold saturatingAdd
  omega

theorem chunksExact_cons {a : Bytes} (hn : 0 < n) (ha : a.length = n) (b : Bytes) :
    chunksExact n (a ++ b) = a :: chunksExact n b := by
  have hlen : (a ++ b).length / n = b.length / n + 1 := by
    rw [List.length_append, ha, Nat.add_div_left _ hn]
  unfold chunksExact
  rw [hlen, List.range_succ_eq_map, List.map_cons, List.map_map]
  congr 1
  · simp [slice, ← ha]
  · refine List.map_congr_left fun i _ => ?_
    have hdrop : n * (i + 1) = a.length + n * i := by rw [ha, Nat.mul_succ, Nat.add_comm]
    rw [Function.comp_apply, slice, slice, Nat.succ_eq_add_one, hdrop, ← List.drop_drop,
      List.drop_left]

theorem chunksExact_hashes (l : List ContentHash) :
    chunksExact 32 (l.flatMap ContentHash.bytes) = l.map ContentHash.bytes := by
  induction l with
  | nil => rfl
  | cons a l ih =>
    rw [List.flatMap_cons, chunksExact_cons (by decide) a.length_eq, ih]
    rfl

namespace Database
open Outcome
variable [Platform] {db : Database} {r : VersionCells} {c : ChunkCells}
  {plain hash manifest : Bytes}

theorem decompressAndVerify_ok (h : decompressAndVerify hash size z = .ok plain) :
    lenU64 plain.length = size ∧ (Platform.blake3 plain).bytes = hash := by
  unfold decompressAndVerify at h
  split at h
  · cases h
  · split at h
    · cases h
    next hs =>
      split at h
      · cases h
      next hh =>
        cases h
        exact ⟨not_not.1 hs, not_not.1 hh⟩

/-- A chunk row that `check` has nothing against. -/
theorem checkChunk_clean (h : checkChunk c = .ok []) :
    ∃ hash size z plain, c = ⟨.blob hash, .integer size, .blob z⟩ ∧
      decompressAndVerify hash (fromSqlInt size) z = .ok plain := by
  obtain ⟨hash, hh, h₁⟩ := bind_ok.1 h
  obtain ⟨size, hs, h₂⟩ := bind_ok.1 h₁
  obtain ⟨z, hz, h₃⟩ := bind_ok.1 h₂
  obtain ⟨c₁, c₂, c₃⟩ := c
  cases SqlValue.asBlob_ok hh
  cases SqlValue.asI64_ok hs
  cases SqlValue.asBlob_ok hz
  cases hv : decompressAndVerify hash (fromSqlInt size) z with
  | error e =>
    rw [hv] at h₃
    cases h₃
  | ok plain => exact ⟨hash, size, z, plain, rfl, hv⟩

omit [Platform] in
theorem chunkRow_mem (h : db.chunkRow hash = some c) : c ∈ db.chunks ∧ c.hash = .blob hash :=
  ⟨List.mem_of_find?_eq_some h, of_decide_eq_true (List.find?_some (p := fun c : ChunkCells =>
    decide (c.hash = .blob hash)) h)⟩

/-- Where every chunk row is sound, the sum of the recorded sizes is that of what is read. -/
theorem sumChunks_clean (hc : ∀ c ∈ db.chunks, checkChunk c = .ok []) (hn : n ≤ u64Max)
    (h : db.sumChunks version hashes n = .ok ([], m)) :
    ∃ out, db.readChunks version hashes = .ok out ∧ m = saturatingAdd n out.length := by
  induction hashes generalizing n with
  | nil =>
    cases h
    exact ⟨[], rfl, (saturatingAdd_zero hn).symm⟩
  | cons hash rest ih =>
    unfold sumChunks at h
    cases hrow : db.chunkRow hash with
    | none =>
      rw [hrow] at h
      obtain ⟨u, _, hu⟩ := bind_ok.1 h
      cases hu
    | some c =>
      rw [hrow] at h
      obtain ⟨size, hsize, hrest⟩ := bind_ok.1 h
      obtain ⟨hmem, hhash⟩ := chunkRow_mem hrow
      obtain ⟨hash', size', z, plain, rfl, hv⟩ := checkChunk_clean (hc c hmem)
      cases hhash
      cases hsize
      have hle : saturatingAdd n (fromSqlInt size) ≤ u64Max := Nat.min_le_right _ _
      obtain ⟨out, hout, hm⟩ := ih hle hrest
      refine ⟨plain ++ out, ?_, ?_⟩
      · simp only [readChunks, hrow, SqlValue.asI64, SqlValue.asBlob, hv, hout, bind, Except.bind]
        rfl
      · rw [hm, ← (decompressAndVerify_ok hv).1, saturatingAdd_lenU64, List.length_append]

/-- A row that `check` has nothing against can be put together, to its recorded size. -/
theorem checkVersion_clean (hc : ∀ c ∈ db.chunks, checkChunk c = .ok [])
    (h : db.checkVersion r = .ok []) :
    ∃ manifest out, r.manifest = .blob manifest ∧ manifest.length % 32 = 0 ∧
      db.readChunks r.id (chunksExact 32 manifest) = .ok out ∧
      (r.size = .null ∨ ∃ sz, r.size = .integer sz ∧ fromSqlInt sz = lenU64 out.length) := by
  obtain ⟨size, hs, h⟩ := bind_ok.1 h
  obtain ⟨manifest, hm, h⟩ := bind_ok.1 h
  cases manifest with
  | none => cases h
  | some manifest =>
    have hblob : r.manifest = .blob manifest := SqlValue.asOptBlob_ok hm
    by_cases hlen : manifest.length % 32 = 0
    · simp only [hlen, ne_eq, not_true_eq_false, ↓reduceIte] at h
      obtain ⟨⟨issues, summed⟩, hsum, h⟩ := bind_ok.1 h
      cases size with
      | none =>
        cases h
        obtain ⟨out, hout, _⟩ := sumChunks_clean hc (Nat.zero_le _) hsum
        exact ⟨manifest, out, hblob, hlen, hout, .inl (SqlValue.asOptI64_ok hs)⟩
      | some sz =>
        have hsz : fromSqlInt sz = summed := by
          by_contra hne
          simp only [hne, not_false_eq_true, ↓reduceIte] at h
          exact List.append_ne_nil_of_right_ne_nil _ (List.cons_ne_nil _ _) (Except.ok.inj h)
        have hissues : issues = [] := by
          simp only [hsz, not_true_eq_false, ↓reduceIte] at h
          exact Except.ok.inj h
        rw [hissues] at hsum
        obtain ⟨out, hout, hm⟩ := sumChunks_clean hc (Nat.zero_le _) hsum
        refine ⟨manifest, out, hblob, hlen, hout, .inr ⟨sz, SqlValue.asOptI64_ok hs, ?_⟩⟩
        rw [hsz, hm, saturatingAdd, Nat.zero_add, lenU64]
    · simp only [hlen, ne_eq, not_false_eq_true, ↓reduceIte] at h
      cases h

omit [Platform] in
theorem versionRow_mem (hr : r ∈ db.versions) : db.versionRow r.id = some r := by
  obtain ⟨as, bs, hv⟩ := List.append_of_mem hr
  have hk := db.keyed
  rw [hv, List.map_append, List.nodup_append] at hk
  rw [versionRow, List.find?_eq_some_iff_append]
  refine ⟨decide_eq_true rfl, as, bs, hv, fun a ha => ?_⟩
  have hne : a.id ≠ r.id :=
    hk.2.2 a.id (List.mem_map_of_mem ha) r.id (List.mem_map_of_mem List.mem_cons_self)
  simp [hne]

omit [Platform] in
theorem versionRow_some (h : db.versionRow n = some r) : r ∈ db.versions ∧ r.id = n :=
  ⟨List.mem_of_find?_eq_some h, of_decide_eq_true (List.find?_some (p := fun r : VersionCells =>
    decide (r.id = n)) h)⟩

theorem getContent_sound (hr : r ∈ db.versions) (hs : r.state = .integer 1)
    (hm : r.manifest = .blob manifest) (hlen : manifest.length % 32 = 0)
    (hread : db.readChunks r.id (chunksExact 32 manifest) = .ok out) :
    db.getContent r.id = (do
      let contentHash ← r.contentHash.asOptBlob
      match contentHash with
      | none => .error (.malformed r.id .noHash)
      | some contentHash => verifyWhole r.id contentHash out) := by
  rw [getContent, versionRow_mem hr]
  simp only [rowContent, hs, hm, SqlValue.asI64, bind, Except.bind]
  cases r.contentHash.asOptBlob with
  | error e => rfl
  | ok o =>
    cases o with
    | none => rfl
    | some h => simp [SqlValue.asOptBlob, hlen, hread, show ¬(1 : Int64) = 0 by decide]

/-- What a sound row reads back as depends on its recorded hash alone. -/
theorem getContent_iff (hr : r ∈ db.versions) (hs : r.state = .integer 1)
    (hm : r.manifest = .blob manifest) (hlen : manifest.length % 32 = 0)
    (hread : db.readChunks r.id (chunksExact 32 manifest) = .ok out) (b : Bytes) :
    db.getContent r.id = .ok b ↔
      b = out ∧ r.contentHash = .blob (Platform.blake3 out).bytes := by
  rw [getContent_sound hr hs hm hlen hread]
  cases hc : r.contentHash with
  | null | integer _ | real _ | text _ => simp [SqlValue.asOptBlob, bind, Except.bind]
  | blob h =>
    simp only [SqlValue.asOptBlob, bind, Except.bind, verifyWhole, toHash32, SqlValue.blob.injEq]
    by_cases h32 : h.length = 32
    · simp only [h32, ↓reduceDIte]
      by_cases he : Platform.blake3 out = ⟨h, h32⟩
      · simp only [he, ne_eq, not_true_eq_false, ↓reduceIte, and_true]
        constructor
        · intro h
          exact (Except.ok.inj h).symm
        · rintro rfl
          rfl
      · simp only [he, ne_eq, not_false_eq_true, ↓reduceIte, reduceCtorEq, false_iff, not_and]
        rintro _ rfl
        exact he rfl
    · simp only [h32, ↓reduceDIte, reduceCtorEq, false_iff, not_and]
      rintro _ rfl
      exact h32 (Platform.blake3 out).length_eq

theorem check_clean [Sqlite] {report : CheckReport} (h : db.check = .ok report)
    (hok : report.ok = true) :
    (∀ r ∈ db.present, db.checkVersion r = .ok []) ∧ ∀ c ∈ db.chunks, checkChunk c = .ok [] := by
  obtain ⟨vs, hvs, h⟩ := bind_ok.1 h
  obtain ⟨cs, hcs, h⟩ := bind_ok.1 h
  cases h
  simp only [List.isEmpty_iff, List.append_eq_nil_iff, List.flatten_eq_nil_iff] at hok
  have hall {α : Type} {f : α → Except ReadError (List Issue)} {l : List α} {ys : List (List Issue)}
      (hf : List.Forall₂ (fun a y => f a = .ok y) l ys) (hys : ∀ y ∈ ys, y = []) (a : α)
      (ha : a ∈ l) : f a = .ok [] := by
    induction hf with
    | nil => cases ha
    | cons hy _ ih =>
      rcases List.mem_cons.1 ha with rfl | ha
      · rw [hy, hys _ List.mem_cons_self]
      · exact ih (fun y h => hys y (List.mem_cons_of_mem _ h)) ha
  exact ⟨hall (mapM_ok.1 hvs) hok.1.2, hall (mapM_ok.1 hcs) hok.2⟩

end Database

namespace HistoryStore
open Outcome
variable [Platform] {h : HistoryStore} {r : VersionRow}

section
variable (serialize : VectorClock → Bytes)

/-- The cells of a row, as `insert_version` writes them. -/
def encodeVersion (r : VersionRow) : VersionCells :=
  match r.content with
  | some c => ⟨r.id, r.path.raw, .integer 1, .blob c.hash.bytes,
      .integer (toSqlInt (lenU64 c.size)), .blob (c.manifest.flatMap ContentHash.bytes),
      serialize r.clock, .integer (if c.exec then 1 else 0)⟩
  | none => ⟨r.id, r.path.raw, .integer 0, .null, .null, .null, serialize r.clock, .integer 0⟩

def encodeChunk (c : ContentHash × Nat × Bytes) : ChunkCells :=
  ⟨.blob c.1.bytes, .integer (toSqlInt (lenU64 c.2.1)), .blob c.2.2⟩

def encodeConflict (c : ConflictRow) : ConflictCells :=
  ⟨c.id, c.path.raw, c.winner, c.loser, toSqlInt c.wallMs, false⟩

omit [Platform] in
theorem encodeVersion_id (r : VersionRow) : (encodeVersion serialize r).id = r.id := by
  unfold encodeVersion
  split <;> rfl

/-- The file of a store. -/
def encode (h : HistoryStore) : Database where
  versions := h.versions.map (encodeVersion serialize)
  chunks := h.chunks.toList.map encodeChunk
  conflicts := h.conflicts.map encodeConflict
  keyed := by
    rw [List.map_map, List.Nodup, List.pairwise_map]
    refine h.ascending.imp fun {a b} hab => ?_
    simp only [Function.comp_apply, encodeVersion_id]
    omega

omit [Platform] in
theorem encode_chunkRow (h : HistoryStore) (key : ContentHash) :
    (h.encode serialize).chunkRow key.bytes =
      h.chunks[key]?.map fun row => encodeChunk (key, row) := by
  have hp (c : ContentHash × Nat × Bytes) :
      decide ((encodeChunk c).hash = .blob key.bytes) = (compare c.1 key == .eq) := by
    rw [Bool.eq_iff_iff, decide_eq_true_iff, beq_iff_eq, Std.compare_eq_iff_eq]
    simp only [encodeChunk, SqlValue.blob.injEq]
    constructor
    · intro he
      obtain ⟨⟨k, hk⟩, _⟩ := c
      obtain ⟨k', hk'⟩ := key
      cases he
      rfl
    · intro he
      rw [he]
  unfold Database.chunkRow encode
  simp only [List.find?_map, Function.comp_def, hp]
  cases hg : h.chunks[key]? with
  | none =>
    have hmem : key ∉ h.chunks := by
      rw [Std.ExtTreeMap.mem_iff_isSome_getElem?, hg]
      exact Bool.false_ne_true
    rw [Std.ExtTreeMap.find?_toList_eq_none_iff_not_mem.2 hmem]
    rfl
  | some row =>
    have hf := Std.ExtTreeMap.find?_toList_eq_some_iff_getKey?_eq_some_and_getElem?_eq_some.2
      (Std.ExtTreeMap.mem_toList_iff_getKey?_eq_some_and_getElem?_eq_some.1
        (Std.ExtTreeMap.mem_toList_iff_getElem?_eq_some.2 hg))
    rw [hf]
    rfl

/-- The reader of the file takes what the store's own reader takes. -/
theorem encode_decompress {size : Nat} {z : Bytes}
    (hv : decompressAndVerify key size z = .ok plain) :
    Database.decompressAndVerify key.bytes (fromSqlInt (toSqlInt (lenU64 size))) z = .ok plain := by
  unfold decompressAndVerify at hv
  unfold Database.decompressAndVerify
  cases hz : Platform.zstdDecode z with
  | none =>
    rw [hz] at hv
    cases hv
  | some bytes =>
    rw [hz] at hv
    dsimp only at hv ⊢
    split at hv
    · cases hv
    next hn =>
      cases hv
      rw [not_or, not_not, not_not] at hn
      rw [fromSqlInt_toSqlInt (lenU64_le size)]
      simp only [hn.1, hn.2, ne_eq, not_true_eq_false, ↓reduceIte]

/-- A manifest that reads back does so from the file, and its chunk sizes sum up. -/
theorem encode_readChunks (hr : h.readManifest v l = .ok out) (version : Int) (hn : n ≤ u64Max) :
    (h.encode serialize).readChunks version (l.map ContentHash.bytes) = .ok out ∧
      (h.encode serialize).sumChunks version (l.map ContentHash.bytes) n =
        .ok ([], saturatingAdd n out.length) := by
  induction l generalizing out n with
  | nil =>
    cases hr
    refine ⟨rfl, ?_⟩
    rw [List.length_nil, saturatingAdd_zero hn]
    rfl
  | cons key rest ih =>
    unfold readManifest at hr
    cases hg : h.chunks[key]? with
    | none =>
      rw [hg] at hr
      cases hr
    | some row =>
      rw [hg] at hr
      obtain ⟨plain, hv, hr⟩ := bind_ok.1 hr
      obtain ⟨more, hm, hr⟩ := bind_ok.1 hr
      cases hr
      have hrow := encode_chunkRow serialize h key
      rw [hg, Option.map_some] at hrow
      have hraw := encode_decompress hv
      have hsize : fromSqlInt (toSqlInt (lenU64 row.1)) = lenU64 plain.length :=
        (Database.decompressAndVerify_ok hraw).1.symm
      have hle : saturatingAdd n (lenU64 plain.length) ≤ u64Max := Nat.min_le_right _ _
      obtain ⟨hread, hsum⟩ := ih hm hle
      rw [List.map_cons]
      constructor
      · simp only [Database.readChunks, hrow, encodeChunk, SqlValue.asI64, SqlValue.asBlob, hraw,
          hread, bind, Except.bind]
        rfl
      · simp only [Database.sumChunks, hrow, encodeChunk, SqlValue.asI64, bind, Except.bind, hsize,
          hsum, saturatingAdd_lenU64, List.length_append]

omit [Platform] in
theorem encodeVersion_present (hc : r.content = some c) : encodeVersion serialize r =
    ⟨r.id, r.path.raw, .integer 1, .blob c.hash.bytes, .integer (toSqlInt (lenU64 c.size)),
      .blob (c.manifest.flatMap ContentHash.bytes), serialize r.clock,
      .integer (if c.exec then 1 else 0)⟩ := by
  simp only [encodeVersion, hc]

omit [Platform] in
theorem length_flatMap_bytes (l : List ContentHash) :
    (l.flatMap ContentHash.bytes).length = 32 * l.length := by
  induction l with
  | nil => rfl
  | cons key l ih =>
    rw [List.flatMap_cons, List.length_append, key.length_eq, ih, List.length_cons]
    omega

/-- What the store reads back, the file reads back. -/
theorem encode_getContent (hr : h.getContent v = .ok out) :
    (h.encode serialize).getContent v = .ok out := by
  unfold getContent at hr
  split at hr
  · cases hr
  next r hfind =>
    have hrow : encodeVersion serialize r ∈ (h.encode serialize).versions :=
      List.mem_map_of_mem (List.mem_of_find?_eq_some hfind)
    have hv : r.id = v := by simpa using List.find?_some hfind
    have hid : (encodeVersion serialize r).id = v := by rw [encodeVersion_id, hv]
    unfold rowContent at hr
    split at hr
    · cases hr
    next c hc =>
      obtain ⟨out', hread, hr⟩ := bind_ok.1 hr
      have hcells := encodeVersion_present serialize hc
      by_cases hhash : Platform.blake3 out' = c.hash
      · simp only [hhash, ne_eq, not_true_eq_false, ↓reduceIte] at hr
        cases hr
        rw [← hid]
        refine (Database.getContent_iff hrow (by rw [hcells]) (by rw [hcells]) ?_ ?_ _).2
          ⟨rfl, by rw [hcells, hhash]⟩
        · rw [length_flatMap_bytes, Nat.mul_mod_right]
        · rw [chunksExact_hashes]
          exact (encode_readChunks serialize hread _ (Nat.zero_le _)).1
      · simp only [hhash, ne_eq, not_false_eq_true, ↓reduceIte] at hr
        cases hr

theorem encode_checkChunk (hi : h.Intact) {c : ChunkCells}
    (hc : c ∈ (h.encode serialize).chunks) : Database.checkChunk c = .ok [] := by
  obtain ⟨⟨key, row⟩, hmem, rfl⟩ := List.mem_map.1 hc
  obtain ⟨plain, hv⟩ := hi key row (Std.ExtTreeMap.mem_toList_iff_getElem?_eq_some.1 hmem)
  simp only [Database.checkChunk, encodeChunk, SqlValue.asBlob, SqlValue.asI64, bind, Except.bind,
    encode_decompress hv]
  rfl

theorem encode_checkVersion (hc : r.content = some c)
    (hread : h.readManifest r.id c.manifest = .ok out) (hsize : c.size = out.length) :
    (h.encode serialize).checkVersion (encodeVersion serialize r) = .ok [] := by
  have hsum := (encode_readChunks serialize hread r.id (Nat.zero_le _)).2
  have hlen : (c.manifest.flatMap ContentHash.bytes).length % 32 = 0 := by
    rw [length_flatMap_bytes, Nat.mul_mod_right]
  have hsz : fromSqlInt (toSqlInt (lenU64 c.size)) = saturatingAdd 0 out.length := by
    rw [fromSqlInt_toSqlInt (lenU64_le _), hsize, saturatingAdd, Nat.zero_add, lenU64]
  simp only [Database.checkVersion, encodeVersion_present serialize hc, SqlValue.asOptI64,
    SqlValue.asOptBlob, bind, Except.bind, hlen, chunksExact_hashes, hsum, hsz, ne_eq,
    not_true_eq_false, ↓reduceIte]
  rfl

omit [Platform] in
theorem encode_wellTyped (h : HistoryStore) : (h.encode serialize).WellTyped := by
  constructor
  · intro r hr
    obtain ⟨v, _, rfl⟩ := List.mem_map.1 hr
    cases hc : v.content with
    | none => simp [encodeVersion, hc, SqlValue.isInteger]
    | some c => simp [encodeVersion, hc, SqlValue.isInteger, SqlValue.isBlob]
  · intro c hc
    obtain ⟨e, _, rfl⟩ := List.mem_map.1 hc
    exact ⟨rfl, rfl, rfl⟩

/-- Where all contents read back to their recorded sizes, the check is clean. -/
theorem encode_check [Sqlite] [LawfulSqlite] (hi : h.Intact)
    (hread : ∀ r ∈ h.versions, ∀ c, r.content = some c →
      ∃ out, h.readManifest r.id c.manifest = .ok out ∧ c.size = out.length) :
    ∃ report, (h.encode serialize).check = .ok report ∧ report.ok = true := by
  have hall {α : Type} {f : α → Except ReadError (List Database.Issue)} (l : List α)
      (hf : ∀ a ∈ l, f a = .ok []) : l.mapM f = .ok (l.map fun _ => []) := by
    rw [mapM_ok, List.forall₂_map_right_iff, List.forall₂_same]
    exact hf
  have hv : ∀ r ∈ (h.encode serialize).present, (h.encode serialize).checkVersion r = .ok [] := by
    intro r hr
    obtain ⟨hmem, hs⟩ := List.mem_filter.1 hr
    obtain ⟨v, hv, rfl⟩ := List.mem_map.1 hmem
    cases hc : v.content with
    | none => simp [encodeVersion, hc] at hs
    | some c =>
      obtain ⟨out, hout, hsize⟩ := hread v hv c hc
      exact encode_checkVersion serialize hc hout hsize
  have hquick : Sqlite.quickCheck (h.encode serialize) = "ok" :=
    LawfulSqlite.quick_ok _ (encode_wellTyped serialize h)
  have hflat {α : Type} (l : List α) : (l.map fun _ => ([] : List Database.Issue)).flatten = [] := by
    induction l with
    | nil => rfl
    | cons a l ih => exact ih
  refine ⟨⟨(h.encode serialize).present.length, (h.encode serialize).chunks.length, true, []⟩, ?_, rfl⟩
  simp only [Database.check, hquick, hall _ hv, hall _ fun c hc => encode_checkChunk serialize hi hc,
      bind, Except.bind, ne_eq, not_true_eq_false, ↓reduceIte, hflat, List.append_nil, pure,
      Except.pure, List.isEmpty_nil]

end

/-- What the accepted calls leave reads back, each version to its recorded size. -/
theorem performAll_reads [LawfulPlatform] (calls : List Call)
    (hn : Set.InjOn Platform.blake3 (pieces calls)) :
    (performAll calls new).2.Intact ∧
      ∀ r ∈ (performAll calls new).2.versions, ∀ c, r.content = some c →
        ∃ out, (performAll calls new).2.readManifest r.id c.manifest = .ok out ∧
          c.size = out.length := by
  have hf := (faithful_new (pieces calls)).performAll hn (le_refl _)
  refine ⟨hf.intact, fun r hr c hc => ?_⟩
  obtain ⟨e, he, rfl⟩ := hf.rows r hr
  cases hs : e.1.state with
  | tombstone =>
    simp only [VersionRecord.stored, VersionRecord.row, hs] at hc
    cases hc
  | present sig =>
    obtain ⟨b, hb, hm⟩ := (hf.known e he).valid sig hs
    rw [VersionRecord.stored_content hs hb] at hc
    cases hc
    have hpieces : e.1.pieces = cut b := by
      simp only [VersionRecord.pieces, hs, hb, Option.getD_some]
    have hholds := hf.holds e he
    rw [hpieces] at hholds
    refine ⟨b, ?_, ((matchesSig_iff b sig).1 hm).1.symm⟩
    exact (readManifest_holds _ hholds).trans (congrArg _ (LawfulPlatform.fastcdc_flatten b))

end HistoryStore

namespace Database
variable [Platform]

/-- Where `check` reports nothing, every present version can be put together, to its recorded size
if one is recorded, and reads back as that where its recorded hash is the hash of it. On a store
that only recorded versions, `check` reports nothing. -/
theorem check_sound [LawfulPlatform] [Sqlite] [LawfulSqlite] :
    (∀ (db : Database) (report : CheckReport), db.check = .ok report → report.ok = true →
      ∀ r ∈ db.versions, r.state = .integer 1 →
        ∃ manifest out, r.manifest = .blob manifest ∧ manifest.length % 32 = 0 ∧
          db.readChunks r.id (chunksExact 32 manifest) = .ok out ∧
          (r.size = .null ∨ ∃ sz, r.size = .integer sz ∧ fromSqlInt sz = lenU64 out.length) ∧
          ∀ b, db.getContent r.id = .ok b ↔
            b = out ∧ r.contentHash = .blob (Platform.blake3 out).bytes) ∧
    ∀ (serialize : VectorClock → Bytes) (calls : List HistoryStore.Call),
      Set.InjOn Platform.blake3 (HistoryStore.pieces calls) →
        ∃ report, ((HistoryStore.performAll calls .new).2.encode serialize).check = .ok report ∧
          report.ok = true := by
  constructor
  · intro db report hcheck hok r hr hs
    obtain ⟨hversions, hchunks⟩ := check_clean hcheck hok
    have hpresent : r ∈ db.present := List.mem_filter.2 ⟨hr, decide_eq_true hs⟩
    obtain ⟨manifest, out, hm, hlen, hread, hsize⟩ :=
      checkVersion_clean hchunks (hversions r hpresent)
    exact ⟨manifest, out, hm, hlen, hread, hsize, getContent_iff hr hs hm hlen hread⟩
  · intro serialize calls hn
    obtain ⟨hi, hread⟩ := HistoryStore.performAll_reads calls hn
    exact HistoryStore.encode_check serialize hi hread

end Database

/-- Nothing is wrong with the file itself. -/
abbrev soundFile : Sqlite := ⟨fun _ => "ok"⟩

theorem soundFile_lawful : @LawfulSqlite soundFile := @LawfulSqlite.mk soundFile fun _ _ => rfl

/-- A version of the content `1` that says it is the content `2`. -/
def mislabelled : Database :=
  letI := tabulated shortHashes
  { versions := [⟨1, ['a'], .integer 1, .blob (Platform.blake3 [0x32]).bytes, .integer 1,
      .blob (Platform.blake3 [0x31]).bytes, [], .integer 0⟩]
    chunks := [⟨.blob (Platform.blake3 [0x31]).bytes, .integer 1,
      .blob (Platform.zstdEncode [0x31])⟩]
    conflicts := []
    keyed := List.nodup_singleton _ }

/-- A wrong content hash passes the check and fails the reader. -/
theorem mislabelled_passes :
    letI := tabulated shortHashes
    letI := soundFile
    mislabelled.check = .ok ⟨1, 1, true, []⟩ ∧
      mislabelled.getContent 1 = .error (.contentMismatch 1 (Platform.blake3 [0x32])
        (Platform.blake3 [0x31])) := by
  let platform := tabulated shortHashes
  let sqlite := soundFile
  exact ⟨by decide +kernel, by decide +kernel⟩

theorem mislabelled_reassembles :
    letI := tabulated shortHashes
    ∃ out, mislabelled.readChunks 1 (chunksExact 32 (Platform.blake3 [0x31]).bytes) = .ok out ∧
      (∀ b, mislabelled.getContent 1 = .ok b ↔
        b = out ∧ SqlValue.blob (Platform.blake3 [0x32]).bytes =
          .blob (Platform.blake3 out).bytes) := by
  let platform := tabulated shortHashes
  let sqlite := soundFile
  have hlawful := tabulated_lawful shortHashes
  have hsqlite := soundFile_lawful
  have hcheck : mislabelled.check = .ok ⟨1, 1, true, []⟩ := by decide +kernel
  obtain ⟨manifest, out, hm, _, hread, _, hget⟩ := Database.check_sound.1 mislabelled _ hcheck rfl
    _ List.mem_cons_self rfl
  cases hm
  exact ⟨out, hread, hget⟩

end Tomo
