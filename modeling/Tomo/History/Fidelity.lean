import Tomo.History.Ingest

namespace Tomo
set_option autoImplicit true

namespace HistoryStore
open Eff
variable [Platform]

/-- The chunks of a record's content. -/
def VersionRecord.pieces (r : VersionRecord) : List Bytes :=
  match r.state with
  | .present _ => cut (r.bytes.getD [])
  | .tombstone => []

/-- The row of a record that went in under an id. -/
def VersionRecord.stored (r : VersionRecord) (n : Nat) : VersionRow := { r.row with id := n }

/-- The records that the calls accept, each with the id that is returned for it. -/
def ingested : List Call → HistoryStore → List (VersionRecord × Nat)
  | [], _ => []
  | c :: cs, h =>
    (match (c.perform.exec h).1 with
      | .ok ids => c.records.zip ids
      | .error _ => []) ++ ingested cs (c.perform.exec h).2

variable {h h' : HistoryStore} {r : VersionRecord} {rs : List VersionRecord} {P : Set Bytes}
  {log : List (VersionRecord × Nat)}

theorem withChunks_eq_foldl (h : HistoryStore) (r : VersionRecord) :
    h.withChunks r = r.pieces.foldl storeChunk h := by
  unfold withChunks VersionRecord.pieces
  cases r.state <;> rfl

omit [Platform] in
theorem sameIdentity_iff {v q : VersionRow} : sameIdentity v q = true ↔
    v.path = q.path ∧ v.content.isSome = q.content.isSome ∧ v.clock = q.clock := by
  simp [sameIdentity]

omit [Platform] in
/-- Rows of one identity are found by the same search. -/
theorem sameIdentity_congr {v q : VersionRow} (hs : sameIdentity v q = true) (w : VersionRow) :
    sameIdentity w v = sameIdentity w q := by
  obtain ⟨hp, hc, hk⟩ := sameIdentity_iff.1 hs
  unfold sameIdentity
  rw [hp, hc, hk]

theorem Holds.mono {c : Bytes} (hc : h.Holds c) (he : Extends h h') : h'.Holds c := by
  obtain ⟨row, hrow, hv⟩ := hc
  exact ⟨row, he.chunks _ row hrow, hv⟩

section
variable [LawfulPlatform]

theorem foldl_storeChunk_intact (cs : List Bytes) (hi : h.Intact) :
    (cs.foldl storeChunk h).Intact := by
  induction cs generalizing h with
  | nil => exact hi
  | cons c cs ih => exact ih (storeChunk_intact hi c)

theorem plains_foldl_storeChunk {cs : List Bytes} (hcs : ∀ c ∈ cs, c ∈ P) (hp : h.plains ⊆ P) :
    (cs.foldl storeChunk h).plains ⊆ P := by
  induction cs generalizing h with
  | nil => exact hp
  | cons c cs ih =>
    have hc : (h.storeChunk c).plains ⊆ P := by
      intro b hb
      rcases plains_storeChunk h c hb with rfl | hb
      · exact hcs b List.mem_cons_self
      · exact hp hb
    exact ih (fun d hd => hcs d (List.mem_cons_of_mem c hd)) hc

end

/-- The store holds what was accepted: a row per identity, from the first record of it, and every
chunk of each record. -/
structure Faithful (P : Set Bytes) (log : List (VersionRecord × Nat)) (h : HistoryStore) : Prop where
  intact : h.Intact
  plains : h.plains ⊆ P
  known : ∀ e ∈ log, Known h e.1 e.2
  holds : ∀ e ∈ log, ∀ c ∈ e.1.pieces, h.Holds c
  rows : ∀ v ∈ h.versions, ∃ e ∈ log, v = e.1.stored e.2
  first : ∀ q : VersionRow, (h.versions.find? fun v => sameIdentity v q) =
    (log.find? fun e => sameIdentity e.1.row q).map fun e => e.1.stored e.2

theorem faithful_new (P : Set Bytes) : Faithful P [] new where
  intact := intact_new
  plains := by
    rintro b ⟨key, row, hrow, _⟩
    simp only [new, Std.ExtTreeMap.getElem?_empty] at hrow
    cases hrow
  known := fun e he => by cases he
  holds := fun e he => by cases he
  rows := fun v hv => by cases hv
  first := fun _ => rfl

omit [Platform] in
/-- A row goes in only where no row of its identity is. -/
theorem insertRow_find (h : HistoryStore) (r q : VersionRow) :
    ((h.insertRow r).1.versions.find? fun v => sameIdentity v q) =
      (h.versions.find? fun v => sameIdentity v q).or
        (if sameIdentity r q then some { r with id := (h.insertRow r).2 } else none) := by
  rw [insertRow]
  split
  next v hv =>
    split
    next hs =>
      have hq : (h.versions.find? fun v => sameIdentity v q) = some v := by
        simp only [← sameIdentity_congr hs]
        exact hv
      rw [hq]
      rfl
    next => rw [Option.or_none]
  next hn =>
    simp only [appendRow, List.find?_append, List.find?_singleton]
    rfl

omit [Platform] in
theorem insertRow_mem {r v : VersionRow} (hv : v ∈ (h.insertRow r).1.versions) :
    v ∈ h.versions ∨ v = { r with id := (h.insertRow r).2 } := by
  rw [insertRow] at hv ⊢
  split at hv
  next => exact .inl hv
  next =>
    rcases List.mem_append.1 hv with hv | hv
    · exact .inl hv
    · exact .inr (List.mem_singleton.1 hv)

theorem Faithful.recordOne [LawfulPlatform] (hf : Faithful P log h) (hn : Set.InjOn Platform.blake3 P)
    (hr : h.recordOne r = .ok (h', n)) (hp : ∀ c ∈ r.pieces, c ∈ P) :
    Faithful P (log ++ [(r, n)]) h' := by
  have hext := recordOne_extends hr
  have hknown := recordOne_known hr
  have he := (recordOne_ok hr).2
  have hh' : h' = ((h.withChunks r).insertRow r.row).1 := congrArg Prod.fst he
  have hchunks : h'.chunks = (r.pieces.foldl storeChunk h).chunks := by
    rw [hh', ← withChunks_eq_foldl, insertRow]
    split <;> rfl
  have hid : n = ((h.withChunks r).insertRow r.row).2 := congrArg Prod.snd he
  have hversions : (h.withChunks r).versions = h.versions := by
    unfold withChunks
    split
    · exact (versions_storeChunks h _).1
    · rfl
  constructor
  · intro key row hrow
    rw [hchunks] at hrow
    exact foldl_storeChunk_intact r.pieces hf.intact key row hrow
  · rintro b ⟨key, row, hrow, hv⟩
    rw [hchunks] at hrow
    exact plains_foldl_storeChunk hp hf.plains ⟨key, row, hrow, hv⟩
  · intro e he
    rcases List.mem_append.1 he with he | he
    · exact (hf.known e he).mono hext
    · cases List.mem_singleton.1 he
      exact hknown
  · intro e he
    rcases List.mem_append.1 he with he | he
    · exact fun c hc => (hf.holds e he c hc).mono hext
    · cases List.mem_singleton.1 he
      intro c hc
      have hcollide : Set.InjOn Platform.blake3 ({c | c ∈ r.pieces} ∪ h.plains) :=
        hn.mono (Set.union_subset hp hf.plains)
      obtain ⟨row, hrow, hv⟩ := storeAll_holds hf.intact hcollide c hc
      rw [← hchunks] at hrow
      exact ⟨row, hrow, hv⟩
  · intro v hv
    rw [hh'] at hv
    rcases insertRow_mem hv with hv | hv
    · rw [hversions] at hv
      obtain ⟨e, hmem, hstored⟩ := hf.rows v hv
      exact ⟨e, List.mem_append_left _ hmem, hstored⟩
    · rw [← hid] at hv
      exact ⟨_, List.mem_append_right _ List.mem_cons_self, hv⟩
  · intro q
    rw [hh', insertRow_find, hversions, hf.first q, List.find?_append, Option.map_or, ← hid,
      List.find?_singleton]
    split <;> rfl

theorem Faithful.recordVersions [LawfulPlatform] (hf : Faithful P log h)
    (hn : Set.InjOn Platform.blake3 P) (hr : h.recordVersions rs = .ok (h', ids))
    (hp : ∀ r ∈ rs, ∀ c ∈ r.pieces, c ∈ P) : Faithful P (log ++ rs.zip ids) h' := by
  induction rs generalizing h ids log with
  | nil =>
    cases hr
    rw [List.zip_nil_left, List.append_nil]
    exact hf
  | cons r rs ih =>
    obtain ⟨u, n, l, hone, hrest, rfl⟩ := recordVersions_cons_ok.1 hr
    have hu := hf.recordOne hn hone (hp r List.mem_cons_self)
    have := ih hu hrest fun q hq => hp q (List.mem_cons_of_mem r hq)
    rw [List.append_assoc] at this
    exact this

/-- The chunks of all contents that the calls bring. -/
def pieces (calls : List Call) : Set Bytes :=
  {c | ∃ r ∈ calls.flatMap Call.records, c ∈ r.pieces}

theorem Faithful.performAll [LawfulPlatform] {calls : List Call} (hf : Faithful P log h)
    (hn : Set.InjOn Platform.blake3 P) (hp : HistoryStore.pieces calls ⊆ P) :
    Faithful P (log ++ ingested calls h) (performAll calls h).2 := by
  induction calls generalizing h log with
  | nil =>
    rw [ingested, List.append_nil]
    exact hf
  | cons c cs ih =>
    have hc : ∀ r ∈ c.records, ∀ d ∈ r.pieces, d ∈ P := fun r hr d hd =>
      hp ⟨r, List.mem_flatMap.2 ⟨c, List.mem_cons_self, hr⟩, hd⟩
    have hcs : HistoryStore.pieces cs ⊆ P := by
      rintro d ⟨r, hr, hd⟩
      obtain ⟨c', hc', hr⟩ := List.mem_flatMap.1 hr
      exact hp ⟨r, List.mem_flatMap.2 ⟨c', List.mem_cons_of_mem c hc', hr⟩, hd⟩
    rw [ingested, HistoryStore.performAll, ← List.append_assoc]
    refine ih ?_ hcs
    rcases hx : c.perform.exec h with ⟨e | ids, u⟩
    · rw [Call.perform_error hx]
      simpa using hf
    · exact hf.recordVersions hn (Call.perform_ok.1 hx) hc

/-- The row of an accepted content reads back, in any later store. -/
theorem getContent_extends [LawfulPlatform] {v : VersionRow} {x : Bool} (he : Extends h h')
    (hv : v ∈ h.versions) (hh : ∀ c ∈ cut bytes, h.Holds c)
    (hc : v.content = some ⟨Platform.blake3 bytes, size, (cut bytes).map Platform.blake3, x⟩) :
    h'.getContent v.id = .ok bytes := by
  have hread : h'.readManifest v.id ((cut bytes).map Platform.blake3) = .ok bytes :=
    (readManifest_holds v.id fun c hc => (hh c hc).mono he).trans
      (congrArg _ (LawfulPlatform.fastcdc_flatten bytes))
  rw [getContent_mem (he.versions.subset hv), rowContent, hc]
  simp only [hread, bind, Except.bind, ne_eq, not_true_eq_false, ↓reduceIte]

omit [Platform] in
theorem mem_log {v : VersionRow} (hv : v ∈ h.versions) : intoMeta v ∈ h.log v.path := by
  rw [HistoryStore.log, List.mem_reverse, List.mem_map]
  exact ⟨v, List.mem_filter.2 ⟨hv, decide_eq_true rfl⟩, rfl⟩

theorem VersionRecord.stored_content {b : Bytes} (hs : r.state = .present sig)
    (hb : r.bytes = some b) (n : Nat) : (r.stored n).content =
      some ⟨Platform.blake3 b, sig.size, (cut b).map Platform.blake3, sig.exec⟩ := by
  simp only [VersionRecord.stored, VersionRecord.row, hs, hb, Option.getD_some]

/-- What an accepted record reads back as is the content of the first record of its path, state
and clock. -/
theorem reads_first [LawfulPlatform] (calls later : List Call)
    (hn : Set.InjOn Platform.blake3 (pieces calls)) (he : (r, n) ∈ ingested calls new)
    (hs : r.state = .present sig) :
    ∃ r₀ sig₀ b₀, ((ingested calls new).find? fun e => sameIdentity e.1.row r.row) = some (r₀, n) ∧
      r₀.state = .present sig₀ ∧ r₀.bytes = some b₀ ∧
      (performAll (calls ++ later) new).2.getContent n = .ok b₀ ∧
      ∃ m ∈ (performAll (calls ++ later) new).2.log r.path,
        m.id = n ∧ m.state = .present { sig₀ with mtimeMs := 0 } := by
  have hf := (faithful_new (pieces calls)).performAll hn (le_refl _)
  rw [List.nil_append] at hf
  obtain ⟨v, hv, hid⟩ := (hf.known _ he).row
  have hfirst := hf.first r.row
  rw [hv] at hfirst
  obtain ⟨⟨r₀, n₀⟩, hfind, rfl⟩ := Option.map_eq_some_iff.1 hfirst.symm
  cases hid
  have hmem := List.mem_of_find?_eq_some hfind
  have hsame : sameIdentity r₀.row r.row = true := (List.find?_eq_some_iff_append.1 hfind).1
  obtain ⟨hpath, hkind, hclock⟩ := sameIdentity_iff.1 hsame
  have hrow : r₀.stored n ∈ (performAll calls new).2.versions := List.mem_of_find?_eq_some hv
  have hext : Extends (performAll calls new).2 (performAll (calls ++ later) new).2 := by
    rw [performAll_append]
    exact performAll_extends later _
  cases hs₀ : r₀.state with
  | tombstone => simp [VersionRecord.row, hs, hs₀] at hkind
  | present sig₀ =>
    obtain ⟨b₀, hb₀, hm⟩ := (hf.known _ hmem).valid sig₀ hs₀
    obtain ⟨hsize, hhash⟩ := (matchesSig_iff b₀ sig₀).1 hm
    have hcontent := VersionRecord.stored_content hs₀ hb₀ n
    have hpieces : r₀.pieces = cut b₀ := by
      have hb : r₀.bytes = some b₀ := hb₀
      simp only [VersionRecord.pieces, hs₀, hb, Option.getD_some]
    refine ⟨r₀, sig₀, b₀, hfind, hs₀, hb₀, ?_, ?_⟩
    · exact getContent_extends hext hrow (hpieces ▸ hf.holds _ hmem) hcontent
    · have hlog := mem_log (hext.versions.subset hrow)
      rw [show (r₀.stored n).path = r.path from hpath] at hlog
      refine ⟨intoMeta (r₀.stored n), hlog, rfl, ?_⟩
      simp only [intoMeta, rowState, hcontent, hhash]

def twoRecord : VersionRecord :=
  byteRecord 0x32 (digest 0x813e9b729141e7f385afa0a2d0df3e6c3789e427ffe4aeef566a565bc8f2fe3d)

omit [Platform] in
/-- A second content under the clock of the first is accepted, and is not kept. -/
theorem second_not_kept :
    letI := tabulated shortHashes
    ingested [.single oneRecord, .single twoRecord] new = [(oneRecord, 1), (twoRecord, 1)] ∧
      twoRecord.bytes = some [0x32] ∧
      (performAll [.single oneRecord, .single twoRecord] new).2.getContent 1 = .ok [0x31] := by
  let platform := tabulated shortHashes
  exact ⟨by decide +kernel, rfl, by decide +kernel⟩

omit [Platform] in
theorem one_reads_first :
    letI := tabulated shortHashes
    ∃ r₀ sig₀ b₀, ((ingested [.batch [oneRecord]] new).find? fun e =>
        sameIdentity e.1.row oneRecord.row) = some (r₀, 1) ∧
      r₀.state = .present sig₀ ∧ r₀.bytes = some b₀ ∧
      (performAll ([.batch [oneRecord]] ++ [.single twoRecord]) new).2.getContent 1 = .ok b₀ ∧
      ∃ m ∈ (performAll ([.batch [oneRecord]] ++ [.single twoRecord]) new).2.log oneRecord.path,
        m.id = 1 ∧ m.state = .present { sig₀ with mtimeMs := 0 } := by
  let platform := tabulated shortHashes
  have hlawful := tabulated_lawful shortHashes
  have hn : Set.InjOn Platform.blake3 (pieces [.batch [oneRecord]]) := by
    rintro c ⟨r, hr, hc⟩ d ⟨q, hq, hd⟩ _
    cases List.mem_singleton.1 hr
    cases List.mem_singleton.1 hq
    cases List.mem_singleton.1 hc
    exact (List.mem_singleton.1 hd).symm
  exact reads_first [.batch [oneRecord]] [.single twoRecord] hn
    (show (oneRecord, 1) ∈ _ by decide +kernel) rfl

end HistoryStore

end Tomo
