import Tomo.History.Content
import Tomo.Lib.Effect

namespace Tomo
set_option autoImplicit true

namespace HistoryStore
open Eff
variable [Platform]

/-- The row that a record stands for, but for its id. -/
def VersionRecord.row (r : VersionRecord) : VersionRow where
  id := 0
  path := r.path
  content := match r.state with
    | .present sig =>
      let bytes := r.bytes.getD []
      some ⟨Platform.blake3 bytes, sig.size, (cut bytes).map Platform.blake3, sig.exec⟩
    | .tombstone => none
  clock := r.clock
  replica := r.replica
  wallMs := r.wallMs
  origin := r.origin

/-- `insert_version` in an open transaction: the chunks are stored before they are checked. -/
def insertVersion (r : VersionRecord) : Eff HistoryStore HistoryError Nat := do
  match r.state with
  | .present sig =>
    match r.bytes with
    | none => throw (.missingContent r.path)
    | some bytes =>
      modify fun h => (h.storeChunks bytes).1
      match verifySig r.path sig (Platform.blake3 bytes) bytes.length with
      | .error e => throw e
      | .ok _ => pure ()
  | .tombstone => pure ()
  let h ← get
  let (h, id) := h.insertRow r.row
  set h
  pure id

def insertAll : List VersionRecord → Eff HistoryStore HistoryError (List Nat)
  | [] => pure []
  | r :: rs => do
    let id ← insertVersion r
    let ids ← insertAll rs
    pure (id :: ids)

/-- A call of the store: `record_version` or `record_versions`. -/
inductive Call where
  | single (r : VersionRecord)
  | batch (rs : List VersionRecord)

def Call.records : Call → List VersionRecord
  | .single r => [r]
  | .batch rs => rs

/-- Every call is one transaction. -/
def Call.perform : Call → Eff HistoryStore HistoryError (List Nat)
  | .single r => transaction do
    let id ← insertVersion r
    pure [id]
  | .batch rs => transaction (insertAll rs)

/-- One call after the other, whatever each of them returns. -/
def performAll : List Call → HistoryStore → List (Except HistoryError (List Nat)) × HistoryStore
  | [], h => ([], h)
  | c :: cs, h =>
    let (outcome, h) := c.perform.exec h
    let (outcomes, h) := performAll cs h
    (outcome :: outcomes, h)

theorem performAll_append (a b : List Call) (h : HistoryStore) :
    performAll (a ++ b) h =
      ((performAll a h).1 ++ (performAll b (performAll a h).2).1,
        (performAll b (performAll a h).2).2) := by
  induction a generalizing h with
  | nil => rfl
  | cons c a ih => simp only [List.cons_append, performAll, ih]

variable {h h' : HistoryStore} {r : VersionRecord} {rs : List VersionRecord}

/-- A record that no store rejects: its bytes are the content of its state. -/
def VersionRecord.Valid (r : VersionRecord) : Prop :=
  ∀ sig, r.state = .present sig → ∃ b, r.bytes = some b ∧ matchesSig b sig = true

/-- The store with the chunks of a record. -/
def withChunks (h : HistoryStore) (r : VersionRecord) : HistoryStore :=
  match r.state with
  | .present _ => (h.storeChunks (r.bytes.getD [])).1
  | .tombstone => h

/-- The functional reading of one insertion. -/
def recordOne (h : HistoryStore) (r : VersionRecord) : Except HistoryError (HistoryStore × Nat) :=
  h.recordVersion r.path r.state r.clock r.replica r.origin r.wallMs r.bytes

theorem recordOne_valid (hr : r.Valid) (h : HistoryStore) :
    h.recordOne r = .ok ((h.withChunks r).insertRow r.row) := by
  obtain ⟨p, state, clock, replica, origin, wallMs, bytes⟩ := r
  cases state with
  | tombstone => rfl
  | present sig =>
    obtain ⟨b, hb, hm⟩ := hr sig rfl
    cases hb
    exact recordVersion_present h p clock replica origin wallMs hm

/-- Inside a transaction a record goes in as the functional reading has it; a rejected one may
have left its chunks. -/
theorem insertVersion_exec (r : VersionRecord) (h : HistoryStore) :
    (r.Valid ∧ (insertVersion r).exec h =
        (.ok ((h.withChunks r).insertRow r.row).2, ((h.withChunks r).insertRow r.row).1)) ∨
      (¬r.Valid ∧ ∃ e, ((insertVersion r).exec h).1 = .error e ∧ h.recordOne r = .error e) := by
  obtain ⟨p, state, clock, replica, origin, wallMs, bytes⟩ := r
  cases state with
  | tombstone => exact .inl ⟨fun sig hs => (by cases hs), rfl⟩
  | present sig =>
    cases bytes with
    | none =>
      refine .inr ⟨fun hv => ?_, _, rfl, rfl⟩
      obtain ⟨b, hb, _⟩ := hv sig rfl
      cases hb
    | some b =>
      by_cases hbad : Platform.blake3 b ≠ sig.hash ∨ b.length ≠ sig.size
      · have hv : verifySig p sig (Platform.blake3 b) b.length =
            .error (.sigMismatch p sig.hash (Platform.blake3 b)) := if_pos hbad
        refine .inr ⟨fun hvalid => ?_, .sigMismatch p sig.hash (Platform.blake3 b), ?_, ?_⟩
        · obtain ⟨b', hb, hm⟩ := hvalid sig rfl
          cases hb
          obtain ⟨hsize, hhash⟩ := (matchesSig_iff b sig).1 hm
          exact hbad.elim (fun h => h hhash) fun h => h hsize
        · simp only [insertVersion, exec_modify_bind, hv]
          rfl
        · simp only [recordOne, recordVersion, hv]
          rfl
      · have hv : verifySig p sig (Platform.blake3 b) b.length = .ok () := if_neg hbad
        rw [not_or, not_not, not_not] at hbad
        refine .inl ⟨fun sig' hs => ?_, ?_⟩
        · cases hs
          exact ⟨b, rfl, (matchesSig_iff b sig).2 ⟨hbad.2, hbad.1⟩⟩
        · simp only [insertVersion, exec_modify_bind, hv]
          rfl

theorem insertVersion_valid (hr : r.Valid) (h : HistoryStore) :
    (insertVersion r).exec h =
      (.ok ((h.withChunks r).insertRow r.row).2, ((h.withChunks r).insertRow r.row).1) := by
  rcases insertVersion_exec r h with ⟨_, hx⟩ | ⟨hn, _⟩
  · exact hx
  · exact (hn hr).elim

theorem recordVersions_cons (h : HistoryStore) (r : VersionRecord) (rs : List VersionRecord) :
    h.recordVersions (r :: rs) = (do
      let (h, id) ← h.recordOne r
      let (h, ids) ← h.recordVersions rs
      pure (h, id :: ids)) := by
  have hacc (rs : List VersionRecord) (h : HistoryStore) (acc : List Nat) :
      rs.foldlM (fun (h, ids) r => do
        let (h, id) ← h.recordVersion r.path r.state r.clock r.replica r.origin r.wallMs r.bytes
        pure (h, ids ++ [id])) (h, acc) = (do
          let (h, ids) ← h.recordVersions rs
          pure (h, acc ++ ids)) := by
    induction rs generalizing h acc with
    | nil =>
      simp only [recordVersions, List.foldlM_nil, pure_bind, List.append_nil]
    | cons r rs ih =>
      simp only [recordVersions, List.foldlM_cons]
      cases h.recordVersion r.path r.state r.clock r.replica r.origin r.wallMs r.bytes with
      | error e => rfl
      | ok e =>
        simp only [bind, Except.bind, pure, Except.pure] at ih ⊢
        rw [ih, ih]
        cases e.1.recordVersions rs with
        | error e => rfl
        | ok e => simp
  rw [recordVersions, List.foldlM_cons]
  simp only [bind_assoc, pure_bind]
  refine bind_congr fun e => ?_
  rw [hacc]
  rfl

/-- Nothing that `h` holds is gone or altered in `h'`. -/
structure Extends (h h' : HistoryStore) : Prop where
  versions : h.versions <+: h'.versions
  chunks : ∀ (key : ContentHash) (row : Nat × Bytes),
    h.chunks[key]? = some row → h'.chunks[key]? = some row

namespace Extends
omit [Platform]

theorem refl (h : HistoryStore) : Extends h h := ⟨List.prefix_rfl, fun _ _ hr => hr⟩

theorem trans {h'' : HistoryStore} (a : Extends h h') (b : Extends h' h'') : Extends h h'' :=
  ⟨a.versions.trans b.versions, fun key row hr => b.chunks key row (a.chunks key row hr)⟩

theorem insertRow (h : HistoryStore) (r : VersionRow) : Extends h (h.insertRow r).1 := by
  rw [HistoryStore.insertRow]
  split
  · exact refl h
  · exact ⟨List.prefix_append _ _, fun _ _ hr => hr⟩

end Extends

theorem extends_storeChunk (h : HistoryStore) (chunk : Bytes) : Extends h (h.storeChunk chunk) := by
  constructor
  · exact (versions_storeChunk h chunk).1 ▸ List.prefix_rfl
  · intro key row hr
    rw [get_storeChunk, hr]
    split <;> rfl

theorem extends_foldl_storeChunk (cs : List Bytes) (h : HistoryStore) :
    Extends h (cs.foldl storeChunk h) := by
  induction cs generalizing h with
  | nil => exact .refl h
  | cons c cs ih => exact (extends_storeChunk h c).trans (ih _)

theorem extends_withChunks (h : HistoryStore) (r : VersionRecord) :
    Extends h (h.withChunks r) := by
  unfold withChunks
  split
  · exact extends_foldl_storeChunk _ h
  · exact .refl h

theorem recordOne_ok (hr : h.recordOne r = .ok (h', n)) :
    r.Valid ∧ (h', n) = (h.withChunks r).insertRow r.row := by
  rcases insertVersion_exec r h with ⟨hv, _⟩ | ⟨_, e, _, he⟩
  · rw [recordOne_valid hv h] at hr
    exact ⟨hv, (Except.ok.inj hr).symm⟩
  · rw [he] at hr
    cases hr

theorem recordOne_extends (hr : h.recordOne r = .ok (h', n)) : Extends h h' := by
  have he : h' = ((h.withChunks r).insertRow r.row).1 := congrArg Prod.fst (recordOne_ok hr).2
  rw [he]
  exact (extends_withChunks h r).trans (.insertRow _ _)

theorem recordVersions_cons_ok : h.recordVersions (r :: rs) = .ok (h', ids) ↔
    ∃ u n l, h.recordOne r = .ok (u, n) ∧ u.recordVersions rs = .ok (h', l) ∧ ids = n :: l := by
  rw [recordVersions_cons]
  cases hone : h.recordOne r with
  | error e =>
    constructor
    · intro hr
      cases hr
    · rintro ⟨u, n, l, hu, _⟩
      cases hu
  | ok u =>
    cases hrest : u.1.recordVersions rs with
    | error e =>
      constructor
      · intro hr
        simp only [bind, Except.bind, hrest] at hr
        cases hr
      · rintro ⟨_, n, l, hu, hl, _⟩
        cases hu
        rw [hrest] at hl
        cases hl
    | ok v =>
      constructor
      · intro hr
        simp only [bind, Except.bind, hrest] at hr
        cases hr
        exact ⟨u.1, u.2, v.2, rfl, hrest, rfl⟩
      · rintro ⟨_, n, l, hu, hl, rfl⟩
        cases hu
        rw [hrest] at hl
        cases hl
        simp only [bind, Except.bind, hrest]
        rfl

theorem recordVersions_extends (hr : h.recordVersions rs = .ok (h', ids)) : Extends h h' := by
  induction rs generalizing h ids with
  | nil =>
    cases hr
    exact .refl _
  | cons r rs ih =>
    obtain ⟨u, n, l, hone, hrest, rfl⟩ := recordVersions_cons_ok.1 hr
    exact (recordOne_extends hone).trans (ih hrest)

/-- A transaction that inserts the records goes as the functional reading has it. -/
theorem insertAll_exec (rs : List VersionRecord) (h : HistoryStore) :
    (∃ h' ids, h.recordVersions rs = .ok (h', ids) ∧ (insertAll rs).exec h = (.ok ids, h')) ∨
      (∃ e u, h.recordVersions rs = .error e ∧ (insertAll rs).exec h = (.error e, u)) := by
  induction rs generalizing h with
  | nil => exact .inl ⟨h, [], rfl, rfl⟩
  | cons r rs ih =>
    rcases insertVersion_exec r h with ⟨hv, hx⟩ | ⟨_, e, hx, he⟩
    · rcases ih ((h.withChunks r).insertRow r.row).1 with ⟨h', ids, hrest, hxs⟩ | ⟨e, u, hrest, hxs⟩
      · refine .inl ⟨h', _ :: ids, recordVersions_cons_ok.2
          ⟨_, _, ids, recordOne_valid hv h, hrest, rfl⟩, ?_⟩
        rw [insertAll, exec_bind_ok hx, exec_bind_ok hxs]
        rfl
      · refine .inr ⟨e, u, ?_, ?_⟩
        · rw [recordVersions_cons, recordOne_valid hv h]
          simp only [bind, Except.bind, hrest]
        · rw [insertAll, exec_bind_ok hx, exec_bind_error hxs]
    · refine .inr ⟨e, ((insertVersion r).exec h).2, ?_, ?_⟩
      · rw [recordVersions_cons, he]
        rfl
      · exact exec_bind_error (Prod.ext hx rfl)

/-- A call does all of its records or nothing. -/
theorem Call.perform_exec (c : Call) (h : HistoryStore) :
    c.perform.exec h = match h.recordVersions c.records with
      | .ok (h', ids) => (.ok ids, h')
      | .error e => (.error e, h) := by
  have hall : (transaction (insertAll c.records)).exec h =
      match h.recordVersions c.records with
      | .ok (h', ids) => (.ok ids, h')
      | .error e => (.error e, h) := by
    rw [exec_transaction]
    rcases insertAll_exec c.records h with ⟨h', ids, hrec, hx⟩ | ⟨e, u, hrec, hx⟩
    · rw [hrec, hx]
    · rw [hrec, hx]
  cases c with
  | batch rs => exact hall
  | single r => exact hall

theorem Call.perform_ok {c : Call} :
    c.perform.exec h = (.ok ids, h') ↔ h.recordVersions c.records = .ok (h', ids) := by
  rw [c.perform_exec h]
  rcases h.recordVersions c.records with e | ⟨u, l⟩
  · constructor <;> intro hr <;> cases hr
  · constructor <;> intro hr <;> cases hr <;> rfl

theorem Call.perform_error {c : Call} (hc : c.perform.exec h = (.error e, h')) : h' = h := by
  rw [c.perform_exec h] at hc
  rcases hr : h.recordVersions c.records with e | ⟨u, l⟩
  · rw [hr] at hc
    cases hc
    rfl
  · rw [hr] at hc
    cases hc

theorem performAll_extends (cs : List Call) (h : HistoryStore) :
    Extends h (performAll cs h).2 := by
  induction cs generalizing h with
  | nil => exact .refl h
  | cons c cs ih =>
    have hc : Extends h (c.perform.exec h).2 := by
      rcases hx : c.perform.exec h with ⟨e | ids, u⟩
      · rw [Call.perform_error hx]
        exact .refl h
      · exact recordVersions_extends (Call.perform_ok.1 hx)
    exact hc.trans (ih _)

/-- The store knows a record under an id: it would add nothing if it came once more. -/
structure Known (h : HistoryStore) (r : VersionRecord) (n : Nat) : Prop where
  valid : r.Valid
  row : ∃ v, (h.versions.find? fun v => sameIdentity v r.row) = some v ∧ v.id = n
  chunks : h.withChunks r = h

theorem storeChunk_eq_self (hc : (h.chunks[Platform.blake3 chunk]?).isSome) :
    h.storeChunk chunk = h := if_pos hc

theorem foldl_storeChunk_eq_self {cs : List Bytes}
    (hc : ∀ c ∈ cs, (h.chunks[Platform.blake3 c]?).isSome) : cs.foldl storeChunk h = h := by
  induction cs with
  | nil => rfl
  | cons c cs ih =>
    rw [List.foldl_cons, storeChunk_eq_self (hc c List.mem_cons_self)]
    exact ih fun d hd => hc d (List.mem_cons_of_mem c hd)

theorem foldl_storeChunk_isSome {cs : List Bytes} (hd : d ∈ cs) (h : HistoryStore) :
    ((cs.foldl storeChunk h).chunks[Platform.blake3 d]?).isSome := by
  induction cs generalizing h with
  | nil => cases hd
  | cons c cs ih =>
    rw [List.foldl_cons]
    rcases List.mem_cons.1 hd with rfl | hd
    · have hs : ((h.storeChunk d).chunks[Platform.blake3 d]?).isSome := by
        rw [get_storeChunk, if_pos rfl]
        rfl
      obtain ⟨row, hrow⟩ := Option.isSome_iff_exists.1 hs
      rw [(extends_foldl_storeChunk cs (h.storeChunk d)).chunks _ _ hrow]
      rfl
    · exact ih hd _

theorem withChunks_eq_self {u : HistoryStore} (he : Extends (h.withChunks r) u) :
    u.withChunks r = u := by
  unfold withChunks at *
  split
  next sig hs =>
    apply foldl_storeChunk_eq_self
    intro c hc
    rw [hs] at he
    obtain ⟨row, hrow⟩ := Option.isSome_iff_exists.1 (foldl_storeChunk_isSome hc h)
    rw [he.chunks _ row hrow]
    rfl
  next => rfl

omit [Platform] in
theorem insertRow_finds (h : HistoryStore) (r : VersionRow) :
    ∃ v, ((h.insertRow r).1.versions.find? fun v => sameIdentity v r) = some v ∧
      v.id = (h.insertRow r).2 := by
  rw [insertRow]
  split
  next v hv => exact ⟨v, hv, rfl⟩
  next hn =>
    refine ⟨{ r with id := h.lastVersion + 1 }, ?_, rfl⟩
    simp only [appendRow, List.find?_append, hn, Option.none_or, List.find?_singleton]
    exact if_pos (decide_eq_true ⟨rfl, rfl, rfl⟩)

theorem recordOne_known (hr : h.recordOne r = .ok (h', n)) : Known h' r n := by
  obtain ⟨hv, he⟩ := recordOne_ok hr
  have hins := Extends.insertRow (h.withChunks r) r.row
  have hfind := insertRow_finds (h.withChunks r) r.row
  rw [← he] at hins hfind
  exact ⟨hv, hfind, withChunks_eq_self hins⟩

theorem Known.mono (hk : Known h r n) (he : Extends h h') : Known h' r n := by
  obtain ⟨v, hv, hn⟩ := hk.row
  refine ⟨hk.valid, ⟨v, he.versions.find?_eq_some hv, hn⟩, withChunks_eq_self (h := h) ?_⟩
  rw [hk.chunks]
  exact he

theorem Known.recordOne (hk : Known h r n) : h.recordOne r = .ok (h, n) := by
  obtain ⟨v, hv, rfl⟩ := hk.row
  rw [recordOne_valid hk.valid, hk.chunks, insertRow, hv]

/-- A version of `a` whose content is one byte. -/
def byteRecord (b : UInt8) (hash : ContentHash) : VersionRecord :=
  ⟨⟨['a'], RelPath.valid_single⟩, .present ⟨hash, 1, false, 5⟩, VectorClock.new.tick ⟨1⟩, ⟨1⟩,
    .local, 5, some [b]⟩

def oneRecord : VersionRecord :=
  byteRecord 0x31 (digest 0xd63bd9a826af91c1fea371965a64e11ee20f13e46b5f52c59901136605b3a487)

end HistoryStore

end Tomo
