import Mathlib.Data.Set.Function
import Tomo.History.Store

namespace Tomo
set_option autoImplicit true

namespace HistoryStore
variable [Platform] {h h' : HistoryStore} {chunk d bytes : Bytes} {cs : List Bytes}

/-- The store gives a chunk back. -/
def Holds (h : HistoryStore) (chunk : Bytes) : Prop :=
  ∃ row, h.chunks[Platform.blake3 chunk]? = some row ∧
    decompressAndVerify (Platform.blake3 chunk) row.1 row.2 = .ok chunk

/-- The contents of the chunk rows. -/
def plains (h : HistoryStore) : Set Bytes :=
  {b | ∃ key row, h.chunks[key]? = some row ∧ decompressAndVerify key row.1 row.2 = .ok b}

/-- Every chunk row decodes to what its key names. -/
def Intact (h : HistoryStore) : Prop :=
  ∀ key row, h.chunks[key]? = some row → ∃ b, decompressAndVerify key row.1 row.2 = .ok b

/-- The store has a present version of the path whose content reads back as `bytes`. -/
def Keeps (h : HistoryStore) (p : RelPath) (bytes : Bytes) : Prop :=
  ∃ r ∈ h.versions, r.path = p ∧ r.content.isSome ∧ h.getContent r.id = .ok bytes

instance (h : HistoryStore) (p : RelPath) (bytes : Bytes) : Decidable (h.Keeps p bytes) :=
  inferInstanceAs (Decidable (∃ r ∈ h.versions, _))

theorem intact_new : new.Intact := by
  intro key row hr
  simp only [new, Std.ExtTreeMap.getElem?_empty] at hr
  cases hr

theorem decompressAndVerify_ok (h : decompressAndVerify key size z = .ok b) :
    Platform.blake3 b = key := by
  unfold decompressAndVerify at h
  split at h
  · cases h
  · split at h
    · cases h
    next hv =>
      cases h
      rw [not_or, not_not, not_not] at hv
      exact hv.2

theorem decompressAndVerify_encode [LawfulPlatform] (chunk : Bytes) :
    decompressAndVerify (Platform.blake3 chunk) chunk.length (Platform.zstdEncode chunk) =
      .ok chunk := by
  rw [decompressAndVerify, LawfulPlatform.zstd_inverse]
  simp

/-- Storing a chunk adds one row, under its own hash, unless there is one. -/
theorem get_storeChunk (h : HistoryStore) (chunk : Bytes) (key : ContentHash) :
    (h.storeChunk chunk).chunks[key]? =
      if Platform.blake3 chunk = key then
        some (h.chunks[key]?.getD (chunk.length, Platform.zstdEncode chunk))
      else h.chunks[key]? := by
  unfold storeChunk
  dsimp only
  by_cases hk : Platform.blake3 chunk = key
  · subst hk
    split
    next hs =>
      obtain ⟨row, hrow⟩ := Option.isSome_iff_exists.1 hs
      simp [hrow]
    next hs =>
      rw [Bool.not_eq_true, Option.isSome_eq_false_iff, Option.isNone_iff_eq_none] at hs
      simp [hs]
  · rw [if_neg hk]
    split
    · rfl
    · simp only [Std.ExtTreeMap.getElem?_insert, Std.compare_eq_iff_eq, if_neg hk]

theorem versions_storeChunk (h : HistoryStore) (chunk : Bytes) :
    (h.storeChunk chunk).versions = h.versions ∧
      (h.storeChunk chunk).lastVersion = h.lastVersion := by
  unfold storeChunk
  dsimp only
  split
  · exact ⟨rfl, rfl⟩
  · exact ⟨rfl, rfl⟩

theorem versions_storeChunks (h : HistoryStore) (bytes : Bytes) :
    (h.storeChunks bytes).1.versions = h.versions ∧
      (h.storeChunks bytes).1.lastVersion = h.lastVersion := by
  unfold storeChunks
  dsimp only
  induction cut bytes generalizing h with
  | nil => exact ⟨rfl, rfl⟩
  | cons c cs ih =>
    rw [List.foldl_cons]
    have hc := versions_storeChunk h c
    rw [← hc.1, ← hc.2]
    exact ih (h.storeChunk c)

theorem conflicts_storeChunks (h : HistoryStore) (bytes : Bytes) :
    (h.storeChunks bytes).1.conflicts = h.conflicts := by
  unfold storeChunks
  dsimp only
  induction cut bytes generalizing h with
  | nil => rfl
  | cons c cs ih =>
    have hc : (h.storeChunk c).conflicts = h.conflicts := by
      unfold storeChunk
      dsimp only
      split <;> rfl
    rw [List.foldl_cons, ih, hc]

omit [Platform] in
theorem insertRow_adds (h : HistoryStore) (r : VersionRow) :
    (h.insertRow r).1.conflicts = h.conflicts ∧
      ∃ l, (h.insertRow r).1.versions = h.versions ++ l ∧ ∀ v ∈ l, v.path = r.path := by
  rw [insertRow]
  split
  · exact ⟨rfl, [], (List.append_nil _).symm, fun v hv => by cases hv⟩
  · refine ⟨rfl, [_], rfl, fun v hv => ?_⟩
    rw [List.mem_singleton.1 hv]

/-- Recording appends a row of the path at most. -/
theorem recordVersion_adds {content : Option Bytes}
    (hr : h.recordVersion p state clock replica origin wallMs content = .ok (h', n)) :
    h'.conflicts = h.conflicts ∧
      ∃ l, h'.versions = h.versions ++ l ∧ ∀ v ∈ l, v.path = p := by
  cases state with
  | tombstone =>
    have he : h' = (h.insertRow ⟨0, p, none, clock, replica, wallMs, origin⟩).1 :=
      (congrArg Prod.fst (Except.ok.inj hr)).symm
    rw [he]
    exact insertRow_adds h _
  | present sig =>
    cases content with
    | none => cases hr
    | some b =>
      simp only [recordVersion, bind, Except.bind, verifySig] at hr
      split at hr
      · cases hr
      · let row : VersionRow := ⟨0, p, some ⟨Platform.blake3 b, sig.size, (h.storeChunks b).2,
          sig.exec⟩, clock, replica, wallMs, origin⟩
        have he : h' = ((h.storeChunks b).1.insertRow row).1 :=
          (congrArg Prod.fst (Except.ok.inj hr)).symm
        rw [he]
        obtain ⟨hc, l, hl, hp⟩ := insertRow_adds (h.storeChunks b).1 row
        rw [conflicts_storeChunks] at hc
        rw [(versions_storeChunks h b).1] at hl
        exact ⟨hc, l, hl, hp⟩

theorem Holds.storeChunk (hd : h.Holds d) (chunk : Bytes) : (h.storeChunk chunk).Holds d := by
  obtain ⟨row, hrow, hv⟩ := hd
  refine ⟨row, ?_, hv⟩
  rw [get_storeChunk, hrow]
  split <;> rfl

section
variable [LawfulPlatform]

theorem storeChunk_intact (hi : h.Intact) (chunk : Bytes) : (h.storeChunk chunk).Intact := by
  intro key row hrow
  rw [get_storeChunk] at hrow
  split at hrow
  next hk =>
    subst hk
    cases hg : h.chunks[Platform.blake3 chunk]? with
    | some row' =>
      rw [hg] at hrow
      cases hrow
      exact hi _ _ hg
    | none =>
      rw [hg] at hrow
      cases hrow
      exact ⟨chunk, decompressAndVerify_encode chunk⟩
  next => exact hi _ _ hrow

theorem plains_storeChunk (h : HistoryStore) (chunk : Bytes) :
    (h.storeChunk chunk).plains ⊆ insert chunk h.plains := by
  rintro b ⟨key, row, hrow, hv⟩
  rw [get_storeChunk] at hrow
  split at hrow
  next hk =>
    subst hk
    cases hg : h.chunks[Platform.blake3 chunk]? with
    | some row' =>
      rw [hg] at hrow
      cases hrow
      exact .inr ⟨_, _, hg, hv⟩
    | none =>
      rw [hg] at hrow
      cases hrow
      rw [Option.getD_none, decompressAndVerify_encode] at hv
      cases hv
      exact .inl rfl
  next => exact .inr ⟨_, _, hrow, hv⟩

/-- Where no two chunks share a hash, a stored chunk is given back. -/
theorem storeChunk_holds (hi : h.Intact)
    (hn : Set.InjOn Platform.blake3 (insert chunk h.plains)) : (h.storeChunk chunk).Holds chunk := by
  cases hg : h.chunks[Platform.blake3 chunk]? with
  | none =>
    exact ⟨_, by rw [get_storeChunk, if_pos rfl, hg, Option.getD_none], decompressAndVerify_encode chunk⟩
  | some row =>
    obtain ⟨b, hb⟩ := hi _ _ hg
    have he : b = chunk :=
      hn (.inr ⟨_, row, hg, hb⟩) (.inl rfl) (decompressAndVerify_ok hb)
    subst he
    exact ⟨row, by rw [get_storeChunk, if_pos rfl, hg, Option.getD_some], hb⟩

theorem storeAll_holds (hi : h.Intact)
    (hn : Set.InjOn Platform.blake3 ({c | c ∈ cs} ∪ h.plains)) :
    ∀ c ∈ cs, (cs.foldl storeChunk h).Holds c := by
  have hkeep (l : List Bytes) (h : HistoryStore) (d : Bytes) (hd : h.Holds d) :
      (l.foldl storeChunk h).Holds d := by
    induction l generalizing h with
    | nil => exact hd
    | cons c l ih => exact ih _ (hd.storeChunk c)
  induction cs generalizing h with
  | nil => exact fun c hc => by cases hc
  | cons c cs ih =>
    have hc : (h.storeChunk c).Holds c := by
      apply storeChunk_holds hi (hn.mono _)
      exact Set.insert_subset (.inl List.mem_cons_self) Set.subset_union_right
    have hrest := ih (storeChunk_intact hi c) (hn.mono ?_)
    · intro d hd
      rcases List.mem_cons.1 hd with rfl | hd
      · exact hkeep cs _ _ hc
      · exact hrest d hd
    · rintro d (hd | hd)
      · exact .inl (List.mem_cons_of_mem c hd)
      · rcases plains_storeChunk h c hd with rfl | hd
        · exact .inl List.mem_cons_self
        · exact .inr hd

end

theorem readManifest_holds (id : Nat) (hc : ∀ c ∈ cs, h.Holds c) :
    h.readManifest id (cs.map Platform.blake3) = .ok cs.flatten := by
  induction cs with
  | nil => rfl
  | cons c cs ih =>
    obtain ⟨row, hrow, hv⟩ := hc c List.mem_cons_self
    simp only [List.map_cons, readManifest, hrow, hv,
      ih fun d hd => hc d (List.mem_cons_of_mem c hd), bind, Except.bind]
    rfl

theorem readManifest_congr (hc : h'.chunks = h.chunks) (id : Nat) (l : List ContentHash) :
    h'.readManifest id l = h.readManifest id l := by
  induction l with
  | nil => rfl
  | cons key l ih => rw [readManifest, readManifest, hc, ih]

/-- Ids tell rows apart, so a row's content is found under its id. -/
theorem getContent_mem (hr : r ∈ h.versions) : h.getContent r.id = h.rowContent r := by
  have hfind : h.versions.find? (fun v => v.id == r.id) = some r := by
    obtain ⟨as, bs, hv⟩ := List.append_of_mem hr
    rw [List.find?_eq_some_iff_append]
    refine ⟨beq_self_eq_true _, as, bs, hv, fun a ha => ?_⟩
    have ha' := h.ascending
    rw [hv, List.pairwise_append] at ha'
    have hlt := ha'.2.2 a ha r List.mem_cons_self
    simp [hlt.ne]
  rw [getContent, hfind]

/-- The row `record_version` inserts for a present version. -/
def presentRow (p : RelPath) (sig : ContentSig) (clock : VectorClock) (replica : ReplicaId)
    (origin : Origin) (wallMs : Nat) (bytes : Bytes) : VersionRow :=
  ⟨0, p, some ⟨Platform.blake3 bytes, sig.size, (cut bytes).map Platform.blake3, sig.exec⟩, clock,
    replica, wallMs, origin⟩

theorem recordVersion_present (h : HistoryStore) (p : RelPath) (clock : VectorClock)
    (replica : ReplicaId) (origin : Origin) (wallMs : Nat) (hm : matchesSig bytes sig = true) :
    h.recordVersion p (.present sig) clock replica origin wallMs (some bytes) =
      .ok ((h.storeChunks bytes).1.insertRow
        (presentRow p sig clock replica origin wallMs bytes)) := by
  have hs := (matchesSig_iff bytes sig).1 hm
  simp only [recordVersion, storeChunks, verifySig, hs.2, hs.1, ne_eq, not_true_eq_false, or_self,
    ↓reduceIte, bind, Except.bind, presentRow]
  rfl

/-- A new present version reads back, unless chunks collide. -/
theorem keeps_insertRow [LawfulPlatform] (p : RelPath) (sig : ContentSig) (clock : VectorClock)
    (replica : ReplicaId) (origin : Origin) (wallMs : Nat) (hi : h.Intact)
    (hn : Set.InjOn Platform.blake3 ({c | c ∈ cut bytes} ∪ h.plains))
    (hnew : ∀ v ∈ h.versions, ¬(v.path = p ∧ v.content.isSome = true ∧ v.clock = clock)) :
    ((h.storeChunks bytes).1.insertRow
      (presentRow p sig clock replica origin wallMs bytes)).1.Keeps p bytes := by
  have hfind : (h.storeChunks bytes).1.versions.find?
      (fun v => sameIdentity v (presentRow p sig clock replica origin wallMs bytes)) = none := by
    rw [List.find?_eq_none, (versions_storeChunks h bytes).1]
    intro v hv hs
    exact hnew v hv (of_decide_eq_true hs)
  rw [insertRow, hfind]
  let r := { presentRow p sig clock replica origin wallMs bytes with
    id := (h.storeChunks bytes).1.lastVersion + 1 }
  have hr : r ∈ ((h.storeChunks bytes).1.appendRow
      (presentRow p sig clock replica origin wallMs bytes)).versions :=
    List.mem_append_right _ (List.mem_singleton.2 rfl)
  refine ⟨r, hr, rfl, rfl, ?_⟩
  rw [getContent_mem hr]
  have hread : ((h.storeChunks bytes).1.appendRow
      (presentRow p sig clock replica origin wallMs bytes)).readManifest r.id
        ((cut bytes).map Platform.blake3) = .ok bytes := by
    have hc : ((h.storeChunks bytes).1.appendRow
        (presentRow p sig clock replica origin wallMs bytes)).chunks =
          (h.storeChunks bytes).1.chunks := rfl
    rw [readManifest_congr hc]
    refine (readManifest_holds r.id (storeAll_holds hi hn)).trans ?_
    exact congrArg _ (LawfulPlatform.fastcdc_flatten bytes)
  simp only [rowContent, r, presentRow] at hread ⊢
  simp only [hread, bind, Except.bind, ne_eq, not_true_eq_false, ↓reduceIte]

end HistoryStore

end Tomo
