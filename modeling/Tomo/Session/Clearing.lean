import Tomo.History.Content
import Tomo.Lib.Resolution
import Tomo.Session.Capture

namespace Tomo
set_option autoImplicit true

namespace Session
variable [Platform] {s s' : Session} {rel : RelPath} {sig : ContentSig} {clock : VectorClock}
  {bytes : Bytes}

open Eff

/-- The clock a cleared file is filed under: that of the head with the disk's signature, else
the winner's. -/
def clearingClock (s : Session) (rel : RelPath) : Option VectorClock :=
  match snapshot s.tree s.root rel with
  | .ok (some sig) =>
    (s.headClockFor rel sig).or ((s.engine.index.get rel).map fun e => e.winner.version)
  | .ok none | .error _ => none

/-- History has a present version of the path at the clock. -/
def Taken (h : HistoryStore) (rel : RelPath) (clock : VectorClock) : Prop :=
  ∃ v ∈ h.versions, v.path = rel ∧ v.content.isSome = true ∧ v.clock = clock

omit [Platform] in
theorem taken_iff (h : HistoryStore) :
    presentAt h rel clock = true ↔ Taken h rel clock := by
  simp only [presentAt, List.any_eq_true, HistoryStore.log, List.mem_reverse, List.mem_map, List.mem_filter,
    decide_eq_true_eq, Bool.and_eq_true, Taken]
  constructor
  · rintro ⟨m, ⟨v, ⟨hv, hp⟩, rfl⟩, hc, hs⟩
    refine ⟨v, hv, hp, ?_, hc⟩
    cases hk : v.content with
    | none => simp [HistoryStore.intoMeta, HistoryStore.rowState, hk] at hs
    | some => rfl
  · rintro ⟨v, hv, hp, hk, hc⟩
    refine ⟨_, ⟨v, ⟨hv, hp⟩, rfl⟩, hc, ?_⟩
    obtain ⟨c, hk⟩ := Option.isSome_iff_exists.1 hk
    simp [HistoryStore.intoMeta, HistoryStore.rowState, hk]

/-- Recording a present version does nothing at a taken clock, and stores the bytes at a free
one. -/
theorem recordPresentIfAbsent_spec (hm : matchesSig bytes sig = true) (l : Bool) :
    (Taken s.history rel clock ∧
        (recordPresentIfAbsent rel sig clock bytes l).exec s = (.ok ⟨⟩, s)) ∨
      (¬Taken s.history rel clock ∧ ∃ row,
        row = HistoryStore.presentRow rel sig clock (s.attribution l).2 (s.attribution l).1 s.wallMs
          bytes ∧
        (recordPresentIfAbsent rel sig clock bytes l).exec s =
          (.ok ⟨⟩, { s with history := ((s.history.storeChunks bytes).1.insertRow row).1 })) := by
  by_cases ht : Taken s.history rel clock
  · refine .inl ⟨ht, ?_⟩
    simp only [recordPresentIfAbsent, exec_get_bind, (taken_iff s.history).2 ht, ↓reduceIte,
      exec_pure]
  · refine .inr ⟨ht, _, rfl, ?_⟩
    have ha := mt (taken_iff s.history).1 ht
    simp only [recordPresentIfAbsent, exec_get_bind, ha, Bool.false_eq_true, ↓reduceIte]
    simp only [storeVersion, HistoryStore.recordVersion_present _ _ _ _ _ _ hm]
    rfl

theorem recordPresentIfAbsent_ok (hm : matchesSig bytes sig = true) : ∃ history,
    (recordPresentIfAbsent rel sig clock bytes true).exec s = (.ok ⟨⟩, { s with history }) := by
  rcases recordPresentIfAbsent_spec hm true with ⟨_, hx⟩ | ⟨_, row, _, hx⟩
  · exact ⟨s.history, hx⟩
  · exact ⟨_, hx⟩

omit [Platform] in
theorem toOption_eq_some {x : Except ε α} (h : x.toOption = some a) : x = .ok a := by
  cases x with
  | error e => cases h
  | ok b => cases h; rfl

/-- A clearing that changes the tree removes a file it has read, and does nothing to history but
record that file. -/
theorem clear_spec (h : (preserveAndClearObstructingFile ancestor).exec s = (r, s'))
    (hrel : s.relUnderRoot ancestor = some rel) (hgone : s'.tree ≠ s.tree) :
    ∃ sig bytes clock, s.tree.read ancestor = .ok bytes ∧ matchesSig bytes sig = true ∧
      s.clearingClock rel = some clock ∧ s.tree.unlink ancestor = .ok s'.tree ∧
      s'.history = ((recordPresentIfAbsent rel sig clock bytes true).exec s).2.history := by
  simp only [preserveAndClearObstructingFile, exec_get_bind, hrel] at h
  cases hsnap : snapshot s.tree s.root rel with
  | error e =>
    rw [hsnap] at h
    cases h
    exact (hgone rfl).elim
  | ok o =>
    rw [hsnap] at h
    cases o with
    | none =>
      cases h
      exact (hgone rfl).elim
    | some sig =>
      dsimp only at h
      cases hb : (s.tree.read ancestor).toOption.filter fun b => matchesSig b sig with
      | none =>
        rw [hb] at h
        cases h
        exact (hgone rfl).elim
      | some bytes =>
        rw [hb] at h
        dsimp only at h
        have hclock : s.clearingClock rel = (s.headClockFor rel sig).or
            ((s.engine.index.get rel).map fun e => e.winner.version) := by
          rw [clearingClock, hsnap]
        cases hc : (s.headClockFor rel sig).or
            ((s.engine.index.get rel).map fun e => e.winner.version) with
        | none =>
          rw [hc] at h
          cases h
          exact (hgone rfl).elim
        | some clock =>
          rw [hc] at h
          dsimp only at h
          rw [Option.filter_eq_some_iff] at hb
          refine ⟨sig, bytes, clock, toOption_eq_some hb.1, hb.2, hclock.trans hc, ?_⟩
          obtain ⟨history, hx⟩ := @recordPresentIfAbsent_ok _ s rel sig clock bytes hb.2
          rw [exec_bind_ok hx] at h
          rw [hx]
          cases hu : s.tree.unlink ancestor with
          | error e =>
            rw [hu] at h
            cases h
            exact (hgone rfl).elim
          | ok t =>
            rw [hu] at h
            cases h
            exact ⟨rfl, rfl⟩

omit [Platform] in
/-- What unlinking a path a file was read from takes away is that file. -/
theorem unlink_read {t u : Tree} {a q : List Name} (hu : t.unlink a = .ok u)
    (hq : t.get q = some (.file b m k)) (hgone : u.get q = none) (hread : t.read a = .ok bytes) :
    bytes = b := by
  obtain ⟨q', n, hloc, hn, _, hget⟩ := FileTree.unlink_spec hu
  rw [hget] at hgone
  split at hgone
  next he =>
    subst he
    have hfollow : t.locate true a = .ok q' := by
      apply FileTree.locate_follow hloc
      intro k hk
      rw [hq] at hk
      cases hk
    rw [FileTree.read, FileTree.stat, hfollow] at hread
    simp only [bind, Except.bind, hq] at hread
    cases hread
    rfl
  next =>
    rw [hq] at hgone
    cases hgone

/-- Clearing a file keeps its bytes in history exactly when the clock it is filed under was
free, or history could give those bytes back before. -/
theorem clear_keeps_iff [LawfulPlatform] {ancestor q : List Name}
    (h : (preserveAndClearObstructingFile ancestor).exec s = (r, s'))
    (hrel : s.relUnderRoot ancestor = some rel) (hq : s.tree.get q = some (.file bytes mode mtime))
    (hgone : s'.tree.get q = none) (hi : s.history.Intact)
    (hn : Set.InjOn Platform.blake3 ({c | c ∈ HistoryStore.cut bytes} ∪ s.history.plains)) :
    s'.history.Keeps rel bytes ↔
      (∀ clock, s.clearingClock rel = some clock → ¬Taken s.history rel clock) ∨
        s.history.Keeps rel bytes := by
  have hne : s'.tree ≠ s.tree := by
    intro he
    rw [he, hq] at hgone
    cases hgone
  obtain ⟨sig, bytes', clock, hread, hm, hclock, hu, hhist⟩ := clear_spec h hrel hne
  cases unlink_read hu hq hgone hread
  rw [hhist]
  rcases recordPresentIfAbsent_spec hm true with ⟨ht, hx⟩ | ⟨ht, row, rfl, hx⟩
  · rw [hx]
    exact ⟨.inr, fun hk => hk.resolve_left fun hf => hf clock hclock ht⟩
  · rw [hx]
    refine iff_of_true ?_ (.inl fun c hc => ?_)
    · exact HistoryStore.keeps_insertRow _ _ _ _ _ _ hi hn fun v hv hs => ht ⟨v, hv, hs⟩
    · rw [hclock] at hc
      cases hc
      exact ht

end Session

/-- The history that holds that version. -/
def fooHistory : HistoryStore :=
  letI := tabulated shortHashes
  match HistoryStore.new.recordVersion fooPath (.present oneSig) (VectorClock.new.tick ⟨1⟩) ⟨1⟩
      .local 5 (some [0x31]) with
  | .ok (h, _) => h
  | .error _ => .new

/-- `foo` is versioned as `1` and has been edited to `2` since, unobserved. -/
def editedSession : Session := .start rootDir syncAll fooEngine fooHistory (fooTree 0x32)

/-- The clock of the recorded version is borrowed for the edit, which history then drops. -/
theorem clear_drops_edit :
    letI := tabulated shortHashes
    let r := (Session.preserveAndClearObstructingFile (join rootDir fooPath)).exec editedSession
    editedSession.relUnderRoot (join rootDir fooPath) = some fooPath ∧
      editedSession.tree.get (join rootDir fooPath) = some (.file [0x32] 0o644 7) ∧
      r.1 = .ok true ∧ r.2.tree.get (join rootDir fooPath) = none ∧
      ¬r.2.history.Keeps fooPath [0x32] := by
  decide

/-- The same root with the recorded content and no history yet. -/
def unrecordedSession : Session := .start rootDir syncAll fooEngine .new (fooTree 0x31)

theorem clear_keeps_foo :
    letI := tabulated shortHashes
    ((Session.preserveAndClearObstructingFile (join rootDir fooPath)).exec
      unrecordedSession).2.history.Keeps fooPath [0x31] := by
  let platform := tabulated shortHashes
  let lawful := tabulated_lawful shortHashes
  let r := (Session.preserveAndClearObstructingFile (join rootDir fooPath)).exec unrecordedSession
  have hrun : (Session.preserveAndClearObstructingFile (join rootDir fooPath)).exec
      unrecordedSession = (r.1, r.2) := rfl
  have hrel : unrecordedSession.relUnderRoot (join rootDir fooPath) = some fooPath := by decide
  have hq : unrecordedSession.tree.get (join rootDir fooPath) = some (.file [0x31] 0o644 7) := by
    decide
  have hgone : r.2.tree.get (join rootDir fooPath) = none := by decide
  have hnone (key : ContentHash) : unrecordedSession.history.chunks[key]? = none :=
    Std.ExtTreeMap.getElem?_empty
  refine (Session.clear_keeps_iff hrun hrel hq hgone HistoryStore.intact_new ?_).2 (.inl ?_)
  · rintro b (hb | ⟨key, row, hr, _⟩) c (hc | ⟨key, row, hr, _⟩) _
    · cases List.mem_singleton.1 hb
      cases List.mem_singleton.1 hc
      rfl
    all_goals
      rw [hnone] at hr
      cases hr
  · rintro clock _ ⟨v, hv, _⟩
    cases hv

end Tomo
