import Tomo.Session.Evolving

namespace Tomo
set_option autoImplicit true

namespace Entry
variable {e : Entry} {h : Head}

/-- A head of a conflict that is not the winner. -/
structure Loses (e : Entry) (h : Head) : Prop where
  conflict : e.headsConflict = true
  mem : h ∈ e.heads
  other : h.eq e.winner = false

theorem single_loses (v : VectorClock) (s : EntryState) (h : Head) : ¬(single v s).Loses h := by
  intro hl
  have hw : (single v s).winner = ⟨v, s⟩ := rfl
  have ho := hl.other
  rw [List.mem_singleton.1 hl.mem, hw, Head.eq, EntryState.eq_refl, decide_eq_true rfl] at ho
  cases ho

/-- A conflict has a second head besides its loser. -/
theorem Loses.two_le (hl : e.Loses h) : 2 ≤ e.heads.length := by
  have hm := Session.winner_mem (List.ne_nil_of_mem hl.mem)
  match hs : e.heads, hl.mem, hm with
  | [g], hg, hw =>
    have ho := hl.other
    rw [List.mem_singleton.1 hg, List.mem_singleton.1 hw, Head.eq, EntryState.eq_refl,
      decide_eq_true rfl] at ho
    cases ho
  | _ :: _ :: _, _, _ => simp

/-- The heads of an entry of one head that takes in a version differ by their clocks. -/
theorem absorb_one (h1 : e.heads = [h₀]) (hk : e.knows v = false) (s : EntryState)
    (hg : g ∈ (e.absorb v s).1.heads) (hh : h ∈ (e.absorb v s).1.heads)
    (hv : g.version = h.version) : g = h := by
  have hn : ¬v ≤ h₀.version := by
    intro hle
    rw [← Bool.not_eq_true, knows_iff] at hk
    exact hk ⟨h₀, by rw [h1]; exact List.mem_singleton_self _, hle⟩
  rw [mem_absorb hk, h1, List.mem_singleton] at hg hh
  rcases hg with rfl | ⟨rfl, _⟩
  · rcases hh with rfl | ⟨rfl, _⟩
    · rfl
    · exact (hn (le_of_eq hv)).elim
  · rcases hh with rfl | ⟨rfl, _⟩
    · exact (hn (le_of_eq hv.symm)).elim
    · rfl

/-- A conflict is new where the path had one head. -/
theorem absorb_opens (hk : e.knows v = false) (s : EntryState) : ∃ wc nov,
    e.absorb v s = ((e.absorb v s).1, .absorbed wc (decide (e.heads.length = 1) &&
      decide (2 ≤ (e.absorb v s).1.heads.length) && (e.absorb v s).1.headsConflict) nov) := by
  rw [absorb, if_neg (by simp [hk])]
  exact ⟨_, _, rfl⟩

end Entry

namespace HistoryStore

/-- The content of a version is stored for a path, under whatever clock. -/
def Shelved (p : RelPath) (state : EntryState) (h : HistoryStore) : Prop :=
  ∃ r ∈ h.versions, r.path = p ∧ sameState (rowState r) state = true

theorem Stored.shelved {h : HistoryStore} (hs : h.Stored p state clock) : h.Shelved p state := by
  obtain ⟨r, hr, hp, _, hst⟩ := hs
  exact ⟨r, hr, hp, hst⟩

theorem Shelved.mono {h h' : HistoryStore} (hs : h.Shelved p state)
    (hv : h.versions <+: h'.versions) : h'.Shelved p state := by
  obtain ⟨r, hr, hrow⟩ := hs
  exact ⟨r, hv.subset hr, hrow⟩

/-- What is read back for a stored content is that content. -/
theorem Shelved.reads [Platform] {h : HistoryStore} (hs : h.Shelved p (.present sig))
    (hread : ∀ r ∈ h.versions, r.content.isSome = true → ∃ b, h.getContent r.id = .ok b) :
    ∃ r ∈ h.versions, r.path = p ∧ ∃ b, h.getContent r.id = .ok b ∧
      Platform.blake3 b = sig.hash := by
  obtain ⟨r, hr, hp, hst⟩ := hs
  cases hc : r.content with
  | none =>
    rw [rowState, hc] at hst
    cases hst
  | some content =>
    obtain ⟨b, hb⟩ := hread r hr (by rw [hc]; rfl)
    refine ⟨r, hr, hp, b, hb, ?_⟩
    rw [rowState, hc] at hst
    simp only [sameState, Bool.and_eq_true, decide_eq_true_eq] at hst
    rw [← hst.1]
    rw [getContent_mem hr, rowContent, hc] at hb
    cases hm : h.readManifest r.id content.manifest with
    | error e =>
      simp only [hm, bind, Except.bind] at hb
      cases hb
    | ok out =>
      simp only [hm, bind, Except.bind] at hb
      split at hb
      · cases hb
      next heq =>
        cases hb
        exact not_not.1 heq

end HistoryStore

namespace Session
open Eff HistoryStore

/-- What is filed are heads of an entry. -/
def FilesHeads (p : RelPath) (heads : List Head) (a : Action) : Prop :=
  (∃ g ∈ heads, a = .recordVersion p g.state g.version) ∨
    ∃ w ∈ heads, ∃ l ∈ heads, ∃ adopted,
      a = .conflictResolved p w.state w.version l.state l.version adopted

theorem FilesHeads.paper (h : FilesHeads p heads a) : a.isPaper = true := by
  rcases h with ⟨g, _, rfl⟩ | ⟨w, _, l, _, _, rfl⟩
  · rfl
  · rfl

/-- What is filed about a change are heads that its path has from then on. -/
theorem paperwork_heads (e : Engine) (c : RemoteChange) : ∀ a ∈ e.paperwork c,
    FilesHeads c.path
      (Engine.absorbed (e.index.get c.path) c.version (stateFromKind c.kind)).heads a := by
  intro a ha
  obtain ⟨ha, hpaper⟩ := List.mem_filter.1 ha
  rw [Engine.handleRemote, Engine.absorbRemote] at ha
  cases hg : e.index.get c.path with
  | none =>
    rw [hg] at ha
    dsimp only at ha
    have hrec : a = .recordVersion c.path (stateFromKind c.kind) c.version := by
      cases hs : stateFromKind c.kind with
      | present sig =>
        rw [hs] at ha
        rcases List.mem_cons.1 ha with rfl | ha
        · cases hpaper
        · exact List.mem_singleton.1 ha
      | tombstone =>
        rw [hs] at ha
        exact List.mem_singleton.1 ha
    exact .inl ⟨⟨c.version, stateFromKind c.kind⟩, List.mem_singleton_self _, hrec⟩
  | some entry =>
    rw [hg] at ha
    dsimp only at ha
    rcases Engine.absorb_outcome entry c.version (stateFromKind c.kind) with
      ⟨_, hk⟩ | ⟨hk, wc, nc, nov, ho⟩
    · simp only [hk] at ha
      cases ha
    · have he : entry.absorb c.version (stateFromKind c.kind) =
          ((entry.absorb c.version (stateFromKind c.kind)).1, .absorbed wc nc nov) := by rw [← ho]
      rw [Engine.absorbed]
      rw [he] at ha
      dsimp only at ha
      rcases List.mem_append.1 ha with ha | ha
      · rcases List.mem_append.1 ha with ha | ha
        · cases wc with
          | true =>
            cases List.mem_singleton.1 ha
            cases hpaper
          | false => cases ha
        · cases nc with
          | true =>
            obtain ⟨l, hl, rfl⟩ := List.mem_map.1 ha
            have hl := (List.mem_filter.1 hl).1
            exact .inr ⟨_, winner_mem (List.ne_nil_of_mem hl), l, hl, _, rfl⟩
          | false => cases ha
      · cases nov with
        | true =>
          have hm : (⟨c.version, stateFromKind c.kind⟩ : Head) ∈
              (entry.absorb c.version (stateFromKind c.kind)).1.heads :=
            (Entry.mem_absorb hk _).2 (.inl rfl)
          exact .inl ⟨_, hm, List.mem_singleton.1 ha⟩
        | false => cases ha

section
variable [Platform] {s s' t : Session} {p : RelPath} {c : RemoteChange} {bytes : Option Bytes}

/-- The loser of a conflict is recorded with what was captured for it. -/
theorem executeActions_shelves {start : Session} {h : Head} {heads : List Head} {nowMs : Nat}
    (hu : ∀ g ∈ heads, g.version = h.version → g = h) {actions : List Action}
    (ha : ∀ a ∈ actions, FilesHeads p heads a) (hf : s.history.Free p h.state h.version)
    (hb : ∃ b, start.captureConflictBytes p h.state bytes = .present b)
    (hm : .conflictResolved p w wv h.state h.version adopted ∈ actions)
    (hx : (executeActions bytes v nowMs skip actions
      (start.conflictCaptures bytes v actions)).exec s = (.ok r, s')) :
    s'.history.Stored p h.state h.version := by
  have hok (g : Head) (hg : g ∈ heads) (hv : g.version = h.version) :
      sameState g.state h.state = true := by
    rw [hu g hg hv]
    exact sameState_refl h.state
  induction actions generalizing s with
  | nil => cases hm
  | cons a rest ih =>
    have hpaper : ∀ b ∈ rest, b.isPaper = true := fun b hb =>
      (ha b (List.mem_cons_of_mem a hb)).paper
    have ih {s : Session} := ih (s := s) fun b hb => ha b (List.mem_cons_of_mem a hb)
    rcases ha a List.mem_cons_self with ⟨g, hg, rfl⟩ | ⟨g, hg, l, hl, adopted', rfl⟩
    · have hm := (List.mem_cons.1 hm).resolve_left fun he => by cases he
      rw [executeActions, exec_ite] at hx
      split at hx
      · exact ih hf hm hx
      · obtain ⟨_, u, hnote, hx⟩ := ok_of_bind hx
        have hfree := ((free_recorder p h.state h.version).noteVersion (p := p)
          (fun _ => hok g hg) (!decide (v = some g.version)) nowMs s).after hf
        rw [hnote] at hfree
        exact ih hfree hm hx
    · obtain ⟨_, u, hrec, hx⟩ := ok_of_bind hx
      obtain ⟨_, hrec⟩ := ok_of_map (g := fun _ => PUnit.unit) hrec
      let k : ConflictCapture := {
        path := p, winner := g.state, winnerVersion := g.version, loser := l.state
        loserVersion := l.version, adopted := adopted'
        winnerIsLocal := !decide (v = some g.version)
        winnerBytes := start.captureConflictBytes p g.state bytes
        loserIsLocal := !decide (v = some l.version)
        loserBytes := start.captureConflictBytes p l.state bytes }
      have hrec : (recordConflictCapture k).exec s = (.ok _, u) := hrec
      rcases List.mem_cons.1 hm with he | hm
      · obtain ⟨-, -, -, hls, hlv, -⟩ := Action.conflictResolved.inj he
        rw [hls, hlv] at hf ⊢
        rw [hls] at hb
        have hstored := recordConflictCapture_stores hf (fun _ => rfl) (.inr ⟨rfl, rfl, .inr hb⟩)
          hrec
        have hq := executeActions_quiet bytes v nowMs skip hpaper
          (start.conflictCaptures bytes v rest) u
        have hx' : (executeActions bytes v nowMs skip rest
          (start.conflictCaptures bytes v rest)).exec u = (.ok r, s') := hx
        rw [Quiet, hx'] at hq
        obtain ⟨row, hrow, hid⟩ := hstored
        exact ⟨row, hq.versions.subset hrow, hid⟩
      · have hkeep := (free_recorder p h.state h.version).recordConflictCapture (c := k)
          (fun _ => hok l hl) (fun _ => hok g hg) s
        have hfree := hkeep.after hf
        rw [hrec] at hfree
        exact ih hfree hm hx

omit [Platform] in
/-- A path with one head reports each loser of the conflict that a change opens there. -/
theorem conflict_filed {e : Engine} (hg : e.index.get c.path = some entry)
    (h1 : entry.heads.length = 1)
    (hl : (entry.absorb c.version (stateFromKind c.kind)).1.Loses h) :
    entry.knows c.version = false ∧ ∃ w wv adopted,
      .conflictResolved c.path w wv h.state h.version adopted ∈ e.paperwork c := by
  rcases Engine.absorb_outcome entry c.version (stateFromKind c.kind) with
    ⟨_, hk⟩ | ⟨hk, _⟩
  · have h2 := hl.two_le
    rw [hk] at h2
    dsimp only at h2
    omega
  · obtain ⟨wc, nov, ho⟩ := Entry.absorb_opens hk (stateFromKind c.kind)
    simp only [h1, hl.two_le, hl.conflict, decide_true, Bool.and_self] at ho
    obtain ⟨after, ha⟩ : ∃ after, (entry.absorb c.version (stateFromKind c.kind)).1 = after :=
      ⟨_, rfl⟩
    rw [ha] at hl ho
    refine ⟨hk, after.winner.state, after.winner.version, after.adoptionMode, ?_⟩
    refine List.mem_filter.2 ⟨?_, rfl⟩
    rw [Engine.handleRemote, Engine.absorbRemote, hg]
    simp only [ho, ↓reduceIte]
    refine List.mem_append_left _ (List.mem_append_right _ (List.mem_map.2 ⟨h, ?_, rfl⟩))
    rw [List.mem_filter, hl.other]
    exact ⟨hl.mem, rfl⟩

/-- Every present loser of a conflict has its content in history. -/
def LosersShelved (s : Session) : Prop :=
  ∀ p e, s.engine.index.get p = some e → ∀ h sig, e.Loses h → h.state = .present sig →
    s.history.Shelved p (.present sig)

omit [Platform] in
/-- A local change leaves a path without losers. -/
theorem losersShelved_heeds : Heeds LosersShelved where
  onward {s s'} h ho p e he g sig hl hs := by
    rw [ho.engine] at he
    exact (h p e he g sig hl hs).mono ho.versions
  observe {s} c h p e he g sig hl hs := by
    rcases (s.engine.handleLocal_spec c).2 with ⟨hidx, _⟩ | ⟨hidx, _⟩
    · simp only [hidx] at he
      exact h p e he g sig hl hs
    · simp only [hidx, Index.get_upsert] at he
      split at he
      · cases he
        exact (Entry.single_loses _ _ g hl).elim
      · exact h p e he g sig hl hs

/-- A change lets no head lose but those whose content is in history, or at hand where its path
has one head, with nothing else under their identity. -/
def Spares (t : Session) (c : RemoteChange) (bytes : Option Bytes) : Prop :=
  ∀ e, t.engine.index.get c.path = some e → ∀ h sig,
    (e.absorb c.version (stateFromKind c.kind)).1.Loses h → h.state = .present sig →
      t.history.Shelved c.path (.present sig) ∨
        e.heads.length = 1 ∧ t.history.Free c.path (.present sig) h.version ∧
          ∃ b, t.captureConflictBytes c.path (.present sig) bytes = .present b

theorem absorbAndExecute_onward (c : RemoteChange) (bytes : Option Bytes) (t : Session) :
    Onward (t.absorbed c) ((absorbAndExecute c bytes).exec t).2 := by
  have hboth : Quiet (do
      carryOut c.path (t.engine.applyTarget c) bytes
      t.fileAbsorbed c bytes) (t.absorbed c) := by
    refine Quiet.bind ?_ fun _ s' => ?_
    · cases t.engine.applyTarget c with
      | none => exact .pure _ _
      | some target => exact doApply_quiet c.path target bytes _
    · exact executeActions_quiet _ _ _ _
        (fun a ha => (Engine.paperwork_paper t.engine c a ha).1) _ s'
  rw [absorbAndExecute_exec]
  exact hboth

/-- A loser whose bytes are at hand when the conflict opens is stored. -/
theorem absorbAndExecute_shelves {h : Head} (hg : t.engine.index.get c.path = some e)
    (h1 : e.heads.length = 1) (hl : (e.absorb c.version (stateFromKind c.kind)).1.Loses h)
    (hf : t.history.Free c.path h.state h.version)
    (hb : ∃ b, t.captureConflictBytes c.path h.state bytes = .present b)
    (hx : (absorbAndExecute c bytes).exec t = (.ok r, s')) :
    s'.history.Stored c.path h.state h.version := by
  obtain ⟨hk, w, wv, adopted, hm⟩ := conflict_filed hg h1 hl
  have hu : ∀ g ∈ (e.absorb c.version (stateFromKind c.kind)).1.heads,
      g.version = h.version → g = h := by
    obtain ⟨h₀, hone⟩ := List.length_eq_one_iff.1 h1
    exact fun g hg hv => Entry.absorb_one hone hk _ hg hl.mem hv
  have hheads := paperwork_heads t.engine c
  rw [hg] at hheads
  have hidx : (t.absorbed c).engine.index.get c.path =
      some (e.absorb c.version (stateFromKind c.kind)).1 := by
    obtain ⟨_, hget, _⟩ := t.engine.absorbRemote_spec c.path (stateFromKind c.kind) c.version
    have hget := hget c.path
    rw [if_pos rfl, hg] at hget
    exact hget
  rw [absorbAndExecute_exec] at hx
  obtain ⟨_, u, hcarry, hx⟩ := ok_of_bind hx
  have hfree : u.history.Free c.path h.state h.version := by
    cases ht : t.engine.applyTarget c with
    | none =>
      rw [ht] at hcarry
      cases hcarry
      exact hf
    | some target =>
      rw [ht] at hcarry
      have hcarry : (doApply c.path target bytes).exec (t.absorbed c) = (.ok _, u) := hcarry
      have hkeep : Upholds (fun s => s.history.Free c.path h.state h.version)
          (doApply c.path target bytes) (t.absorbed c) := by
        refine (free_recorder c.path h.state h.version).doApply ?_ ?_ target bytes
        · rintro sig clock hclock - rfl
          rw [headClockFor, hidx, Option.map_eq_some_iff] at hclock
          obtain ⟨g, hfind, hv⟩ := hclock
          have hst : g.state.eq (.present sig) = true :=
            List.find?_some (p := fun g : Head => g.state.eq (.present sig)) hfind
          rw [hu g (List.mem_of_find?_eq_some hfind) hv] at hst
          exact sameState_symm (sameState_of_eq hst)
        · rintro rel hrel _ _ rfl -
          have hlen := hrel.length_le
          rw [List.length_dropLast] at hlen
          have hpos := List.length_pos_iff.2 c.path.components_ne_nil
          omega
      have hfree := hkeep.after hf
      rwa [hcarry] at hfree
  rw [fileAbsorbed, conflictCaptures_paperwork] at hx
  exact executeActions_shelves hu hheads hfree hb hm hx

/-- An absorption that spares the losers leaves them all in history. -/
theorem absorbAndExecute_losers (hsp : t.Spares c bytes) :
    Secures LosersShelved (absorbAndExecute c bytes) t := by
  intro r s' hx h p e he g sig hl hs
  have ho := absorbAndExecute_onward c bytes t
  rw [hx] at ho
  obtain ⟨_, hget, _⟩ := t.engine.absorbRemote_spec c.path (stateFromKind c.kind) c.version
  have hget : (t.absorbed c).engine.index.get p = _ := hget p
  rw [ho.engine, hget] at he
  split at he
  next hp =>
    subst hp
    cases he
    cases hg : t.engine.index.get c.path with
    | none =>
      rw [hg] at hl
      exact (Entry.single_loses _ _ g hl).elim
    | some entry =>
      rw [hg] at hl
      rcases hsp entry hg g sig hl hs with hsh | ⟨h1, hf, hb⟩
      · exact hsh.mono ho.versions
      · rw [← hs] at hf hb ⊢
        exact (absorbAndExecute_shelves hg h1 hl hf hb hx).shelved
  next => exact (h p e he g sig hl hs).mono ho.versions

/-- A pass that goes through, and whose changes let no head lose that is not kept. -/
def SparingStep (s s' : Session) : Prop :=
  ∃ pass, ((work pass).exec s).1 = .ok ⟨⟩ ∧ s' = s.after pass ∧ ∀ batch, pass = .burst batch →
    ∀ c bytes t, s.Absorbs batch c bytes t → t.Spares c bytes

theorem SparingRun.shelved (h : s.LosersShelved)
    (hrun : Relation.ReflTransGen SparingStep s s') : s'.LosersShelved := by
  induction hrun with
  | refl => exact h
  | tail _ hstep ih =>
    obtain ⟨pass, hok, rfl, hsp⟩ := hstep
    exact losersShelved_heeds.after pass
      (fun batch hb c bytes t hab => absorbAndExecute_losers (hsp batch hb c bytes t hab)) hok ih

/-- In a run whose changes let no head lose that is not kept, every present head of a conflict that
is not the winner reads back from a version of its path. -/
theorem SparingRun.losers_kept (h : s.LosersShelved)
    (hrun : Relation.ReflTransGen SparingStep s s')
    (hread : ∀ r ∈ s'.history.versions, r.content.isSome = true →
      ∃ b, s'.history.getContent r.id = .ok b)
    (he : s'.engine.index.get p = some e) (hl : e.Loses g) (hs : g.state = .present sig) :
    ∃ r ∈ s'.history.versions, r.path = p ∧ ∃ b, s'.history.getContent r.id = .ok b ∧
      Platform.blake3 b = sig.hash :=
  (SparingRun.shelved h hrun p e he g sig hl hs).reads hread

/-- A burst of one frame absorbs what that frame leads to. -/
theorem Absorbs.of_single {a : Arrival} (hi : a.item = .message msg)
    (hab : s.Absorbs [a] c bytes t) :
    (arrive msg).exec (s.receiving a msg) = (.ok (some (c, bytes)), t) := by
  obtain ⟨pre, a', post, msg', u, hsplit, hi', hpre, harr⟩ := hab
  have hone : coalesceBurst [a] = [a] := by
    rw [coalesceBurst, hi]
    rfl
  rw [hone] at hsplit
  cases pre with
  | nil =>
    cases hsplit
    cases hpre
    rw [hi] at hi'
    cases hi'
    exact harr
  | cons b pre =>
    have hlen := congrArg List.length hsplit
    simp at hlen

end

end Session

/-- The hashes of three short contents. -/
def threeHashes : List (Bytes × ContentHash) :=
  shortHashes ++ [([0x33], digest 0x58d6fd3dc609068615d66b6a2616cce521e6bd49bbcd7854e3f2573b142c6637)]

/-- The signature of the content `3`. -/
def threeSig : ContentSig :=
  ⟨digest 0x58d6fd3dc609068615d66b6a2616cce521e6bd49bbcd7854e3f2573b142c6637, 1, false, 5⟩

/-- What the other replica makes of its own version of `foo`. -/
def thirdChange : RemoteChange := ⟨fooPath, .modified threeSig, rivalChange.version.tick ⟨2⟩⟩

/-- A session that tracks `foo` and versions every change. -/
def openingSession : Session := everyChangeSession fooEngine

/-- The session when it absorbs the rival of its own version. -/
def openingAbsorbing : Session :=
  letI := tabulated threeHashes
  framedSession openingSession rivalChange [0x32]

def openedSession : Session :=
  letI := tabulated threeHashes
  openingSession.after (.burst [framed rivalChange [0x32]])

def replacedSession : Session :=
  letI := tabulated threeHashes
  openedSession.after (.burst [framed thirdChange [0x33]])

/-- The head that replaces the loser of an open conflict loses as well, and its content is in no
version. -/
theorem replaced_loser_lost :
    letI := tabulated threeHashes
    Relation.ReflTransGen Session.Step openingSession replacedSession ∧
      ((Session.processBurst [framed rivalChange [0x32]]).exec openingSession).1 = .ok false ∧
      ((Session.processBurst [framed thirdChange [0x33]]).exec openedSession).1 = .ok false ∧
      matchesSig [0x33] threeSig = true ∧
      (∃ e, replacedSession.engine.index.get fooPath = some e ∧
        e.Loses ⟨thirdChange.version, .present threeSig⟩) ∧
      replacedSession.history.versions.map (fun r => replacedSession.history.getContent r.id) =
        [.ok [0x32], .ok [0x31]] := by
  let platform := tabulated threeHashes
  refine ⟨?_, by decide +kernel, by decide +kernel, by decide +kernel, ?_, by decide +kernel⟩
  · exact .tail (.single ⟨.burst [framed rivalChange [0x32]], rfl⟩)
      ⟨.burst [framed thirdChange [0x33]], rfl⟩
  · have hg : replacedSession.engine.index.get fooPath =
        some ⟨[⟨VectorClock.new.tick ⟨1⟩, .present oneSig⟩,
          ⟨thirdChange.version, .present threeSig⟩]⟩ := by decide +kernel
    exact ⟨_, hg, by decide +kernel, by decide +kernel, by decide +kernel⟩

/-- The loser of the conflict when it opens is kept. -/
theorem opening_loser_kept :
    letI := tabulated threeHashes
    ∃ r ∈ openedSession.history.versions, r.path = fooPath ∧
      ∃ b, openedSession.history.getContent r.id = .ok b ∧ Platform.blake3 b = twoSig.hash := by
  let platform := tabulated threeHashes
  have hstart : openingSession.LosersShelved := by
    intro p e he g sig hl _
    have hi : openingSession.engine.index.get p = if fooPath = p then
        some (.single (VectorClock.new.tick ⟨1⟩) (.present oneSig)) else Index.new.get p :=
      Index.get_upsert ..
    rw [hi, Index.get_new] at he
    split at he
    · cases he
      exact (Entry.single_loses _ _ g hl).elim
    · cases he
  have hstep : openingSession.SparingStep openedSession := by
    refine ⟨.burst [framed rivalChange [0x32]], by decide +kernel, rfl, ?_⟩
    rintro _ ⟨⟩ c bytes t hab
    have harr := hab.of_single rfl
    have hrival : (Session.arrive (.change rivalChange (some [0x32]))).exec
        (openingSession.receiving (framed rivalChange [0x32]) (.change rivalChange (some [0x32]))) =
        (.ok (some (rivalChange, some [0x32])), openingAbsorbing) :=
      Prod.ext (by decide +kernel) rfl
    rw [hrival] at harr
    obtain ⟨hc, rfl⟩ := Prod.mk.inj harr
    cases hc
    intro e he h sig hl hs
    have hone : openingAbsorbing.engine.index.get fooPath =
        some (.single (VectorClock.new.tick ⟨1⟩) (.present oneSig)) := by decide +kernel
    have hv : openingAbsorbing.history.versions = [] := by decide +kernel
    obtain rfl := Option.some.inj (hone.symm.trans he)
    refine .inr ⟨rfl, fun r hr => ?_, ?_⟩
    · rw [hv] at hr
      cases hr
    · rcases (Entry.mem_absorb (by decide +kernel) _).1 hl.mem with rfl | ⟨hm, _⟩
      · cases hs
        exact ⟨[0x32], by decide +kernel⟩
      · cases List.mem_singleton.1 hm
        cases hs
        exact ⟨[0x31], by decide +kernel⟩
  have hg : openedSession.engine.index.get fooPath =
      some ⟨[⟨VectorClock.new.tick ⟨1⟩, .present oneSig⟩,
        ⟨rivalChange.version, .present twoSig⟩]⟩ := by decide +kernel
  have hl : Entry.Loses ⟨[⟨VectorClock.new.tick ⟨1⟩, .present oneSig⟩,
      ⟨rivalChange.version, .present twoSig⟩]⟩ ⟨rivalChange.version, .present twoSig⟩ :=
    ⟨by decide +kernel, by decide +kernel, by decide +kernel⟩
  have hread : ∀ r ∈ openedSession.history.versions, r.content.isSome = true →
      ∃ b, openedSession.history.getContent r.id = .ok b := by
    have hall : ∀ r ∈ openedSession.history.versions,
        (openedSession.history.getContent r.id).toOption.isSome = true := by decide +kernel
    intro r hr _
    have hr := hall r hr
    cases hb : openedSession.history.getContent r.id with
    | ok b => exact ⟨b, rfl⟩
    | error e =>
      rw [hb] at hr
      cases hr
  exact Session.SparingRun.losers_kept hstart (.single hstep) hread hg hl rfl

end Tomo
