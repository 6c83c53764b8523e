import Tomo.Engine.Convergence
import Tomo.Engine.Reconciling

namespace Tomo
set_option autoImplicit true

/-- What `same_content` compares. -/
def EntryState.content : EntryState → Option (ContentHash × Bool)
  | .present sig => some (sig.hash, sig.exec)
  | .tombstone => none

theorem sameContent_iff (a b : EntryState) : sameContent a b = true ↔ a.content = b.content := by
  cases a <;> cases b <;> simp [sameContent, EntryState.content]

theorem EntryState.content_of_eq {a b : EntryState} (h : a.eq b = true) : a.content = b.content := by
  rw [EntryState.eq_iff] at h
  cases a with
  | tombstone => cases b with
    | tombstone => rfl
    | present y => cases h
  | present x => cases b with
    | tombstone => cases h
    | present y =>
      simp only [identity, Option.some.injEq, Prod.mk.injEq] at h
      simp only [content, h.1, h.2.2]

/-- All heads carry the same content. -/
def Entry.Uniform (e : Entry) : Prop :=
  ∀ h ∈ e.heads, ∀ g ∈ e.heads, sameContent h.state g.state = true

/-- The path holds nothing but one content. -/
def Engine.Uniform (e : Engine) (p : RelPath) : Prop :=
  ∀ entry, e.index.get p = some entry → entry.Uniform

/-- The path holds two contents. -/
def Engine.conflicting (e : Engine) (p : RelPath) : Bool :=
  (e.index.get p).any Entry.headsConflict

/-- A version of another content meets two or more heads of one content, not all below it. -/
structure Surprised (entry : Entry) (h : Head) : Prop where
  uniform : entry.Uniform
  twins : 2 ≤ entry.heads.length
  unknown : ∀ g ∈ entry.heads, ¬h.version ≤ g.version
  kept : ∃ g ∈ entry.heads, ¬g.version ≤ h.version
  other : ∃ g ∈ entry.heads, sameContent g.state h.state = false

/-- The action is a conflict note about the path. -/
def Action.isNote (p : RelPath) : Action → Bool
  | .conflictResolved q .. => decide (q = p)
  | .send _ | .apply .. | .recordVersion .. => false

theorem Action.isNote_conflict (p : RelPath) (w l : EntryState) (v v' : VectorClock) (a : Bool) :
    (Action.conflictResolved p w v l v' a).isNote p = true := decide_eq_true rfl

namespace Entry
variable {e : Entry} {v : VectorClock} {s : EntryState}

theorem headsConflict_iff (e : Entry) : e.headsConflict = true ↔ ¬e.Uniform := by
  unfold headsConflict Uniform
  cases hh : e.heads with
  | nil => simp
  | cons first rest =>
    rw [List.head?_cons]
    simp only [List.any_eq_true, Bool.not_eq_true', ← Bool.not_eq_true, sameContent_iff]
    constructor
    · rintro ⟨h, hm, hne⟩ hall
      exact hne (hall h hm first List.mem_cons_self)
    · intro hn
      by_contra hall
      apply hn
      intro h hm g hg
      have hsame (k : Head) (hk : k ∈ first :: rest) : k.state.content = first.state.content := by
        by_contra hne
        exact hall ⟨k, hk, hne⟩
      rw [hsame h hm, hsame g hg]

theorem uniform_single (v : VectorClock) (s : EntryState) : (single v s).Uniform := by
  intro h hh g hg
  cases List.mem_singleton.1 hh
  cases List.mem_singleton.1 hg
  rw [sameContent_iff]

/-- The heads of one content and a version of another do not fit into one head. -/
theorem two_le_of_conflict (h : ¬e.Uniform) : 2 ≤ e.heads.length := by
  by_contra hlt
  apply h
  intro a ha b hb
  match hl : e.heads with
  | [] =>
    rw [hl] at ha
    cases ha
  | [x] =>
    rw [hl] at ha hb
    cases List.mem_singleton.1 ha
    cases List.mem_singleton.1 hb
    rw [sameContent_iff]
  | x :: y :: l =>
    rw [hl] at hlt
    exact (hlt (Nat.le_add_left 2 l.length)).elim

/-- Where one content turns into two, there was one head, or the version came as a surprise. -/
theorem absorb_conflict (hu : e.Uniform) (hk : e.knows v = false)
    (hc : ¬(e.absorb v s).1.Uniform) : e.heads.length = 1 ∨ Surprised e ⟨v, s⟩ := by
  have hunknown : ∀ g ∈ e.heads, ¬v ≤ g.version := fun g hg hle => by
    have ht := (e.knows_iff v).2 ⟨g, hg, hle⟩
    rw [hk] at ht
    cases ht
  have hkept : ∃ g ∈ e.heads, ¬g.version ≤ v := by
    by_contra hall
    apply hc
    intro a ha b hb
    have hone (x : Head) (hx : x ∈ (e.absorb v s).1.heads) : x = ⟨v, s⟩ := by
      rcases (mem_absorb hk s).1 hx with hx | ⟨hx, hn⟩
      · exact hx
      · exact (hall ⟨x, hx, hn⟩).elim
    rw [hone a ha, hone b hb, sameContent_iff]
  have hother : ∃ g ∈ e.heads, sameContent g.state s = false := by
    by_contra hall
    apply hc
    have hsame (g : Head) (hg : g ∈ e.heads) : g.state.content = s.content := by
      rw [← sameContent_iff]
      by_contra hne
      exact hall ⟨g, hg, Bool.not_eq_true _ ▸ hne⟩
    have hall' (x : Head) (hx : x ∈ (e.absorb v s).1.heads) : x.state.content = s.content := by
      rcases (mem_absorb hk s).1 hx with rfl | ⟨hx, _⟩
      · rfl
      · exact hsame x hx
    intro a ha b hb
    rw [sameContent_iff, hall' a ha, hall' b hb]
  by_cases htwins : 2 ≤ e.heads.length
  · exact .inr ⟨hu, htwins, hunknown, hkept, hother⟩
  · obtain ⟨g, hg, _⟩ := hkept
    have hpos := List.length_pos_of_mem hg
    exact .inl (by omega)

/-- Where the heads differ, one of them differs from the winner. -/
theorem exists_loser (hc : ¬e.Uniform) : ∃ h ∈ e.heads, h.eq e.winner = false := by
  by_contra hall
  apply hc
  have hsame (k : Head) (hk : k ∈ e.heads) : k.state.content = e.winner.state.content := by
    apply EntryState.content_of_eq
    cases hs : k.state.eq e.winner.state with
    | true => rfl
    | false => exact (hall ⟨k, hk, by rw [Head.eq, hs, Bool.and_false]⟩).elim
  intro a ha b hb
  rw [sameContent_iff, hsame a ha, hsame b hb]

theorem Surprised.not_uniform (hs : Surprised e ⟨v, s⟩) (hk : e.knows v = false) :
    ¬(e.absorb v s).1.Uniform := by
  intro hu
  obtain ⟨g, hg, hn⟩ := hs.kept
  obtain ⟨k, hk', hne⟩ := hs.other
  have hgs := hu g ((mem_absorb hk s).2 (.inr ⟨hg, hn⟩)) ⟨v, s⟩ ((mem_absorb hk s).2 (.inl rfl))
  have hkg := hs.uniform k hk' g hg
  rw [sameContent_iff] at hgs hkg
  rw [(sameContent_iff _ _).2 (hkg.trans hgs)] at hne
  cases hne

end Entry

namespace Engine
variable {e e' e'' : Engine} {p : RelPath} {v : VectorClock} {s : EntryState} {entry : Entry}

/-- The conflict notes of an absorb, and where they are made. -/
theorem absorbRemote_notes (hg : e.index.get p = some entry) (hk : entry.knows v = false)
    (a : Action) (ha : a.isNote p = true) :
    a ∈ (e.absorbRemote p s v).2 ↔ a ∈ conflictActions p (entry.absorb v s).1 ∧
      entry.heads.length = 1 ∧ ¬(entry.absorb v s).1.Uniform := by
  have he : entry.absorb v s = ((entry.absorb v s).1,
      .absorbed (!entry.winner.state.eq (entry.absorb v s).1.winner.state)
        (decide (entry.heads.length = 1) && decide (2 ≤ (entry.absorb v s).1.heads.length) &&
          (entry.absorb v s).1.headsConflict)
        (!entry.heads.any fun h => sameContent h.state s)) := by
    rw [Entry.absorb, if_neg (by simp [hk])]
  have hn : (decide (entry.heads.length = 1) && decide (2 ≤ (entry.absorb v s).1.heads.length) &&
      (entry.absorb v s).1.headsConflict) = true ↔
        entry.heads.length = 1 ∧ ¬(entry.absorb v s).1.Uniform := by
    rw [Bool.and_eq_true, Bool.and_eq_true, decide_eq_true_iff, decide_eq_true_iff,
      Entry.headsConflict_iff]
    constructor
    · rintro ⟨⟨h1, _⟩, hc⟩
      exact ⟨h1, hc⟩
    · rintro ⟨h1, hc⟩
      exact ⟨⟨h1, Entry.two_le_of_conflict hc⟩, hc⟩
  rw [← hn]
  generalize (decide (entry.heads.length = 1) && _ && _) = n at he
  generalize (!entry.winner.state.eq (entry.absorb v s).1.winner.state) = w at he
  generalize (!entry.heads.any fun h => sameContent h.state s) = x at he
  generalize (entry.absorb v s).1 = after at he
  have hrecord : a ∉ (if x then [.recordVersion p s v] else []) := by
    intro hm
    split at hm
    · rw [List.mem_singleton.1 hm] at ha
      cases ha
    · cases hm
  have happly : a ∉ (if w then e.emitApply p (expectationFromState after.winner.state)
      else (e, [])).2 := by
    intro hm
    split at hm
    · rw [List.mem_singleton.1 hm] at ha
      cases ha
    · cases hm
  simp only [absorbRemote, hg, he, List.mem_append, hrecord, happly, or_false, false_or]
  cases n with
  | true => simp
  | false => simp

theorem conflictActions_notes {a : Action} (ha : a ∈ conflictActions p entry) :
    a.isNote p = true := by
  obtain ⟨h, _, rfl⟩ := List.mem_map.1 ha
  exact decide_eq_true rfl

theorem mem_conflictActions {h : Head} (hh : h ∈ entry.heads) (hne : h.eq entry.winner = false)
    (p : RelPath) : .conflictResolved p entry.winner.state entry.winner.version h.state h.version
      entry.adoptionMode ∈ conflictActions p entry := by
  refine List.mem_map.2 ⟨h, List.mem_filter.2 ⟨hh, ?_⟩, rfl⟩
  rw [hne]
  rfl

theorem conflicting_iff (e : Engine) (p : RelPath) : e.conflicting p = true ↔ ¬e.Uniform p := by
  unfold conflicting Uniform
  cases e.index.get p with
  | none => simp
  | some entry =>
    rw [Option.any_some, Entry.headsConflict_iff]
    simp

/-- An action of the step surfaces a conflict wherever a path comes to hold two contents. -/
def Surfaces (e e' : Engine) (as : List Action) (p : RelPath) : Prop :=
  e.Uniform p → ¬e'.Uniform p → as.any (Action.isNote p) = true

theorem Surfaces.refl (e : Engine) (as : List Action) (p : RelPath) : Surfaces e e as p :=
  fun hu hc => (hc hu).elim

theorem Surfaces.of_get {as : List Action} (hg : e'.index.get p = e.index.get p) :
    Surfaces e e' as p := by
  intro hu hc
  apply (hc _).elim
  intro entry he
  exact hu entry (hg ▸ he)

theorem Surfaces.append {as bs : List Action} (h : Surfaces e e' as p)
    (h' : Surfaces e' e'' bs p) : Surfaces e e'' (as ++ bs) p := by
  intro hu hc
  rw [List.any_append, Bool.or_eq_true]
  by_cases hm : e'.Uniform p
  · exact .inr (h' hm hc)
  · exact .inl (h hu hm)

/-- No version comes as a surprise to the path. -/
def Welcome (o : Option Entry) (h : Head) : Prop := ∀ entry, o = some entry → ¬Surprised entry h

theorem absorbRemote_surfaces (hw : Welcome (e.index.get p) ⟨v, s⟩) (q : RelPath) :
    Surfaces e (e.absorbRemote p s v).1 (e.absorbRemote p s v).2 q := by
  obtain ⟨_, hget, _⟩ := absorbRemote_spec e p s v
  by_cases hq : p = q
  · subst q
    intro hu hc
    cases hg : e.index.get p with
    | none =>
      apply (hc _).elim
      intro entry he
      rw [hget p, if_pos rfl, hg] at he
      cases he
      exact Entry.uniform_single v s
    | some entry =>
      have hafter : ¬(entry.absorb v s).1.Uniform := by
        intro hua
        apply hc
        intro entry' he
        rw [hget p, if_pos rfl, hg] at he
        cases he
        exact hua
      cases hk : entry.knows v with
      | true =>
        rw [Entry.absorb_known hk] at hafter
        exact (hafter (hu entry hg)).elim
      | false =>
        rcases Entry.absorb_conflict (hu entry hg) hk hafter with hone | hs
        · obtain ⟨h, hh, hne⟩ := Entry.exists_loser hafter
          have hnote := mem_conflictActions hh hne p
          rw [List.any_eq_true]
          exact ⟨_, (absorbRemote_notes hg hk _ (conflictActions_notes hnote)).2
            ⟨hnote, hone, hafter⟩, conflictActions_notes hnote⟩
        · exact (hw entry hg hs).elim
  · apply Surfaces.of_get
    rw [hget q, if_neg hq]

/-- Absorbing a list of heads, none of which comes as a surprise when its turn comes. -/
def Calm (o : Option Entry) : List Head → Prop
  | [] => True
  | h :: hs => Welcome o h ∧ Calm (some (absorbed o h.version h.state)) hs

theorem absorbHeads_surfaces {hs : List Head} (hc : Calm (e.index.get p) hs) (q : RelPath) :
    Surfaces e (e.absorbHeads p hs).1 (e.absorbHeads p hs).2 q := by
  induction hs generalizing e with
  | nil => exact .refl e [] q
  | cons h hs ih =>
    obtain ⟨_, hget, _⟩ := absorbRemote_spec e p h.state h.version
    rw [absorbHeads, collect_cons]
    apply (absorbRemote_surfaces hc.1 q).append
    apply ih
    rw [hget p, if_pos rfl]
    exact hc.2

theorem reconcilePath_surfaces {remote : Index}
    (hc : ∀ r, remote.get p = some r → Calm (e.index.get p) r.heads) (q : RelPath) :
    Surfaces e (reconcilePath remote e p).1 (reconcilePath remote e p).2 q := by
  unfold reconcilePath
  cases hr : remote.get p with
  | none =>
    dsimp only
    split
    · exact .refl _ _ _
    · exact .refl _ _ _
  | some r =>
    dsimp only
    have habs := absorbHeads_surfaces (hc r hr) q
    split
    · exact habs.append (.refl _ _ _)
    · exact habs

/-- No version of the event comes as a surprise when its turn comes. -/
def Unsurprised (e : Engine) : Event → Prop
  | .local _ => True
  | .remote c => Welcome (e.index.get c.path) c.head
  | .peerIndex x => ∀ p r, x.get p = some r → Calm (e.index.get p) r.heads

theorem handlePeerIndex_surfaces {remote : Index} (hc : e.Unsurprised (.peerIndex remote))
    (q : RelPath) :
    Surfaces e (e.handlePeerIndex remote).1 (e.handlePeerIndex remote).2 q := by
  have hall (l : List RelPath) (hl : l.Nodup) (e' : Engine)
      (he : ∀ p ∈ l, e'.index.get p = e.index.get p) :
      Surfaces e' (collect (reconcilePath remote) e' l).1
        (collect (reconcilePath remote) e' l).2 q := by
    induction l generalizing e' with
    | nil => exact .refl e' [] q
    | cons p l ih =>
      rw [List.nodup_cons] at hl
      rw [collect_cons]
      refine (reconcilePath_surfaces (fun r hr => ?_) q).append (ih hl.2 _ fun p' hp' => ?_)
      · rw [he p List.mem_cons_self]
        exact hc p r hr
      · have hne : p ≠ p' := fun h => hl.1 (h ▸ hp')
        rw [(reconcilePath_spec remote e' p).1 p', if_neg hne, he p' (List.mem_cons_of_mem p hp')]
  exact hall _ (unionPaths_nodup e.index remote) e fun _ _ => rfl

/-- A local edit leaves one head. -/
theorem handleLocal_surfaces (e : Engine) (c : LocalChange) (q : RelPath) :
    Surfaces e (e.handleLocal c).1 (e.handleLocal c).2 q := by
  rcases (handleLocal_spec e c).2 with ⟨hidx, _⟩ | ⟨hidx, _⟩
  · apply Surfaces.of_get
    rw [hidx]
  · by_cases hq : c.path = q
    · intro _ hc
      apply (hc _).elim
      intro entry he
      rw [hidx, Index.get_upsert, if_pos hq] at he
      cases he
      exact Entry.uniform_single _ _
    · apply Surfaces.of_get
      rw [hidx, Index.get_upsert, if_neg hq]

theorem handle_surfaces {ev : Event} (hc : e.Unsurprised ev) (q : RelPath) :
    Surfaces e (e.handle ev).1 (e.handle ev).2 q := by
  cases ev with
  | «local» c => exact handleLocal_surfaces e c q
  | remote c => exact absorbRemote_surfaces hc q
  | peerIndex x => exact handlePeerIndex_surfaces hc q

end Engine

namespace Net
variable {ι : Type} [DecidableEq ι]

/-- An event that replica `i` may come to handle. -/
def Open (s : Net ι) (i : ι) : Event → Prop
  | .local _ => True
  | .remote c => ∃ j, i ≠ j ∧ c ∈ s.sent j
  | .peerIndex x => ∃ j, i ≠ j ∧ x ∈ s.snapshots j

theorem step_iff {s s' : Net ι} : Step s s' ↔ ∃ i ev, s.Open i ev ∧ s' = s.handle i ev := by
  constructor
  · intro h
    cases h with
    | «local» i c => exact ⟨i, .local c, trivial, rfl⟩
    | deliver i j c hij hc => exact ⟨i, .remote c, ⟨j, hij, hc⟩, rfl⟩
    | peerIndex i j x hij hx => exact ⟨i, .peerIndex x, ⟨j, hij, hx⟩, rfl⟩
  · rintro ⟨i, ev, ho, rfl⟩
    cases ev with
    | «local» c => exact .local s i c
    | remote c =>
      obtain ⟨j, hij, hc⟩ := ho
      exact .deliver s i j c hij hc
    | peerIndex x =>
      obtain ⟨j, hij, hx⟩ := ho
      exact .peerIndex s i j x hij hx

/-- Whether a replica has surfaced a conflict of a path since it last held one content there. -/
def surfacing (seen : ι → RelPath → Bool) (s : Net ι) (i : ι) (ev : Event) : ι → RelPath → Bool :=
  Function.update seen i fun p =>
    ((s.engine i).handle ev).1.conflicting p &&
      (((s.engine i).handle ev).2.any (Action.isNote p) ||
        ((s.engine i).conflicting p && seen i p))

/-- A run in which no version comes as a surprise, with what each replica has surfaced. -/
inductive CalmRun (ids : ι → ReplicaId) : Net ι → (ι → RelPath → Bool) → Prop where
  | init : CalmRun ids (init ids) fun _ _ => false
  | step {s : Net ι} {seen : ι → RelPath → Bool} (i : ι) (ev : Event) : CalmRun ids s seen →
      s.Open i ev → (s.engine i).Unsurprised ev → CalmRun ids (s.handle i ev) (s.surfacing seen i ev)

theorem CalmRun.run {ids : ι → ReplicaId} {s : Net ι} {seen : ι → RelPath → Bool}
    (h : CalmRun ids s seen) : Run ids s := by
  induction h with
  | init => exact .refl
  | step i ev _ ho _ ih => exact ih.tail (step_iff.2 ⟨i, ev, ho, rfl⟩)

/-- In such a run every path that holds two contents has been surfaced as a conflict. -/
theorem CalmRun.surfaced {ids : ι → ReplicaId} {s : Net ι} {seen : ι → RelPath → Bool}
    (h : CalmRun ids s seen) (i : ι) (p : RelPath) (hc : (s.engine i).conflicting p = true) :
    seen i p = true := by
  induction h generalizing i with
  | init => simp [Net.init, Engine.new, Engine.conflicting] at hc
  | @step s seen j ev _ _ hu ih =>
    by_cases hij : i = j
    · subst i
      have hafter : ((s.engine j).handle ev).1.conflicting p = true := by
        simpa [Net.handle] using hc
      rw [surfacing, Function.update_self, hafter, Bool.true_and, Bool.or_eq_true]
      by_cases hb : (s.engine j).conflicting p = true
      · exact .inr (by rw [hb, ih j hb]; rfl)
      · rw [Engine.conflicting_iff, not_not] at hb
        exact .inl (Engine.handle_surfaces hu p hb ((Engine.conflicting_iff _ p).1 hafter))
    · have hsame : (s.engine i).conflicting p = true := by simpa [Net.handle, hij] using hc
      rw [surfacing, Function.update_of_ne hij]
      exact ih i hsame

end Net

/-- Where a delivered version turns one content into two, the engine surfaces each losing head if
and only if the path had one head; and in a run in which no version comes to two or more heads of
one other content without replacing them all, every path that holds two contents has been
surfaced. -/
theorem Engine.surfaces_iff {ι : Type} [DecidableEq ι] :
    (∀ (e : Engine) (c : RemoteChange) (entry after : Entry), e.index.get c.path = some entry →
      (e.handle (.remote c)).1.index.get c.path = some after → entry.Uniform → ¬after.Uniform →
        ((∀ h ∈ after.heads, h.eq after.winner = false → ∃ adopted, .conflictResolved c.path
            after.winner.state after.winner.version h.state h.version adopted ∈
              (e.handle (.remote c)).2) ↔ entry.heads.length = 1)) ∧
    ∀ (ids : ι → ReplicaId) (s : Net ι) (seen : ι → RelPath → Bool), Net.CalmRun ids s seen →
      ∀ i p entry, (s.engine i).index.get p = some entry → ¬entry.Uniform → seen i p = true := by
  constructor
  · intro e c entry after hg ha hu hc
    obtain ⟨_, hget, _⟩ := absorbRemote_spec e c.path (stateFromKind c.kind) c.version
    have hafter : after = (entry.absorb c.version (stateFromKind c.kind)).1 := by
      have hp := hget c.path
      rw [if_pos rfl, hg] at hp
      exact (Option.some.inj (hp.symm.trans ha)).symm
    subst hafter
    have hk : entry.knows c.version = false := by
      by_contra hk
      rw [Bool.not_eq_false] at hk
      rw [Entry.absorb_known hk] at hc
      exact hc hu
    constructor
    · intro hall
      obtain ⟨h, hh, hne⟩ := Entry.exists_loser hc
      obtain ⟨adopted, hm⟩ := hall h hh hne
      exact ((absorbRemote_notes hg hk _ (Action.isNote_conflict ..)).1 hm).2.1
    · intro hone h hh hne
      have hnote := mem_conflictActions hh hne c.path
      exact ⟨_, (absorbRemote_notes hg hk _ (conflictActions_notes hnote)).2 ⟨hnote, hone, hc⟩⟩
  · intro ids s seen hrun i p entry hg hc
    apply hrun.surfaced i p
    rw [conflicting_iff]
    exact fun hu => hc (hu entry hg)

/-- The later version of the second side, of another content. -/
def twinEdit : RemoteChange :=
  ⟨twinPath, .modified (twinSig 2), (VectorClock.new.tick ⟨2⟩).tick ⟨2⟩⟩

/-- Both sides create one content, the first side hears of it, and the second side edits it. -/
def identicalRun : Net Side :=
  let s := (Net.init twinIds).handle .a (.local ⟨twinPath, .modified (twinSig 1)⟩)
  let s := s.handle .b (.local ⟨twinPath, .modified (twinSig 1)⟩)
  let s := s.handle .a (.remote ⟨twinPath, .modified (twinSig 1), VectorClock.new.tick ⟨2⟩⟩)
  s.handle .b (.local ⟨twinPath, .modified (twinSig 2)⟩)

theorem identicalRun_run : Net.Run twinIds identicalRun := by
  have ha := Net.Step.local (Net.init twinIds) .a ⟨twinPath, .modified (twinSig 1)⟩
  refine .tail (.tail (.tail (.single ha) (.local _ Side.b ⟨twinPath, .modified (twinSig 1)⟩))
    (.deliver _ Side.a Side.b _ ?_ ?_)) (.local _ Side.b ⟨twinPath, .modified (twinSig 2)⟩)
  all_goals decide

/-- Two heads of one content become two heads of two contents without a note. -/
theorem identical_unsurfaced :
    Net.Run twinIds identicalRun ∧ twinEdit ∈ identicalRun.sent Side.b ∧
      (identicalRun.engine Side.a).conflicting twinPath = false ∧
      ((identicalRun.engine Side.a).handle (.remote twinEdit)).1.conflicting twinPath = true ∧
      ((identicalRun.engine Side.a).handle (.remote twinEdit)).2.any (Action.isNote twinPath) =
        false :=
  ⟨identicalRun_run, by decide, by decide, by decide, by decide⟩

/-- The entry of a side that created one content. -/
def loneEntry : Entry := .single (VectorClock.new.tick ⟨1⟩) (.present (twinSig 1))

def loneEngine : Engine := .new ⟨1⟩ (Index.new.upsert twinPath loneEntry)

/-- The entry once it has met the other side's content. -/
def metEntry : Entry := (loneEntry.absorb (VectorClock.new.tick ⟨2⟩) (.present (twinSig 2))).1

theorem lone_surfaces :
    ∀ h ∈ metEntry.heads, h.eq metEntry.winner = false → ∃ adopted, .conflictResolved twinPath
      metEntry.winner.state metEntry.winner.version h.state h.version adopted ∈
        (loneEngine.handle (.remote (twinChange Side.b))).2 := by
  have hmet : ¬metEntry.Uniform := (Entry.headsConflict_iff metEntry).1 (by decide)
  have hlone : loneEntry.Uniform := Entry.uniform_single _ _
  exact ((@Engine.surfaces_iff Side _).1 loneEngine (twinChange Side.b) loneEntry metEntry (by decide)
    (by decide) hlone hmet).2 rfl

end Tomo
