import Tomo.Engine.Recovery
import Tomo.Session.Assembling
import Tomo.Session.Collision
import Tomo.Session.Probing

namespace Tomo
set_option autoImplicit true

/-- What is known of each path once the changes of a list are. -/
def offer (K : RelPath → Set Head) (l : List RemoteChange) : RelPath → Set Head :=
  l.foldl (fun K c => addHead K c.path c.head) K

theorem offer_append (K : RelPath → Set Head) (l : List RemoteChange) (c : RemoteChange) :
    offer K (l ++ [c]) = addHead (offer K l) c.path c.head := by
  rw [offer, List.foldl_append]
  rfl

theorem mem_offer {K : RelPath → Set Head} {l : List RemoteChange} :
    h ∈ offer K l p ↔ h ∈ K p ∨ ∃ c ∈ l, c.path = p ∧ c.head = h := by
  induction l using List.reverseRecOn with
  | nil => simp [offer]
  | append_singleton l c ih =>
    rw [offer_append, mem_addHead, ih, or_assoc]
    refine or_congr_right ⟨?_, ?_⟩
    · rintro (⟨d, hd, hp⟩ | ⟨rfl, rfl⟩)
      · exact ⟨d, List.mem_append_left _ hd, hp⟩
      · exact ⟨c, List.mem_append_right _ (List.mem_singleton_self c), rfl, rfl⟩
    · rintro ⟨d, hd, rfl, rfl⟩
      rcases List.mem_append.1 hd with hd | hd
      · exact .inl ⟨d, hd, rfl, rfl⟩
      · rw [List.mem_singleton.1 hd]
        exact .inr ⟨rfl, rfl⟩

namespace Engine
variable {e start : Engine} {K L M : RelPath → Set Head}

/-- The engine that absorbs every change of a list. -/
def absorbChanges (e : Engine) (l : List RemoteChange) : Engine :=
  l.foldl (fun e c => (e.handleRemote c).1) e

theorem absorbChanges_shows (h : e.index.Shows K) (l : List RemoteChange) :
    (e.absorbChanges l).index.Shows (offer K l) := by
  induction l generalizing e K with
  | nil => exact h
  | cons c l ih => exact ih (absorbRemote_shows h c.path (stateFromKind c.kind) c.version)

/-- A version of the engine's own that is newer than all it held at first. -/
def Edited (start : Engine) (p : RelPath) (h : Head) : Prop :=
  (start.index.base p).get start.replica < h.version.get start.replica

/-- An engine knows the versions of `L`, and none but those of `M` and its own edits. -/
structure Grasps (start : Engine) (L M : RelPath → Set Head) (e : Engine) : Prop where
  replica : e.replica = start.replica
  held : ∀ p h, h ∈ start.index.headsAt p → h ∈ L p
  shows : ∃ K, e.index.Shows K ∧ (∀ p, L p ⊆ K p) ∧ ∀ p, ∀ h ∈ K p, h ∈ M p ∨ start.Edited p h

/-- What an engine mints is newer than all it held at first. -/
theorem Grasps.edited (hg : Grasps start L M e) (p : RelPath) (s : EntryState) :
    start.Edited p ⟨(e.index.base p).tick e.replica, s⟩ := by
  obtain ⟨K, hK, hlow, _⟩ := hg.shows
  have hle : start.index.base p ≤ e.index.base p := by
    rw [Index.base]
    cases hs : start.index.get p with
    | none => exact VectorClock.new_le _
    | some entry =>
      refine Entry.mergedClock_le fun h hh => hK.le_base (hlow p (hg.held p h ?_))
      exact Index.mem_headsAt.2 ⟨entry, hs, hh⟩
  rw [Edited, ← hg.replica, VectorClock.get_tick, if_pos rfl]
  exact Nat.lt_succ_of_le (hle e.replica)

theorem Grasps.observe (hg : Grasps start L M e) (c : LocalChange) :
    Grasps start L M (e.handleLocal c).1 := by
  obtain ⟨hr, hcase⟩ := e.handleLocal_spec c
  obtain ⟨K, hK, hlow, hup⟩ := hg.shows
  refine ⟨hr.trans hg.replica, hg.held, ?_⟩
  rcases hcase with ⟨hidx, _⟩ | ⟨hidx, _⟩
  · exact ⟨K, by rwa [hidx], hlow, hup⟩
  · refine ⟨_, by rw [hidx]; exact hK.mint (VectorClock.le_tick _ _) _, fun p h hh => ?_, ?_⟩
    · exact mem_addHead.2 (.inl (hlow p hh))
    · intro p h hh
      rcases mem_addHead.1 hh with hh | ⟨rfl, rfl⟩
      · exact hup p h hh
      · exact .inr (hg.edited c.path _)

theorem Grasps.absorb (hg : Grasps start L M e) {c : RemoteChange} (hc : c.head ∈ M c.path) :
    Grasps start (addHead L c.path c.head) M (e.handleRemote c).1 := by
  obtain ⟨K, hK, hlow, hup⟩ := hg.shows
  have hs := absorbRemote_shows hK c.path (stateFromKind c.kind) c.version
  refine ⟨(e.absorbRemote_spec ..).1.trans hg.replica, fun p h hh => ?_, _, hs, ?_, ?_⟩
  · exact mem_addHead.2 (.inl (hg.held p h hh))
  · exact fun p h hh => mem_addHead.2 ((mem_addHead.1 hh).imp_left fun hh => hlow p hh)
  · intro p h hh
    rcases mem_addHead.1 hh with hh | ⟨rfl, rfl⟩
    · exact hup p h hh
    · exact .inl hc

theorem Grasps.more (hg : Grasps start L M e) (hm : ∀ p, M p ⊆ N p) : Grasps start L N e := by
  obtain ⟨K, hK, hlow, hup⟩ := hg.shows
  exact ⟨hg.replica, hg.held, K, hK, hlow, fun p h hh => (hup p h hh).imp_left fun hh => hm p hh⟩

end Engine

namespace Session
open Eff Engine
variable {s s' u : Session} {L M : RelPath → Set Head} {start : Engine} {p q : RelPath}
  {a b : Assembly} {c : RemoteChange}

theorem eraseAll_get (l : List ContentHash) (m : Std.ExtTreeMap ContentHash Bytes)
    (h : ContentHash) :
    (l.foldl (fun m h => m.erase h) m)[h]? = if h ∈ l then none else m[h]? := by
  induction l generalizing m with
  | nil => rfl
  | cons x l ih =>
    rw [List.foldl_cons, ih, Std.ExtTreeMap.getElem?_erase]
    simp only [Std.compare_eq_iff_eq, List.mem_cons]
    by_cases hl : h ∈ l
    · rw [if_pos hl, if_pos (.inr hl)]
    · by_cases hx : x = h
      · rw [if_neg hl, if_pos hx, if_pos (.inl hx.symm)]
      · rw [if_neg hl, if_neg hx, if_neg]
        rintro (heq | hmem)
        · exact hx heq.symm
        · exact hl hmem

/-- Forgetting chunk files keeps those that a remaining assembly needs. -/
theorem cleanAssemblyChunks_keeps (s : Session) (a : Assembly)
    (hq : s.assemblies[q]? = some b) (hh : h ∈ b.manifest) :
    (s.cleanAssemblyChunks a).chunkFiles[h]? = s.chunkFiles[h]? := by
  rw [cleanAssemblyChunks]
  dsimp only
  rw [eraseAll_get, if_neg]
  intro hx
  have hn := (List.mem_filter.1 hx).2
  have hany : (s.assemblies.toList.any fun e => decide (h ∈ e.2.manifest)) = true :=
    List.any_eq_true.2 ⟨(q, b), Std.ExtTreeMap.mem_toList_iff_getElem?_eq_some.2 hq,
      decide_eq_true hh⟩
  rw [hany] at hn
  cases hn

theorem erased_get (s : Session) (p q : RelPath) :
    (s.assemblies.erase p)[q]? = if p = q then none else s.assemblies[q]? := by
  rw [Std.ExtTreeMap.getElem?_erase]
  simp only [Std.compare_eq_iff_eq]

theorem abandonAssembly_get (s : Session) (p q : RelPath) :
    (s.abandonAssembly p).assemblies[q]? = if p = q then none else s.assemblies[q]? := by
  rw [abandonAssembly]
  split
  · exact s.erased_get p q
  next hn =>
    split
    next h => rw [← h, hn]
    next => rfl

theorem abandonAssembly_keeps (hq : (s.abandonAssembly p).assemblies[q]? = some b)
    (hh : h ∈ b.manifest) : (s.abandonAssembly p).chunkFiles[h]? = s.chunkFiles[h]? := by
  rw [abandonAssembly] at hq ⊢
  split
  next a ha =>
    rw [ha] at hq
    exact cleanAssemblyChunks_keeps _ a hq hh
  next => rfl

/-- Of the assemblies exactly that of the arriving path is dropped. -/
theorem abandonSuperseded_get (s : Session) (p q : RelPath) :
    (s.abandonSuperseded p).assemblies[q]? = if p = q then none else s.assemblies[q]? := by
  have hfold (l : List RelPath) (s : Session) (hl : ∀ r ∈ l, r = p) :
      (l.foldl abandonAssembly s).assemblies[q]? =
        if p ∈ l ∧ p = q then none else s.assemblies[q]? := by
    induction l generalizing s with
    | nil => simp
    | cons r l ih =>
      obtain rfl := hl r List.mem_cons_self
      rw [List.foldl_cons, ih _ fun x hx => hl x (List.mem_cons_of_mem r hx), abandonAssembly_get]
      by_cases hq : r = q
      · simp [hq]
      · simp [hq]
  have hmem (r : RelPath) : r ∈ s.assemblies.keys.filter (fun r => supersedes r p) ↔
      r ∈ s.assemblies.keys ∧ r = p := by
    rw [List.mem_filter, supersedes, decide_eq_true_eq]
  rw [abandonSuperseded, hfold _ _ fun r hr => ((hmem r).1 hr).2]
  by_cases hq : p = q
  · subst hq
    rw [if_pos rfl]
    split
    · rfl
    next hn =>
      cases hp : s.assemblies[p]? with
      | none => rfl
      | some b =>
        refine (hn ⟨(hmem p).2 ⟨?_, rfl⟩, rfl⟩).elim
        rw [Std.ExtTreeMap.mem_keys, Std.ExtTreeMap.mem_iff_isSome_getElem?, hp]
        rfl
  · simp only [hq, and_false, ↓reduceIte]

/-- What the remaining assemblies have received is kept. -/
theorem abandonSuperseded_keeps (hq : (s.abandonSuperseded p).assemblies[q]? = some b)
    (hh : h ∈ b.manifest) : (s.abandonSuperseded p).chunkFiles[h]? = s.chunkFiles[h]? := by
  have hfewer (l : List RelPath) (s : Session)
      (hq : (l.foldl abandonAssembly s).assemblies[q]? = some b) : s.assemblies[q]? = some b := by
    induction l generalizing s with
    | nil => exact hq
    | cons r l ih => exact (s.abandonAssembly_fewer r q b (ih _ hq)).1
  rw [abandonSuperseded] at hq ⊢
  revert hq
  generalize s.assemblies.keys.filter _ = l
  intro hq
  induction l generalizing s with
  | nil => rfl
  | cons r l ih =>
    rw [List.foldl_cons, ih hq]
    exact abandonAssembly_keeps (hfewer l _ hq) hh

/-- The transfer of one path is given up, and nothing else. -/
structure Drops (s u : Session) (p : RelPath) : Prop where
  only : ∃ assemblies chunkFiles, u.frame = { s.frame with assemblies, chunkFiles }
  get : ∀ q, u.assemblies[q]? = if p = q then none else s.assemblies[q]?
  keeps : ∀ (q : RelPath) (b : Assembly), u.assemblies[q]? = some b → ∀ h ∈ b.manifest,
    u.chunkFiles[h]? = s.chunkFiles[h]?

theorem abandonSuperseded_drops (s : Session) (p : RelPath) :
    s.Drops (s.abandonSuperseded p) p := by
  refine ⟨?_, s.abandonSuperseded_get p, fun _ _ hq _ hh => abandonSuperseded_keeps hq hh⟩
  obtain ⟨assemblies, chunkFiles, h⟩ := s.abandonSuperseded_only p
  exact ⟨assemblies, chunkFiles, by rw [h]; rfl⟩

theorem finished_drops (s : Session) (p : RelPath) (a : Assembly) :
    s.Drops ({ s with assemblies := s.assemblies.erase p }.cleanAssemblyChunks a) p :=
  ⟨⟨_, _, rfl⟩, s.erased_get p, fun _ _ hq _ hh => cleanAssemblyChunks_keeps _ a hq hh⟩

section
variable [Platform]

theorem reconcileUnobservedLocal_grasps (p : RelPath) (s : Session)
    (hg : Grasps start L M s.engine) :
    Grasps start L M ((reconcileUnobservedLocal p).exec s).2.engine := by
  cases hd : s.diskExpectation p with
  | error e =>
    rw [reconcile_error hd]
    exact hg
  | ok disk =>
    rw [reconcile_exec hd]
    have hl : Leaves engine (s.fileObserved p disk) (s.observed p disk) := by
      refine .ite (Leaves.bind (.modify rfl) fun _ u _ => .get ?_) (.pure _ _ _)
      exact engine_beside.executeActions _ _ _ _
        (fun a ha => (Engine.handleLocal_paper s.engine _ a ha).1) _ u
    rw [hl, observed]
    split
    · exact hg.observe _
    · exact hg

/-- What a delivered change leads to: the engine knows it, and the transfers stay. -/
theorem deliver_grasps (hs : s.Healthy) (hg : Grasps start L M s.engine)
    (hc : c.head ∈ M c.path) (hx : (deliver c bytes).exec s = (.ok ⟨⟩, s')) :
    s'.wire = s.wire ∧ Grasps start (addHead L c.path c.head) M s'.engine := by
  have hw := (deliver_aside hs c bytes).leaves
  rw [Leaves, hx] at hw
  refine ⟨hw, ?_⟩
  obtain ⟨_, u, hu, hx⟩ := ok_of_bind hx
  have hgu := reconcileUnobservedLocal_grasps c.path s hg
  rw [hu] at hgu
  rw [absorbAndExecute_exec] at hx
  have hl : Leaves engine (do
      carryOut c.path (u.engine.applyTarget c) bytes
      u.fileAbsorbed c bytes) (u.absorbed c) := by
    refine Leaves.bind ?_ fun _ v _ => ?_
    · cases u.engine.applyTarget c with
      | none => exact .pure _ _ _
      | some target =>
        have hf := (doApply_works c.path bytes target (u.absorbed c)).leaves
        have he : ((doApply c.path target bytes).exec (u.absorbed c)).2.frame.engine =
            (u.absorbed c).frame.engine := by rw [hf]
        exact he
    · exact engine_beside.executeActions _ _ _ _
        (fun a ha => (Engine.paperwork_paper u.engine c a ha).1) _ v
  rw [Leaves, hx] at hl
  have he : s'.engine = (u.engine.handleRemote c).1 := hl
  rw [he]
  exact hgu.absorb hc

/-- The chunk files of a manifest make up its content. -/
theorem assembleChunks_of {files : Std.ExtTreeMap ContentHash Bytes}
    {content : ContentHash → Bytes} {l : List ContentHash}
    (hf : ∀ h ∈ l, files[h]? = some (content h)) (hv : ∀ h ∈ l, Platform.blake3 (content h) = h) :
    assembleChunks files l = some (l.flatMap content) := by
  induction l with
  | nil => rfl
  | cons h l ih =>
    have hrest := ih (fun x hx => hf x (List.mem_cons_of_mem h hx))
      fun x hx => hv x (List.mem_cons_of_mem h hx)
    rw [assembleChunks, hf h List.mem_cons_self]
    simp only [hv h List.mem_cons_self, ↓reduceIte, hrest, Option.map_some, List.flatMap_cons]

/-- An assembly of true content: its chunks make up what was announced, and what it has received
is on file. -/
structure Stocked (content : ContentHash → Bytes) (files : Std.ExtTreeMap ContentHash Bytes)
    (a : Assembly) : Prop where
  kind : a.change.kind = .modified a.sig
  whole : matchesSig (a.manifest.flatMap content) a.sig = true
  received : ∀ h ∈ a.received, h ∈ a.manifest ∧ files[h]? = some (content h) ∧
    Platform.blake3 (content h) = h

variable {content : ContentHash → Bytes} {l : List RemoteChange}

/-- A change is known, or a transfer that covers it is under way. -/
def Covers (s : Session) (L : RelPath → Set Head) (c : RemoteChange) : Prop :=
  (∃ g ∈ L c.path, c.version ≤ g.version) ∨
    ∃ a, s.assemblies[c.path]? = some a ∧ c.version ≤ a.change.version

/-- A session that takes in the changes of a list, beside what is known in `K`. -/
structure Follows (content : ContentHash → Bytes) (start : Engine) (K : RelPath → Set Head)
    (l : List RemoteChange) (s : Session) : Prop where
  healthy : s.Healthy
  room : s.diskFull = false
  cased : s.fs.caseInsensitive = false
  stocked : ∀ p a, s.assemblies[p]? = some a → a.change.path = p ∧ a.change ∈ l ∧
    Stocked content s.chunkFiles a
  grasps : ∃ L, Grasps start L (offer K l) s.engine ∧ ∀ c ∈ l, s.Covers L c

section
variable {K : RelPath → Set Head}

theorem Follows.of_frame (h : s.Follows content start K l) (hf : s'.frame = s.frame) :
    s'.Follows content start K l := by
  have ha : s'.frame.assemblies = s.frame.assemblies := by rw [hf]
  have hc : s'.frame.chunkFiles = s.frame.chunkFiles := by rw [hf]
  have he : s'.frame.engine = s.frame.engine := by rw [hf]
  have hd : s'.frame.diskFull = s.frame.diskFull := by rw [hf]
  have hi : s'.frame.fs = s.frame.fs := by rw [hf]
  simp only [frame, Session.on, core] at ha hc he hd hi
  obtain ⟨L, hg, hcov⟩ := h.grasps
  refine ⟨h.healthy.of_frame hf, hd.trans h.room, by rw [hi, h.cased], ?_, L, by rwa [he], ?_⟩
  · rw [ha, hc]
    exact h.stocked
  · intro c hm
    rw [Covers, ha]
    exact hcov c hm

/-- What is delivered in the place of a transfer covers what that transfer would have. -/
theorem Follows.deliver (h : s.Follows content start K l) (hdrop : s.Drops u c.path)
    (hnew : ∀ a, s.assemblies[c.path]? = some a → a.change.version ≤ c.version)
    {l' : List RemoteChange} (hl : ∀ d, d ∈ l' ↔ d ∈ l ∨ d = c)
    (hx : (deliver c bytes).exec u = (.ok ⟨⟩, s')) : s'.Follows content start K l' := by
  obtain ⟨⟨assemblies, chunkFiles, hu⟩, hget, hkeeps⟩ := hdrop
  have hhealthy : u.Healthy := by
    intro t ht
    have he : u.frame.transport = s.frame.transport := by rw [hu]
    exact h.healthy t (he.symm.trans ht)
  have heng : u.engine = s.engine := by
    have he : u.frame.engine = s.frame.engine := by rw [hu]
    exact he
  obtain ⟨L, hg, hcov⟩ := h.grasps
  have hmore (p : RelPath) : offer K l p ⊆ offer K l' p := fun g hm => by
    rw [mem_offer] at hm ⊢
    exact hm.imp_right fun ⟨d, hd, hp⟩ => ⟨d, (hl d).2 (.inl hd), hp⟩
  have hc : c.head ∈ offer K l' c.path :=
    mem_offer.2 (.inr ⟨c, (hl c).2 (.inr rfl), rfl, rfl⟩)
  obtain ⟨hw, hg'⟩ := deliver_grasps hhealthy (heng ▸ hg.more hmore) hc hx
  have ha : s'.wire.assemblies = u.wire.assemblies := by rw [hw]
  have hf : s'.wire.chunkFiles = u.wire.chunkFiles := by rw [hw]
  have hd : s'.wire.diskFull = s.wire.diskFull := by rw [hw, wire, hu]; rfl
  have hi : s'.wire.fs = s.wire.fs := by rw [hw, wire, hu]; rfl
  simp only [wire, frame, Session.on, core] at ha hf hd hi
  refine ⟨hhealthy.of_wire hw, hd.trans h.room, by rw [hi, h.cased], ?_, _, hg', ?_⟩
  · intro q b hq
    rw [ha] at hq
    have hq' := (hget q).symm.trans hq
    split at hq'
    · cases hq'
    · obtain ⟨hp, hm, hk⟩ := h.stocked q b hq'
      refine ⟨hp, (hl _).2 (.inl hm), hk.kind, hk.whole, fun x hx => ?_⟩
      obtain ⟨h1, h2, h3⟩ := hk.received x hx
      rw [hf, hkeeps q b hq x h1]
      exact ⟨h1, h2, h3⟩
  · intro d hd
    have hlast (hle : d.version ≤ c.version) (hp : d.path = c.path) :
        s'.Covers (addHead L c.path c.head) d :=
      .inl ⟨c.head, mem_addHead.2 (.inr ⟨hp, rfl⟩), hle⟩
    rcases (hl d).1 hd with hd | rfl
    · rcases hcov d hd with ⟨g, hg, hle⟩ | ⟨a, haq, hle⟩
      · exact .inl ⟨g, mem_addHead.2 (.inl hg), hle⟩
      · by_cases hp : c.path = d.path
        · rw [← hp] at haq
          exact hlast (hle.trans (hnew a haq)) hp.symm
        · refine .inr ⟨a, ?_, hle⟩
          rw [ha, hget, if_neg hp, haq]
    · exact hlast le_rfl rfl

omit [Platform] in
theorem Drops.of_frame (h : s.Drops u p) (hf : s'.frame = u.frame) : s.Drops s' p := by
  have ha : s'.frame.assemblies = u.frame.assemblies := by rw [hf]
  have hc : s'.frame.chunkFiles = u.frame.chunkFiles := by rw [hf]
  simp only [frame, Session.on, core] at ha hc
  obtain ⟨⟨assemblies, chunkFiles, hu⟩, hget, hkeeps⟩ := h
  exact ⟨⟨assemblies, chunkFiles, hf.trans hu⟩, by rwa [ha], by rwa [ha, hc]⟩

/-- A transfer takes the place of the one under way for its path. -/
theorem Follows.place (h : s.Follows content start K l) {l' : List RemoteChange}
    (hs : ∃ assemblies chunkFiles sent, s' = { s with assemblies, chunkFiles, sent })
    (hget : ∀ q, s'.assemblies[q]? = if p = q then some b else s.assemblies[q]?)
    (hkeeps : ∀ (q : RelPath) (a : Assembly), p ≠ q → s.assemblies[q]? = some a →
      s'.assemblies[q]? = some a → ∀ x ∈ a.manifest, s.chunkFiles[x]? = some (content x) →
      s'.chunkFiles[x]? = some (content x))
    (hp : b.change.path = p) (hb : Stocked content s'.chunkFiles b)
    (hnew : ∀ a, s.assemblies[p]? = some a → a.change.version ≤ b.change.version)
    (hl : ∀ d, d ∈ l' ↔ d ∈ l ∨ d = b.change) : s'.Follows content start K l' := by
  obtain ⟨assemblies, chunkFiles, sent, hs⟩ := hs
  obtain ⟨L, hg, hcov⟩ := h.grasps
  refine ⟨by rw [hs]; exact h.healthy, by rw [hs, h.room], by rw [hs, h.cased], ?_, L, ?_, ?_⟩
  · intro q a hq
    have hq' := (hget q).symm.trans hq
    split at hq'
    next hpq =>
      cases hq'
      exact ⟨hp.trans hpq, (hl _).2 (.inr rfl), hb⟩
    next hpq =>
      obtain ⟨h1, h2, hk⟩ := h.stocked q a hq'
      refine ⟨h1, (hl _).2 (.inl h2), hk.kind, hk.whole, fun x hx => ?_⟩
      obtain ⟨hm, hf, hv⟩ := hk.received x hx
      exact ⟨hm, hkeeps q a hpq hq' hq x hm hf, hv⟩
  · rw [hs]
    refine hg.more fun p g hm => ?_
    rw [mem_offer] at hm ⊢
    exact hm.imp_right fun ⟨d, hd, hp⟩ => ⟨d, (hl d).2 (.inl hd), hp⟩
  · intro d hd
    have hlast (hle : d.version ≤ b.change.version) (hd : p = d.path) : s'.Covers L d :=
      .inr ⟨b, by rw [hget, if_pos hd], hle⟩
    rcases (hl d).1 hd with hd | rfl
    · rcases hcov d hd with hk | ⟨a, ha, hle⟩
      · exact .inl hk
      · by_cases hpd : p = d.path
        · rw [← hpd] at ha
          exact hlast (hle.trans (hnew a ha)) hpd
        · exact .inr ⟨a, by rw [hget, if_neg hpd, ha], hle⟩
    · exact hlast le_rfl hp.symm

omit [Platform] in
theorem inserted_get (m : Std.ExtTreeMap RelPath Assembly) (p q : RelPath) (b : Assembly) :
    (m.insert p b)[q]? = if p = q then some b else m[q]? := by
  simp only [Std.ExtTreeMap.getElem?_insert, Std.compare_eq_iff_eq]

omit [Platform] in
/-- Asking for more marks what is asked for, at most. -/
theorem requestNextBatch_only (hs : s.Healthy) (ha : s.assemblies[p]? = some a) :
    ((requestNextBatch p).exec s).2 = s ∨ ∃ requested sent, ((requestNextBatch p).exec s).2 =
      { s with assemblies := s.assemblies.insert p { a with requested }, sent } := by
  simp only [requestNextBatch, exec_get_bind, ha]
  split
  · exact .inl rfl
  · have hs' (m : Std.ExtTreeMap RelPath Assembly) : Healthy { s with assemblies := m } := hs
    rw [exec_set_bind, send_exec (hs' _)]
    right
    dsimp only
    split
    · exact ⟨_, _, rfl⟩
    · exact ⟨_, s.sent, rfl⟩

theorem requestNextBatch_follows (h : s.Follows content start K l) (p : RelPath) :
    ((requestNextBatch p).exec s).2.Follows content start K l := by
  cases ha : s.assemblies[p]? with
  | none =>
    simp only [requestNextBatch, exec_get_bind, ha, exec_pure]
    exact h
  | some a =>
    rcases requestNextBatch_only h.healthy ha with hx | ⟨requested, sent, hx⟩
    · rwa [hx]
    · obtain ⟨hp, hm, hk⟩ := h.stocked p a ha
      rw [hx]
      refine h.place ⟨_, _, _, rfl⟩ (fun q => inserted_get _ p q _) (fun _ _ _ _ _ _ _ hx => hx) hp
        ⟨hk.kind, hk.whole, hk.received⟩ (fun a' ha' => ?_) fun d => ?_
      · rw [ha] at ha'
        cases ha'
        exact le_rfl
      · exact ⟨.inl, fun hd => hd.elim id fun hd => hd ▸ hm⟩

/-- A complete assembly is delivered. -/
theorem completeAssembly_follows (h : s.Follows content start K l)
    (ha : s.assemblies[p]? = some a) (hc : isComplete a.manifest a.received = true)
    (hx : (completeAssembly p).exec s = (.ok ⟨⟩, s')) : s'.Follows content start K l := by
  obtain ⟨hp, hm, hk⟩ := h.stocked p a ha
  have hall (x : ContentHash) (hxm : x ∈ a.manifest) := hk.received x
    (of_decide_eq_true (List.all_eq_true.1 hc x hxm))
  have hbytes : (assembleChunks s.chunkFiles a.manifest).filter (fun b => matchesSig b a.sig) =
      some (a.manifest.flatMap content) := by
    rw [assembleChunks_of (fun x hx => (hall x hx).2.1) fun x hx => (hall x hx).2.2,
      Option.filter_some, if_pos hk.whole]
  simp only [completeAssembly, exec_get_bind, ha, exec_set_bind, hbytes] at hx
  obtain ⟨_, u, hu, hx⟩ := ok_of_bind hx
  have hf := (flushPendingInstallFor_works a.change.path
    ({ s with assemblies := s.assemblies.erase p }.cleanAssemblyChunks a)).leaves
  rw [Leaves, hu] at hf
  have hdrop := (s.finished_drops p a).of_frame hf
  have hcase : u.refusesCase a.change = false := by
    have hfs : u.frame.fs = s.frame.fs := by rw [hf]; rfl
    have hcased : u.fs.caseInsensitive = false := by
      simp only [frame, Session.on, core] at hfs
      rw [hfs, h.cased]
    rw [refusesCase]
    split
    · rfl
    · rw [collidesWithExisting, hcased, Bool.false_and]
  rw [exec_bind_ok (caseCollisionRefused_clear hcase _)] at hx
  rw [← hp] at hdrop ha
  refine h.deliver hdrop (fun a' ha' => ?_) (fun d => ?_) hx
  · rw [ha] at ha'
    cases ha'
    exact le_rfl
  · exact ⟨.inl, fun hd => hd.elim id fun hd => hd ▸ hm⟩

theorem advanceAssembly_follows (h : s.Follows content start K l)
    (hx : (advanceAssembly p).exec s = (.ok ⟨⟩, s')) : s'.Follows content start K l := by
  have hrequest (hx : (requestNextBatch p).exec s = (.ok ⟨⟩, s')) :
      s'.Follows content start K l := by
    have hn := requestNextBatch_follows h p
    rwa [hx] at hn
  rw [advanceAssembly, exec_get_bind] at hx
  split at hx
  next a ha =>
    rw [exec_ite] at hx
    split at hx
    next hc => exact completeAssembly_follows h ha hc hx
    next => exact hrequest hx
  next => exact hrequest hx

omit [Platform] in
theorem mem_snoc {l : List RemoteChange} (c d : RemoteChange) : d ∈ l ++ [c] ↔ d ∈ l ∨ d = c := by
  rw [List.mem_append, List.mem_singleton]

/-- A manifest that is not older than the transfer under way takes its place. -/
theorem onChangeManifest_follows (h : s.Follows content start K l)
    (hin : s.allowCrossing c.path .inbound = true) (hk : c.kind = .modified sig)
    (hm : matchesSig (manifest.flatMap content) sig = true)
    (hnew : ∀ a, s.assemblies[c.path]? = some a → a.change.version ≤ c.version)
    (hx : (onChangeManifest c total manifest).exec s = (.ok ⟨⟩, s')) :
    s'.Follows content start K (l ++ [c]) := by
  simp only [onChangeManifest, exec_get_bind, hin, ↓reduceIte, hk] at hx
  obtain ⟨_, u, hu, hx⟩ := ok_of_bind hx
  have hf := (flushQueuedSend_files h.healthy c.path).books.core
  rw [hu] at hf
  have hu := h.of_frame (frame_of_core hf)
  have ha : u.core.assemblies = s.core.assemblies := by rw [hf]
  simp only [core] at ha
  rw [exec_modify_bind, exec_modify_bind] at hx
  obtain ⟨assemblies, chunkFiles, hab⟩ := u.abandonSuperseded_only c.path
  have hdrop := u.abandonSuperseded_drops c.path
  refine advanceAssembly_follows (hu.place (p := c.path) (b := ⟨c, sig, manifest, [], [], total⟩)
    ⟨_, _, u.sent, by rw [hab]⟩ (fun q => ?_) ?_ rfl ⟨hk, hm, fun _ hx => by cases hx⟩ ?_
    (mem_snoc c)) hx
  · rw [inserted_get]
    split
    next => rfl
    next hq => rw [hdrop.get, if_neg hq]
  · intro q a hq hqa _ x hxm hxf
    have hqa' : (u.abandonSuperseded c.path).assemblies[q]? = some a := by
      rw [hdrop.get, if_neg hq, hqa]
    exact (hdrop.keeps q a hqa' x hxm).trans hxf
  · rwa [ha]

/-- An inline change that is not older than the transfer under way takes its place. -/
theorem onChange_follows (h : s.Follows content start K l)
    (hin : s.allowCrossing c.path .inbound = true)
    (hnew : ∀ a, s.assemblies[c.path]? = some a → a.change.version ≤ c.version)
    (hx : (onChange c bytes).exec s = (.ok ⟨⟩, s')) :
    s'.Follows content start K (l ++ [c]) := by
  have hcase : s.refusesCase c = false := by
    rw [refusesCase]
    split
    · rfl
    · rw [collidesWithExisting, h.cased, Bool.false_and]
  simp only [onChange, exec_get_bind, hin, ↓reduceIte] at hx
  rw [exec_bind_ok (caseCollisionRefused_clear hcase _)] at hx
  obtain ⟨_, u, hu, hx⟩ := ok_of_bind hx
  obtain ⟨_, v, hv, hx⟩ := ok_of_bind hx
  have hfu := (flushQueuedSend_files h.healthy c.path).books.core
  rw [hu] at hfu
  have hfv := (flushPendingInstallFor_works c.path u).leaves
  rw [Leaves, hv] at hfv
  have hf : v.frame = s.frame := hfv.trans (frame_of_core hfu)
  have ha : v.frame.assemblies = s.frame.assemblies := by rw [hf]
  simp only [frame, Session.on, core] at ha
  rw [exec_modify_bind] at hx
  exact (h.of_frame hf).deliver (v.abandonSuperseded_drops c.path) (by rwa [ha]) (mem_snoc c) hx

/-- A chunk goes to an assembly that lacks it. -/
theorem takeChunk_follows {hash : ContentHash} (h : s.Follows content start K l)
    (ho : order.Perm s.assemblies.toList) (hv : Platform.blake3 (content hash) = hash)
    (hx : (takeChunk order hash (content hash)).exec s = (.ok ⟨⟩, s')) :
    s'.Follows content start K l := by
  rw [takeChunk, exec_get_bind] at hx
  split at hx
  · cases hx
    exact h
  next p a ht =>
    have ha : s.assemblies[p]? = some a := Std.ExtTreeMap.mem_toList_iff_getElem?_eq_some.1
      (ho.mem_iff.1 (List.mem_of_find?_eq_some ht))
    have hin : hash ∈ a.manifest := by
      have hf := List.find?_some ht
      rw [Bool.and_eq_true, decide_eq_true_eq, decide_eq_true_eq] at hf
      exact hf.2
    obtain ⟨hp, hm, hk⟩ := h.stocked p a ha
    have hfile (x : ContentHash) (hxf : s.chunkFiles[x]? = some (content x)) :
        (s.chunkFiles.insert hash (content hash))[x]? = some (content x) := by
      rw [Std.ExtTreeMap.getElem?_insert]
      simp only [Std.compare_eq_iff_eq]
      split
      next he => rw [he]
      next => exact hxf
    have hroom : ¬s.diskFull = true := by
      rw [h.room]
      decide
    simp only [hv, ne_eq, not_true_eq_false, ↓reduceIte] at hx
    rw [if_neg hroom, exec_set_bind] at hx
    refine advanceAssembly_follows (h.place (p := p) (b := { a with received := hash :: a.received })
      ⟨_, _, s.sent, rfl⟩ (fun q => inserted_get _ p q _) (fun _ _ _ _ _ x _ hxf => hfile x hxf) hp
      ⟨hk.kind, hk.whole, fun x hxr => ?_⟩ (fun a' ha' => ?_) fun d => ?_) hx
    · rcases List.mem_cons.1 hxr with rfl | hxr
      · exact ⟨hin, Std.ExtTreeMap.getElem?_insert_self, hv⟩
      · obtain ⟨h1, h2, h3⟩ := hk.received x hxr
        exact ⟨h1, hfile x h2, h3⟩
    · rw [ha] at ha'
      cases ha'
      exact le_rfl
    · exact ⟨.inl, fun hd => hd.elim id fun hd => hd ▸ hm⟩

end

end

end Session

/-- A receiving session and the changes that frames have announced to it. -/
structure Intake where
  session : Session
  announced : List RemoteChange

namespace Intake
variable [Platform] {content : ContentHash → Bytes} {t t' : Intake} {K : RelPath → Set Head}

/-- Manifests and inline changes arrive in any order, and chunks in any order, with the assemblies
in any order; each handler succeeds. -/
inductive Step (content : ContentHash → Bytes) : Intake → Intake → Prop where
  | manifest (t : Intake) (c : RemoteChange) (sig : ContentSig) (total : Nat)
      (l : List ContentHash) (s' : Session) (hin : t.session.allowCrossing c.path .inbound = true)
      (hk : c.kind = .modified sig) (hm : matchesSig (l.flatMap content) sig = true)
      (hx : (Session.onChangeManifest c total l).exec t.session = (.ok ⟨⟩, s')) :
    Step content t ⟨s', t.announced ++ [c]⟩
  | change (t : Intake) (c : RemoteChange) (bytes : Option Bytes) (s' : Session)
      (hin : t.session.allowCrossing c.path .inbound = true)
      (hx : (Session.onChange c bytes).exec t.session = (.ok ⟨⟩, s')) :
    Step content t ⟨s', t.announced ++ [c]⟩
  | answer (t : Intake) (hash : ContentHash) (order : List (RelPath × Assembly)) (s' : Session)
      (hv : Platform.blake3 (content hash) = hash) (ho : order.Perm t.session.assemblies.toList)
      (hx : (Session.takeChunk order hash (content hash)).exec t.session = (.ok ⟨⟩, s')) :
    Step content t ⟨s', t.announced⟩

omit [Platform] in
/-- The change that arrives, if one does, is not older than the one under way for its path. -/
def Newer (t t' : Intake) : Prop :=
  ∀ c, t'.announced = t.announced ++ [c] → ∀ a, t.session.assemblies[c.path]? = some a →
    a.change.version ≤ c.version

omit [Platform] in
/-- A session that knows the versions of `K`, over a working link, with room on its disk and names
told apart by case, and with nothing under way. -/
structure Start (K : RelPath → Set Head) (t : Intake) : Prop where
  healthy : t.session.Healthy
  room : t.session.diskFull = false
  cased : t.session.fs.caseInsensitive = false
  idle : t.session.assemblies = ∅
  knows : t.session.engine.index.Shows K
  fresh : t.announced = []

theorem Start.follows (h : t.Start K) :
    t.session.Follows content t.session.engine K t.announced := by
  have hnone (p : RelPath) (a : Assembly) (ha : t.session.assemblies[p]? = some a) : False := by
    rw [h.idle, Std.ExtTreeMap.getElem?_empty] at ha
    cases ha
  refine ⟨h.healthy, h.room, h.cased, fun p a ha => (hnone p a ha).elim, K, ?_, fun c hc => ?_⟩
  · exact ⟨rfl, fun p g hg => (h.knows.frontier p).subset hg, K, h.knows, fun _ => subset_rfl,
      fun p g hg => .inl (mem_offer.2 (.inl hg))⟩
  · rw [h.fresh] at hc
    cases hc

theorem Step.follows (h : t.session.Follows content start K t.announced)
    (hstep : Step content t t') (hnew : t.Newer t') :
    t'.session.Follows content start K t'.announced := by
  cases hstep with
  | manifest c sig total l s' hin hk hm hx =>
    exact Session.onChangeManifest_follows h hin hk hm (hnew c rfl) hx
  | change c bytes s' hin hx => exact Session.onChange_follows h hin (hnew c rfl) hx
  | answer hash order s' hv ho hx => exact Session.takeChunk_follows h ho hv hx

/-- Where no older change replaces a transfer under way, a path without a transfer shows all that
was known and announced, beside the edits found on disk; without such edits it holds what
absorbing each announced change gives. -/
theorem NewerRun.complete (h : t.Start K)
    (hrun : Relation.ReflTransGen (fun t t' => Step content t t' ∧ t.Newer t') t t')
    (hidle : t'.session.assemblies[p]? = none) :
    ∃ own : Set Head, (∀ g ∈ own, t.session.engine.Edited p g) ∧
      Frontier Head.version {g | g ∈ t'.session.engine.index.headsAt p}
        (offer K t'.announced p ∪ own) ∧
      (own = ∅ → Names Head.version (offer K t'.announced p) →
        (∀ g ∈ offer K t'.announced p, g.version.Fits) →
        t'.session.engine.index.get p =
          (t.session.engine.absorbChanges t'.announced).index.get p) := by
  have hf : t'.session.Follows content t.session.engine K t'.announced := by
    clear hidle
    induction hrun with
    | refl => exact h.follows
    | tail _ hstep ih => exact hstep.1.follows ih hstep.2
  obtain ⟨L, hg, hcov⟩ := hf.grasps
  obtain ⟨V, hV, hlow, hup⟩ := hg.shows
  have hall : ∀ g ∈ offer K t'.announced p, ∃ g' ∈ V p, g.version ≤ g'.version := by
    intro g hg'
    rcases mem_offer.1 hg' with hk | ⟨c, hc, rfl, rfl⟩
    · obtain ⟨g', hg', hle⟩ := (h.knows.frontier p).cofinal g hk
      exact ⟨g', hlow p (hg.held p g' hg'), hle⟩
    · rcases hcov c hc with ⟨g, hgL, hle⟩ | ⟨a, ha, _⟩
      · exact ⟨g, hlow _ hgL, hle⟩
      · rw [hidle] at ha
        cases ha
  refine ⟨{g ∈ V p | g ∉ offer K t'.announced p}, fun g hg' => ?_, ?_, fun hown hn hfits => ?_⟩
  · exact (hup p g hg'.1).resolve_left hg'.2
  · have hfront := (hV.frontier p).union hall
    have hset : V p ∪ offer K t'.announced p =
        offer K t'.announced p ∪ {g ∈ V p | g ∉ offer K t'.announced p} := by
      rw [Set.union_comm]
      exact (Set.union_sdiff_self ..).symm
    rwa [hset] at hfront
  · refine hV.get_eq (Engine.absorbChanges_shows h.knows _) (fun g hg' => ?_) hall hn hfits
    by_contra hnot
    have hmem : g ∈ ({g ∈ V p | g ∉ offer K t'.announced p} : Set Head) := ⟨hg', hnot⟩
    rw [hown] at hmem
    exact hmem

end Intake

/-- A file that the peer has made executable, in one version, and its content as it was. -/
def executable : RemoteChange :=
  ⟨firstPath, .modified { oneSig with exec := true }, (VectorClock.new.tick ⟨2⟩).tick ⟨2⟩⟩

namespace Intake

/-- A handler runs on a frame that announces some changes. -/
def after (t : Intake) (l : List RemoteChange) (x : SessionM Unit) : Intake :=
  ⟨(x.exec t.session).2, t.announced ++ l⟩

def idleIntake : Intake := ⟨idleTransfer.session, []⟩

/-- What the session knows at first: one version of its own file. -/
def fooKnown : RelPath → Set Head :=
  addHead (fun _ => ∅) fooPath ⟨VectorClock.new.tick ⟨1⟩, .present oneSig⟩

theorem idleIntake_start : idleIntake.Start fooKnown where
  healthy := idleTransfer_start.healthy
  room := rfl
  cased := rfl
  idle := rfl
  knows := Index.shows_new.mint (VectorClock.new_le _) _
  fresh := rfl

/-- The one chunk of every content there is. -/
def oneChunk : ContentHash → Bytes := fun _ => [0x31]

def announce (t : Intake) (c : RemoteChange) : Intake :=
  letI := tabulated shortHashes
  t.after [c] (Session.onChangeManifest c 1 [sharedChunk])

def answered (t : Intake) : Intake :=
  letI := tabulated shortHashes
  t.after [] (Session.takeChunk t.session.assemblies.toList sharedChunk [0x31])

/-- The older version is announced while the newer one is under way. -/
def crossed : Intake := (idleIntake.announce executable).announce (modifiedAt firstPath)

def followed : Intake := (idleIntake.announce (modifiedAt firstPath)).announce executable

theorem announce_step {t : Intake} {c : RemoteChange} {sig : ContentSig}
    (hin : t.session.allowCrossing c.path .inbound = true) (hk : c.kind = .modified sig)
    (hm : letI := tabulated shortHashes
      matchesSig [0x31] sig = true)
    (hx : letI := tabulated shortHashes
      ((Session.onChangeManifest c 1 [sharedChunk]).exec t.session).1 = .ok ⟨⟩) :
    letI := tabulated shortHashes
    Step oneChunk t (t.announce c) := by
  let platform := tabulated shortHashes
  exact .manifest t c sig 1 [sharedChunk] _ hin hk hm (Prod.ext hx rfl)

theorem answered_step {t : Intake}
    (hx : letI := tabulated shortHashes
      ((Session.takeChunk t.session.assemblies.toList sharedChunk [0x31]).exec t.session).1 =
        .ok ⟨⟩) :
    letI := tabulated shortHashes
    Step oneChunk t t.answered := by
  let platform := tabulated shortHashes
  have h := @Step.answer platform oneChunk t sharedChunk t.session.assemblies.toList
    t.answered.session (by decide) (.refl _) (Prod.ext hx rfl)
  have he : t.announced = t.answered.announced := (List.append_nil _).symm
  rw [he] at h
  exact h

/-- An older announcement that arrives last wins: the newer version is lost, with every request
answered and no edit made. -/
theorem stale_defeats :
    letI := tabulated shortHashes
    Relation.ReflTransGen (Step oneChunk) idleIntake crossed.answered.answered ∧
      crossed.answered.answered.session.assemblies[firstPath]? = none ∧
      crossed.answered.answered.announced = [executable, modifiedAt firstPath] ∧
      crossed.answered.answered.session.engine.index.headsAt firstPath =
        [(modifiedAt firstPath).head] ∧
      (idleIntake.session.engine.absorbChanges
        [executable, modifiedAt firstPath]).index.headsAt firstPath = [executable.head] := by
  let platform := tabulated shortHashes
  have h1 : Step oneChunk idleIntake (idleIntake.announce executable) :=
    announce_step (by decide +kernel) rfl (by decide) (by decide +kernel)
  have h2 : Step oneChunk (idleIntake.announce executable) crossed :=
    announce_step (by decide +kernel) rfl (by decide) (by decide +kernel)
  have h3 : Step oneChunk crossed crossed.answered := answered_step (by decide +kernel)
  have h4 : Step oneChunk crossed.answered crossed.answered.answered :=
    answered_step (by decide +kernel)
  refine ⟨(((Relation.ReflTransGen.single h1).tail h2).tail h3).tail h4, ?_, rfl, ?_, ?_⟩
  · decide +kernel
  · decide +kernel
  · decide +kernel

/-- In the order they were made both versions are taken in. -/
theorem followed_complete :
    ∃ own : Set Head, (∀ g ∈ own, idleIntake.session.engine.Edited firstPath g) ∧
      Frontier Head.version
        {g | g ∈ followed.answered.session.engine.index.headsAt firstPath}
        (offer fooKnown followed.answered.announced firstPath ∪ own) ∧
      (own = ∅ → Names Head.version (offer fooKnown followed.answered.announced firstPath) →
        (∀ g ∈ offer fooKnown followed.answered.announced firstPath, g.version.Fits) →
        followed.answered.session.engine.index.get firstPath =
          (idleIntake.session.engine.absorbChanges followed.answered.announced).index.get
            firstPath) := by
  let platform := tabulated shortHashes
  have h1 : Step oneChunk idleIntake (idleIntake.announce (modifiedAt firstPath)) :=
    announce_step (by decide +kernel) rfl (by decide) (by decide +kernel)
  have h2 : Step oneChunk (idleIntake.announce (modifiedAt firstPath)) followed :=
    announce_step (by decide +kernel) rfl (by decide) (by decide +kernel)
  have h3 : Step oneChunk followed followed.answered := answered_step (by decide +kernel)
  have hn1 : idleIntake.Newer (idleIntake.announce (modifiedAt firstPath)) := by
    intro c _ a ha
    have he : idleIntake.session.assemblies = ∅ := rfl
    rw [he, Std.ExtTreeMap.getElem?_empty] at ha
    cases ha
  have hn2 : (idleIntake.announce (modifiedAt firstPath)).Newer followed := by
    intro c hc a ha
    have hlast : c = executable := by
      have he : [modifiedAt firstPath, executable] = [modifiedAt firstPath, c] := hc
      cases he
      rfl
    subst hlast
    have hb : (idleIntake.announce (modifiedAt firstPath)).session.assemblies[firstPath]? = some
        ⟨modifiedAt firstPath, oneSig, [sharedChunk], [], [sharedChunk], 1⟩ := by decide +kernel
    cases hb.symm.trans ha
    exact VectorClock.le_tick _ _
  have hn3 : followed.Newer followed.answered := by
    intro c hc
    have hlen := congrArg List.length hc
    cases hlen
  refine NewerRun.complete idleIntake_start
    (((Relation.ReflTransGen.single ⟨h1, hn1⟩).tail ⟨h2, hn2⟩).tail ⟨h3, hn3⟩) ?_
  decide +kernel

end Intake

end Tomo
