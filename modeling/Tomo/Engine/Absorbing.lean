import Tomo.Engine.Canonical
import Tomo.Wire.Digest

namespace Tomo
set_option autoImplicit true

/-- The numbers of a version are `u64` values. -/
def Head.Fits (h : Head) : Prop := h.version.Fits ∧ h.state.Fits

namespace Entry

/-- Absorb versions one after the other. -/
def absorbEach (e : Entry) (hs : List Head) : Entry :=
  hs.foldl (fun e h => (e.absorb h.version h.state).1) e

/-- An entry made of versions: of the first one, of one more, or of one more entry's heads. -/
inductive Built : List Head → Entry → Prop where
  | single (h : Head) : Built [h] (.single h.version h.state)
  | absorb (h : Head) : Built l e → Built (l ++ [h]) (e.absorb h.version h.state).1
  | join : Built l e → Built l' e' → Built (l ++ l') (e.absorbEach e'.heads)

variable {e e' : Entry} {l l' : List Head}

theorem Shows.absorbEach {K : Set Head} (h : e.Shows K) (hs : List Head) :
    (e.absorbEach hs).Shows (K ∪ {g | g ∈ hs}) := by
  induction hs generalizing e K with
  | nil => simpa [Entry.absorbEach] using h
  | cons g hs ih =>
    have hnext := ih (h.absorb g.version g.state)
    have hset : insert g K ∪ {g | g ∈ hs} = K ∪ {x | x ∈ g :: hs} := by
      ext x
      simp only [Set.mem_union, Set.mem_insert_iff, Set.mem_ofPred_eq, List.mem_cons]
      tauto
    rw [hset] at hnext
    exact hnext

/-- However it was made, an entry shows the versions it was made of. -/
theorem Built.shows (h : Built l e) : e.Shows {g | g ∈ l} := by
  induction h with
  | single h =>
    have hset : {g | g ∈ [h]} = ({h} : Set Head) := by
      ext g
      exact List.mem_singleton
    rw [hset]
    exact shows_single h.version h.state
  | @absorb l e h _ ih =>
    have hset : {g | g ∈ l ++ [h]} = insert h {g | g ∈ l} := by
      ext g
      simp [or_comm]
    rw [hset]
    exact ih.absorb h.version h.state
  | @join l e l' e' _ _ ih ih' =>
    have hjoin := ih.absorbEach e'.heads
    have hcover : ∀ a ∈ {g | g ∈ l'}, ∃ b ∈ {g | g ∈ l} ∪ {g | g ∈ e'.heads},
        a.version ≤ b.version := by
      intro a ha
      obtain ⟨b, hb, hle⟩ := ih'.frontier.cofinal a ha
      exact ⟨b, .inr hb, hle⟩
    have hset : {g | g ∈ l} ∪ {g | g ∈ e'.heads} ∪ {g | g ∈ l'} = {g | g ∈ l ++ l'} := by
      ext g
      have hsub := @ih'.frontier.subset g
      simp only [Set.mem_union, Set.mem_ofPred_eq, List.mem_append] at hsub ⊢
      tauto
    have hall := hjoin.frontier.union hcover
    rw [hset] at hall
    exact ⟨hall, hjoin.sorted, hjoin.nodup⟩

/-- The versions of a list, absorbed in its order after the first. -/
theorem built_each (h : Head) (hs : List Head) :
    Built (h :: hs) ((single h.version h.state).absorbEach hs) := by
  have hfold (hs : List Head) (l : List Head) (e : Entry) (hb : Built l e) :
      Built (l ++ hs) (e.absorbEach hs) := by
    induction hs generalizing l e with
    | nil =>
      rw [List.append_nil]
      exact hb
    | cons g hs ih =>
      have hnext := ih (l ++ [g]) _ (hb.absorb g)
      rwa [← List.append_cons] at hnext
  exact hfold hs [h] _ (.single h)

/-- Versions with equal clocks are equal versions. -/
def Consistent (l : List Head) : Prop :=
  ∀ a ∈ l, ∀ b ∈ l, a.version.compare b.version = .equal → a.Same b

/-- No version of the list is newer. -/
def Maximal (l : List Head) (h : Head) : Prop :=
  ∀ g ∈ l, h.version.compare g.version ≠ .before

theorem maximal_iff {h : Head} :
    Maximal l h ↔ ∀ g ∈ l, h.version ≤ g.version → g.version ≤ h.version := by
  unfold Maximal
  simp only [Ne, VectorClock.before_iff, not_and, not_not]

theorem equal_iff (a b : VectorClock) : a.compare b = .equal ↔ a ≤ b ∧ b ≤ a := by
  have h := VectorClock.compare_spec a b
  cases hc : a.compare b <;> rw [hc] at h <;> simp [h]

/-- The heads are the maximal versions, up to mtimes. -/
theorem Built.mem_iff (h : Built l e) (hc : Consistent l) (x : Head) :
    (∃ g ∈ e.heads, g.Same x) ↔ (∃ g ∈ l, g.Same x) ∧ Maximal l x := by
  have hf := h.shows.frontier
  constructor
  · rintro ⟨g, hg, hx⟩
    have hgl : g ∈ l := hf.subset hg
    refine ⟨⟨g, hgl, hx⟩, maximal_iff.2 fun k hk hle => ?_⟩
    rw [← (Head.same_iff.1 hx).1] at hle ⊢
    obtain ⟨b, hb, hkb⟩ := hf.cofinal k hk
    rw [hf.antichain g hg b hb (hle.trans hkb)]
    exact hkb
  · rintro ⟨⟨g, hg, hx⟩, hm⟩
    obtain ⟨b, hb, hgb⟩ := hf.cofinal g hg
    have hv := (Head.same_iff.1 hx).1
    have hbg : b.version ≤ g.version := by
      rw [hv] at hgb ⊢
      exact maximal_iff.1 hm b (hf.subset hb) hgb
    have hsame := hc b (hf.subset hb) g hg ((equal_iff _ _).2 ⟨hbg, hgb⟩)
    exact ⟨b, hb, hsame.trans hx⟩

theorem Shows.distinct {K : Set Head} (h : e.Shows K) :
    e.heads.Pairwise fun a b => a.version ≠ b.version := by
  apply h.nodup.imp_of_mem
  intro a b ha hb hne hv
  exact hne (h.frontier.antichain a ha b hb hv.le)

/-- Two lists of one set of versions, up to mtimes. -/
def SameVersions (l l' : List Head) : Prop :=
  (∀ a ∈ l, ∃ b ∈ l', a.Same b) ∧ ∀ b ∈ l', ∃ a ∈ l, a.Same b

/-- What an entry is made of, in whatever order, repeated or in groups, decides its heads. -/
theorem Built.same (h : Built l e) (h' : Built l' e') (hc : Consistent l)
    (hl : ∀ g ∈ l, g.Fits) (hl' : ∀ g ∈ l', g.Fits) (hs : SameVersions l l') : e.Same e' := by
  have hc' : Consistent l' := by
    intro a ha b hb hab
    obtain ⟨a₀, ha₀, haa⟩ := hs.2 a ha
    obtain ⟨b₀, hb₀, hbb⟩ := hs.2 b hb
    rw [← (Head.same_iff.1 haa).1, ← (Head.same_iff.1 hbb).1] at hab
    exact (haa.symm.trans (hc a₀ ha₀ b₀ hb₀ hab)).trans hbb
  have hmax (x : Head) : Maximal l x ↔ Maximal l' x := by
    constructor
    · intro hm b hb
      obtain ⟨a, ha, hab⟩ := hs.2 b hb
      rw [← (Head.same_iff.1 hab).1]
      exact hm a ha
    · intro hm a ha
      obtain ⟨b, hb, hab⟩ := hs.1 a ha
      rw [(Head.same_iff.1 hab).1]
      exact hm b hb
  have hin (x : Head) : (∃ g ∈ l, g.Same x) ↔ ∃ g ∈ l', g.Same x := by
    constructor
    · rintro ⟨a, ha, hax⟩
      obtain ⟨b, hb, hab⟩ := hs.1 a ha
      exact ⟨b, hb, hab.symm.trans hax⟩
    · rintro ⟨b, hb, hbx⟩
      obtain ⟨a, ha, hab⟩ := hs.2 b hb
      exact ⟨a, ha, hab.trans hbx⟩
  have hheads (x : Head) : (∃ g ∈ e.heads, g.Same x) ↔ ∃ g ∈ e'.heads, g.Same x := by
    rw [h.mem_iff hc, h'.mem_iff hc', hmax, hin]
  have hfit : ∀ g ∈ e.heads, g.Fits := fun g hg => hl g (h.shows.frontier.subset hg)
  have hfit' : ∀ g ∈ e'.heads, g.Fits := fun g hg => hl' g (h'.shows.frontier.subset hg)
  -- the keys of both head lists are one sorted list
  have hnodup {e : Entry} {K : Set Head} (hshow : e.Shows K) (hf : ∀ g ∈ e.heads, g.Fits) :
      (e.heads.map Head.sortKey).Nodup := by
    rw [List.nodup_iff_pairwise_ne, List.pairwise_map]
    apply hshow.distinct.imp_of_mem
    intro a b ha hb hne hkey
    exact hne (Head.version_eq_of_sortKey (hf a ha).1 (hf b hb).1 hkey)
  have hkeys : e.heads.map Head.sortKey = e'.heads.map Head.sortKey := by
    have hperm : (e.heads.map Head.sortKey).Perm (e'.heads.map Head.sortKey) := by
      rw [List.perm_ext_iff_of_nodup (hnodup h.shows hfit) (hnodup h'.shows hfit')]
      intro k
      rw [List.mem_map, List.mem_map]
      constructor
      · rintro ⟨a, ha, rfl⟩
        obtain ⟨b, hb, hba⟩ := (hheads a).1 ⟨a, ha, Head.Same.refl a⟩
        exact ⟨b, hb, hba.encode⟩
      · rintro ⟨b, hb, rfl⟩
        obtain ⟨a, ha, hab⟩ := (hheads b).2 ⟨b, hb, Head.Same.refl b⟩
        exact ⟨a, ha, hab.encode⟩
    have hanti (a b : List UInt8) (_ : a ∈ e.heads.map Head.sortKey)
        (_ : b ∈ e'.heads.map Head.sortKey) (hab : (compare a b).isLE = true)
        (hba : (compare b a).isLE = true) : a = b :=
      Std.LawfulEqOrd.compare_eq_iff_eq.1 (Std.OrientedCmp.isLE_antisymm hab hba)
    exact hperm.eq_of_pairwise hanti (List.pairwise_map.2 h.shows.sorted)
      (List.pairwise_map.2 h'.shows.sorted)
  have hstream : e.heads.flatMap Head.encode = e'.heads.flatMap Head.encode := by
    rw [List.flatMap_def, List.flatMap_def]
    exact congrArg List.flatten hkeys
  exact delimits_head.stream Head.encode_ne_nil hfit hfit' hstream

/-- An entry built of versions holds exactly the maximal ones, each once and in canonical order,
whatever the order, the repetitions and the grouping; a further version is already known exactly
if one of them is newer or equal, and the winner is said to change exactly if its state does. -/
theorem Built.maximal (h : Built l e) (hc : Consistent l) (hl : ∀ g ∈ l, g.Fits) :
    (∀ x, (∃ g ∈ e.heads, g.Same x) ↔ (∃ g ∈ l, g.Same x) ∧ Maximal l x) ∧
      e.heads.Pairwise (fun a b => a.version ≠ b.version) ∧ e.heads.Pairwise KeyLe ∧
      (∀ l' e', Built l' e' → (∀ g ∈ l', g.Fits) → SameVersions l l' → e.Same e') ∧
      (∀ v s, (e.absorb v s).2 = .alreadyKnown ↔
        ∃ g ∈ l, g.version.compare v = .after ∨ g.version.compare v = .equal) ∧
      ∀ v s w c n, (e.absorb v s).2 = .absorbed w c n →
        (w = true ↔ e.winner.state.eq (e.absorb v s).1.winner.state = false) := by
  refine ⟨h.mem_iff hc, h.shows.distinct, h.shows.sorted,
    fun l' e' h' hl' hs => h.same h' hc hl hl' hs, ?_, ?_⟩
  · intro v s
    have hknown : (e.absorb v s).2 = .alreadyKnown ↔ e.knows v = true := by
      rw [Entry.absorb]
      cases e.knows v <;> simp
    rw [hknown, knows_iff]
    constructor
    · rintro ⟨g, hg, hle⟩
      exact ⟨g, h.shows.frontier.subset hg, (VectorClock.ge_iff_compare _ _).1 hle⟩
    · rintro ⟨g, hg, hle⟩
      obtain ⟨b, hb, hgb⟩ := h.shows.frontier.cofinal g hg
      exact ⟨b, hb, ((VectorClock.ge_iff_compare _ _).2 hle).trans hgb⟩
  · intro v s w c n ho
    rw [Entry.absorb] at ho ⊢
    cases hk : e.knows v with
    | true =>
      rw [hk, if_pos rfl] at ho
      cases ho
    | false =>
      rw [hk, if_neg Bool.false_ne_true] at ho
      rw [if_neg Bool.false_ne_true]
      cases ho
      rw [Bool.not_eq_true']

end Entry

/-- Two versions that replicas minted apart. -/
def forkedHeads : List Head :=
  [⟨VectorClock.new.tick ⟨1⟩, .tombstone⟩, ⟨VectorClock.new.tick ⟨2⟩, .tombstone⟩]

def forkedEntry : Entry :=
  (Entry.single (VectorClock.new.tick ⟨1⟩) .tombstone).absorbEach
    [⟨VectorClock.new.tick ⟨2⟩, .tombstone⟩]

theorem forked_maximal :
    (∀ x, (∃ g ∈ forkedEntry.heads, g.Same x) ↔
        (∃ g ∈ forkedHeads, g.Same x) ∧ Entry.Maximal forkedHeads x) ∧
      forkedEntry.heads.Pairwise (fun a b => a.version ≠ b.version) ∧
      forkedEntry.heads.Pairwise Entry.KeyLe ∧
      (∀ l' e', Entry.Built l' e' → (∀ g ∈ l', g.Fits) → Entry.SameVersions forkedHeads l' →
        forkedEntry.Same e') ∧
      (∀ v s, (forkedEntry.absorb v s).2 = .alreadyKnown ↔
        ∃ g ∈ forkedHeads, g.version.compare v = .after ∨ g.version.compare v = .equal) ∧
      ∀ v s w c n, (forkedEntry.absorb v s).2 = .absorbed w c n →
        (w = true ↔ forkedEntry.winner.state.eq (forkedEntry.absorb v s).1.winner.state = false) := by
  have hbuilt : Entry.Built forkedHeads forkedEntry :=
    Entry.built_each ⟨VectorClock.new.tick ⟨1⟩, .tombstone⟩ [⟨VectorClock.new.tick ⟨2⟩, .tombstone⟩]
  apply hbuilt.maximal
  · unfold Entry.Consistent Head.Same
    decide +kernel
  · intro g hg
    rcases List.mem_cons.1 hg with rfl | hg
    · exact ⟨⟨by decide +kernel, by decide +kernel⟩, trivial⟩
    · rw [List.mem_singleton.1 hg]
      exact ⟨⟨by decide +kernel, by decide +kernel⟩, trivial⟩

end Tomo
