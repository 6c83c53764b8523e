import Tomo.Engine.Heads

namespace Tomo
set_option autoImplicit true

theorem VectorClock.concurrent_iff (a b : VectorClock) :
    a.compare b = .concurrent ↔ ¬a ≤ b ∧ ¬b ≤ a := by
  have h := compare_spec a b
  cases hc : a.compare b <;> rw [hc] at h <;> simp [h]

namespace Entry
variable {e : Entry} {K : Set Head}

/-- The documented invariants of an entry: there are heads, no two of them are ordered, and they
stand in canonical order. -/
structure Canonical (e : Entry) : Prop where
  nonempty : e.heads ≠ []
  concurrent : e.heads.Pairwise fun a b => a.version.compare b.version = .concurrent
  sorted : e.heads.Pairwise KeyLe

/-- A canonical entry shows its own heads. -/
theorem Canonical.shows (h : e.Canonical) : e.Shows {g | g ∈ e.heads} := by
  have hlt : e.heads.Pairwise fun a b => ¬a.version ≤ b.version ∧ ¬b.version ≤ a.version :=
    h.concurrent.imp fun hc => (VectorClock.concurrent_iff _ _).1 hc
  refine ⟨⟨subset_rfl, ?_, fun a ha => ⟨a, ha, le_rfl⟩⟩, h.sorted, ?_⟩
  · have hrefl : ∀ a ∈ e.heads, a.version ≤ a.version → a = a := fun _ _ _ => rfl
    have hfwd := hlt.imp (S := fun a b => a.version ≤ b.version → a = b) fun hab hle =>
      (hab.1 hle).elim
    have hbwd := hlt.imp (S := flip fun a b => a.version ≤ b.version → a = b) fun hab hle =>
      (hab.2 hle).elim
    intro a ha b hb
    exact hfwd.forall_of_forall_of_flip hrefl hbwd ha hb
  · apply hlt.imp
    rintro a b hab rfl
    exact hab.1 le_rfl

theorem Shows.canonical (h : e.Shows K) (hK : K.Nonempty) : e.Canonical where
  nonempty := by
    obtain ⟨g, hg⟩ := h.frontier.nonempty hK
    exact List.ne_nil_of_mem hg
  concurrent := by
    apply h.nodup.imp_of_mem
    intro a b ha hb hne
    rw [VectorClock.concurrent_iff]
    exact ⟨fun hle => hne (h.frontier.antichain a ha b hb hle),
      fun hle => hne (h.frontier.antichain b hb a ha hle).symm⟩
  sorted := h.sorted

theorem canonical_single (v : VectorClock) (s : EntryState) : (single v s).Canonical :=
  (shows_single v s).canonical (Set.singleton_nonempty _)

theorem Canonical.absorb (h : e.Canonical) (v : VectorClock) (s : EntryState) :
    (e.absorb v s).1.Canonical :=
  (h.shows.absorb v s).canonical (Set.insert_nonempty _ _)

/-- The entry that `single` and `absorb` make of a list of heads. -/
def rebuild : List Head → Option Entry
  | [] => none
  | first :: heads =>
    some (heads.foldl (fun e h => (e.absorb h.version h.state).1)
      (.single first.version first.state))

theorem rebuild_isCanonical {hs : List Head} (h : rebuild hs = some e) : e.Canonical := by
  cases hs with
  | nil => cases h
  | cons first hs =>
    have hfold (hs : List Head) (e : Entry) (he : e.Canonical) :
        (hs.foldl (fun e h => (e.absorb h.version h.state).1) e).Canonical := by
      induction hs generalizing e with
      | nil => exact he
      | cons h hs ih => exact ih _ (he.absorb h.version h.state)
    cases h
    exact hfold hs _ (canonical_single first.version first.state)

/-- A head that is concurrent with all others and sorts last joins them at the end. -/
theorem absorb_last {h : Head}
    (hc : ∀ g ∈ e.heads, g.version.compare h.version = .concurrent)
    (hs : (e.heads ++ [h]).Pairwise KeyLe) :
    (e.absorb h.version h.state).1 = ⟨e.heads ++ [h]⟩ := by
  have hk : e.knows h.version = false := by
    rw [knows, List.any_eq_false]
    intro g hg
    rw [hc g hg]
    exact Bool.false_ne_true
  have hkept : e.heads.filter (fun g => decide (g.version.compare h.version ≠ .before)) =
      e.heads := by
    rw [List.filter_eq_self]
    intro g hg
    rw [hc g hg]
    rfl
  rw [Entry.absorb, if_neg (by rw [hk]; exact Bool.false_ne_true)]
  dsimp only
  rw [hkept]
  exact congrArg Entry.mk hs.insertionSort_eq

theorem foldl_absorb (hs : List Head) (e : Entry)
    (hc : (e.heads ++ hs).Pairwise fun a b => a.version.compare b.version = .concurrent)
    (hk : (e.heads ++ hs).Pairwise KeyLe) :
    hs.foldl (fun e h => (e.absorb h.version h.state).1) e = ⟨e.heads ++ hs⟩ := by
  induction hs generalizing e with
  | nil => rw [List.append_nil]; rfl
  | cons h hs ih =>
    rw [List.append_cons] at hc hk
    have hhead := hc
    rw [List.pairwise_append, List.pairwise_append] at hhead
    obtain ⟨⟨_, _, hh⟩, _⟩ := hhead
    have hnext : (e.absorb h.version h.state).1 = ⟨e.heads ++ [h]⟩ :=
      absorb_last (fun g hg => hh g hg h (List.mem_singleton_self h)) (List.pairwise_append.1 hk).1
    rw [List.foldl_cons, hnext, ih ⟨e.heads ++ [h]⟩ hc hk, ← List.append_cons]

/-- Rebuilding changes nothing exactly where the heads are an entry's already. -/
theorem rebuild_eq_iff (e : Entry) : rebuild e.heads = some e ↔ e.Canonical := by
  constructor
  · exact rebuild_isCanonical
  · intro h
    obtain ⟨hs⟩ := e
    cases hs with
    | nil => exact (h.nonempty rfl).elim
    | cons first hs =>
      exact congrArg some (foldl_absorb hs (.single first.version first.state) h.concurrent h.sorted)

end Entry

end Tomo
