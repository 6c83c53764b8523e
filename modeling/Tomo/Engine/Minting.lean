import Tomo.Engine.Canonical
import Tomo.Engine.Surfacing

namespace Tomo
set_option autoImplicit true

/-- However many replicas there are, their ids are `u64` values. -/
theorem VectorClock.iter_length_le (c : VectorClock) : c.iter.length ≤ 2 ^ 64 := by
  have hnodup : (c.iter.map fun e => e.1.id.toNat).Nodup := by
    rw [List.nodup_iff_pairwise_ne, List.pairwise_map]
    apply c.iter_distinct.imp
    intro a b hne he
    apply hne
    have hid := UInt64.toNat_inj.1 he
    cases ha : a.1
    cases hb : b.1
    rw [ha, hb] at hid
    cases hid
    rfl
  have hsub : (c.iter.map fun e => e.1.id.toNat).toFinset ⊆ Finset.range (2 ^ 64) := by
    intro n hn
    obtain ⟨e, _, rfl⟩ := List.mem_map.1 (List.mem_toFinset.1 hn)
    exact Finset.mem_range.2 e.1.id.toNat_lt
  have hcard := Finset.card_le_card hsub
  rwa [List.toFinset_card_of_nodup hnodup, List.length_map, Finset.card_range] at hcard

/-- Concurrent versions have different keys: the number of pairs may wrap, but the clock of no
pairs is below every other. -/
theorem Head.sortKey_ne {a b : Head} (ha : ∀ e ∈ a.version.iter, e.2 < 2 ^ 64)
    (hb : ∀ e ∈ b.version.iter, e.2 < 2 ^ 64) (hab : ¬a.version ≤ b.version)
    (hba : ¬b.version ≤ a.version) : a.sortKey ≠ b.sortKey := by
  intro h
  simp only [Head.sortKey, Head.encode, List.append_assoc] at h
  obtain ⟨hlen, ht⟩ := List.append_inj h (by rw [toLeBytes_length, toLeBytes_length])
  have hmod := toLeBytes_mod hlen
  have hpos {c d : VectorClock} (hcd : ¬c ≤ d) : 0 < c.iter.length := by
    rw [List.length_pos_iff]
    intro hnil
    have hnew : c = .new := VectorClock.iter_injective (hnil.trans (by decide +kernel))
    exact hcd (hnew ▸ VectorClock.new_le d)
  have hlength : a.version.iter.length = b.version.iter.length := by
    have hale := a.version.iter_length_le
    have hble := b.version.iter_length_le
    have hapos := hpos hab
    have hbpos := hpos hba
    omega
  have hv := VectorClock.iter_injective (pairs_injective ha hb hlength ht)
  exact hab hv.le

namespace Net

/-- One local change of a run, with the clock it minted if it minted one. -/
structure Edit (ι : Type) where
  replica : ι
  change : LocalChange
  minted : Option VectorClock

variable {ι : Type} [DecidableEq ι]

/-- What an event adds to the list of local changes. -/
def edits (s : Net ι) (i : ι) : Event → List (Edit ι)
  | .local c => [⟨i, c, (sends ((s.engine i).handle (.local c)).2).head?.map RemoteChange.version⟩]
  | .remote _ | .peerIndex _ => []

/-- A run, with every local change of it. -/
inductive EditedRun (ids : ι → ReplicaId) : Net ι → List (Edit ι) → Prop where
  | init : EditedRun ids (init ids) []
  | step (i : ι) (ev : Event) : EditedRun ids s log → s.Open i ev →
      EditedRun ids (s.handle i ev) (log ++ s.edits i ev)

/-- What the list says of the versions around: each was minted by one entry, and the versions of
one replica are a chain it knows. -/
structure Ledger (s : Net ι) (K : ι → RelPath → Set Head) (log : List (Edit ι)) : Prop where
  minted : ∀ p, ∀ g ∈ s.Minted p, ∃ x ∈ log, x.change.path = p ∧ x.minted = some g.version
  known : ∀ x ∈ log, ∀ v, x.minted = some v → ∃ g ∈ K x.replica x.change.path, g.version = v
  chain : ∀ x ∈ log, ∀ y ∈ log, x.replica = y.replica → x.change.path = y.change.path →
    ∀ v w, x.minted = some v → y.minted = some w → v ≤ w ∨ w ≤ v
  distinct : log.Pairwise fun x y => x.change.path = y.change.path →
    ∀ v, x.minted = some v → y.minted ≠ some v

variable {ids : ι → ReplicaId} {s : Net ι} {K L : ι → RelPath → Set Head} {log : List (Edit ι)}

omit [DecidableEq ι] in
theorem Ledger.idle (h : s.Ledger K log) (hm : ∀ p, s'.Minted p = s.Minted p)
    (hK : ∀ i p, K i p ⊆ L i p) : Ledger s' L log where
  minted p g hg := by
    rw [hm p] at hg
    exact h.minted p g hg
  known x hx v hv := by
    obtain ⟨g, hg, hgv⟩ := h.known x hx v hv
    exact ⟨g, hK _ _ hg, hgv⟩
  chain := h.chain
  distinct := h.distinct

omit [DecidableEq ι] in
/-- A local change that mints nothing leaves the ledger right. -/
theorem Ledger.unminted (h : s.Ledger K log) (i : ι) (c : LocalChange) :
    s.Ledger K (log ++ [⟨i, c, none⟩]) where
  minted p g hg := by
    obtain ⟨x, hx, hp⟩ := h.minted p g hg
    exact ⟨x, List.mem_append_left _ hx, hp⟩
  known x hx v hv := by
    rcases List.mem_append.1 hx with hx | hx
    · exact h.known x hx v hv
    · rw [List.mem_singleton.1 hx] at hv
      cases hv
  chain x hx y hy hr hp v w hv hw := by
    rcases List.mem_append.1 hx with hx | hx
    · rcases List.mem_append.1 hy with hy | hy
      · exact h.chain x hx y hy hr hp v w hv hw
      · rw [List.mem_singleton.1 hy] at hw
        cases hw
    · rw [List.mem_singleton.1 hx] at hv
      cases hv
  distinct := by
    rw [List.pairwise_append]
    refine ⟨h.distinct, List.pairwise_singleton _ _, ?_⟩
    intro x _ y hy _ v _
    rw [List.mem_singleton.1 hy]
    exact fun h => by cases h

/-- A version that a local change mints is new, and above all that its replica knew. -/
theorem Ledger.mint (hl : s.Ledger K log) (h : Inv ids s K) (i : ι) (c : LocalChange)
    (hsend : sends ((s.engine i).handle (.local c)).2 =
      [⟨c.path, c.kind, (s.minting i c).version⟩]) :
    (s.handle i (.local c)).Ledger (Function.update K i (addHead (K i) c.path (s.minting i c)))
      (log ++ [⟨i, c, some (s.minting i c).version⟩]) := by
  have hfresh (g : Head) (hg : g ∈ s.Minted c.path) : g.version ≠ (s.minting i c).version := by
    intro hv
    have hn := h.fresh i hg
    rw [minting, h.replica i] at hv
    exact hn hv.ge
  have hgrow (j : ι) (p : RelPath) : K j p ⊆
      Function.update K i (addHead (K i) c.path (s.minting i c)) j p :=
    subset_update (fun p g hg => mem_addHead.2 (.inl hg)) j p
  have hbelow (x : Edit ι) (hx : x ∈ log) (hr : x.replica = i) (hp : x.change.path = c.path)
      (v : VectorClock) (hv : x.minted = some v) : v ≤ (s.minting i c).version := by
    obtain ⟨g, hg, rfl⟩ := hl.known x hx v hv
    rw [hr, hp] at hg
    exact (h.le_base hg).trans (VectorClock.le_tick _ _)
  constructor
  case minted =>
    intro p g hg
    rw [minted_handle, hsend] at hg
    rcases hg with hg | ⟨c', hc', rfl, rfl⟩
    · obtain ⟨x, hx, hp⟩ := hl.minted p g hg
      exact ⟨x, List.mem_append_left _ hx, hp⟩
    · rw [List.mem_singleton.1 hc']
      exact ⟨_, List.mem_append_right _ (List.mem_singleton_self _), rfl, rfl⟩
  case known =>
    intro x hx v hv
    rcases List.mem_append.1 hx with hx | hx
    · obtain ⟨g, hg, hgv⟩ := hl.known x hx v hv
      exact ⟨g, hgrow _ _ hg, hgv⟩
    · rw [List.mem_singleton.1 hx] at hv ⊢
      cases hv
      refine ⟨s.minting i c, ?_, rfl⟩
      rw [Function.update_self]
      exact mem_addHead.2 (.inr ⟨rfl, rfl⟩)
  case chain =>
    intro x hx y hy hr hp v w hv hw
    rcases List.mem_append.1 hx with hx | hx
    · rcases List.mem_append.1 hy with hy | hy
      · exact hl.chain x hx y hy hr hp v w hv hw
      · rw [List.mem_singleton.1 hy] at hr hp hw
        cases hw
        exact .inl (hbelow x hx hr hp v hv)
    · rw [List.mem_singleton.1 hx] at hr hp hv
      cases hv
      rcases List.mem_append.1 hy with hy | hy
      · exact .inr (hbelow y hy hr.symm hp.symm w hw)
      · rw [List.mem_singleton.1 hy] at hw
        cases hw
        exact .inl le_rfl
  case distinct =>
    rw [List.pairwise_append]
    refine ⟨hl.distinct, List.pairwise_singleton _ _, ?_⟩
    intro x hx y hy hp v hv hw
    rw [List.mem_singleton.1 hy] at hp hw
    cases hw
    obtain ⟨g, hg, hgv⟩ := hl.known x hx _ hv
    rw [hp] at hg
    exact hfresh g (h.minted _ _ hg) hgv

theorem EditedRun.ledger (hids : Function.Injective ids) (h : EditedRun ids s log) :
    ∃ K, Inv ids s K ∧ s.Ledger K log := by
  induction h with
  | init =>
    refine ⟨_, inv_init ids, ?_, ?_, ?_, .nil⟩
    · intro p g hg
      rw [minted_init] at hg
      cases hg
    · intro x hx
      cases hx
    · intro x hx
      cases hx
  | @step s log i ev _ ho ih =>
    obtain ⟨K, h, hl⟩ := ih
    cases ev with
    | «local» c =>
      rcases h.local hids i c with ⟨h', hsend⟩ | ⟨h', hsend⟩
      · refine ⟨K, h', ?_⟩
        have hm (p : RelPath) : (s.handle i (.local c)).Minted p = s.Minted p := by
          rw [minted_handle, hsend, Set.union_eq_left]
          rintro g ⟨c', hc', _⟩
          cases hc'
        rw [edits, hsend]
        exact (hl.unminted i c).idle hm fun _ _ => subset_rfl
      · refine ⟨_, h', ?_⟩
        have hlog := hl.mint h i c hsend
        rw [edits, hsend]
        exact hlog
    | remote c =>
      obtain ⟨j, _, hc⟩ := ho
      obtain ⟨h', hm⟩ := h.deliver i (c := c) ⟨j, c, hc, rfl, rfl⟩
      refine ⟨_, h', ?_⟩
      rw [edits, List.append_nil]
      exact hl.idle hm (subset_update fun p g hg => mem_addHead.2 (.inl hg))
    | peerIndex x =>
      obtain ⟨j, _, hx⟩ := ho
      obtain ⟨L, hlow, _, h', hm⟩ := h.peerIndex i (h.snapshots j x hx)
      refine ⟨_, h', ?_⟩
      rw [edits, List.append_nil]
      exact hl.idle hm (subset_update hlow)

omit [DecidableEq ι] in
/-- Of the heads of an entry there is at most one for each replica. -/
theorem Ledger.heads_le [Fintype ι] (hl : s.Ledger K log) (h : Inv ids s K)
    (he : (s.engine i).index.get p = some e) : e.heads.length ≤ Fintype.card ι := by
  have hshow := (h.shows i).some he
  have hm (g : Head) (hg : g ∈ e.heads) : ∃ x ∈ log, x.change.path = p ∧ x.minted = some g.version :=
    hl.minted p g (h.heads_minted he hg)
  choose x hx using hm
  have hnodup : (e.heads.attach.map fun g => (x g.1 g.2).replica).Nodup := by
    rw [List.nodup_iff_pairwise_ne, List.pairwise_map]
    apply (List.nodup_attach.2 hshow.nodup).imp
    intro a b hne hr
    apply hne
    apply Subtype.ext
    obtain ⟨ha, hpa, hva⟩ := hx a.1 a.2
    obtain ⟨hb, hpb, hvb⟩ := hx b.1 b.2
    rcases hl.chain _ ha _ hb hr (hpa.trans hpb.symm) _ _ hva hvb with hle | hle
    · exact hshow.frontier.antichain a.1 a.2 b.1 b.2 hle
    · exact (hshow.frontier.antichain b.1 b.2 a.1 a.2 hle).symm
  have hcard := hnodup.length_le_card
  rwa [List.length_map, List.length_attach] at hcard

omit [DecidableEq ι] in
/-- Every minted version has one entry of the ledger. -/
theorem Ledger.exists_unique (hl : s.Ledger K log) (hg : g ∈ s.Minted p) :
    ∃! k : Nat, ∃ x : Edit ι, log[k]? = some x ∧ x.change.path = p ∧ x.minted = some g.version := by
  obtain ⟨x, hx, hp, hv⟩ := hl.minted p g hg
  obtain ⟨k, hk⟩ := List.mem_iff_getElem?.1 hx
  refine ⟨k, ⟨x, hk, hp, hv⟩, ?_⟩
  rintro k' ⟨y, hk', hp', hv'⟩
  have hapart {m n : Nat} {a b : Edit ι} (hmn : m < n) (hm : log[m]? = some a)
      (hn : log[n]? = some b) (hab : a.change.path = b.change.path)
      (ha : a.minted = some g.version) : b.minted ≠ some g.version := by
    obtain ⟨hml, rfl⟩ := List.getElem?_eq_some_iff.1 hm
    obtain ⟨hnl, rfl⟩ := List.getElem?_eq_some_iff.1 hn
    exact List.pairwise_iff_getElem.1 hl.distinct m n hml hnl hmn hab _ ha
  rcases Nat.lt_trichotomy k k' with hlt | heq | hlt
  · exact (hapart hlt hk hk' (hp.trans hp'.symm) hv hv').elim
  · exact heq.symm
  · exact (hapart hlt hk' hk (hp'.trans hp.symm) hv' hv).elim

/-- In every run of any number of replicas the heads of an entry are there, concurrent, in strict
canonical order and at most one for each replica, their counters are positive, and the clock of
each was minted by exactly one local change. -/
theorem EditedRun.entries [Fintype ι] (h : EditedRun ids s log) (hids : Function.Injective ids)
    (hfit : s.CountersFit) (he : (s.engine i).index.get p = some e) :
    e.heads ≠ [] ∧
      e.heads.Pairwise (fun a b => a.version.compare b.version = .concurrent ∧
        a.version ≠ b.version) ∧
      e.heads.Pairwise (fun a b => compare a.sortKey b.sortKey = .lt) ∧
      (∀ g ∈ e.heads, g.version.Positive) ∧ e.heads.length ≤ Fintype.card ι ∧
      ∀ g ∈ e.heads, ∃! k : Nat, ∃ x : Edit ι, log[k]? = some x ∧ x.change.path = p ∧
        x.minted = some g.version := by
  obtain ⟨K, hinv, hl⟩ := h.ledger hids
  have hp := hinv.shows i p
  rw [he] at hp
  have hcanon := hp.1.canonical hp.2
  have hcounters (g : Head) (hg : g ∈ e.heads) : ∀ x ∈ g.version.iter, x.2 < 2 ^ 64 := by
    intro x hx
    obtain ⟨j, c, hc, _, rfl⟩ := hinv.heads_minted he hg
    rw [← VectorClock.get_eq_of_mem _ hx]
    exact hfit j c hc x.1
  have hsorted : e.heads.Pairwise fun a b => compare a.sortKey b.sortKey = .lt := by
    have hboth := hcanon.concurrent.and hcanon.sorted
    apply hboth.imp_of_mem
    intro a b ha hb hab
    obtain ⟨hconc, hle⟩ := hab
    rw [VectorClock.concurrent_iff] at hconc
    have hne := Head.sortKey_ne (hcounters a ha) (hcounters b hb) hconc.1 hconc.2
    unfold Entry.KeyLe at hle
    cases hcmp : compare a.sortKey b.sortKey with
    | lt => rfl
    | eq => exact (hne (Std.LawfulEqOrd.compare_eq_iff_eq.1 hcmp)).elim
    | gt =>
      rw [hcmp] at hle
      cases hle
  refine ⟨hcanon.nonempty, ?_, hsorted, ?_, hl.heads_le hinv he, ?_⟩
  · apply hcanon.concurrent.imp
    intro a b hab
    refine ⟨hab, fun hv => ?_⟩
    rw [VectorClock.concurrent_iff, hv] at hab
    exact hab.1 le_rfl
  · exact fun g hg => hinv.positive p g (hinv.heads_minted he hg)
  · exact fun g hg => hl.exists_unique (hinv.heads_minted he hg)

end Net

/-- The path that both sides created, with both versions. -/
theorem twinRun_entries :
    ∃ (log : List (Net.Edit Side)) (e : Entry), (twinRun.engine .a).index.get twinPath = some e ∧ e.heads ≠ [] ∧
      e.heads.Pairwise (fun a b => a.version.compare b.version = .concurrent ∧
        a.version ≠ b.version) ∧
      e.heads.Pairwise (fun a b => compare a.sortKey b.sortKey = .lt) ∧
      (∀ g ∈ e.heads, g.version.Positive) ∧ e.heads.length ≤ Fintype.card Side ∧
      ∀ g ∈ e.heads, ∃! k : Nat, ∃ x : Net.Edit Side, log[k]? = some x ∧ x.change.path = twinPath ∧
        x.minted = some g.version := by
  have hone := (Net.EditedRun.init : Net.EditedRun twinIds _ _).step Side.a
    (.local ⟨twinPath, .modified (twinSig 1)⟩) trivial
  have htwo := hone.step Side.b (.local ⟨twinPath, .modified (twinSig 2)⟩) trivial
  have hthree := htwo.step Side.a (.remote (twinChange .b)) ⟨.b, by decide, by decide⟩
  have hfour := hthree.step Side.b (.remote (twinChange .a)) ⟨.a, by decide, by decide⟩
  have hsome : ((twinRun.engine .a).index.get twinPath).isSome = true := by decide
  obtain ⟨e, he⟩ := Option.isSome_iff_exists.1 hsome
  exact ⟨_, e, he, hfour.entries (by decide) twinRun_fits he⟩

end Tomo
