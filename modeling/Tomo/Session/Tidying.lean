import Tomo.Session.Verifying

namespace Tomo
set_option autoImplicit true

/-- What can happen to the assemblies and their chunk files. A chunk file whose writing fails is as
it was, or it has something else in it. -/
inductive ChunkOp where
  | start (p : RelPath) (a : Assembly)
  | ask (p : RelPath) (requested : List ContentHash)
  | keep (p : RelPath) (hash : ContentHash) (bytes : Bytes)
  | fail (p : RelPath) (hash : ContentHash) (left : Option Bytes)
  | finish (p : RelPath)
  | drop (p : RelPath)
  | dropAll
  | other (u : Session)

namespace Session
open Eff
variable {s s' : Session} {p q : RelPath} {a b : Assembly} {h : ContentHash}

/-- The assembly of one path, with something about it changed. -/
def revise (s : Session) (p : RelPath) (f : Assembly → Assembly) : Session :=
  match s.assemblies[p]? with
  | some a => { s with assemblies := s.assemblies.insert p (f a) }
  | none => s

def perform (s : Session) : ChunkOp → Session
  | .start p a => { s with assemblies := s.assemblies.insert p a }
  | .ask p requested => s.revise p fun a => { a with requested }
  | .keep p hash bytes =>
    { s with chunkFiles := s.chunkFiles.insert hash bytes }.revise p
      fun a => { a with received := hash :: a.received }
  | .fail p hash left =>
    (match left with
      | some bytes => { s with chunkFiles := s.chunkFiles.insert hash bytes }
      | none => s).abandonAssembly p
  | .finish p | .drop p => s.abandonAssembly p
  | .dropAll => s.abandonAllAssemblies
  | .other u => { u with assemblies := s.assemblies, chunkFiles := s.chunkFiles }

def performAll (s : Session) (ops : List ChunkOp) : Session := ops.foldl perform s

/-- A chunk that the manifest of an assembly has. -/
def Wanted (s : Session) (h : ContentHash) : Prop :=
  ∃ (p : RelPath) (a : Assembly), s.assemblies[p]? = some a ∧ h ∈ a.manifest

/-- The same, for an assembly of another path. -/
def WantedBeside (s : Session) (p : RelPath) (h : ContentHash) : Prop :=
  ∃ (q : RelPath) (a : Assembly), q ≠ p ∧ s.assemblies[q]? = some a ∧ h ∈ a.manifest

section
variable [Platform]

/-- What the session does only under a condition that it checks. -/
def Enabled (s : Session) : ChunkOp → Prop
  | .start p a => s.assemblies[p]? = none ∧ a.received = []
  | .keep p hash bytes => Platform.blake3 bytes = hash ∧
      ∃ a, s.assemblies[p]? = some a ∧ hash ∈ a.manifest
  | .fail p hash _ => ∃ a, s.assemblies[p]? = some a ∧ hash ∈ a.manifest ∧ hash ∉ a.received
  | .finish p => ∃ a, s.assemblies[p]? = some a ∧ isComplete a.manifest a.received
  | .ask _ _ | .drop _ | .dropAll | .other _ => True

def AllEnabled (s : Session) (ops : List ChunkOp) : Prop :=
  ∀ before op, before ++ [op] <+: ops → (s.performAll before).Enabled op

/-- What the assemblies hold is on file with the right bytes, and nothing else is on file. -/
structure Neat (s : Session) : Prop where
  held : ∀ (p : RelPath) (a : Assembly), s.assemblies[p]? = some a → ∀ h ∈ a.received,
    ∃ bytes, s.chunkFiles[h]? = some bytes ∧ Platform.blake3 bytes = h
  named : ∀ (h : ContentHash) (bytes : Bytes), s.chunkFiles[h]? = some bytes → s.Wanted h
  empty : s.assemblies = ∅ → s.chunkFiles = ∅

/-- Every chunk file that the manifest of the path's assembly names, and that is not of those it
holds, is named by another one. -/
def CoveredBeside (s : Session) (p : RelPath) : Prop :=
  ∀ a, s.assemblies[p]? = some a → ∀ h ∈ a.manifest, h ∉ a.received →
    s.chunkFiles[h]? ≠ none → s.WantedBeside p h

/-- The assembly that is given up leaves no chunk file, and a write that fails spoils none. -/
def Tidy (s : Session) : ChunkOp → Prop
  | .drop p => s.CoveredBeside p
  | .fail p hash left => s.CoveredBeside p ∧ ∀ bytes, left = some bytes → s.WantedBeside p hash ∧
      ∀ (q : RelPath) (b : Assembly), q ≠ p → s.assemblies[q]? = some b → hash ∈ b.received →
        Platform.blake3 bytes = hash
  | .dropAll => ∀ h, s.chunkFiles[h]? ≠ none →
      ∃ (p : RelPath) (a : Assembly), s.assemblies[p]? = some a ∧ h ∈ a.received
  | .start _ _ | .ask _ _ | .keep _ _ _ | .finish _ | .other _ => True

theorem Neat.of_named (hheld : ∀ (p : RelPath) (a : Assembly), s.assemblies[p]? = some a →
      ∀ h ∈ a.received, ∃ bytes, s.chunkFiles[h]? = some bytes ∧ Platform.blake3 bytes = h)
    (hnamed : ∀ (h : ContentHash) (bytes : Bytes), s.chunkFiles[h]? = some bytes → s.Wanted h) :
    s.Neat := by
  refine ⟨hheld, hnamed, fun hempty => ?_⟩
  apply Std.ExtTreeMap.ext_getElem?
  intro h
  rw [Std.ExtTreeMap.getElem?_empty]
  cases hfile : s.chunkFiles[h]? with
  | none => rfl
  | some bytes =>
    obtain ⟨p, a, ha, _⟩ := hnamed h bytes hfile
    rw [hempty, Std.ExtTreeMap.getElem?_empty] at ha
    cases ha

end

/-- An assembly holds what its manifest has. -/
def Sound (s : Session) : Prop :=
  ∀ (p : RelPath) (a : Assembly), s.assemblies[p]? = some a → ∀ h ∈ a.received, h ∈ a.manifest

theorem any_named (s : Session) (h : ContentHash) :
    (s.assemblies.toList.any fun e => decide (h ∈ e.2.manifest)) = true ↔ s.Wanted h := by
  rw [List.any_eq_true]
  constructor
  · rintro ⟨e, he, hh⟩
    exact ⟨e.1, e.2, Std.ExtTreeMap.mem_toList_iff_getElem?_eq_some.1 he, of_decide_eq_true hh⟩
  · rintro ⟨p, a, ha, hh⟩
    exact ⟨(p, a), Std.ExtTreeMap.mem_toList_iff_getElem?_eq_some.2 ha, decide_eq_true hh⟩

/-- The chunk files are forgotten that the assembly holds and that none names any more. -/
theorem cleaned_gone (hr : h ∈ a.received) (hn : ¬ s.Wanted h) :
    (s.cleanAssemblyChunks a).chunkFiles[h]? = none := by
  have hany := Bool.eq_false_iff.2 fun hany => hn ((s.any_named h).1 hany)
  rw [cleanAssemblyChunks]
  dsimp only
  rw [eraseAll_get, if_pos]
  exact List.mem_filter.2 ⟨hr, by rw [hany, Bool.not_false]⟩

theorem cleaned_kept (hk : h ∉ a.received ∨ s.Wanted h) :
    (s.cleanAssemblyChunks a).chunkFiles[h]? = s.chunkFiles[h]? := by
  rw [cleanAssemblyChunks]
  dsimp only
  rw [eraseAll_get, if_neg]
  intro hmem
  obtain ⟨hr, hnot⟩ := List.mem_filter.1 hmem
  rcases hk with hk | hk
  · exact hk hr
  · rw [(s.any_named h).2 hk] at hnot
    cases hnot

theorem named_erased (s : Session) (p : RelPath) (h : ContentHash) :
    Wanted { s with assemblies := s.assemblies.erase p } h ↔ s.WantedBeside p h := by
  constructor
  · rintro ⟨q, a, ha, hh⟩
    have ha : (s.assemblies.erase p)[q]? = some a := ha
    rw [erased_get] at ha
    split at ha
    · cases ha
    next hne => exact ⟨q, a, fun heq => hne heq.symm, ha, hh⟩
  · rintro ⟨q, a, hne, ha, hh⟩
    refine ⟨q, a, ?_, hh⟩
    show (s.assemblies.erase p)[q]? = some a
    rw [erased_get, if_neg fun heq => hne heq.symm, ha]

theorem named_abandoned (s : Session) (p : RelPath) (h : ContentHash) :
    (s.abandonAssembly p).Wanted h ↔ s.WantedBeside p h := by
  rw [← named_erased, Wanted, Wanted]
  simp only [abandonAssembly_get, erased_get]

theorem abandoned_gone (ha : s.assemblies[p]? = some a) (hr : h ∈ a.received)
    (hn : ¬ s.WantedBeside p h) : (s.abandonAssembly p).chunkFiles[h]? = none := by
  rw [abandonAssembly, ha]
  exact cleaned_gone hr fun hnamed => hn ((s.named_erased p h).1 hnamed)

theorem abandoned_kept
    (hk : (∀ a, s.assemblies[p]? = some a → h ∉ a.received) ∨ s.WantedBeside p h) :
    (s.abandonAssembly p).chunkFiles[h]? = s.chunkFiles[h]? := by
  rw [abandonAssembly]
  split
  next a ha =>
    apply cleaned_kept
    exact hk.imp (fun hk => hk a ha) (s.named_erased p h).2
  next => rfl

/-- Giving up an assembly writes nothing. -/
theorem abandoned_file (hfile : (s.abandonAssembly p).chunkFiles[h]? = some bytes) :
    s.chunkFiles[h]? = some bytes := by
  rw [abandonAssembly] at hfile
  split at hfile
  · rw [cleanAssemblyChunks] at hfile
    dsimp only at hfile
    rw [eraseAll_get] at hfile
    split at hfile
    · cases hfile
    · exact hfile
  · exact hfile

theorem cleanedAll_assemblies (l : List (RelPath × Assembly)) (s : Session) :
    (l.foldl (fun s e => s.cleanAssemblyChunks e.2) s).assemblies = s.assemblies := by
  induction l generalizing s with
  | nil => rfl
  | cons e l ih => exact ih (s.cleanAssemblyChunks e.2)

theorem cleanedAll_get (l : List (RelPath × Assembly)) (hs : s.assemblies = ∅)
    (h : ContentHash) : (l.foldl (fun s e => s.cleanAssemblyChunks e.2) s).chunkFiles[h]? =
      if ∃ e ∈ l, h ∈ e.2.received then none else s.chunkFiles[h]? := by
  induction l generalizing s with
  | nil => rfl
  | cons e l ih =>
    have hnone : ¬ s.Wanted h := by
      rintro ⟨p, a, ha, _⟩
      rw [hs, Std.ExtTreeMap.getElem?_empty] at ha
      cases ha
    have hget := ih (s := s.cleanAssemblyChunks e.2) hs
    rw [List.foldl_cons]
    refine hget.trans ?_
    by_cases hl : ∃ e ∈ l, h ∈ e.2.received
    · rw [if_pos hl, if_pos]
      obtain ⟨e', he', hr⟩ := hl
      exact ⟨e', List.mem_cons_of_mem e he', hr⟩
    · rw [if_neg hl]
      by_cases hr : h ∈ e.2.received
      · rw [cleaned_gone hr hnone, if_pos ⟨e, List.mem_cons_self, hr⟩]
      · rw [cleaned_kept (.inl hr), if_neg]
        rintro ⟨e', he', hr'⟩
        rcases List.mem_cons.1 he' with rfl | he'
        · exact hr hr'
        · exact hl ⟨e', he', hr'⟩

theorem abandonAll_empty (s : Session) : s.abandonAllAssemblies.assemblies = ∅ :=
  cleanedAll_assemblies s.assemblies.toList { s with assemblies := ∅ }

theorem abandonAll_file (s : Session) (h : ContentHash) :
    s.abandonAllAssemblies.chunkFiles[h]? ≠ none ↔ s.chunkFiles[h]? ≠ none ∧
      ¬ ∃ (p : RelPath) (a : Assembly), s.assemblies[p]? = some a ∧ h ∈ a.received := by
  have hget := cleanedAll_get (s := { s with assemblies := ∅ }) s.assemblies.toList rfl h
  have hmem : (∃ e ∈ s.assemblies.toList, h ∈ e.2.received) ↔
      ∃ (p : RelPath) (a : Assembly), s.assemblies[p]? = some a ∧ h ∈ a.received := by
    constructor
    · rintro ⟨e, he, hr⟩
      exact ⟨e.1, e.2, Std.ExtTreeMap.mem_toList_iff_getElem?_eq_some.1 he, hr⟩
    · rintro ⟨p, a, ha, hr⟩
      exact ⟨(p, a), Std.ExtTreeMap.mem_toList_iff_getElem?_eq_some.2 ha, hr⟩
  rw [abandonAllAssemblies, hget, ← hmem]
  split
  next hheld => exact ⟨fun hne => absurd rfl hne, fun hne => absurd hheld hne.2⟩
  next hheld => exact ⟨fun hne => ⟨hne, hheld⟩, And.left⟩

theorem Sound.erased (hs : s.Sound) (hget : ∀ q, s'.assemblies[q]? =
    if p = q then none else s.assemblies[q]?) : s'.Sound := by
  intro q b hb
  rw [hget] at hb
  split at hb
  · cases hb
  · exact hs q b hb

section
variable [Platform]

/-- What the assemblies of the other paths hold is on file with the right bytes. -/
def HeldBeside (s : Session) (p : RelPath) : Prop :=
  ∀ (q : RelPath) (b : Assembly), q ≠ p → s.assemblies[q]? = some b → ∀ h ∈ b.received,
    ∃ bytes, s.chunkFiles[h]? = some bytes ∧ Platform.blake3 bytes = h

omit [Platform] in
/-- A file that is left when an assembly is given up is named beside it. -/
theorem abandoned_named (hcov : s.CoveredBeside p) (hname : s.Wanted h)
    (hfile : (s.abandonAssembly p).chunkFiles[h]? ≠ none) : s.WantedBeside p h := by
  by_contra hbeside
  obtain ⟨q, b, hb, hh⟩ := hname
  by_cases hqp : q = p
  · subst hqp
    by_cases hr : h ∈ b.received
    · exact hfile (abandoned_gone hb hr hbeside)
    · have hkept : (s.abandonAssembly q).chunkFiles[h]? = s.chunkFiles[h]? := by
        apply abandoned_kept
        left
        intro a ha
        rw [hb] at ha
        cases ha
        exact hr
      rw [hkept] at hfile
      exact hbeside (hcov b hb h hh hr hfile)
  · exact hbeside ⟨q, b, hqp, hb, hh⟩

/-- What giving up one assembly comes to. -/
theorem neat_abandoned (hs : s.Sound)
    (hnamed : ∀ (h : ContentHash) (bytes : Bytes), s.chunkFiles[h]? = some bytes → s.Wanted h) :
    (s.abandonAssembly p).Neat ↔ s.CoveredBeside p ∧ s.HeldBeside p := by
  have hbeside (q : RelPath) (b : Assembly) (hqp : q ≠ p) (hb : s.assemblies[q]? = some b)
      (h : ContentHash) (hh : h ∈ b.received) :
      (s.abandonAssembly p).chunkFiles[h]? = s.chunkFiles[h]? :=
    abandoned_kept (.inr ⟨q, b, hqp, hb, hs q b hb h hh⟩)
  constructor
  · intro hneat
    constructor
    · intro a ha h hh hr hfile
      obtain ⟨bytes, hfile⟩ := Option.ne_none_iff_exists'.1 hfile
      apply (s.named_abandoned p h).1
      apply hneat.named h bytes
      rw [abandoned_kept, hfile]
      left
      intro b hb
      rw [ha] at hb
      cases hb
      exact hr
    · intro q b hqp hb h hh
      rw [← hbeside q b hqp hb h hh]
      apply hneat.held q b _ h hh
      rw [abandonAssembly_get, if_neg fun heq => hqp heq.symm, hb]
  · rintro ⟨hcov, hheld⟩
    apply Neat.of_named
    · intro q b hb h hh
      rw [abandonAssembly_get] at hb
      split at hb
      · cases hb
      next hne =>
        have hqp : q ≠ p := fun heq => hne heq.symm
        rw [hbeside q b hqp hb h hh]
        exact hheld q b hqp hb h hh
    · intro h bytes hfile
      rw [named_abandoned]
      have hleft : (s.abandonAssembly p).chunkFiles[h]? ≠ none := by
        rw [hfile]
        exact Option.some_ne_none _
      exact abandoned_named hcov (hnamed h bytes (abandoned_file hfile)) hleft

theorem neat_abandonAll :
    s.abandonAllAssemblies.Neat ↔ ∀ h, s.chunkFiles[h]? ≠ none →
      ∃ (p : RelPath) (a : Assembly), s.assemblies[p]? = some a ∧ h ∈ a.received := by
  constructor
  · intro hneat h hfile
    by_contra hnone
    have hleft := (s.abandonAll_file h).2 ⟨hfile, hnone⟩
    rw [hneat.empty s.abandonAll_empty, Std.ExtTreeMap.getElem?_empty] at hleft
    exact hleft rfl
  · intro hall
    apply Neat.of_named
    · intro p a ha
      rw [abandonAll_empty, Std.ExtTreeMap.getElem?_empty] at ha
      cases ha
    · intro h bytes hfile
      obtain ⟨hleft, hnone⟩ := (s.abandonAll_file h).1 (by rw [hfile]; exact Option.some_ne_none _)
      exact absurd (hall h hleft) hnone

theorem Neat.heldBeside (hn : s.Neat) (p : RelPath) : s.HeldBeside p :=
  fun q b _ hb => hn.held q b hb

/-- A chunk file is written that the path's assembly lacks, and the assembly is given up. -/
theorem neat_spoiled {hash : ContentHash} (hs : s.Sound) (hn : s.Neat)
    (ha : s.assemblies[p]? = some a) (hin : hash ∈ a.manifest) (hlacks : hash ∉ a.received)
    (bytes : Bytes) :
    ({ s with chunkFiles := s.chunkFiles.insert hash bytes }.abandonAssembly p).Neat ↔
      s.CoveredBeside p ∧ s.WantedBeside p hash ∧
        ∀ (q : RelPath) (b : Assembly), q ≠ p → s.assemblies[q]? = some b → hash ∈ b.received →
          Platform.blake3 bytes = hash := by
  have hget (h : ContentHash) : (s.chunkFiles.insert hash bytes)[h]? =
      if hash = h then some bytes else s.chunkFiles[h]? := by
    rw [Std.ExtTreeMap.getElem?_insert]
    simp only [Std.compare_eq_iff_eq]
  have hnamed (h : ContentHash) (old : Bytes)
      (hfile : (s.chunkFiles.insert hash bytes)[h]? = some old) : s.Wanted h := by
    rw [hget] at hfile
    split at hfile
    next heq => exact ⟨p, a, ha, heq ▸ hin⟩
    next => exact hn.named h old hfile
  have hsound : Sound { s with chunkFiles := s.chunkFiles.insert hash bytes } := hs
  rw [neat_abandoned hsound hnamed]
  constructor
  · rintro ⟨hcov, hheld⟩
    refine ⟨fun b hb h hh hr hfile => ?_, ?_, fun q b hqp hb hr => ?_⟩
    · refine hcov b hb h hh hr ?_
      show (s.chunkFiles.insert hash bytes)[h]? ≠ none
      rw [hget]
      split
      · exact Option.some_ne_none _
      · exact hfile
    · refine hcov a ha hash hin hlacks ?_
      show (s.chunkFiles.insert hash bytes)[hash]? ≠ none
      rw [hget, if_pos rfl]
      exact Option.some_ne_none _
    · obtain ⟨bytes', hfile, hhash⟩ := hheld q b hqp hb hash hr
      have hfile : (s.chunkFiles.insert hash bytes)[hash]? = some bytes' := hfile
      rw [hget, if_pos rfl] at hfile
      cases hfile
      exact hhash
  · rintro ⟨hcov, hbeside, hright⟩
    refine ⟨fun b hb h hh hr hfile => ?_, fun q b hqp hb h hh => ?_⟩
    · have hfile : (s.chunkFiles.insert hash bytes)[h]? ≠ none := hfile
      rw [hget] at hfile
      split at hfile
      next heq => exact heq ▸ hbeside
      next => exact hcov b hb h hh hr hfile
    · show ∃ bytes', (s.chunkFiles.insert hash bytes)[h]? = some bytes' ∧ _
      rw [hget]
      split
      next heq =>
        subst heq
        exact ⟨bytes, rfl, hright q b hqp hb hh⟩
      next => exact hn.held q b hb h hh

omit [Platform] in
theorem revise_some (ha : s.assemblies[p]? = some a) (f : Assembly → Assembly) :
    s.revise p f = { s with assemblies := s.assemblies.insert p (f a) } := by
  rw [revise, ha]

omit [Platform] in
theorem perform_keep (ha : s.assemblies[p]? = some a) (hash : ContentHash) (bytes : Bytes) :
    s.perform (.keep p hash bytes) = { s with
      chunkFiles := s.chunkFiles.insert hash bytes
      assemblies := s.assemblies.insert p { a with received := hash :: a.received } } := by
  have ha' : { s with chunkFiles := s.chunkFiles.insert hash bytes }.assemblies[p]? = some a := ha
  rw [perform, revise_some ha']

omit [Platform] in
/-- An assembly in the place of none, or of one with the same manifest. -/
theorem named_inserted (hsame : ∀ a, s.assemblies[p]? = some a → b.manifest = a.manifest)
    (hname : s.Wanted h) : Wanted { s with assemblies := s.assemblies.insert p b } h := by
  obtain ⟨q, a, ha, hh⟩ := hname
  by_cases hqp : p = q
  · subst hqp
    refine ⟨p, b, ?_, hsame a ha ▸ hh⟩
    show (s.assemblies.insert p b)[p]? = some b
    rw [inserted_get, if_pos rfl]
  · refine ⟨q, a, ?_, hh⟩
    show (s.assemblies.insert p b)[q]? = some a
    rw [inserted_get, if_neg hqp, ha]

theorem Neat.insert (hn : s.Neat) (hsame : ∀ a, s.assemblies[p]? = some a → b.manifest = a.manifest)
    (hheld : ∀ h ∈ b.received, ∃ bytes, s.chunkFiles[h]? = some bytes ∧ Platform.blake3 bytes = h) :
    Neat { s with assemblies := s.assemblies.insert p b } := by
  apply Neat.of_named
  · intro q c hc h hh
    have hc : (s.assemblies.insert p b)[q]? = some c := hc
    rw [inserted_get] at hc
    split at hc
    · cases hc
      exact hheld h hh
    · exact hn.held q c hc h hh
  · intro h bytes hfile
    exact named_inserted hsame (hn.named h bytes hfile)

/-- A verified chunk is written for an assembly that names it. -/
theorem Neat.write {hash : ContentHash} (hn : s.Neat) (hname : s.Wanted hash)
    (hhash : Platform.blake3 bytes = hash) :
    Neat { s with chunkFiles := s.chunkFiles.insert hash bytes } := by
  have hget (h : ContentHash) : (s.chunkFiles.insert hash bytes)[h]? =
      if hash = h then some bytes else s.chunkFiles[h]? := by
    rw [Std.ExtTreeMap.getElem?_insert]
    simp only [Std.compare_eq_iff_eq]
  apply Neat.of_named
  · intro q b hb h hh
    show ∃ bytes', (s.chunkFiles.insert hash bytes)[h]? = some bytes' ∧ _
    rw [hget]
    split
    next heq => exact ⟨bytes, rfl, hhash.trans heq⟩
    next => exact hn.held q b hb h hh
  · intro h old hfile
    have hfile : (s.chunkFiles.insert hash bytes)[h]? = some old := hfile
    rw [hget] at hfile
    split at hfile
    next heq => exact heq ▸ hname
    next => exact hn.named h old hfile

theorem Enabled.sound (hs : s.Sound) (he : s.Enabled op) : (s.perform op).Sound := by
  have hinsert (u : Session) (hu : u.Sound) (p : RelPath) (b : Assembly)
      (hb : ∀ h ∈ b.received, h ∈ b.manifest) :
      Sound { u with assemblies := u.assemblies.insert p b } := by
    intro q c hc
    have hc : (u.assemblies.insert p b)[q]? = some c := hc
    rw [inserted_get] at hc
    split at hc
    · cases hc
      exact hb
    · exact hu q c hc
  cases op with
  | start p a =>
    apply hinsert s hs
    rw [he.2]
    exact nofun
  | ask p requested =>
    rw [perform, revise]
    split
    next a ha => exact hinsert s hs p _ (hs p a ha)
    next => exact hs
  | keep p hash bytes =>
    obtain ⟨_, a, ha, hin⟩ := he
    have hwritten : Sound { s with chunkFiles := s.chunkFiles.insert hash bytes } := hs
    rw [perform_keep ha]
    apply hinsert _ hwritten
    exact List.forall_mem_cons.2 ⟨hin, hs p a ha⟩
  | fail p hash left =>
    cases left with
    | none => exact hs.erased (s.abandonAssembly_get p)
    | some bytes =>
      have hwritten : Sound { s with chunkFiles := s.chunkFiles.insert hash bytes } := hs
      exact hwritten.erased (abandonAssembly_get _ p)
  | finish p | drop p => exact hs.erased (s.abandonAssembly_get p)
  | dropAll =>
    intro p a ha
    have ha : s.abandonAllAssemblies.assemblies[p]? = some a := ha
    rw [abandonAll_empty, Std.ExtTreeMap.getElem?_empty] at ha
    cases ha
  | other u => exact hs

/-- The step: what happens leaves no debris exactly where it is tidy. -/
theorem Enabled.neat_iff (hs : s.Sound) (hn : s.Neat) (he : s.Enabled op) :
    (s.perform op).Neat ↔ s.Tidy op := by
  cases op with
  | start p a =>
    refine iff_of_true (hn.insert (fun b hb => ?_) ?_) trivial
    · rw [he.1] at hb
      cases hb
    · rw [he.2]
      exact nofun
  | ask p requested =>
    refine iff_of_true ?_ trivial
    rw [perform, revise]
    split
    next a ha =>
      refine hn.insert (fun b hb => ?_) (hn.held p a ha)
      rw [ha] at hb
      cases hb
      rfl
    next => exact hn
  | keep p hash bytes =>
    obtain ⟨hhash, a, ha, hin⟩ := he
    refine iff_of_true ?_ trivial
    have hwritten := hn.write ⟨p, a, ha, hin⟩ hhash
    rw [perform_keep ha]
    refine hwritten.insert (fun b hb => ?_) ?_
    · rw [ha] at hb
      cases hb
      rfl
    · intro h hh
      rcases List.mem_cons.1 hh with rfl | hh
      · exact ⟨bytes, Std.ExtTreeMap.getElem?_insert_self, hhash⟩
      · exact hwritten.held p a ha h hh
  | fail p hash left =>
    obtain ⟨a, ha, hin, hlacks⟩ := he
    cases left with
    | none =>
      rw [perform, neat_abandoned hs hn.named]
      exact ⟨fun h => ⟨h.1, nofun⟩, fun h => ⟨h.1, hn.heldBeside p⟩⟩
    | some bytes =>
      refine (neat_spoiled hs hn ha hin hlacks bytes).trans ?_
      constructor
      · rintro ⟨hcov, hspoils⟩
        refine ⟨hcov, fun bytes' heq => ?_⟩
        cases heq
        exact hspoils
      · rintro ⟨hcov, hspoils⟩
        exact ⟨hcov, hspoils bytes rfl⟩
  | finish p =>
    obtain ⟨a, ha, hc⟩ := he
    refine iff_of_true ((neat_abandoned hs hn.named).2 ⟨?_, hn.heldBeside p⟩) trivial
    intro b hb h hh hr
    rw [ha] at hb
    cases hb
    exact absurd (of_decide_eq_true (List.all_eq_true.mp hc h hh)) hr
  | drop p =>
    rw [perform, neat_abandoned hs hn.named]
    exact ⟨And.left, fun h => ⟨h, hn.heldBeside p⟩⟩
  | dropAll => exact neat_abandonAll
  | other u => exact iff_of_true ⟨hn.held, hn.named, hn.empty⟩ trivial

/-- What is reached from a session by what can happen. -/
def LeadsTo (s u : Session) : Prop := ∃ ops, s.AllEnabled ops ∧ u = s.performAll ops

omit [Platform] in
theorem performAll_concat (s : Session) (ops : List ChunkOp) (op : ChunkOp) :
    s.performAll (ops ++ [op]) = (s.performAll ops).perform op := by
  rw [performAll, List.foldl_append]
  rfl

theorem AllEnabled.concat (h : s.AllEnabled ops) (hop : (s.performAll ops).Enabled op) :
    s.AllEnabled (ops ++ [op]) := by
  intro before op' hbefore
  rcases List.prefix_concat_iff.1 hbefore with heq | hbefore
  · obtain ⟨hsame, hlast⟩ := List.append_inj' heq rfl
    cases hlast
    rw [hsame]
    exact hop
  · exact h before op' hbefore

theorem LeadsTo.step (h : s.LeadsTo s') (op : ChunkOp) (hop : s'.Enabled op)
    (hu : u = s'.perform op) : s.LeadsTo u := by
  obtain ⟨ops, hops, rfl⟩ := h
  exact ⟨ops ++ [op], hops.concat hop, by rw [performAll_concat, hu]⟩

theorem LeadsTo.refl (s : Session) : s.LeadsTo s := by
  refine ⟨[], fun before op hbefore => ?_, rfl⟩
  exact absurd (List.prefix_nil.1 hbefore) (by simp)

theorem AllEnabled.sound (hs : s.Sound) (h : s.AllEnabled ops) : (s.performAll ops).Sound := by
  induction ops using List.reverseRecOn with
  | nil => exact hs
  | append_singleton ops op ih =>
    rw [performAll_concat]
    have hbefore : s.AllEnabled ops := fun before op' hb =>
      h before op' (hb.trans (List.prefix_append ops [op]))
    exact (h ops op (List.prefix_refl _)).sound (ih hbefore)

/-- A run from a state with nothing in flight leaves no debris at any time exactly where everything
that happens in it is tidy. -/
theorem run_neat_iff (hidle : s.assemblies = ∅ ∧ s.chunkFiles = ∅) (h : s.AllEnabled ops) :
    (∀ before, before <+: ops → (s.performAll before).Neat) ↔
      ∀ before op, before ++ [op] <+: ops → (s.performAll before).Tidy op := by
  have hnone (p : RelPath) (a : Assembly) : s.assemblies[p]? ≠ some a := by
    rw [hidle.1, Std.ExtTreeMap.getElem?_empty]
    exact nofun
  have hsound : s.Sound := fun p a ha => absurd ha (hnone p a)
  have hneat : s.Neat := by
    refine ⟨fun p a ha => absurd ha (hnone p a), fun h bytes hfile => ?_, fun _ => hidle.2⟩
    rw [hidle.2, Std.ExtTreeMap.getElem?_empty] at hfile
    cases hfile
  have hsoundAt (before : List ChunkOp) (op : ChunkOp) (hb : before ++ [op] <+: ops) :
      (s.performAll before).Sound := by
    apply AllEnabled.sound hsound
    exact fun before' op' hb' => h before' op' ((hb'.trans (List.prefix_append _ _)).trans hb)
  constructor
  · intro hall before op hb
    have hbefore := hall before ((List.prefix_append _ _).trans hb)
    have hafter := hall (before ++ [op]) hb
    rw [performAll_concat] at hafter
    exact ((h before op hb).neat_iff (hsoundAt before op hb) hbefore).1 hafter
  · intro hall before hb
    induction before using List.reverseRecOn with
    | nil => exact hneat
    | append_singleton before op ih =>
      rw [performAll_concat]
      have hbefore := ih ((List.prefix_append _ _).trans hb)
      exact ((h before op hb).neat_iff (hsoundAt before op hb) hbefore).2 (hall before op hb)

theorem LeadsTo.same (h : s.LeadsTo s') (ha : u.assemblies = s'.assemblies)
    (hf : u.chunkFiles = s'.chunkFiles) : s.LeadsTo u := by
  refine h.step (.other u) trivial ?_
  rw [perform, ← ha, ← hf]

theorem leadsTo_shelved (s : Session) : Shelved s.LeadsTo where
  same h ha hf := h.same ha hf
  offline {u} h := by
    rw [goOffline]
    split
    · exact h
    next t _ =>
      have hcut : s.LeadsTo
          { u with transport := none, connected := false, helloReceived := false } :=
        h.same rfl rfl
      exact (hcut.step .dropAll trivial rfl).same rfl rfl

theorem LeadsTo.superseded (h : s.LeadsTo u) (p : RelPath) :
    s.LeadsTo (u.abandonSuperseded p) := by
  rw [abandonSuperseded]
  generalize u.assemblies.keys.filter _ = l
  induction l generalizing u with
  | nil => exact h
  | cons q l ih => exact ih (h.step (.drop q) trivial rfl)

theorem requestNextBatch_leads (s : Session) (p : RelPath) (u : Session) :
    Upholds s.LeadsTo (requestNextBatch p) u := by
  apply Upholds.get
  split
  · exact .pure _ u
  next a ha =>
    apply Upholds.ite
    · exact .pure _ u
    · apply Upholds.bind
      · refine .set fun h => ?_
        refine h.step (.ask p (a.requested ++
          nextRequestBatch a.manifest a.received a.requested)) trivial ?_
        rw [perform, revise_some ha]
      · exact fun _ u' => (leadsTo_shelved s).deaf.ship _ u'

theorem completeAssembly_leads (s : Session) {u : Session} (ha : u.assemblies[p]? = some a)
    (hc : isComplete a.manifest a.received = true) (h : s.LeadsTo u) :
    s.LeadsTo ((completeAssembly p).exec u).2 := by
  have hdone : s.LeadsTo ({ u with assemblies := u.assemblies.erase p }.cleanAssemblyChunks a) := by
    refine h.step (.finish p) ⟨a, ha, hc⟩ ?_
    rw [perform, abandonAssembly, ha]
  simp only [completeAssembly, exec_get_bind, ha, exec_set_bind]
  split
  · exact hdone.same rfl rfl
  next content _ => exact ((leadsTo_shelved s).assembled a content _).after hdone

theorem advanceAssembly_leads (s : Session) (p : RelPath) {u : Session} (h : s.LeadsTo u) :
    s.LeadsTo ((advanceAssembly p).exec u).2 := by
  rw [advanceAssembly, exec_get_bind]
  split
  next a ha =>
    rw [exec_ite]
    split
    next hc => exact completeAssembly_leads s ha hc h
    next => exact (requestNextBatch_leads s p u).after h
  next => exact (requestNextBatch_leads s p u).after h

/-- A manifest frame does to the chunk files only what can happen. -/
theorem onChangeManifest_leads (c : RemoteChange) (total : Nat) (manifest : List ContentHash)
    (s : Session) : s.LeadsTo ((onChangeManifest c total manifest).exec s).2 := by
  rw [onChangeManifest, exec_get_bind, exec_ite]
  split
  · have hflush := ((leadsTo_shelved s).deaf.flushQueuedSend c.path s).after (.refl s)
    rcases hx : (flushQueuedSend c.path).exec s with ⟨r, u⟩
    rw [hx] at hflush
    cases r with
    | error e =>
      rw [exec_bind_error hx]
      exact hflush
    | ok =>
      rw [exec_bind_ok hx]
      split
      · exact hflush
      next sig hkind =>
        rw [exec_modify_bind, exec_modify_bind]
        apply advanceAssembly_leads
        refine (hflush.superseded c.path).step
          (.start c.path ⟨c, sig, manifest, [], [], total⟩) ⟨?_, rfl⟩ rfl
        rw [abandonSuperseded_get, if_pos rfl]
  · exact .refl s

/-- So does a chunk frame. -/
theorem takeChunk_leads {order : List (RelPath × Assembly)} (ho : order.Perm s.assemblies.toList)
    (hash : ContentHash) (bytes : Bytes) : s.LeadsTo ((takeChunk order hash bytes).exec s).2 := by
  rw [takeChunk, exec_get_bind]
  cases htaker : chunkTaker order hash with
  | none => exact .refl s
  | some e =>
    obtain ⟨p, a⟩ := e
    have ha : s.assemblies[p]? = some a := Std.ExtTreeMap.mem_toList_iff_getElem?_eq_some.1
      (ho.mem_iff.1 (List.mem_of_find?_eq_some htaker))
    have hfind := List.find?_some htaker
    rw [Bool.and_eq_true, decide_eq_true_eq, decide_eq_true_eq] at hfind
    by_cases hhash : Platform.blake3 bytes = hash
    · simp only [hhash, ne_eq, not_true_eq_false, ↓reduceIte]
      cases hfull : s.diskFull with
      | true =>
        simp only [↓reduceIte, exec_set_bind]
        have hfailed := (LeadsTo.refl s).step (.fail p hash (some []))
          ⟨a, ha, hfind.2, hfind.1⟩ rfl
        exact hfailed.same rfl rfl
      | false =>
        simp only [Bool.false_eq_true, ↓reduceIte, exec_set_bind]
        apply advanceAssembly_leads
        have hkept := (LeadsTo.refl s).step (.keep p hash bytes) ⟨hhash, a, ha, hfind.2⟩
          (perform_keep ha hash bytes).symm
        exact hkept.same rfl rfl
    · simp only [ne_eq, hhash, not_false_eq_true, ↓reduceIte, exec_set_bind]
      apply (requestNextBatch_leads s p _).after
      refine (LeadsTo.refl s).step
        (.ask p (a.requested.filter fun h => h ≠ hash)) trivial ?_
      rw [perform, revise_some ha]

/-- And an inline frame. -/
theorem onChange_leads (c : RemoteChange) (bytes : Option Bytes) (s : Session) :
    s.LeadsTo ((onChange c bytes).exec s).2 :=
  ((leadsTo_shelved s).onChange c (fun _ h => h.superseded c.path) bytes s).after (.refl s)

/-- A run leaves no debris at any time exactly where everything in it is tidy; and what the
handlers do, and the loss of the link, is such a run. -/
theorem no_debris_iff (hidle : s.assemblies = ∅ ∧ s.chunkFiles = ∅) (h : s.AllEnabled ops) :
    ((∀ before, before <+: ops → (s.performAll before).Neat) ↔
      ∀ before op, before ++ [op] <+: ops → (s.performAll before).Tidy op) ∧
    ∀ u : Session,
      (∀ c total manifest, u.LeadsTo ((onChangeManifest c total manifest).exec u).2) ∧
      (∀ order hash bytes, order.Perm u.assemblies.toList →
        u.LeadsTo ((takeChunk order hash bytes).exec u).2) ∧
      (∀ c bytes, u.LeadsTo ((onChange c bytes).exec u).2) ∧ u.LeadsTo u.goOffline := by
  refine ⟨run_neat_iff hidle h, fun u => ⟨?_, ?_, ?_, ?_⟩⟩
  · exact fun c total manifest => onChangeManifest_leads c total manifest u
  · exact fun _ hash bytes ho => takeChunk_leads ho hash bytes
  · exact fun c bytes => onChange_leads c bytes u
  · exact (leadsTo_shelved u).offline (.refl u)

end

end Session

namespace Receipt

/-- An assembly is started and gets its chunk. -/
def received : List ChunkOp :=
  [.start secondPath ⟨modifiedAt secondPath, oneSig, [sharedChunk], [], [sharedChunk], 1⟩,
    .keep secondPath sharedChunk [0x31]]

theorem received_neat :
    letI := tabulated shortHashes
    (idle.session.performAll received).Neat := by
  let platform := tabulated shortHashes
  have henabled : idle.session.AllEnabled received := by
    rintro before op ⟨rest, heq⟩
    cases before with
    | nil =>
      cases heq
      exact ⟨rfl, rfl⟩
    | cons x before =>
      cases before with
      | nil =>
        cases heq
        exact ⟨by decide +kernel, _, rfl, List.mem_cons_self⟩
      | cons y before => cases before <;> cases heq
  apply (Session.no_debris_iff ⟨rfl, rfl⟩ henabled).1.2
  · rintro before op ⟨rest, heq⟩
    cases before with
    | nil =>
      cases heq
      trivial
    | cons x before =>
      cases before with
      | nil =>
        cases heq
        trivial
      | cons y before => cases before <;> cases heq
  · exact List.prefix_refl _

/-- The one of two assemblies that needs no other chunk takes the shared one. -/
def halfway : Receipt :=
  letI := tabulated shortHashes
  twice.chunk twice.session.assemblies.toList.reverse sharedChunk [0x31]

/-- The other one is given up before it gets the chunk. -/
def littered : Receipt := { halfway with session := halfway.session.goOffline }

/-- A chunk file is left, and no assembly. -/
theorem littered_debris :
    letI := tabulated shortHashes
    Relation.ReflTransGen Step idle littered ∧ littered.session.assemblies.isEmpty ∧
      littered.session.chunkFiles[sharedChunk]? = some [0x31] ∧ ¬ littered.session.Neat := by
  let platform := tabulated shortHashes
  have h1 : Step idle announced := .manifest ..
  have h2 : Step announced twice := .manifest ..
  have h3 : Step twice halfway :=
    .chunk twice sharedChunk [0x31] _ (List.reverse_perm _)
  have h4 : Step halfway littered := .offline halfway
  obtain ⟨hempty, hfile⟩ : littered.session.assemblies.isEmpty ∧
      littered.session.chunkFiles[sharedChunk]? = some [0x31] := by decide +kernel
  refine ⟨(((Relation.ReflTransGen.single h1).tail h2).tail h3).tail h4, hempty, hfile, ?_⟩
  intro hneat
  obtain ⟨p, a, ha, _⟩ := hneat.named sharedChunk [0x31] hfile
  rw [Std.ExtTreeMap.isEmpty_iff.1 hempty, Std.ExtTreeMap.getElem?_empty] at ha
  cases ha

end Receipt

end Tomo
