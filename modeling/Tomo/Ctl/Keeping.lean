import Tomo.Ctl.Commands
import Tomo.Lib.Contents
import Tomo.Lib.Growth
import Tomo.Session.Plain

namespace Tomo
set_option autoImplicit true

section
variable {N : Type} [Ord N] [Std.TransOrd N] [Std.LawfulEqOrd N]

/-- Different names that stand somewhere are no more than there are objects. -/
theorem FileTree.length_names_le {t : FileTree N} (names : List N) (hn : names.Nodup)
    (h : ∀ c ∈ names, ∃ d, t.get (d ++ [c]) ≠ none) : names.length ≤ t.nodes.size := by
  obtain ⟨dir, hdir⟩ : ∃ dir : N → List N, ∀ c ∈ names, t.get (dir c ++ [c]) ≠ none := by
    classical
    refine ⟨fun c => if hc : ∃ d, t.get (d ++ [c]) ≠ none then hc.choose else [], ?_⟩
    intro c hc
    dsimp only
    rw [dif_pos (h c hc)]
    exact (h c hc).choose_spec
  have hinj : Function.Injective fun c => dir c ++ [c] := by
    intro c c' hcc
    have hlast := congrArg List.getLast? hcc
    simpa using hlast
  have hsub : names.map (fun c => dir c ++ [c]) ⊆ t.nodes.keys := by
    intro p hp
    obtain ⟨c, hc, rfl⟩ := List.mem_map.1 hp
    rw [Std.ExtTreeMap.mem_keys, Std.ExtTreeMap.mem_iff_isSome_getElem?, Option.isSome_iff_ne_none]
    exact hdir c hc
  have hle := List.Nodup.length_le_of_subset (hn.map hinj) hsub
  rwa [List.length_map, Std.ExtTreeMap.length_keys] at hle

end

/-- What `theirs` puts behind a name. -/
def theirsSuffix : Nat → List Char
  | 0 => ".theirs".toList
  | n + 1 => ".theirs-".toList ++ Nat.toDigits 10 (n + 2)

theorem theirs_eq (base : List Char) (n : Nat) : theirs base n = base ++ theirsSuffix n := by
  cases n <;> rfl

theorem slash_theirsSuffix (n : Nat) : '/' ∉ theirsSuffix n := by
  cases n with
  | zero => decide
  | succ n =>
    intro h
    rcases List.mem_append.1 h with h | h
    · revert h
      decide
    · have hd := Nat.isDigit_of_mem_toDigits (by decide) (by decide) h
      revert hd
      decide

theorem theirsSuffix_injective : Function.Injective theirsSuffix := by
  have hne (n : Nat) : theirsSuffix 0 ≠ theirsSuffix (n + 1) := by
    intro h
    have hmem : '-' ∈ theirsSuffix (n + 1) := List.mem_append_left _ (by decide)
    rw [← h] at hmem
    revert hmem
    decide
  intro m n h
  cases m with
  | zero =>
    cases n with
    | zero => rfl
    | succ n => exact (hne n h).elim
  | succ m =>
    cases n with
    | zero => exact (hne m h.symm).elim
    | succ n =>
      have hdig := List.append_cancel_left h
      have hval := congrArg (Nat.ofDigitChars 10 · 0) hdig
      rw [Nat.ofDigitChars_ten_toDigits, Nat.ofDigitChars_ten_toDigits] at hval
      omega

/-- Either the name found is free, or all the names tried are taken. -/
theorem sidecarFrom_spec {taken : List Char → Bool} {base : List Char} (fuel n : Nat) :
    taken (sidecarFrom taken base fuel n) = false ∨
      ∀ k, n ≤ k → k ≤ n + fuel → taken (theirs base k) = true := by
  induction fuel generalizing n with
  | zero =>
    rw [sidecarFrom]
    cases h : taken (theirs base n) with
    | false => exact .inl rfl
    | true =>
      right
      intro k hk hk'
      rwa [show k = n by omega]
  | succ fuel ih =>
    rw [sidecarFrom]
    split
    next h =>
      rcases ih (n + 1) with hfree | hall
      · exact .inl hfree
      · right
        intro k hk hk'
        by_cases he : k = n
        · rwa [he]
        · exact hall k (by omega) (by omega)
    next h => exact .inl (Bool.eq_false_of_not_eq_true h)

theorem Project.taken_sidecarName (s : Project) (base : List Char) :
    s.taken (s.sidecarName base) = false := by
  apply (sidecarFrom_spec s.tree.nodes.size 0).resolve_right
  intro hall
  have hle := FileTree.length_names_le (t := s.tree)
    ((List.range (s.tree.nodes.size + 1)).map fun k =>
      (base.splitOn '/').getLast (List.splitOn_ne_nil _ _) ++ theirsSuffix k) ?_ ?_
  · rw [List.length_map, List.length_range] at hle
    omega
  · apply List.nodup_range.map
    intro m n h
    exact theirsSuffix_injective (List.append_cancel_left h)
  · intro c hc
    obtain ⟨k, hk, rfl⟩ := List.mem_map.1 hc
    have htaken := hall k (Nat.zero_le _) (by have := List.mem_range.1 hk; omega)
    rw [Project.taken] at htaken
    split at htaken
    next rel hrel =>
      split at htaken
      next node hstat =>
        have hcomps : rel.components = (base.splitOn '/').dropLast ++
            [(base.splitOn '/').getLast (List.splitOn_ne_nil _ _) ++ theirsSuffix k] := by
          rw [← RelPath.splitOn_append (slash_theirsSuffix k), ← theirs_eq, RelPath.components,
            RelPath.new_eq_ok.1 hrel]
        rw [join, hcomps, ← List.append_assoc] at hstat
        exact FileTree.stat_last hstat
      next => cases htaken
    next => cases htaken

/-- What stands at a path: a file with its signature, or nothing. -/
abbrev Content := Option (Bytes × ContentSig)

namespace Project

def contentSize (c : Content) : Nat := c.elim 0 fun c => c.2.size

/-- Only directories may differ. -/
structure SameFiles (s s' : Project) : Prop where
  rest : s' = { s with tree := s'.tree }
  root : s.tree.get s.root = some .dir → s'.tree.get s.root = some .dir
  files : ∀ q, s'.tree.fileAt q = s.tree.fileAt q

/-- One path has a content, and only directories differ elsewhere. -/
structure Puts (s : Project) (rel : RelPath) (c : Content) (s' : Project) : Prop where
  rest : s' = { s with tree := s'.tree }
  root : s.tree.get s.root = some .dir → s'.tree.get s.root = some .dir
  here : s'.tree.fileAt (join s.root rel) = c.map fun c => (c.1, execMode c.2.exec, s.wallMs)
  others : ∀ q, q ≠ join s.root rel → s'.tree.fileAt q = s.tree.fileAt q

theorem SameFiles.refl (s : Project) : SameFiles s s := ⟨rfl, id, fun _ => rfl⟩

theorem SameFiles.of_tree {s : Project} {u : Tree}
    (hroot : s.tree.get s.root = some .dir → u.get s.root = some .dir)
    (hfiles : ∀ q, u.fileAt q = s.tree.fileAt q) : SameFiles s { s with tree := u } :=
  ⟨rfl, hroot, hfiles⟩

section
variable {t u : Tree} {root : List Name} {rel : RelPath}

/-- Whatever `create_dir_all` makes, also before it fails, are directories. -/
theorem createDirAll_stirs (f : Faults) (t : Tree) (parent : List Name) :
    (∀ q, (f.createDirAll t parent).2.fileAt q = t.fileAt q) ∧
      (∀ q, t.get q = some .dir → (f.createDirAll t parent).2.get q = some .dir) := by
  unfold Faults.createDirAll
  split
  · cases h : t.createDirAll false (parent.take f.made) with
    | ok u => exact ⟨FileTree.createDirAll_fileAt h, fun q hq => FileTree.createDirAll_keeps h hq⟩
    | error e => exact ⟨fun _ => rfl, fun _ => id⟩
  · cases h : t.createDirAll false parent with
    | ok u => exact ⟨FileTree.createDirAll_fileAt h, fun q hq => FileTree.createDirAll_keeps h hq⟩
    | error e => exact ⟨fun _ => rfl, fun _ => id⟩

theorem createDirAll_made {f : Faults} {parent : List Name}
    (h : (f.createDirAll t parent).1 = .ok ()) :
    t.createDirAll false parent = .ok (f.createDirAll t parent).2 := by
  revert h
  unfold Faults.createDirAll
  split
  · intro h
    cases h
  · cases t.createDirAll false parent with
    | ok u => exact fun _ => rfl
    | error e =>
      intro h
      cases h

theorem pruneEmptyParents_fileAt (comps : List Name) (n : Nat) (t : Tree) (q : List Name) :
    (pruneEmptyParents root comps t n).fileAt q = t.fileAt q := by
  induction n generalizing t with
  | zero => rfl
  | succ n ih =>
    rw [pruneEmptyParents]
    split
    next u h => exact (ih u).trans (FileTree.rmdir_fileAt h q)
    next => rfl

theorem applyAbsent_puts (hr : t.get root = some .dir) (h : Tomo.applyAbsent t root rel = .ok u) :
    u.get root = some .dir ∧ u.fileAt (join root rel) = none ∧
      ∀ q, q ≠ join root rel → u.fileAt q = t.fileAt q := by
  have hc := applyAbsent_confined (S := fun _ => False) hr (fun _ _ _ h => h) h
  refine ⟨hc.root_dir hr, ?_⟩
  rw [Tomo.applyAbsent] at h
  split at h
  · cases h
  next hcheck =>
    have hu := checkParents_unlinked hr hcheck
    split at h
    next v hv =>
      cases h
      obtain ⟨q, n, hl, _, _, hget⟩ := FileTree.unlink_spec hv
      rw [FileTree.locate_unlinked hr hu hl] at hget
      constructor
      · rw [pruneEmptyParents_fileAt, FileTree.fileAt_none (.inl _)]
        exact (hget _).trans (if_pos rfl)
      · intro r hne
        rw [pruneEmptyParents_fileAt]
        exact FileTree.fileAt_of_get ((hget r).trans (if_neg (Ne.symm hne)))
    next hno =>
      cases h
      constructor
      · rw [pruneEmptyParents_fileAt]
        cases hf : t.fileAt (join root rel) with
        | none => rfl
        | some x =>
          obtain ⟨b, m, k, hg⟩ := FileTree.isFile_iff.1 (FileTree.isFile_of_fileAt hf)
          obtain ⟨v, hv, _⟩ := unlink_file hg
          rw [hv] at hno
          cases hno
      · intro r _
        exact pruneEmptyParents_fileAt _ _ _ _
    · cases h

end

/-- The content of a version, as the history has it and as its signature says. -/
inductive Brings [Platform] (s : Project) (m : VersionMeta) : Content → Prop where
  | present {sig : ContentSig} {bytes : Bytes} : m.state = .present sig →
      s.history.getContent m.id = .ok bytes → matchesSig bytes sig = true →
      Brings s m (some (bytes, sig))
  | tombstone : m.state = .tombstone → Brings s m none

/-- The loser of a conflict, among the versions of its path. -/
structure IsLoser [Platform] (s : Project) (r : ConflictRow) (m : VersionMeta) : Prop where
  version : m ∈ s.history.log r.path
  id : m.id = r.loser

/-- No file stands at a path. -/
def Free (s : Project) (rel : RelPath) : Prop := s.tree.fileAt (join s.root rel) = none

def acknowledge (s : Project) (id : Nat) : Project :=
  { s with resolved := if id ∈ s.resolved then s.resolved else id :: s.resolved }

def reopen (s : Project) (id : Nat) : Project :=
  { s with resolved := s.resolved.filter (· ≠ id) }

theorem mem_acknowledge {s : Project} {i id : Nat} :
    id ∈ (s.acknowledge i).resolved ↔ id = i ∨ id ∈ s.resolved := by
  rw [acknowledge]
  dsimp only
  split
  next h =>
    constructor
    · exact .inr
    · rintro (rfl | hid)
      · exact h
      · exact hid
  next => exact List.mem_cons

theorem length_acknowledge (s : Project) (i : Nat) :
    (s.acknowledge i).resolved.length = s.resolved.length + (decide (i ∉ s.resolved)).toNat := by
  rw [acknowledge]
  dsimp only
  by_cases h : i ∈ s.resolved
  · rw [if_pos h, decide_eq_false (not_not_intro h)]
    rfl
  · rw [if_neg h, decide_eq_true h]
    rfl

/-- How a resolution of a conflict can end. A conflict is acknowledged only once its loser is where
the resolution wants it; where the row cannot be written then, the loser is there all the same. -/
inductive Settles [Platform] (s : Project) (r : ConflictRow) :
    ResolveKind → Except CommandError Report → Project → Prop where
  | failed {kind : ResolveKind} {e : CommandError} {s' : Project} :
      SameFiles s s' → Settles s r kind (.error e) s'
  | kept : Settles s r .keep (.ok (.kept r.path (decide (r.id ∉ s.resolved)))) (s.acknowledge r.id)
  | wrote {m : VersionMeta} {bytes : Bytes} {sig : ContentSig} {u : Project} :
      IsLoser s r m → Brings s m (some (bytes, sig)) → Puts s r.path (some (bytes, sig)) u →
      Settles s r .take (.ok (.wrote r.path sig.size m.id)) (u.acknowledge r.id)
  | deleted {m : VersionMeta} {u : Project} :
      IsLoser s r m → Brings s m none → Puts s r.path none u →
      Settles s r .take (.ok (.deleted r.path m.id)) (u.acknowledge r.id)
  | keptBoth {m : VersionMeta} {bytes : Bytes} {sig : ContentSig} {sidecar : RelPath}
      {u : Project} :
      IsLoser s r m → Brings s m (some (bytes, sig)) → Free s sidecar →
      Puts s sidecar (some (bytes, sig)) u →
      Settles s r .both (.ok (.keptBoth r.path sidecar sig.size)) (u.acknowledge r.id)
  | unmarked {m : VersionMeta} {c : Content} {s' : Project} :
      IsLoser s r m → Brings s m c → Puts s r.path c s' →
      Settles s r .take (.error .database) s'
  | unmarkedBoth {m : VersionMeta} {x : Bytes × ContentSig} {sidecar : RelPath} {s' : Project} :
      IsLoser s r m → Brings s m (some x) → Free s sidecar → Puts s sidecar (some x) s' →
      Settles s r .both (.error .database) s'

variable {s s' s'' : Project} {rel : RelPath} {c : Content}

theorem SameFiles.trans (h : SameFiles s s') (h' : SameFiles s' s'') : SameFiles s s'' where
  rest := by rw [h'.rest, h.rest]
  root hr := by
    have hroot := h'.root
    rw [h.rest] at hroot
    exact hroot (h.root hr)
  files q := (h'.files q).trans (h.files q)

/-- Directories made before a file is put change nothing about that. -/
theorem Puts.after (h : SameFiles s s') (h' : Puts s' rel c s'') : Puts s rel c s'' := by
  obtain ⟨rest, root, here, others⟩ := h'
  have hs := h.rest
  rw [hs] at root here others
  refine ⟨by rw [rest, hs], fun hr => root (h.root hr), here, ?_⟩
  intro q hq
  exact (others q hq).trans (h.files q)

/-- A computation that fails leaves every file, and one that succeeds does as `Q` says. -/
def OrNothing (s : Project) (Q : α → Project → Prop) (res : Except CommandError α) (s' : Project) :
    Prop :=
  match res with
  | .ok a => Q a s'
  | .error _ => SameFiles s s'

theorem OrNothing.after {Q Q' : α → Project → Prop} {res : Except CommandError α}
    (h : SameFiles s s') (hq : ∀ a, Q' a s'' → Q a s'') (h' : OrNothing s' Q' res s'') :
    OrNothing s Q res s'' := by
  cases res with
  | ok a => exact hq a h'
  | error e => exact h.trans h'

theorem mapError_ok {e : ε → ε'} {x : Except ε α} {a : α} (h : x.mapError e = .ok a) :
    x = .ok a := by
  cases x with
  | ok b =>
    cases h
    rfl
  | error e => cases h

theorem exec_orThrow (res : Except CommandError α) (s : Project) :
    Eff.exec (orThrow res) s = (res, s) := by
  cases res <;> rfl

theorem fileAt_file {t : Tree} {q : List Name} {b : Bytes} {m k : Nat}
    (h : t.get q = some (.file b m k)) : t.fileAt q = some (b, m, k) := by
  rw [FileTree.fileAt, h]

section
variable {f : Faults} {sig : ContentSig} {bytes : Bytes} {m : VersionMeta} {r : ConflictRow}
open Eff

theorem exec_query (op : StoreOp) (read : Project → Except CommandError α) (s : Project) :
    (query f op read).exec s = (if f.store op then .error .database else read s, s) := by
  rw [query, exec_get_bind, exec_ite]
  split
  · rfl
  · exact exec_orThrow _ s

theorem mem_conflicts {b : Bool} :
    r ∈ s.conflicts b ↔ r ∈ s.history.conflicts ∧ (b = true → r.id ∉ s.resolved) := by
  cases b with
  | true =>
    rw [conflicts, if_pos rfl, List.mem_filter, decide_eq_true_eq]
    exact and_congr_right fun _ => ⟨fun h _ => h, fun h => h rfl⟩
  | false =>
    rw [conflicts, if_neg Bool.false_ne_true]
    exact ⟨fun h => ⟨h, fun hb => by cases hb⟩, fun h => h.1⟩

theorem findRecord_ok {rows : List ConflictRow} {id : Int} (h : findRecord rows id = .ok r) :
    r ∈ rows ∧ (r.id : Int) = id := by
  rw [findRecord] at h
  split at h
  next r' hr =>
    cases h
    have hid := List.find?_some hr
    exact ⟨List.mem_of_find?_eq_some hr, of_decide_eq_true hid⟩
  next => cases h

theorem pickNewestOnPath_ok {rows : List ConflictRow} {path : RelPath}
    (h : pickNewestOnPath rows path = .ok r) :
    r ∈ rows ∧ r.path = path ∧ ∀ r' ∈ rows, r'.path = path →
      r'.wallMs < r.wallMs ∨ r'.wallMs = r.wallMs ∧ r'.id ≤ r.id := by
  have hnewest : ∀ a b : ConflictRow, newerFirst a b = true ↔
      b.wallMs < a.wallMs ∨ b.wallMs = a.wallMs ∧ b.id ≤ a.id := fun _ _ => decide_eq_true_iff
  rw [pickNewestOnPath] at h
  split at h
  next r' rest heq =>
    cases h
    have hmem (x : ConflictRow) : x ∈ r :: rest ↔ x ∈ rows ∧ x.path = path := by
      rw [← heq, List.mem_mergeSort, List.mem_filter, decide_eq_true_eq]
    have hsorted : (r :: rest).Pairwise (newerFirst · ·) := by
      rw [← heq]
      apply List.pairwise_mergeSort
      · intro a b c hab hbc
        rw [hnewest] at hab hbc ⊢
        omega
      · intro a b
        rw [Bool.or_eq_true, hnewest, hnewest]
        omega
    obtain ⟨hr, hpath⟩ := (hmem r).1 List.mem_cons_self
    refine ⟨hr, hpath, ?_⟩
    intro x hx hxp
    rcases List.mem_cons.1 ((hmem x).2 ⟨hx, hxp⟩) with rfl | hrest
    · exact .inr ⟨rfl, Nat.le_refl _⟩
    · exact (hnewest r x).1 (List.rel_of_pairwise_cons hsorted hrest)
  next => cases h

/-- A query leaves the project as it is. -/
theorem wp_query_bind {Q : Except CommandError β → Project → Prop} {op : StoreOp}
    {read : Project → Except CommandError α} {k : α → CommandM β}
    (hok : ∀ a, read s = .ok a → wp (k a) Q s) (herr : ∀ e, Q (.error e) s) :
    wp (query f op read >>= k) Q s := by
  rw [wp, exec_bind, exec_query]
  split
  · exact herr _
  · cases h : read s with
    | ok a => exact hok a h
    | error e => exact herr e

theorem atomicWriteMode_spec (hr : s.tree.get s.root = some .dir)
    (hu : s.tree.Unlinked s.root rel.components) :
    wp (atomicWriteMode f (join s.root rel) bytes sig.exec)
      (OrNothing s fun _ s' => Puts s rel (some (bytes, sig)) s') s := by
  rw [atomicWriteMode, wp, exec_get_bind]
  split
  · exact .refl s
  · exact .refl s
  · split
    next u h =>
      obtain ⟨q, hl, _, hget⟩ := FileTree.install_spec h
      rw [FileTree.locate_unlinked hr hu hl] at hget
      have hne : join s.root rel ≠ s.root := fun h =>
        rel.components_ne_nil (List.append_right_eq_self.1 h)
      refine ⟨rfl, ?_, fileAt_file ((hget _).trans (if_pos rfl)), ?_⟩
      · intro _
        exact (hget _).trans ((if_neg hne).trans hr)
      · intro q hq
        exact FileTree.fileAt_of_get ((hget q).trans (if_neg (Ne.symm hq)))
    next => exact .refl s

theorem applyAbsent_spec (hr : s.tree.get s.root = some .dir) :
    wp (applyAbsent f rel) (OrNothing s fun _ s' => Puts s rel none s') s := by
  rw [applyAbsent, wp, exec_get_bind]
  split
  · exact .refl s
  · exact .refl s
  · split
    next u h =>
      obtain ⟨hroot, hnone, hothers⟩ := applyAbsent_puts hr h
      exact ⟨rfl, fun _ => hroot, hnone, hothers⟩
    next => exact .refl s

variable [Platform]

theorem applyPresent_spec (hr : s.tree.get s.root = some .dir) :
    wp (applyPresent f rel sig bytes) (OrNothing s fun _ s' =>
      matchesSig bytes sig = true ∧ Puts s rel (some (bytes, sig)) s') s := by
  obtain ⟨hfiles, hdirs⟩ := createDirAll_stirs f s.tree (join s.root rel).dropLast
  have hstir : SameFiles s { s with tree := (f.createDirAll s.tree (join s.root rel).dropLast).2 } :=
    ⟨rfl, hdirs _, hfiles⟩
  rw [applyPresent, wp, exec_get_bind, exec_ite]
  split
  next => exact .refl s
  next hsig =>
    split
    next => exact .refl s
    next hcheck =>
      have hu := checkParents_unlinked hr hcheck
      rw [exec_set_bind]
      cases hmade : (f.createDirAll s.tree (join s.root rel).dropLast).1 with
      | error e => exact hstir
      | ok _ =>
        have hmk := createDirAll_made hmade
        rw [join_dropLast] at hmk
        have hc := createDirAll_confined (S := fun _ => False) hr
          (by rw [List.dropLast_eq_take]; exact hu.take _) (fun _ _ _ h => h) hmk
        have hu' : (f.createDirAll s.tree (join s.root rel).dropLast).2.Unlinked s.root
            rel.components := by
          rw [join_dropLast]
          exact hc.unlinked hu
        rw [exec_bind, exec_orThrow]
        refine OrNothing.after hstir ?_ (atomicWriteMode_spec (hdirs _ hr) hu')
        intro _ hput
        exact ⟨Bool.of_not_eq_false hsig, hput.after hstir⟩

theorem adopt_spec (hr : s.tree.get s.root = some .dir) :
    wp (adopt f rel m) (OrNothing s fun size s' =>
      ∃ c, Brings s m c ∧ size = contentSize c ∧ Puts s rel c s') s := by
  rw [adopt]
  split
  next sig hm =>
    apply wp_query_bind
    · intro bytes hbytes
      apply wp_bind
      apply wp_mono (applyPresent_spec hr)
      intro res s' h
      cases res with
      | error e => exact h
      | ok _ =>
        obtain ⟨hsig, hput⟩ := h
        exact ⟨some (bytes, sig), .present hm (mapError_ok hbytes) hsig, rfl, hput⟩
    · intro e
      exact SameFiles.refl s
  next hm =>
    apply wp_bind
    apply wp_mono (applyAbsent_spec hr)
    intro res s' h
    cases res with
    | error e => exact h
    | ok _ => exact ⟨none, .tombstone hm, rfl, h⟩

theorem heads_spec (r : ConflictRow) (s : Project) :
    wp (heads f r) (fun res s' => s' = s ∧ ∀ h, res = .ok h → IsLoser s r h.2) s := by
  have hfind (versions : List VersionMeta) (id : Nat) (m : VersionMeta)
      (h : findVersion versions id r.path = .ok m) : m ∈ versions ∧ m.id = id := by
    rw [findVersion] at h
    split at h
    next m' hm =>
      cases h
      have hid := List.find?_some hm
      exact ⟨List.mem_of_find?_eq_some hm, of_decide_eq_true hid⟩
    next => cases h
  rw [heads]
  apply wp_query_bind
  · intro versions hlog
    cases hlog
    rw [wp, exec_bind, exec_orThrow]
    cases findVersion (s.history.log r.path) r.winner r.path with
    | error e => exact ⟨rfl, fun _ h => by cases h⟩
    | ok winner =>
      rw [thenRun_ok, exec_bind, exec_orThrow]
      cases hl : findVersion (s.history.log r.path) r.loser r.path with
      | error e => exact ⟨rfl, fun _ h => by cases h⟩
      | ok loser =>
        obtain ⟨hmem, hid⟩ := hfind _ _ _ hl
        refine ⟨rfl, fun h hh => ?_⟩
        cases hh
        exact ⟨hmem, hid⟩
  · intro e
    exact ⟨rfl, fun _ h => by cases h⟩

omit [Platform] in
theorem exec_markConflictResolved (hr : r ∈ s.history.conflicts) :
    (markConflictResolved f r.id).exec s =
      if f.marks r.id then (.error .database, s)
      else (.ok (decide (r.id ∉ s.resolved)), s.acknowledge r.id) := by
  have hany : s.history.conflicts.any (fun r' => r'.id == r.id) = true :=
    List.any_eq_true.2 ⟨r, hr, beq_self_eq_true r.id⟩
  rw [markConflictResolved, exec_get_bind, exec_ite, exec_ite]
  split
  next => rfl
  next =>
    rw [acknowledge]
    by_cases h : r.id ∈ s.resolved
    · rw [if_neg fun hn => hn.2 h, if_pos h, decide_eq_false (not_not_intro h)]
      rfl
    · rw [if_pos ⟨hany, h⟩, if_neg h, decide_eq_true h]
      rfl

omit [Platform] in
theorem free_sidecarName {base : List Char} (h : RelPath.new (s.sidecarName base) = .ok rel) :
    Free s rel := by
  have hfree := s.taken_sidecarName base
  rw [taken, h] at hfree
  rw [Free]
  cases hf : s.tree.fileAt (join s.root rel) with
  | none => rfl
  | some x =>
    obtain ⟨b, m, k, hg⟩ := FileTree.isFile_iff.1 (FileTree.isFile_of_fileAt hf)
    dsimp only at hfree
    rw [FileTree.stat_get hg fun l h => by cases h] at hfree
    cases hfree

theorem ackOne_settles (hr : r ∈ s.history.conflicts) :
    wp (ackOne f r) (Settles s r .keep) s := by
  rw [ackOne, wp, exec_bind, exec_markConflictResolved hr]
  split
  next => exact .failed (.refl s)
  next => exact .kept

theorem takeLoserOne_settles (hroot : s.tree.get s.root = some .dir)
    (hr : r ∈ s.history.conflicts) : wp (takeLoserOne f r) (Settles s r .take) s := by
  rw [takeLoserOne]
  apply wp_bind
  apply wp_mono (heads_spec r s)
  rintro res _ ⟨rfl, hloser⟩
  cases res with
  | error e => exact .failed (.refl _)
  | ok h =>
    have hl := hloser h rfl
    apply wp_bind
    apply wp_mono (adopt_spec hroot)
    intro res u hres
    cases res with
    | error e => exact .failed hres
    | ok size =>
      obtain ⟨c, hb, rfl, hput⟩ := hres
      have hru : r ∈ u.history.conflicts := by
        rw [hput.rest]
        exact hr
      dsimp only
      rw [wp, exec_bind, exec_markConflictResolved hru]
      split
      next => exact .unmarked hl hb hput
      next =>
        rw [thenRun_ok]
        cases hb with
        | present hm hbytes hsig =>
          have hdead : isTombstone h.2 = false := decide_eq_false (by
            rw [hm]
            exact fun h => by cases h)
          rw [hdead]
          exact .wrote hl (.present hm hbytes hsig) hput
        | tombstone hm =>
          have hdead : isTombstone h.2 = true := decide_eq_true hm
          rw [hdead]
          exact .deleted hl (.tombstone hm) hput

theorem bothOne_settles (hroot : s.tree.get s.root = some .dir) (hr : r ∈ s.history.conflicts) :
    wp (bothOne f r) (Settles s r .both) s := by
  rw [bothOne]
  apply wp_bind
  apply wp_mono (heads_spec r s)
  rintro res _ ⟨rfl, hloser⟩
  cases res with
  | error e => exact .failed (.refl _)
  | ok h =>
    have hl := hloser h rfl
    obtain ⟨winner, loser⟩ := h
    dsimp only at hl ⊢
    split
    next => exact .failed (.refl _)
    next sig hm =>
      apply wp_query_bind
      · intro bytes hbytes
        rw [wp, exec_get_bind]
        split
        next => exact .failed (.refl _)
        next sidecar hside =>
          have hfree := free_sidecarName hside
          apply wp_bind
          apply wp_mono (applyPresent_spec hroot)
          intro res u hres
          cases res with
          | error e => exact .failed hres
          | ok _ =>
            obtain ⟨hsig, hput⟩ := hres
            have hb := Brings.present hm (mapError_ok hbytes) hsig
            have hru : r ∈ u.history.conflicts := by
              rw [hput.rest]
              exact hr
            dsimp only
            rw [wp, exec_bind, exec_markConflictResolved hru]
            split
            next => exact .unmarkedBoth hl hb hfree hput
            next => exact .keptBoth hl hb hfree hput
      · intro e
        exact .failed (.refl _)

theorem applyKind_settles (hroot : s.tree.get s.root = some .dir) (hr : r ∈ s.history.conflicts)
    (kind : ResolveKind) : wp (applyKind f r kind) (Settles s r kind) s := by
  cases kind with
  | keep => exact ackOne_settles hr
  | take => exact takeLoserOne_settles hroot hr
  | both => exact bothOne_settles hroot hr

/-- Flags were set for some of the conflicts `rows`, for all of them where nothing failed. -/
structure Keeps (rows : List ConflictRow) (s : Project) (res : Except CommandError Nat)
    (s' : Project) : Prop where
  rest : s' = { s with resolved := s'.resolved }
  subset : s.resolved ⊆ s'.resolved
  among : ∀ id ∈ s'.resolved, id ∈ s.resolved ∨ ∃ r ∈ rows, r.id = id
  all : ∀ n, res = .ok n → (∀ r ∈ rows, r.id ∈ s'.resolved) ∧
    s'.resolved.length = s.resolved.length + n

omit [Platform] in
theorem keepEach_keeps (rows : List ConflictRow) (hrows : ∀ r ∈ rows, r ∈ s.history.conflicts) :
    wp (keepEach f rows) (Keeps rows s) s := by
  induction rows generalizing s with
  | nil =>
    refine ⟨rfl, List.Subset.refl _, fun id h => .inl h, ?_⟩
    intro n hn
    cases hn
    exact ⟨fun r hr => absurd hr List.not_mem_nil, rfl⟩
  | cons r rows ih =>
    have hr := hrows r List.mem_cons_self
    rw [keepEach, wp, exec_bind, exec_markConflictResolved hr]
    split
    next => exact ⟨rfl, List.Subset.refl _, fun id h => .inl h, fun n h => by cases h⟩
    next =>
      rw [thenRun_ok]
      have hrest := ih (s := s.acknowledge r.id) fun r' h => hrows r' (List.mem_cons_of_mem r h)
      change wp _ _ _
      apply wp_bind
      apply wp_mono hrest
      intro res u h
      have hu : u = { s with resolved := u.resolved } := by
        rw [h.rest]
        rfl
      have hsub : s.resolved ⊆ u.resolved := fun id hid =>
        h.subset (mem_acknowledge.2 (.inr hid))
      have hamong : ∀ id ∈ u.resolved, id ∈ s.resolved ∨ ∃ r' ∈ r :: rows, r'.id = id := by
        intro id hid
        rcases h.among id hid with hs | ⟨r', hr', he⟩
        · rcases mem_acknowledge.1 hs with rfl | hs
          · exact .inr ⟨r, List.mem_cons_self, rfl⟩
          · exact .inl hs
        · exact .inr ⟨r', List.mem_cons_of_mem r hr', he⟩
      cases res with
      | error e => exact ⟨hu, hsub, hamong, fun n h => by cases h⟩
      | ok acked =>
        obtain ⟨hall, hcount⟩ := h.all acked rfl
        refine ⟨hu, hsub, hamong, ?_⟩
        intro n hn
        cases hn
        constructor
        · intro r' hr'
          rcases List.mem_cons.1 hr' with rfl | hr'
          · exact h.subset (mem_acknowledge.2 (.inl rfl))
          · exact hall r' hr'
        · change u.resolved.length = _
          rw [hcount, length_acknowledge]
          omega

/-- The open conflict a selector means, the newest one of a path. -/
def Selects (s : Project) (r : ConflictRow) : Selector → Prop
  | .id id => (r.id : Int) = id
  | .path path => r.path = path ∧ ∀ r' ∈ s.history.conflicts, r'.id ∉ s.resolved → r'.path = path →
      r'.wallMs < r.wallMs ∨ r'.wallMs = r.wallMs ∧ r'.id ≤ r.id

/-- The version of a path that is asked for, the one before the newest if none is named. -/
def Requests (s : Project) (path : RelPath) (m : VersionMeta) : Option Int → Prop
  | some id => m ∈ s.history.log path ∧ (m.id : Int) = id
  | none => (s.history.log path)[1]? = some m

/-- All that a command can do. -/
inductive Deed (s : Project) : Command → Except CommandError Report → Project → Prop where
  | failed {c : Command} {e : CommandError} {s' : Project} :
      SameFiles s s' → Deed s c (.error e) s'
  | printed {path : RelPath} {version : Option Int} {m : VersionMeta} {bytes : Bytes} :
      Requests s path m version → s.history.getContent m.id = .ok bytes →
      Deed s (.restore path version true) (.ok (.printed bytes)) s
  | restored {path : RelPath} {version : Option Int} {m : VersionMeta} {c : Content}
      {s' : Project} :
      Requests s path m version → Brings s m c → Puts s path c s' →
      Deed s (.restore path version false)
        (.ok (.restored path m.id (contentSize c) (isTombstone m))) s'
  | restoredCtl {path : RelPath} {id : Int} {m : VersionMeta} {c : Content} {s' : Project} :
      Requests s path m (some id) → Brings s m c → Puts s path c s' →
      Deed s (.restoreCtl path id) (.ok (.restored path m.id (contentSize c) (isTombstone m))) s'
  | resolved {target : Selector} {kind : ResolveKind} {r : ConflictRow}
      {res : Except CommandError Report} {s' : Project} :
      r ∈ s.history.conflicts → r.id ∉ s.resolved → Selects s r target → Settles s r kind res s' →
      Deed s (.resolve target kind) res s'
  | resolvedCtl {id : Int} {kind : ResolveKind} {r : ConflictRow}
      {res : Except CommandError Report} {s' : Project} :
      r ∈ s.history.conflicts → (r.id : Int) = id → Settles s r kind res s' →
      Deed s (.resolveCtl id kind) res s'
  | keptAll {res : Except CommandError Nat} {s' : Project} :
      Keeps (s.conflicts true) s res s' → Deed s .keepAll (res.map .acknowledged) s'
  | unresolved {id : Int} {r : ConflictRow} :
      r ∈ s.history.conflicts → (r.id : Int) = id →
      Deed s (.unresolveCtl id) (.ok (.unresolved r.path (decide (r.id ∈ s.resolved))))
        (s.reopen r.id)

omit [Platform] in
theorem selectUnresolved_ok {target : Selector} (h : s.selectUnresolved target = .ok r) :
    r ∈ s.history.conflicts ∧ r.id ∉ s.resolved ∧ Selects s r target := by
  cases target with
  | id id =>
    obtain ⟨hmem, hid⟩ := findRecord_ok h
    obtain ⟨hrow, hopen⟩ := mem_conflicts.1 hmem
    exact ⟨hrow, hopen rfl, hid⟩
  | path path =>
    obtain ⟨hmem, hpath, hnewest⟩ := pickNewestOnPath_ok h
    obtain ⟨hrow, hopen⟩ := mem_conflicts.1 hmem
    refine ⟨hrow, hopen rfl, hpath, ?_⟩
    intro r' hr' hun hp'
    exact hnewest r' (mem_conflicts.2 ⟨hr', fun _ => hun⟩) hp'

omit [Platform] in
theorem findRequested_ok {path : RelPath} {id : Int}
    (h : findRequested (s.history.log path) id path = .ok m) : Requests s path m (some id) := by
  rw [findRequested] at h
  split at h
  next m' hm =>
    cases h
    have hid := List.find?_some hm
    exact ⟨List.mem_of_find?_eq_some hm, of_decide_eq_true hid⟩
  next => cases h

omit [Platform] in
theorem resolveRestoreVersion_ok {path : RelPath} {version : Option Int}
    (h : resolveRestoreVersion (s.history.log path) version path = .ok m) :
    Requests s path m version := by
  cases version with
  | some id => exact findRequested_ok h
  | none =>
    rw [resolveRestoreVersion] at h
    split at h
    next m' hm =>
      cases h
      exact hm
    next => cases h

/-- A command does what its deed says: it fails with every file as it was, or it has its whole
effect. -/
theorem run_deed (hroot : s.tree.get s.root = some .dir) (c : Command) :
    wp (run f c) (Deed s c) s := by
  have hfail (c : Command) (e : CommandError) : Deed s c (.error e) s := .failed (.refl s)
  cases c with
  | restore path version stdout =>
    apply wp_query_bind _ (hfail _)
    intro _ _
    apply wp_query_bind _ (hfail _)
    intro versions hlog
    cases hlog
    apply wp_ite
    · intro _
      exact hfail _ _
    · intro _
      rw [wp, exec_bind, exec_orThrow]
      cases hm : resolveRestoreVersion (s.history.log path) version path with
      | error e => exact hfail _ _
      | ok m =>
        have hreq := resolveRestoreVersion_ok hm
        rw [thenRun_ok]
        change wp _ _ _
        cases stdout with
        | true =>
          rw [if_pos rfl]
          split
          · rw [map_eq_pure_bind]
            apply wp_query_bind _ (hfail _)
            intro bytes hbytes
            exact .printed hreq (mapError_ok hbytes)
          · exact hfail _ _
        | false =>
          apply wp_bind
          apply wp_mono (adopt_spec hroot)
          intro res u h
          cases res with
          | error e => exact .failed h
          | ok size =>
            obtain ⟨c, hb, rfl, hput⟩ := h
            exact .restored hreq hb hput
  | restoreCtl path id =>
    apply wp_query_bind _ (hfail _)
    intro _ _
    apply wp_query_bind _ (hfail _)
    intro versions hlog
    cases hlog
    apply wp_ite
    · intro _
      exact hfail _ _
    · intro _
      rw [wp, exec_bind, exec_orThrow]
      cases hm : findRequested (s.history.log path) id path with
      | error e => exact hfail _ _
      | ok m =>
        rw [thenRun_ok]
        change wp _ _ _
        apply wp_bind
        apply wp_mono (adopt_spec hroot)
        intro res u h
        cases res with
        | error e => exact .failed h
        | ok size =>
          obtain ⟨c, hb, rfl, hput⟩ := h
          exact .restoredCtl (findRequested_ok hm) hb hput
  | resolve target kind =>
    apply wp_query_bind _ (hfail _)
    intro _ _
    apply wp_query_bind _ (hfail _)
    intro r hr
    obtain ⟨hrow, hopen, hsel⟩ := selectUnresolved_ok hr
    apply wp_mono (applyKind_settles hroot hrow kind)
    intro res s' h
    exact .resolved hrow hopen hsel h
  | resolveCtl id kind =>
    apply wp_query_bind _ (hfail _)
    intro _ _
    apply wp_query_bind _ (hfail _)
    intro r hr
    obtain ⟨hrow, hid⟩ := findRecord_ok hr
    apply wp_mono (applyKind_settles hroot hrow kind)
    intro res s' h
    exact .resolvedCtl hrow hid h
  | keepAll =>
    apply wp_query_bind _ (hfail _)
    intro _ _
    apply wp_query_bind _ (hfail _)
    intro rows hrows
    cases hrows
    have hkeeps := keepEach_keeps (f := f) (s.conflicts true) fun r hr => (mem_conflicts.1 hr).1
    rw [map_eq_pure_bind]
    apply wp_bind
    apply wp_mono hkeeps
    intro res s' h
    cases res with
    | error e => exact .keptAll h
    | ok acked => exact .keptAll h
  | unresolveCtl id =>
    apply wp_query_bind _ (hfail _)
    intro _ _
    apply wp_query_bind _ (hfail _)
    intro r hr
    obtain ⟨hrow, hid⟩ := findRecord_ok hr
    rw [wp, exec_bind, markConflictUnresolved, exec_get_bind, exec_ite]
    split
    · exact hfail _ _
    · exact .unresolved hrow hid

end

end Project

end Tomo
