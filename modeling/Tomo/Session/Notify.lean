import Tomo.Session.Scanning

namespace Tomo
set_option autoImplicit true

/-- What a watch backend reports of the objects it names. -/
inductive NotifyKind where
  | createFolder
  | create
  | modify
  | renameFrom
  | renameTo
  | renameBoth
  | renameAny
  | removeFolder
  | remove
  | any
  | other
deriving DecidableEq

/-- An event of the watch backend. Whether it is about a directory is known to the backend only. -/
structure NotifyEvent where
  kind : NotifyKind
  paths : List (List Name)
  isDir : Bool
  needRescan : Bool
deriving DecidableEq

inductive RawKind where
  | create
  | modify
  | remove
  | renameFrom
  | renameTo
deriving DecidableEq

/-- A rename with both its paths. Of one path alone it is a destination. -/
def renameBoth : List (List Name) → List (List Name × RawKind)
  | src :: dst :: rest => [(src, .renameFrom), ((dst :: rest).getLast (List.cons_ne_nil _ _), .renameTo)]
  | paths => paths.map fun p => (p, .renameTo)

def mapEvent (e : NotifyEvent) : List (List Name × RawKind) :=
  let each (kind : RawKind) := e.paths.map fun p => (p, kind)
  match e.kind with
  | .createFolder | .removeFolder | .other => []
  | .create => each .create
  | .remove => each .remove
  | .renameFrom => each .renameFrom
  | .renameTo => each .renameTo
  | .renameBoth => renameBoth e.paths
  | .modify | .renameAny | .any => each .modify

def pendingKind : RawKind → PendingKind
  | .create | .modify | .renameTo => .dirty
  | .remove | .renameFrom => .gone

/-- Whether an event may be about a directory that was not there before, as far as the disk shows
when it is handled. -/
def dirAppeared (t : Tree) (e : NotifyEvent) : Bool :=
  decide (e.kind = .createFolder) ||
    decide (e.kind ∈ [.create, .renameTo, .renameBoth, .renameAny, .any]) && e.paths.any t.isDir

section
variable [Platform]

/-- A raw event of a path below the root that the rules do not ignore. -/
def ingest (s : Session) (raw : List Name × RawKind) : List WatchSignal :=
  if s.root <+: raw.1 then
    match relativize s.fs (raw.1.drop s.root.length) with
    | .error _ => []
    | .ok rel =>
      if (s.config.classify rel).cls = .ignored then [] else [.pending rel (pendingKind raw.2)]
  else []

/-- What the watcher's handler makes of an event. -/
def handler (s : Session) (e : NotifyEvent) : List WatchSignal :=
  if e.needRescan then [.needsRescan]
  else (if dirAppeared s.tree e then [.needsRescan] else []) ++ (mapEvent e).flatMap (ingest s)

end

/-- What a user does to the tree. -/
inductive UserOp where
  | put (path : List Name) (bytes : Bytes) (mode mtime : Nat) (created : Bool)
  | delete (path : List Name)
  | mkdir (path : List Name)
  | rmdir (path : List Name)
  | rename (src dst : List Name)
  | exchange (a b : List Name)
  | leave (src : List Name)
  | arrive (dst : List Name)

namespace UserOp

/-- A path below the root. -/
def Inside (root path : List Name) : Prop := root <+: path ∧ path ≠ root

/-- What may be replaced by an object that is moved there: nothing, a file by a file, and an empty
directory by a directory. -/
def Free (t : Tree) (dst : List Name) (n : Node Name) : Prop :=
  t.get dst = none ∨ t.isFile dst = true ∧ n ≠ .dir ∨
    t.get dst = some .dir ∧ t.isLeaf dst = true ∧ n = .dir

/-- The tree that an operation makes of another. Of what lies outside the root nothing is said. -/
def Makes (root : List Name) (t t' : Tree) : UserOp → Prop
  | put path bytes mode mtime _ => Inside root path ∧
      ∀ q, root <+: q → t'.get q = if q = path then some (.file bytes mode mtime) else t.get q
  | delete path => Inside root path ∧ t.isFile path = true ∧
      ∀ q, root <+: q → t'.get q = if q = path then none else t.get q
  | mkdir path => Inside root path ∧ t.get path = none ∧
      ∀ q, root <+: q → t'.get q = if q = path then some .dir else t.get q
  | rmdir path => Inside root path ∧ t.get path = some .dir ∧
      ∀ q, root <+: q → t'.get q = if q = path then none else t.get q
  | rename src dst => Inside root src ∧ Inside root dst ∧ ¬src <+: dst ∧
      (∃ n, t.get src = some n ∧ Free t dst n) ∧
      ∀ q, root <+: q → t'.get q =
        if dst <+: q then t.get (src ++ q.drop dst.length)
        else if src <+: q then none
        else t.get q
  | exchange a b => Inside root a ∧ Inside root b ∧ ¬a <+: b ∧ ¬b <+: a ∧
      (t.get a).isSome = true ∧ (t.get b).isSome = true ∧
      ∀ q, root <+: q → t'.get q =
        if a <+: q then t.get (b ++ q.drop a.length)
        else if b <+: q then t.get (a ++ q.drop b.length)
        else t.get q
  | leave src => Inside root src ∧ (t.get src).isSome = true ∧
      ∀ q, root <+: q → t'.get q = if src <+: q then none else t.get q
  | arrive dst => Inside root dst ∧ (∃ n, t'.get dst = some n ∧ Free t dst n) ∧
      ∀ q, root <+: q → ¬dst <+: q → t'.get q = t.get q

/-- Whether a directory stands at a path. -/
def dirAt (t : Tree) (p : List Name) : Bool := decide (t.get p = some .dir)

/-- The three events of a rename whose two ends are watched. -/
def renamed (src dst : List Name) (isDir : Bool) : List NotifyEvent :=
  [⟨.renameFrom, [src], isDir, false⟩, ⟨.renameTo, [dst], isDir, false⟩,
    ⟨.renameBoth, [src, dst], isDir, false⟩]

/-- The events that an operation raises where everything is watched. -/
def events (t t' : Tree) : UserOp → List NotifyEvent
  | put path _ _ _ created => [⟨if created then .create else .modify, [path], false, false⟩]
  | delete path => [⟨.remove, [path], false, false⟩]
  | mkdir path => [⟨.createFolder, [path], true, false⟩]
  | rmdir path => [⟨.removeFolder, [path], true, false⟩]
  | rename src dst => renamed src dst (dirAt t src)
  | exchange a b => renamed a b (dirAt t a) ++ renamed b a (dirAt t b)
  | leave src => [⟨.renameFrom, [src], dirAt t src, false⟩]
  | arrive dst => [⟨.renameTo, [dst], dirAt t' dst, false⟩]

end UserOp

namespace NotifyEvent

/-- The directory that appears at a path with an event. -/
def arrival (e : NotifyEvent) : Option (List Name) :=
  if e.isDir ∧ e.kind ∈ [.createFolder, .renameTo] then e.paths.head? else none

/-- An event makes the watcher look at a path. -/
def Names (e : NotifyEvent) (x : List Name) : Prop :=
  e.needRescan = false ∧ ∃ kind, (x, kind) ∈ mapEvent e

end NotifyEvent

namespace UserOp
variable {t t' : Tree} {root x : List Name} {op : UserOp}

/-- Where a file is or was and something changed: an event names the path, or one tells of a
directory that appeared, or a directory above the path has left the root. -/
def Told (t t' : Tree) (op : UserOp) (x : List Name) : Prop :=
  (∃ e ∈ op.events t t', e.paths = [x] ∧ e.Names x) ∨
    (∃ e ∈ op.events t t', ∃ d, e.paths = [d] ∧ e.arrival = some d ∧ t'.get d = some .dir) ∨
    ∃ src, op = .leave src ∧ t.get src = some .dir ∧ src <+: x

/-- Below a file there is nothing. -/
theorem get_below (h : t.isFile p = true) (hq : q ≠ []) : t.get (p ++ q) = none := by
  obtain ⟨b, m, k, hf⟩ := FileTree.isFile_iff.1 h
  cases hg : t.get (p ++ q) with
  | none => rfl
  | some n => cases hf.symm.trans (t.get_above hg hq)

/-- Nor is there below nothing. -/
theorem get_below_none (h : t.get p = none) (q : List Name) : t.get (p ++ q) = none := by
  by_cases hq : q = []
  · rw [hq, List.append_nil, h]
  · cases hg : t.get (p ++ q) with
    | none => rfl
    | some n => cases h.symm.trans (t.get_above hg hq)

theorem isFile_of_get (hl : t.Linkless) (h : t.get p = some n) (hn : n ≠ .dir) :
    t.isFile p = true := by
  cases n with
  | dir => exact (hn rfl).elim
  | file b m k => exact FileTree.isFile_iff.2 ⟨b, m, k, h⟩
  | link l => exact (hl p l h).elim

theorem isFile_congr (h : t.get p = t'.get p) : t.isFile p = t'.isFile p := by
  rw [FileTree.isFile, h, FileTree.isFile]

/-- Of nothing, and of a directory, there is no file. -/
theorem not_isFile (h : t.get p = none ∨ t.get p = some .dir) : t.isFile p = false := by
  rcases h with h | h
  · rw [FileTree.isFile, h]
  · rw [FileTree.isFile, h]

/-- What is replaced had nothing inside. -/
theorem Free.below (h : Free t dst n) (hq : q ≠ []) : t.get (dst ++ q) = none := by
  rcases h with h | ⟨h, _⟩ | ⟨_, h, _⟩
  · exact get_below_none h q
  · exact get_below h hq
  · cases q with
    | nil => exact (hq rfl).elim
    | cons c q =>
      have hc : t.get (dst ++ [c]) = none := (t.isLeaf_iff dst).1 h c
      rw [List.append_cons]
      exact get_below_none hc q

theorem dirAt_false (h : t.isFile p = true) : dirAt t p = false := by
  obtain ⟨b, m, k, hf⟩ := FileTree.isFile_iff.1 h
  rw [dirAt, hf]
  rfl

theorem dirAt_true (h : t.get p = some .dir) : dirAt t p = true := decide_eq_true h

/-- A file is named by the events of its move, and what is moved onto it by those of the other. -/
theorem mem_renamed (src dst : List Name) (isDir : Bool) :
    (∃ e ∈ renamed src dst isDir, e.paths = [src] ∧ e.Names src) ∧
      (∃ e ∈ renamed src dst isDir, e.paths = [dst] ∧ e.Names dst) ∧
      (isDir = true → ∃ e ∈ renamed src dst isDir, e.paths = [dst] ∧ e.arrival = some dst) := by
  refine ⟨⟨_, List.mem_cons_self, rfl, rfl, .renameFrom, List.mem_cons_self⟩,
    ⟨_, List.mem_cons_of_mem _ List.mem_cons_self, rfl, rfl, .renameTo, List.mem_cons_self⟩, ?_⟩
  rintro rfl
  exact ⟨_, List.mem_cons_of_mem _ List.mem_cons_self, rfl, rfl⟩

/-- A file that takes the place of what was at another path: at the path itself or nowhere. -/
theorem eq_of_moved {src dst : List Name} (hx : dst <+: x) (hsrc : t.isFile src = true)
    (hdst : x ≠ dst → t.get x = none) (hf : t.isFile x = true ∨ t'.isFile x = true)
    (hget : t'.get x = t.get (src ++ x.drop dst.length)) : x = dst := by
  by_contra hne
  obtain ⟨r, rfl⟩ := hx
  have hr : r ≠ [] := fun h => hne (by rw [h, List.append_nil])
  rw [List.drop_left, get_below hsrc hr] at hget
  rcases hf with hf | hf
  · rw [not_isFile (.inl (hdst hne))] at hf
    cases hf
  · rw [not_isFile (.inl hget)] at hf
    cases hf

/-- Whatever the user does is told of. -/
theorem Makes.told (h : op.Makes root t t') (hl : t.Linkless) (hl' : t'.Linkless)
    (hr : root <+: x) (hf : t.isFile x = true ∨ t'.isFile x = true) (hc : t'.get x ≠ t.get x) :
    op.Told t t' x := by
  cases op with
  | put path bytes mode mtime created =>
    obtain ⟨_, hget⟩ := h
    have hx := hget x hr
    split at hx
    next heq =>
      subst heq
      refine .inl ⟨_, List.mem_singleton.2 rfl, rfl, rfl, ?_⟩
      cases created with
      | true => exact ⟨.create, List.mem_singleton.2 rfl⟩
      | false => exact ⟨.modify, List.mem_singleton.2 rfl⟩
    next => exact (hc hx).elim
  | delete path =>
    obtain ⟨_, _, hget⟩ := h
    have hx := hget x hr
    split at hx
    next heq =>
      subst heq
      exact .inl ⟨_, List.mem_singleton.2 rfl, rfl, rfl, .remove, List.mem_singleton.2 rfl⟩
    next => exact (hc hx).elim
  | mkdir path =>
    obtain ⟨_, hnone, hget⟩ := h
    have hx := hget x hr
    split at hx
    next heq =>
      subst heq
      rcases hf with hf | hf
      · rw [not_isFile (.inl hnone)] at hf
        cases hf
      · rw [not_isFile (.inr hx)] at hf
        cases hf
    next => exact (hc hx).elim
  | rmdir path =>
    obtain ⟨_, hdir, hget⟩ := h
    have hx := hget x hr
    split at hx
    next heq =>
      subst heq
      rcases hf with hf | hf
      · rw [not_isFile (.inr hdir)] at hf
        cases hf
      · rw [not_isFile (.inl hx)] at hf
        cases hf
    next => exact (hc hx).elim
  | rename src dst =>
    obtain ⟨_, hin, _, ⟨n, hn, hfree⟩, hget⟩ := h
    obtain ⟨hfrom, hto, harr⟩ := mem_renamed src dst (dirAt t src)
    by_cases hd : n = .dir
    · subst hd
      obtain ⟨e, he, hpaths, harrival⟩ := harr (dirAt_true hn)
      refine .inr (.inl ⟨e, he, dst, hpaths, harrival, ?_⟩)
      rw [hget dst hin.1, if_pos (List.prefix_refl dst), List.drop_length, List.append_nil, hn]
    · have hsrc := isFile_of_get hl hn hd
      have hx := hget x hr
      split at hx
      next hpre =>
        have heq : x = dst := eq_of_moved hpre hsrc (fun hne => by
          obtain ⟨r, rfl⟩ := hpre
          exact hfree.below fun h => hne (by rw [h, List.append_nil])) hf hx
        subst heq
        exact .inl hto
      next =>
        split at hx
        next hpre =>
          obtain ⟨r, rfl⟩ := hpre
          by_cases hrn : r = []
          · subst hrn
            rw [List.append_nil]
            exact .inl hfrom
          · exact (hc (hx.trans (get_below hsrc hrn).symm)).elim
        next => exact (hc hx).elim
  | exchange a b =>
    obtain ⟨hina, hinb, hab, _, ha, hb, hget⟩ := h
    obtain ⟨n, hn⟩ := Option.isSome_iff_exists.1 ha
    obtain ⟨m, hm⟩ := Option.isSome_iff_exists.1 hb
    obtain ⟨_, htob, harrb⟩ := mem_renamed a b (dirAt t a)
    obtain ⟨_, htoa, harra⟩ := mem_renamed b a (dirAt t b)
    have hleft {e} (he : e ∈ renamed a b (dirAt t a)) : e ∈ (exchange a b).events t t' :=
      List.mem_append_left _ he
    have hright {e} (he : e ∈ renamed b a (dirAt t b)) : e ∈ (exchange a b).events t t' :=
      List.mem_append_right _ he
    by_cases hd : n = .dir
    · subst hd
      obtain ⟨e, he, hpaths, harrival⟩ := harrb (dirAt_true hn)
      refine .inr (.inl ⟨e, hleft he, b, hpaths, harrival, ?_⟩)
      rw [hget b hinb.1, if_neg hab, if_pos (List.prefix_refl b), List.drop_length,
        List.append_nil, hn]
    · by_cases hd' : m = .dir
      · subst hd'
        obtain ⟨e, he, hpaths, harrival⟩ := harra (dirAt_true hm)
        refine .inr (.inl ⟨e, hright he, a, hpaths, harrival, ?_⟩)
        rw [hget a hina.1, if_pos (List.prefix_refl a), List.drop_length, List.append_nil, hm]
      · have hfa := isFile_of_get hl hn hd
        have hfb := isFile_of_get hl hm hd'
        have hx := hget x hr
        split at hx
        next hpre =>
          have heq : x = a := eq_of_moved hpre hfb (fun hne => by
            obtain ⟨r, rfl⟩ := hpre
            exact get_below hfa fun h => hne (by rw [h, List.append_nil])) hf hx
          subst heq
          obtain ⟨e, he, hnames⟩ := htoa
          exact .inl ⟨e, hright he, hnames⟩
        next =>
          split at hx
          next hpre =>
            have heq : x = b := eq_of_moved hpre hfa (fun hne => by
              obtain ⟨r, rfl⟩ := hpre
              exact get_below hfb fun h => hne (by rw [h, List.append_nil])) hf hx
            subst heq
            obtain ⟨e, he, hnames⟩ := htob
            exact .inl ⟨e, hleft he, hnames⟩
          next => exact (hc hx).elim
  | leave src =>
    obtain ⟨_, hsome, hget⟩ := h
    obtain ⟨n, hn⟩ := Option.isSome_iff_exists.1 hsome
    have hx := hget x hr
    split at hx
    next hpre =>
      by_cases hd : n = .dir
      · subst hd
        exact .inr (.inr ⟨src, rfl, hn, hpre⟩)
      · have hsrc := isFile_of_get hl hn hd
        obtain ⟨r, rfl⟩ := hpre
        by_cases hrn : r = []
        · subst hrn
          rw [List.append_nil]
          exact .inl ⟨_, List.mem_singleton.2 rfl, rfl, rfl, .renameFrom, List.mem_singleton.2 rfl⟩
        · exact (hc (hx.trans (get_below hsrc hrn).symm)).elim
    next => exact (hc hx).elim
  | arrive dst =>
    obtain ⟨_, ⟨n, hn, hfree⟩, hget⟩ := h
    by_cases hd : n = .dir
    · subst hd
      refine .inr (.inl ⟨_, List.mem_singleton.2 rfl, dst, rfl, ?_, hn⟩)
      rw [NotifyEvent.arrival, dirAt_true hn]
      rfl
    · have hdst := isFile_of_get hl' hn hd
      by_cases hpre : dst <+: x
      · obtain ⟨r, rfl⟩ := hpre
        by_cases hrn : r = []
        · subst hrn
          rw [List.append_nil]
          exact .inl ⟨_, List.mem_singleton.2 rfl, rfl, rfl, .renameTo, List.mem_singleton.2 rfl⟩
        · exact (hc ((get_below hdst hrn).trans (hfree.below hrn).symm)).elim
      · exact (hc (hget x hr hpre)).elim

end UserOp

end Tomo
