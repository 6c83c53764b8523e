import Mathlib.Logic.Relation
import Tomo.Lib.Contents
import Tomo.Session.Caching

namespace Tomo
set_option autoImplicit true

namespace FileTree
variable {N : Type} [Ord N] [Std.TransOrd N] [Std.LawfulEqOrd N] [DecidableEq N]

/-- The names in a directory. -/
def names (t : FileTree N) (d : List N) : List N :=
  t.nodes.keys.filterMap fun q => if q.dropLast = d then q.getLast? else none

theorem mem_names (t : FileTree N) (d : List N) (h : t.get (d ++ [c]) = some n) :
    c ∈ t.names d := by
  rw [names, List.mem_filterMap]
  refine ⟨d ++ [c], ?_, ?_⟩
  · rw [Std.ExtTreeMap.mem_keys, Std.ExtTreeMap.mem_iff_isSome_getElem?]
    exact Option.isSome_iff_exists.2 ⟨n, h⟩
  · rw [if_pos List.dropLast_concat, List.getLast?_concat]

end FileTree

/-- A call that a walk has still to make: to list a directory, to look at an entry of one, and the
two calls of `snapshot`. What an entry was seen with is kept for the cache. -/
inductive FsCall where
  | list (dir : List Name)
  | look (comps : List Name)
  | stat (rel : RelPath) (mtimeNs size : Nat)
  | read (rel : RelPath) (mtimeNs size : Nat) (exec : Bool) (mtimeMs : Nat)
deriving DecidableEq

/-- A full scan on its way, beside everything the disk has been while it ran. -/
structure Walk where
  session : Session
  nowNs : Nat
  cache : ScanCache
  todo : List FsCall
  onDisk : Std.ExtTreeMap RelPath ContentSig
  fresh : ScanCache
  failed : Option CliError
  past : List Tree

namespace Walk

def start (s : Session) (cache : ScanCache) (nowNs : Nat) : Walk :=
  ⟨s, nowNs, cache, [.list []], ∅, ∅, none, [s.tree]⟩

/-- The user changes the disk. -/
def edit (w : Walk) (t : Tree) : Walk :=
  { w with session := { w.session with tree := t }, past := t :: w.past }

/-- The error of a call ends the scan. -/
def fail (w : Walk) (path : List Name) (e : Errno) : Walk :=
  { w with failed := some (.scan path e), todo := [] }

def next (w : Walk) (todo : List FsCall) : Walk := { w with todo }

def record (w : Walk) (rel : RelPath) (sig : ContentSig) (mtimeNs size : Nat) : Walk :=
  { w with onDisk := w.onDisk.insert rel sig, fresh := w.fresh.insert rel ⟨mtimeNs, size, sig⟩ }

section
variable [Platform]

/-- One entry of a directory, which was there for `lstat`. -/
def visit (w : Walk) (comps : List Name) (mtimeNs : Nat) (rest : List FsCall) :
    Node Name → Walk
  | node => match relativize w.session.fs comps with
    | .error _ => w.next rest
    | .ok rel =>
      if (w.session.config.classify rel).cls = .ignored then w.next rest
      else match node with
        | .dir => w.next (.list comps :: rest)
        | .file bytes mode mtime =>
          match scanDecision w.cache[rel]? mtimeNs bytes.length w.nowNs with
          | .reuse hash => (w.next rest).record rel
              ⟨hash, bytes.length, isExecutable mode, mtime⟩ mtimeNs bytes.length
          | .hash => w.next (.stat rel mtimeNs bytes.length :: rest)
        | .link _ => w.next rest

/-- The next call: the order in which a directory is listed and the mtime in nanoseconds are the
file system's. -/
def call (w : Walk) (order : List Name) (mtimeNs : Nat) : Walk :=
  match w.todo with
  | [] => w
  | .list dir :: rest =>
    match w.session.tree.stat true (w.session.root ++ dir) with
    | .ok .dir => w.next (order.map (fun c => .look (dir ++ [c])) ++ rest)
    | .ok (.file ..) | .ok (.link _) => w.fail (w.session.root ++ dir) .notdir
    | .error e => w.fail (w.session.root ++ dir) e
  | .look comps :: rest =>
    match w.session.tree.stat false (w.session.root ++ comps) with
    | .ok node => w.visit comps mtimeNs rest node
    | .error .noent => w.next rest
    | .error e => w.fail (w.session.root ++ comps) e
  | .stat rel seenNs size :: rest =>
    match w.session.tree.stat false (join w.session.root rel) with
    | .ok (.file _ mode mtime) =>
      w.next (.read rel seenNs size (isExecutable mode) mtime :: rest)
    | .ok .dir | .ok (.link _) | .error .noent => w.next rest
    | .error e => w.fail (join w.session.root rel) e
  | .read rel seenNs size exec mtime :: rest =>
    match w.session.tree.read (join w.session.root rel) with
    | .ok bytes => (w.next rest).record rel ⟨Platform.blake3 bytes, bytes.length, exec, mtime⟩
        seenNs size
    | .error .noent => w.next rest
    | .error e => w.fail (join w.session.root rel) e

/-- What the file system answers a call with besides success or an error. -/
def Shows (w : Walk) (order : List Name) (mtimeNs : Nat) : Prop :=
  match w.todo with
  | .list dir :: _ => ∀ q, w.session.tree.locate true (w.session.root ++ dir) = .ok q →
      order.Perm (w.session.tree.names q)
  | .look comps :: _ => ∀ bytes mode mtime,
      w.session.tree.stat false (w.session.root ++ comps) = .ok (.file bytes mode mtime) →
      mtimeNs / 1000000 = mtime
  | _ => True

/-- The scan makes its calls one after the other, and the user does anything in between. -/
inductive Step : Walk → Walk → Prop where
  | edit (w : Walk) (t : Tree) (hn : Session.Named { w.session with tree := t }) : Step w (w.edit t)
  | call (w : Walk) (order : List Name) (mtimeNs : Nat) (h : w.Shows order mtimeNs) :
    Step w (w.call order mtimeNs)

/-- The index shows a file, and the rules do not ignore it. -/
def Tracked (s : Session) (p : RelPath) : Prop :=
  (∃ sig, s.engine.winnerState p = some (.present sig)) ∧ (s.config.classify p).cls ≠ .ignored

/-- A call finds what it goes by. A directory is there to be listed; no part of a path has become a
file or a link, and no file a directory or a link, when it is looked at or read; no tracked file is
below an ignored directory; and a hash is reused for the content it is of. -/
def Calm (w : Walk) (mtimeNs : Nat) : Prop :=
  match w.todo with
  | [] => True
  | .list dir :: _ => w.session.tree.stat true (w.session.root ++ dir) = .ok .dir
  | .look comps :: _ =>
    match w.session.tree.stat false (w.session.root ++ comps) with
    | .ok (.file bytes _ _) => w.session.tree.isFile (w.session.root ++ comps) = true ∧
        ∀ rel hash, relativize w.session.fs comps = .ok rel →
          scanDecision w.cache[rel]? mtimeNs bytes.length w.nowNs = .reuse hash →
          hash = Platform.blake3 bytes
    | .ok .dir => ∀ rel p, relativize w.session.fs comps = .ok rel →
        (w.session.config.classify rel).cls = .ignored → comps <+: p.components →
        Tracked w.session p → w.session.tree.isFile (join w.session.root p) = false
    | .ok (.link _) => True
    | .error e => e = .noent
  | .stat rel _ _ :: _ =>
    match w.session.tree.stat false (join w.session.root rel) with
    | .ok (.file ..) => w.session.tree.isFile (join w.session.root rel) = true
    | .ok .dir | .ok (.link _) => True
    | .error e => e = .noent
  | .read rel _ _ _ _ :: _ =>
    match w.session.tree.read (join w.session.root rel) with
    | .ok _ => w.session.tree.isFile (join w.session.root rel) = true
    | .error e => e = .noent

/-- A step whose call, if it is one, meets the condition. -/
inductive CalmStep : Walk → Walk → Prop where
  | edit (w : Walk) (t : Tree) (hn : Session.Named { w.session with tree := t }) :
    CalmStep w (w.edit t)
  | call (w : Walk) (order : List Name) (mtimeNs : Nat) (h : w.Shows order mtimeNs)
      (hc : w.Calm mtimeNs) : CalmStep w (w.call order mtimeNs)

/-- A file had the content of a signature at some moment of the scan. -/
def HadContent (w : Walk) (p : RelPath) (sig : ContentSig) : Prop :=
  ∃ t ∈ w.past, ∃ bytes mode mtime,
    t.get (join w.session.root p) = some (.file bytes mode mtime) ∧ matchesSig bytes sig = true

omit [Platform] in
/-- A file was executable, or was not, at some moment of the scan. -/
def HadMode (w : Walk) (p : RelPath) (exec : Bool) : Prop :=
  ∃ t ∈ w.past, ∃ bytes mode mtime,
    t.get (join w.session.root p) = some (.file bytes mode mtime) ∧ isExecutable mode = exec

/-- The scan has not failed; once it is done, what it reports as removed was missing at some
moment; and what it reports as modified had that content and that mode. -/
structure Faithful (w : Walk) : Prop where
  ok : w.failed = none
  removed : w.todo = [] → ∀ p, ⟨p, .removed⟩ ∈ reportedChanges w.session w.onDisk →
    ∃ t ∈ w.past, t.isFile (join w.session.root p) = false
  modified : ∀ p sig, ⟨p, .modified sig⟩ ∈ reportedChanges w.session w.onDisk →
    w.HadContent p sig ∧ w.HadMode p sig.exec

/-- A tracked file that was there all the time. -/
def Steady (w : Walk) (p : RelPath) : Prop :=
  Tracked w.session p ∧ ∀ t ∈ w.past, t.isFile (join w.session.root p) = true

/-- A call gets to a path, at once or through those that follow from it. -/
def LeadsTo (p : RelPath) : FsCall → Prop
  | .list dir => dir <+: p.components ∧ dir ≠ p.components
  | .look comps => comps ≠ [] ∧ comps <+: p.components
  | .stat rel _ _ | .read rel _ _ _ _ => rel = p

/-- Everything found was there, and every steady file is found or still to come. -/
structure Inv (w : Walk) : Prop where
  ok : w.failed = none
  named : w.session.Named
  now : w.session.tree ∈ w.past
  held : ∀ (p : RelPath) sig, w.onDisk[p]? = some sig → w.HadContent p sig ∧ w.HadMode p sig.exec
  moded : ∀ rel seenNs size exec mtime, .read rel seenNs size exec mtime ∈ w.todo →
    w.HadMode rel exec
  due : ∀ p, w.Steady p → (w.onDisk[p]?).isSome = true ∨ ∃ c ∈ w.todo, LeadsTo p c

variable {w w' : Walk} {order : List Name} {mtimeNs : Nat} {rest : List FsCall}

theorem Inv.start {s : Session} (hn : s.Named) (cache : ScanCache) (nowNs : Nat) :
    (start s cache nowNs).Inv where
  ok := rfl
  named := hn
  now := List.mem_cons_self
  held p sig h := by cases h
  moded rel seenNs size exec mtime h := by
    rcases List.mem_cons.1 h with h | h
    · cases h
    · cases h
  due p _ := .inr ⟨.list [], List.mem_cons_self, List.nil_prefix, p.components_ne_nil.symm⟩

theorem Inv.edit (h : w.Inv) {t : Tree} (hn : Session.Named { w.session with tree := t }) :
    (w.edit t).Inv where
  ok := h.ok
  named := hn
  now := List.mem_cons_self
  held p sig hp := by
    obtain ⟨⟨u, hu, hc⟩, v, hv, hm⟩ := h.held p sig hp
    exact ⟨⟨u, List.mem_cons_of_mem t hu, hc⟩, v, List.mem_cons_of_mem t hv, hm⟩
  moded rel seenNs size exec mtime hr := by
    obtain ⟨u, hu, hm⟩ := h.moded rel seenNs size exec mtime hr
    exact ⟨u, List.mem_cons_of_mem t hu, hm⟩
  due p hp := h.due p ⟨hp.1, fun u hu => hp.2 u (List.mem_cons_of_mem t hu)⟩

/-- A call gives way to those that follow from it. -/
theorem Inv.next (h : w.Inv) {c : FsCall} (new : List FsCall) (hc : w.todo = c :: rest)
    (hm : ∀ rel seenNs size exec mtime, .read rel seenNs size exec mtime ∈ new →
      w.HadMode rel exec)
    (hd : ∀ p, w.Steady p → LeadsTo p c → ∃ d ∈ new, LeadsTo p d) :
    (w.next (new ++ rest)).Inv where
  ok := h.ok
  named := h.named
  now := h.now
  held := h.held
  moded rel seenNs size exec mtime hr := by
    rcases List.mem_append.1 hr with hr | hr
    · exact hm rel seenNs size exec mtime hr
    · exact h.moded rel seenNs size exec mtime (by rw [hc]; exact List.mem_cons_of_mem c hr)
  due p hp := by
    rcases h.due p hp with hk | ⟨d, hd', hl⟩
    · exact .inl hk
    · rw [hc] at hd'
      rcases List.mem_cons.1 hd' with rfl | hd'
      · obtain ⟨e, he, hl⟩ := hd p hp hl
        exact .inr ⟨e, List.mem_append_left rest he, hl⟩
      · exact .inr ⟨d, List.mem_append_right new hd', hl⟩

/-- A call that leads to no steady file is passed over. -/
theorem Inv.skip (h : w.Inv) {c : FsCall} (hc : w.todo = c :: rest)
    (hd : ∀ p, w.Steady p → ¬LeadsTo p c) : (w.next rest).Inv :=
  h.next [] hc (fun _ _ _ _ _ hr => by cases hr) fun p hp hl => (hd p hp hl).elim

/-- A call ends with a signature for its path. -/
theorem Inv.record (h : w.Inv) {c : FsCall} (hc : w.todo = c :: rest) {rel : RelPath}
    {sig : ContentSig} (hs : w.HadContent rel sig) (hm : w.HadMode rel sig.exec)
    (hd : ∀ p, w.Steady p → LeadsTo p c → rel = p) (seenNs size : Nat) :
    ((w.next rest).record rel sig seenNs size).Inv := by
  have hget (q : RelPath) : (w.onDisk.insert rel sig)[q]? =
      if rel = q then some sig else w.onDisk[q]? := by
    simp only [Std.ExtTreeMap.getElem?_insert, Std.compare_eq_iff_eq]
  refine ⟨h.ok, h.named, h.now, fun p sig' hp => ?_, fun r seenNs size exec mtime hr => ?_,
    fun p hp => ?_⟩
  · have hp' := (hget p).symm.trans hp
    split at hp'
    next he =>
      subst he
      cases hp'
      exact ⟨hs, hm⟩
    next => exact h.held p sig' hp'
  · exact h.moded r seenNs size exec mtime (by rw [hc]; exact List.mem_cons_of_mem c hr)
  · have hkeep (hk : rel = p ∨ (w.onDisk[p]?).isSome = true) :
        ((w.onDisk.insert rel sig)[p]?).isSome = true := by
      rw [hget]
      split
      next => rfl
      next hne => exact hk.resolve_left hne
    rcases h.due p hp with hk | ⟨d, hd', hl⟩
    · exact .inl (hkeep (.inr hk))
    · rw [hc] at hd'
      rcases List.mem_cons.1 hd' with rfl | hd'
      · exact .inl (hkeep (.inl (hd p hp hl)))
      · exact .inr ⟨d, hd', hl⟩

/-- A steady file is there now, below real directories. -/
theorem Inv.steady_now (h : w.Inv) {p : RelPath} (hp : w.Steady p) :
    ∃ bytes mode mtime, w.session.tree.get (join w.session.root p) = some (.file bytes mode mtime) :=
  FileTree.isFile_iff.1 (hp.2 _ h.now)

theorem Inv.steady_above (h : w.Inv) {p : RelPath} (hp : w.Steady p) {dir : List Name}
    (hd : dir <+: p.components) (hne : dir ≠ p.components) :
    w.session.tree.get (w.session.root ++ dir) = some .dir := by
  obtain ⟨bytes, mode, mtime, hg⟩ := h.steady_now hp
  obtain ⟨q, hq⟩ := hd
  rw [join, ← hq, ← List.append_assoc] at hg
  refine w.session.tree.get_above hg fun hn => hne ?_
  rw [← hq, hn, List.append_nil]

theorem Inv.steady_stat (h : w.Inv) {p : RelPath} (hp : w.Steady p) : ∃ bytes mode mtime,
    w.session.tree.stat false (join w.session.root p) = .ok (.file bytes mode mtime) := by
  obtain ⟨bytes, mode, mtime, hg⟩ := h.steady_now hp
  exact ⟨bytes, mode, mtime, FileTree.stat_get hg fun l hl => by cases hl⟩

theorem Inv.list (h : w.Inv) {dir : List Name} (ht : w.todo = .list dir :: rest)
    (hs : w.Shows order mtimeNs) (hc : w.Calm mtimeNs) : (w.call order mtimeNs).Inv := by
  simp only [Calm, ht] at hc
  simp only [Shows, ht] at hs
  simp only [call, ht, hc]
  refine h.next _ ht (fun rel seenNs size exec mtime hr => ?_) fun p hp hl => ?_
  · obtain ⟨c, _, hr⟩ := List.mem_map.1 hr
    cases hr
  · obtain ⟨hpre, hne⟩ := hl
    have hdir := h.steady_above hp hpre hne
    obtain ⟨q, hq⟩ := hpre
    cases q with
    | nil => exact (hne (by rw [← hq, List.append_nil])).elim
    | cons c q =>
      have hget : ∃ n, w.session.tree.get (w.session.root ++ dir ++ [c]) = some n := by
        obtain ⟨bytes, mode, mtime, hg⟩ := h.steady_now hp
        rw [join, ← hq, List.append_cons, ← List.append_assoc, ← List.append_assoc] at hg
        by_cases hqn : q = []
        · rw [hqn, List.append_nil] at hg
          exact ⟨_, hg⟩
        · exact ⟨_, w.session.tree.get_above hg hqn⟩
      obtain ⟨n, hn⟩ := hget
      have hperm := hs _ (FileTree.locate_get hdir fun l hl => by cases hl)
      have hmem := hperm.mem_iff.2 (w.session.tree.mem_names _ hn)
      refine ⟨.look (dir ++ [c]), List.mem_map.2 ⟨c, hmem, rfl⟩, ?_, q, ?_⟩
      · exact List.append_ne_nil_of_right_ne_nil dir (List.cons_ne_nil c [])
      · rw [← hq, List.append_assoc]
        rfl

/-- An entry on the way to a steady file is a directory, or that file. -/
theorem Inv.steady_look (h : w.Inv) {p : RelPath} (hp : w.Steady p) {comps : List Name}
    (hl : LeadsTo p (.look comps)) : (∃ d, relativize w.session.fs comps = .ok d) ∧
      (w.session.tree.stat false (w.session.root ++ comps) = .ok .dir ∧ comps ≠ p.components ∨
        comps = p.components ∧ relativize w.session.fs comps = .ok p ∧
          ∃ bytes mode mtime, w.session.tree.stat false (w.session.root ++ comps) =
            .ok (.file bytes mode mtime)) := by
  obtain ⟨hne, hpre⟩ := hl
  obtain ⟨d, hd⟩ := p.exists_prefix hpre hne
  by_cases heq : comps = p.components
  · obtain ⟨bytes, mode, mtime, hg⟩ := h.steady_now hp
    subst heq
    have hr := (h.named.relativize_iff hg).2 rfl
    exact ⟨⟨p, hr⟩, .inr ⟨rfl, hr, bytes, mode, mtime, FileTree.stat_get hg fun l hl => by cases hl⟩⟩
  · have hg := h.steady_above hp hpre heq
    exact ⟨⟨d, (h.named.relativize_iff hg).2 hd⟩,
      .inl ⟨FileTree.stat_get hg (fun l hl => by cases hl), heq⟩⟩

/-- What is at a path that was found under its components. -/
theorem Inv.at_rel (h : w.Inv) {comps : List Name} {rel : RelPath}
    (hf : w.session.tree.isFile (w.session.root ++ comps) = true)
    (hr : relativize w.session.fs comps = .ok rel) : rel.components = comps := by
  obtain ⟨bytes, mode, mtime, hg⟩ := FileTree.isFile_iff.1 hf
  exact (h.named.relativize_iff hg).1 hr

theorem Inv.look (h : w.Inv) {comps : List Name} (ht : w.todo = .look comps :: rest)
    (hc : w.Calm mtimeNs) : (w.call order mtimeNs).Inv := by
  simp only [Calm, ht] at hc
  simp only [call, ht]
  cases hst : w.session.tree.stat false (w.session.root ++ comps) with
  | error e =>
    rw [hst] at hc
    subst hc
    refine h.skip ht fun p hp hl => ?_
    rcases (h.steady_look hp hl).2 with ⟨hd, _⟩ | ⟨_, _, _, _, _, hf⟩
    · rw [hst] at hd
      cases hd
    · rw [hst] at hf
      cases hf
  | ok node =>
    rw [hst] at hc
    simp only [visit]
    cases hr : relativize w.session.fs comps with
    | error e =>
      refine h.skip ht fun p hp hl => ?_
      obtain ⟨⟨d, hd⟩, _⟩ := h.steady_look hp hl
      rw [hr] at hd
      cases hd
    | ok rel =>
      dsimp only
      split
      next hig =>
        refine h.skip ht fun p hp hl => ?_
        rcases (h.steady_look hp hl).2 with ⟨hd, _⟩ | ⟨_, hp', _⟩
        · rw [hst] at hd
          cases hd
          have hgone := hc rel p hr hig hl.2 hp.1
          rw [hp.2 _ h.now] at hgone
          cases hgone
        · rw [hr] at hp'
          cases hp'
          exact hp.1.2 hig
      next hig =>
        cases node with
        | dir =>
          refine h.next [.list comps] ht (fun _ _ _ _ _ hm => ?_) fun p hp hl => ?_
          · rcases List.mem_cons.1 hm with hm | hm
            · cases hm
            · cases hm
          · refine ⟨.list comps, List.mem_cons_self, hl.2, ?_⟩
            rcases (h.steady_look hp hl).2 with ⟨_, hne⟩ | ⟨_, _, _, _, _, hf⟩
            · exact hne
            · rw [hst] at hf
              cases hf
        | link target =>
          refine h.skip ht fun p hp hl => ?_
          rcases (h.steady_look hp hl).2 with ⟨hd, _⟩ | ⟨_, _, _, _, _, hf⟩
          · rw [hst] at hd
            cases hd
          · rw [hst] at hf
            cases hf
        | file bytes mode mtime =>
          have hlead (p : RelPath) (hp : w.Steady p) (hl : LeadsTo p (.look comps)) : rel = p := by
            rcases (h.steady_look hp hl).2 with ⟨hd, _⟩ | ⟨_, hp', _⟩
            · rw [hst] at hd
              cases hd
            · rw [hr] at hp'
              cases hp'
              rfl
          dsimp only
          split
          next hash hdec =>
            obtain ⟨hfile, hhash⟩ := hc
            obtain ⟨b, m, k, hg⟩ := FileTree.isFile_iff.1 hfile
            cases hst.symm.trans (FileTree.stat_get hg fun l hl => by cases hl)
            have hjoin : join w.session.root rel = w.session.root ++ comps := by
              rw [join, h.at_rel hfile hr]
            rw [← hjoin] at hg
            refine h.record ht ⟨_, h.now, _, _, _, hg, ?_⟩ ⟨_, h.now, _, _, _, hg, rfl⟩ hlead _ _
            exact (matchesSig_iff _ _).2 ⟨rfl, (hhash rel hash hr hdec).symm⟩
          next hdec =>
            refine h.next [.stat rel mtimeNs bytes.length] ht (fun _ _ _ _ _ hm => ?_)
              fun p hp hl => ⟨_, List.mem_cons_self, hlead p hp hl⟩
            rcases List.mem_cons.1 hm with hm | hm
            · cases hm
            · cases hm

theorem Inv.stat (h : w.Inv) {rel : RelPath} {seenNs size : Nat}
    (ht : w.todo = .stat rel seenNs size :: rest) (hc : w.Calm mtimeNs) :
    (w.call order mtimeNs).Inv := by
  simp only [Calm, ht] at hc
  simp only [call, ht]
  have hskip (hno : ∀ bytes mode mtime, w.session.tree.stat false (join w.session.root rel) ≠
      .ok (.file bytes mode mtime)) : (w.next rest).Inv := by
    refine h.skip ht fun p hp hl => ?_
    obtain rfl : rel = p := hl
    obtain ⟨bytes, mode, mtime, hf⟩ := h.steady_stat hp
    exact hno bytes mode mtime hf
  cases hst : w.session.tree.stat false (join w.session.root rel) with
  | error e =>
    rw [hst] at hc
    subst hc
    exact hskip fun _ _ _ hf => by rw [hst] at hf; cases hf
  | ok node =>
    rw [hst] at hc
    cases node with
    | dir => exact hskip fun _ _ _ hf => by rw [hst] at hf; cases hf
    | link target => exact hskip fun _ _ _ hf => by rw [hst] at hf; cases hf
    | file bytes mode mtime =>
      obtain ⟨b, m, k, hg⟩ := FileTree.isFile_iff.1 hc
      cases hst.symm.trans (FileTree.stat_get hg fun l hl => by cases hl)
      refine h.next [.read rel seenNs size (isExecutable mode) mtime] ht
        (fun r s z e t hm => ?_) fun p hp hl => ⟨_, List.mem_cons_self, hl⟩
      rcases List.mem_cons.1 hm with hm | hm
      · cases hm
        exact ⟨_, h.now, _, _, _, hg, rfl⟩
      · cases hm

theorem Inv.read (h : w.Inv) {rel : RelPath} {seenNs size mtime : Nat} {exec : Bool}
    (ht : w.todo = .read rel seenNs size exec mtime :: rest) (hc : w.Calm mtimeNs) :
    (w.call order mtimeNs).Inv := by
  simp only [Calm, ht] at hc
  simp only [call, ht]
  have hread {b : Bytes} {m k : Nat}
      (hg : w.session.tree.get (join w.session.root rel) = some (.file b m k)) :
      w.session.tree.read (join w.session.root rel) = .ok b := by
    rw [FileTree.read, FileTree.stat_get hg fun l hl => by cases hl]
    rfl
  cases hr : w.session.tree.read (join w.session.root rel) with
  | error e =>
    rw [hr] at hc
    subst hc
    refine h.skip ht fun p hp hl => ?_
    obtain rfl : rel = p := hl
    obtain ⟨b, m, k, hg⟩ := h.steady_now hp
    rw [hread hg] at hr
    cases hr
  | ok bytes =>
    rw [hr] at hc
    obtain ⟨b, m, k, hg⟩ := FileTree.isFile_iff.1 hc
    rw [hread hg] at hr
    cases hr
    have hmode := h.moded rel seenNs size exec mtime (by rw [ht]; exact List.mem_cons_self)
    exact h.record ht ⟨_, h.now, _, _, _, hg, (matchesSig_iff _ _).2 ⟨rfl, rfl⟩⟩ hmode
      (fun p hp hl => hl) _ _

theorem Calm.noent {comps : List Name} (ht : w.todo = .look comps :: rest)
    (h : w.session.tree.stat false (w.session.root ++ comps) = .error .noent) :
    w.Calm mtimeNs := by
  simp only [Calm, ht, h]

theorem CalmStep.inv (h : w.Inv) (hstep : CalmStep w w') : w'.Inv := by
  cases hstep with
  | edit t hn => exact h.edit hn
  | call order mtimeNs hs hc =>
    cases ht : w.todo with
    | nil =>
      simp only [Walk.call, ht]
      exact h
    | cons c rest =>
      cases c with
      | list dir => exact h.list ht hs hc
      | look comps => exact h.look ht hc
      | stat rel seenNs size => exact h.stat ht hc
      | read rel seenNs size exec mtime => exact h.read ht hc

omit [Platform] in
theorem mem_reportedChanges (s : Session) (onDisk : Std.ExtTreeMap RelPath ContentSig)
    (p : RelPath) (k : ChangeKind) : ⟨p, k⟩ ∈ reportedChanges s onDisk ↔
      (∃ sig, k = .modified sig ∧ onDisk[p]? = some sig ∧
        diskDiffers s.engine.index p sig = true) ∨
      k = .removed ∧ onDisk[p]? = none ∧ Tracked s p := by
  rw [reportedChanges, List.mem_map]
  constructor
  · rintro ⟨⟨q, k⟩, he, heq⟩
    cases heq
    have hr := Std.ExtTreeMap.mem_toList_iff_getElem?_eq_some.1 he
    exact ((Session.collect_reports q k).1 hr).imp_right fun ⟨h1, h2, h3, h4⟩ => ⟨h1, h2, h4, h3⟩
  · intro h
    refine ⟨(p, k), Std.ExtTreeMap.mem_toList_iff_getElem?_eq_some.2 ?_, rfl⟩
    exact (Session.collect_reports p k).2 (h.imp_right fun ⟨h1, h2, h4, h3⟩ => ⟨h1, h2, h3, h4⟩)

theorem Inv.faithful (h : w.Inv) : w.Faithful where
  ok := h.ok
  removed hdone p hp := by
    rcases (mem_reportedChanges ..).1 hp with ⟨sig, hk, _⟩ | ⟨_, hnone, htracked⟩
    · cases hk
    · by_contra hall
      have hsteady : w.Steady p := ⟨htracked, fun t ht => by_contra fun hf =>
        hall ⟨t, ht, Bool.eq_false_iff.2 hf⟩⟩
      rcases h.due p hsteady with hd | ⟨c, hc, _⟩
      · rw [hnone] at hd
        cases hd
      · rw [hdone] at hc
        cases hc
  modified p sig hp := by
    rcases (mem_reportedChanges ..).1 hp with ⟨sig', hk, hd, _⟩ | ⟨hk, _⟩
    · cases hk
      exact h.held p sig hd
    · cases hk

/-- A scan of a changing tree whose calls find what they go by does not fail, and reports nothing
that was not so at some moment. -/
theorem CalmRun.survives {s : Session} {cache : ScanCache} {nowNs : Nat} (hn : s.Named)
    (hrun : Relation.ReflTransGen CalmStep (Walk.start s cache nowNs) w) : w.Faithful := by
  have hinv : w.Inv := by
    induction hrun with
    | refl => exact .start hn cache nowNs
    | tail _ hstep ih => exact hstep.inv ih
  exact hinv.faithful

end

end Walk

/-- A root with one empty directory. -/
def hollowTree : Tree := ((FileTree.empty : Tree).put rootDir .dir).put (rootDir ++ [['a']]) .dir

/-- The same root once the directory is removed. -/
def hollowedTree : Tree := (FileTree.empty : Tree).put rootDir .dir

def hollowSession : Session := .start rootDir syncAll fooEngine .new hollowTree

section
variable [Platform]

/-- The root is listed and the directory looked at. -/
def Walk.looked : Walk := ((Walk.start hollowSession ∅ 0).call [['a']] 0).call [] 0

/-- The directory is removed before it is listed. -/
def Walk.vanished : Walk := (Walk.looked.edit hollowedTree).call [] 0

theorem hollowSession_named : hollowSession.Named :=
  Session.named_of_nodes rfl (by decide +kernel)

omit [Platform] in
theorem Walk.hollow_shows : (Walk.start hollowSession ∅ 0).Shows [['a']] 0 := by
  intro q hq
  have hroot : hollowSession.tree.locate true rootDir = .ok rootDir := by decide +kernel
  have hnames : hollowSession.tree.names rootDir = [['a']] := by decide +kernel
  cases hroot.symm.trans hq
  change [['a']].Perm (hollowSession.tree.names rootDir)
  rw [hnames]

theorem Walk.looked_run :
    Relation.ReflTransGen Walk.Step (Walk.start hollowSession ∅ 0) Walk.looked := by
  have hlook : ((Walk.start hollowSession ∅ 0).call [['a']] 0).Shows [] 0 := by
    intro bytes mode mtime hf
    have hdir : hollowSession.tree.stat false (rootDir ++ [['a']]) = .ok .dir := by decide +kernel
    cases hdir.symm.trans hf
  exact (Relation.ReflTransGen.single (.call _ [['a']] 0 Walk.hollow_shows)).tail (.call _ [] 0 hlook)

end

/-- A directory that is removed between the look at it and the listing of it ends the scan, and
with it the session. -/
theorem Walk.vanished_fails :
    letI := tabulated shortHashes
    hollowSession.Named ∧
      Relation.ReflTransGen Walk.Step (Walk.start hollowSession ∅ 0) Walk.vanished ∧
      Walk.vanished.failed = some (.scan (rootDir ++ [['a']]) .noent) ∧
      ¬Walk.vanished.Faithful := by
  let platform := tabulated shortHashes
  have hfailed : Walk.vanished.failed = some (.scan (rootDir ++ [['a']]) .noent) := by
    decide +kernel
  have hnamed : Session.Named { Walk.looked.session with tree := hollowedTree } :=
    Session.named_of_nodes rfl (by decide +kernel)
  have hlist : (Walk.looked.edit hollowedTree).Shows [] 0 := by
    intro q hq
    have hpath : hollowedTree.locate true (rootDir ++ [['a']]) = .ok (rootDir ++ [['a']]) := by
      decide +kernel
    have hnames : hollowedTree.names (rootDir ++ [['a']]) = [] := by decide +kernel
    cases hpath.symm.trans hq
    change [].Perm (hollowedTree.names (rootDir ++ [['a']]))
    rw [hnames]
  refine ⟨hollowSession_named, ?_, hfailed, fun h => ?_⟩
  · exact (Walk.looked_run.tail (.edit _ hollowedTree hnamed)).tail (.call _ [] 0 hlist)
  · have hok := h.ok
    rw [hfailed] at hok
    cases hok

/-- The same directory, removed before the look at it. -/
theorem Walk.CalmRun.survives_hollow :
    letI := tabulated shortHashes
    Walk.Faithful ((((Walk.start hollowSession ∅ 0).call [['a']] 0).edit hollowedTree).call [] 0) := by
  let platform := tabulated shortHashes
  have hnamed : Session.Named
      { ((Walk.start hollowSession ∅ 0).call [['a']] 0).session with tree := hollowedTree } :=
    Session.named_of_nodes rfl (by decide +kernel)
  have hlist : (Walk.start hollowSession ∅ 0).Calm 0 := by
    change hollowSession.tree.stat true rootDir = .ok .dir
    decide +kernel
  have hgone : hollowedTree.stat false (rootDir ++ [['a']]) = .error .noent := by decide +kernel
  refine Walk.CalmRun.survives hollowSession_named (((Relation.ReflTransGen.single
    (.call _ _ _ Walk.hollow_shows hlist)).tail (.edit _ _ hnamed)).tail (.call _ _ _ ?_ ?_))
  · intro bytes mode mtime hf
    cases hgone.symm.trans hf
  · exact Walk.Calm.noent rfl hgone

end Tomo
