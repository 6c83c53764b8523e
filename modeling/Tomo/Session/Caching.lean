import Tomo.Session.Scanning

namespace Tomo
set_option autoImplicit true

/-- A file modified this recently is always hashed. -/
def recentWindowNs : Nat := 2000000000

/-- What the scan remembers of a file. -/
structure CacheEntry where
  mtimeNs : Nat
  size : Nat
  sig : ContentSig
deriving DecidableEq

abbrev ScanCache := Std.ExtTreeMap RelPath CacheEntry

inductive ScanDecision where
  | hash
  | reuse (hash : ContentHash)
deriving DecidableEq

/-- `decide` of the source: a remembered hash is reused where the mtime and the size still match
and the mtime is not recent. -/
def scanDecision (cached : Option CacheEntry) (mtimeNs size nowNs : Nat) : ScanDecision :=
  if nowNs ≤ saturatingAdd mtimeNs recentWindowNs then .hash
  else
    match cached with
    | some e => if e.mtimeNs = mtimeNs ∧ e.size = size then .reuse e.sig.hash else .hash
    | none => .hash

theorem scanDecision_reuse {cached : Option CacheEntry} {mtimeNs size nowNs : Nat}
    {hash : ContentHash} (hd : scanDecision cached mtimeNs size nowNs = .reuse hash) :
    ∃ e, cached = some e ∧ e.mtimeNs = mtimeNs ∧ e.size = size ∧ e.sig.hash = hash := by
  simp only [scanDecision] at hd
  split at hd
  · cases hd
  · split at hd
    next e =>
      split at hd
      next hmatch =>
        cases hd
        exact ⟨e, rfl, hmatch.1, hmatch.2, rfl⟩
      · cases hd
    · cases hd

/-- A regular file; `written` is the moment its content was last changed. -/
structure DiskFile where
  bytes : Bytes
  exec : Bool
  mtimeNs : Nat
  written : Nat
deriving DecidableEq

namespace DiskFile

def statEntry (f : DiskFile) (sig : ContentSig) : CacheEntry := ⟨f.mtimeNs, f.bytes.length, sig⟩

def sigOf (f : DiskFile) (hash : ContentHash) : ContentSig :=
  ⟨hash, f.bytes.length, f.exec, f.mtimeNs / 1000000⟩

end DiskFile

/-- Whether a full walk gets to a path: neither it nor a directory above it is ignored. -/
def Config.walks (config : Config) (p : RelPath) : Bool :=
  (List.range p.components.length).all fun k =>
    match RelPath.new (['/'].intercalate (p.components.take (k + 1))) with
    | .ok rel => decide ((config.classify rel).cls ≠ .ignored)
    | .error _ => false

/-- The changes that a scan reports once it has the signatures of the files on disk. -/
def reportedChanges (s : Session) (onDisk : Std.ExtTreeMap RelPath ContentSig) :
    List LocalChange :=
  (Collect.collect (s.gone onDisk) s.engine.index.iter
    (Collect.collect s.found onDisk.toList ∅)).toList.map fun e => ⟨e.1, e.2⟩

/-- A scan on its way: the paths to visit, the mtime and size the first of them was seen with
before it is hashed, and what has been found. -/
structure ScanRun where
  nowNs : Nat
  todo : List RelPath
  looked : Option (Nat × Nat)
  onDisk : Std.ExtTreeMap RelPath ContentSig
  fresh : ScanCache

namespace ScanRun

/-- The next path is no regular file. -/
def skip (r : ScanRun) : ScanRun := { r with todo := r.todo.tail, looked := none }

def record (r : ScanRun) (p : RelPath) (sig : ContentSig) (e : CacheEntry) : ScanRun :=
  { r.skip with onDisk := r.onDisk.insert p sig, fresh := r.fresh.insert p e }

end ScanRun

/-- That a file had a content, by its hash, at a modification time and size. -/
structure Stood where
  path : RelPath
  mtimeNs : Nat
  size : Nat
  hash : ContentHash
deriving DecidableEq

/-- The session's cache beside the disk. Signatures whose files are not yet statted for the cache
are `held`. -/
structure Caching where
  nowNs : Nat
  files : Std.ExtTreeMap RelPath DiskFile
  cache : ScanCache
  saved : ScanCache
  held : List (RelPath × ContentSig)
  scan : Option ScanRun
  had : List Stood

inductive CacheMove where
  | tick (ns : Nat)
  | write (p : RelPath) (bytes : Bytes) (exec : Bool) (mtimeNs : Nat)
  | chmod (p : RelPath) (exec : Bool)
  | remove (p : RelPath)
  | observe (p : RelPath) (sig : ContentSig)
  | install (p : RelPath) (bytes : Bytes) (sig : ContentSig) (mtimeNs : Nat)
  | note
  | noteAbsent (p : RelPath)
  | beginScan (todo : List RelPath)
  | look
  | hash
  | endScan
  | persist
  | restart (readable : Bool)

namespace Caching

def start : Caching := ⟨0, ∅, ∅, ∅, [], none, []⟩

section
variable [Platform]

/-- Another content comes to a path. -/
def put (s : Caching) (p : RelPath) (f : DiskFile) : Caching :=
  { s with
    files := s.files.insert p f
    had := ⟨p, f.mtimeNs, f.bytes.length, Platform.blake3 f.bytes⟩ :: s.had }

/-- The user's moves come at any time, the session's one after the other. The file system gives a
content that the user writes a new mtime, not before now. -/
def step (config : Config) (s : Caching) : CacheMove → Option Caching
  | .tick ns => some { s with nowNs := s.nowNs + ns }
  | .write p bytes exec mtimeNs =>
    if s.nowNs ≤ mtimeNs ∧ (s.files[p]?.all fun f => f.mtimeNs ≠ mtimeNs) then
      some (s.put p ⟨bytes, exec, mtimeNs, s.nowNs⟩)
    else none
  | .chmod p exec =>
    match s.files[p]? with
    | some f => some { s with files := s.files.insert p { f with exec := exec } }
    | none => none
  | .remove p => some { s with files := s.files.erase p }
  | .observe p sig =>
    match s.files[p]? with
    | some f =>
      if s.scan.isNone ∧ matchesSig f.bytes sig then some { s with held := s.held ++ [(p, sig)] }
      else none
    | none => none
  | .install p bytes sig mtimeNs =>
    if s.scan.isNone ∧ matchesSig bytes sig then
      some { s.put p ⟨bytes, sig.exec, mtimeNs, s.nowNs⟩ with held := s.held ++ [(p, sig)] }
    else none
  | .note =>
    match s.held with
    | (p, sig) :: held =>
      match s.files[p]? with
      | some f => some { s with held := held, cache := s.cache.insert p (f.statEntry sig) }
      | none => some { s with held := held, cache := s.cache.erase p }
    | [] => none
  | .noteAbsent p => if s.scan.isNone then some { s with cache := s.cache.erase p } else none
  | .beginScan todo =>
    if s.scan.isNone ∧ s.held = [] ∧ (s.files.toList.all fun e => config.walks e.1 → e.1 ∈ todo) then
      some { s with scan := some ⟨s.nowNs, todo, none, ∅, ∅⟩ }
    else none
  | .look =>
    match s.scan with
    | some r =>
      match r.todo, r.looked with
      | p :: _, none =>
        match s.files[p]? with
        | some f =>
          match scanDecision s.cache[p]? f.mtimeNs f.bytes.length r.nowNs with
          | .reuse hash => some { s with
              scan := some (r.record p (f.sigOf hash) (f.statEntry (f.sigOf hash))) }
          | .hash => some { s with
              scan := some { r with looked := some (f.mtimeNs, f.bytes.length) } }
        | none => some { s with scan := some r.skip }
      | _, _ => none
    | none => none
  | .hash =>
    match s.scan with
    | some r =>
      match r.todo, r.looked with
      | p :: _, some (mtimeNs, size) =>
        match s.files[p]? with
        | some f =>
          let sig := f.sigOf (Platform.blake3 f.bytes)
          some { s with scan := some (r.record p sig ⟨mtimeNs, size, sig⟩) }
        | none => some { s with scan := some r.skip }
      | _, _ => none
    | none => none
  | .endScan =>
    match s.scan with
    | some r => if r.todo = [] then some { s with cache := r.fresh, scan := none } else none
    | none => none
  | .persist => if s.scan.isNone then some { s with saved := s.cache } else none
  | .restart readable =>
    some { s with cache := if readable then s.saved else ∅, held := [], scan := none }

/-- An entry the session may come to use. -/
def Remembers (s : Caching) (p : RelPath) (e : CacheEntry) : Prop :=
  s.cache[p]? = some e ∨ s.saved[p]? = some e ∨ ∃ r, s.scan = some r ∧ r.fresh[p]? = some e

/-- No content comes with an mtime and size that an entry remembers with another hash. -/
def Unseen (s : Caching) (p : RelPath) (bytes : Bytes) (mtimeNs : Nat) : Prop :=
  ∀ e, s.Remembers p e → e.mtimeNs = mtimeNs → e.size = bytes.length →
    e.sig.hash = Platform.blake3 bytes

/-- What was hashed is what is statted, what was statted is what is hashed, and no content comes
back to a remembered mtime and size. -/
def Kept (s : Caching) : CacheMove → Prop
  | .note => ∀ p sig held f, s.held = (p, sig) :: held → s.files[p]? = some f →
      Platform.blake3 f.bytes = sig.hash
  | .hash => ∀ r p todo seen f, s.scan = some r → r.todo = p :: todo → r.looked = some seen →
      s.files[p]? = some f → seen = (f.mtimeNs, f.bytes.length)
  | .write p bytes _ mtimeNs | .install p bytes _ mtimeNs => s.Unseen p bytes mtimeNs
  | _ => True

def Step (config : Config) (s s' : Caching) : Prop := ∃ m, s.step config m = some s'

/-- A step that meets the condition. -/
def KeptStep (config : Config) (s s' : Caching) : Prop :=
  ∃ m, s.Kept m ∧ s.step config m = some s'

/-- The scan that is through with its paths reports every file that was last written before the
window and has another content than the winner. -/
def Reports (config : Config) (s : Caching) : Prop :=
  ∀ r, s.scan = some r → r.todo = [] → ∀ (t : Session) p f, s.files[p]? = some f →
    config.walks p = true → f.written + recentWindowNs < r.nowNs →
    (∀ sig, t.engine.winnerState p = some (.present sig) → matchesSig f.bytes sig = false) →
    ∃ sig, ⟨p, .modified sig⟩ ∈ reportedChanges t r.onDisk

/-- Every entry names the hash of a content the file had at its mtime and size. -/
def Named (s : Caching) : Prop :=
  ∀ p e, s.cache[p]? = some e → ⟨p, e.mtimeNs, e.size, e.sig.hash⟩ ∈ s.had

/-- An entry names what the file had at its mtime and size, and what it has if they match. -/
def Fits (s : Caching) (p : RelPath) (e : CacheEntry) : Prop :=
  ⟨p, e.mtimeNs, e.size, e.sig.hash⟩ ∈ s.had ∧
    ∀ f, s.files[p]? = some f → e.mtimeNs = f.mtimeNs → e.size = f.bytes.length →
      e.sig.hash = Platform.blake3 f.bytes

/-- The scan has the content of every file it is past, unless it was written too late. -/
def Seen (config : Config) (s : Caching) (r : ScanRun) : Prop :=
  ∀ p f, s.files[p]? = some f → config.walks p = true → f.written + recentWindowNs < r.nowNs →
    p ∉ r.todo → ∃ sig, r.onDisk[p]? = some sig ∧ matchesSig f.bytes sig = true

structure Inv (config : Config) (s : Caching) : Prop where
  stood : ∀ p f, s.files[p]? = some f →
    ⟨p, f.mtimeNs, f.bytes.length, Platform.blake3 f.bytes⟩ ∈ s.had
  entries : ∀ p e, s.Remembers p e → s.Fits p e
  begun : ∀ r, s.scan = some r → r.nowNs ≤ s.nowNs
  seen : ∀ r, s.scan = some r → s.Seen config r

variable {config : Config} {s s' : Caching}

theorem Inv.start : start.Inv config where
  stood p f h := by cases h
  entries p e h := by
    rcases h with h | h | ⟨r, h, _⟩
    · cases h
    · cases h
    · cases h
  begun r h := by cases h
  seen r h := by cases h

theorem Inv.put (h : s.Inv config) (p : RelPath) (f : DiskFile)
    (hunseen : s.Unseen p f.bytes f.mtimeNs) (hwritten : f.written = s.nowNs) :
    (s.put p f).Inv config where
  stood q g hg := by
    rw [Caching.put, Std.ExtTreeMap.getElem?_insert] at hg
    split at hg
    next hq =>
      obtain rfl := Std.compare_eq_iff_eq.mp hq
      cases hg
      exact List.mem_cons_self
    · exact List.mem_cons_of_mem _ (h.stood q g hg)
  entries q e he := by
    refine ⟨List.mem_cons_of_mem _ (h.entries q e he).1, fun g hg => ?_⟩
    rw [Caching.put, Std.ExtTreeMap.getElem?_insert] at hg
    split at hg
    next hq =>
      obtain rfl := Std.compare_eq_iff_eq.mp hq
      cases hg
      exact hunseen e he
    · exact (h.entries q e he).2 g hg
  begun := h.begun
  seen r hr q g hg hwalks hold := by
    rw [Caching.put, Std.ExtTreeMap.getElem?_insert] at hg
    split at hg
    · -- a content that is new now is not from before the scan
      cases hg
      have hbegun := h.begun r hr
      omega
    · exact h.seen r hr q g hg hwalks hold

theorem Inv.chmod (h : s.Inv config) (hf : s.files[p]? = some f) (exec : Bool) :
    Inv config { s with files := s.files.insert p { f with exec := exec } } := by
  have hback (q : RelPath) (g : DiskFile)
      (hg : (s.files.insert p { f with exec := exec })[q]? = some g) :
      ∃ g', s.files[q]? = some g' ∧ g'.bytes = g.bytes ∧ g'.mtimeNs = g.mtimeNs ∧
        g'.written = g.written := by
    rw [Std.ExtTreeMap.getElem?_insert] at hg
    split at hg
    next hq =>
      obtain rfl := Std.compare_eq_iff_eq.mp hq
      cases hg
      exact ⟨f, hf, rfl, rfl, rfl⟩
    · exact ⟨g, hg, rfl, rfl, rfl⟩
  constructor
  · intro q g hg
    obtain ⟨g', hg', hbytes, hmtime, _⟩ := hback q g hg
    rw [← hbytes, ← hmtime]
    exact h.stood q g' hg'
  · intro q e he
    refine ⟨(h.entries q e he).1, fun g hg => ?_⟩
    obtain ⟨g', hg', hbytes, hmtime, _⟩ := hback q g hg
    rw [← hbytes, ← hmtime]
    exact (h.entries q e he).2 g' hg'
  · exact h.begun
  · intro r hr q g hg
    obtain ⟨g', hg', hbytes, _, hwritten⟩ := hback q g hg
    rw [← hbytes, ← hwritten]
    exact h.seen r hr q g' hg'

theorem Inv.remove (h : s.Inv config) (p : RelPath) :
    Inv config { s with files := s.files.erase p } := by
  have hback (q : RelPath) (g : DiskFile) (hg : (s.files.erase p)[q]? = some g) :
      s.files[q]? = some g := by
    rw [Std.ExtTreeMap.getElem?_erase] at hg
    split at hg
    · cases hg
    · exact hg
  constructor
  · exact fun q g hg => h.stood q g (hback q g hg)
  · exact fun q e he => ⟨(h.entries q e he).1, fun g hg => (h.entries q e he).2 g (hback q g hg)⟩
  · exact h.begun
  · exact fun r hr q g hg => h.seen r hr q g (hback q g hg)

/-- Where disk and clock stay, it is enough to look at the entries that are new and at the
scan. -/
theorem Inv.caches (h : s.Inv config) (hfiles : s'.files = s.files) (hhad : s'.had = s.had)
    (hnow : s'.nowNs = s.nowNs) (hentries : ∀ p e, s'.Remembers p e → s.Fits p e)
    (hscan : ∀ r, s'.scan = some r → r.nowNs ≤ s.nowNs ∧ s.Seen config r) : s'.Inv config where
  stood p f hf := by
    rw [hhad]
    exact h.stood p f (hfiles ▸ hf)
  entries p e he := by
    rw [Fits, hhad, hfiles]
    exact hentries p e he
  begun r hr := by
    rw [hnow]
    exact (hscan r hr).1
  seen r hr := by
    rw [Seen, hfiles]
    exact (hscan r hr).2

theorem Inv.same (h : s.Inv config) (r : ScanRun) (hr : s.scan = some r) :
    r.nowNs ≤ s.nowNs ∧ s.Seen config r := ⟨h.begun r hr, h.seen r hr⟩

theorem Inv.note (h : s.Inv config) (hkept : s.Kept .note)
    (hm : s.step config .note = some s') : s'.Inv config := by
  rw [Caching.step] at hm
  split at hm
  next p sig held hheld =>
    have hold (cache : ScanCache) (hcache : ∀ q e, cache[q]? = some e → s.Fits q e) :
        Inv config { s with cache, held } := by
      refine h.caches rfl rfl rfl ?_ h.same
      rintro q e (he | he)
      · exact hcache q e he
      · exact h.entries q e (.inr he)
    split at hm
    next f hf =>
      cases hm
      apply hold
      intro q e he
      rw [Std.ExtTreeMap.getElem?_insert] at he
      split at he
      next hq =>
        obtain rfl := Std.compare_eq_iff_eq.mp hq
        cases he
        have hhash := hkept p sig held f hheld hf
        refine ⟨?_, fun g hg _ _ => ?_⟩
        · have hstood := h.stood p f hf
          rwa [hhash] at hstood
        · rw [hf] at hg
          cases hg
          exact hhash.symm
      · exact h.entries q e (.inl he)
    · cases hm
      apply hold
      intro q e he
      rw [Std.ExtTreeMap.getElem?_erase] at he
      split at he
      · cases he
      · exact h.entries q e (.inl he)
  · cases hm

/-- A scan that goes on from `r` to `r'`, past the path at its front. -/
theorem Inv.advance (h : s.Inv config) {r r' : ScanRun} (hr : s.scan = some r)
    (htodo : r.todo = p :: rest) (hnow : r'.nowNs = r.nowNs) (hrest : r'.todo = rest)
    (hfresh : ∀ q e, r'.fresh[q]? = some e → r.fresh[q]? = some e ∨ s.Fits q e)
    (hother : ∀ q, q ≠ p → r'.onDisk[q]? = r.onDisk[q]?)
    (hhere : ∀ f, s.files[p]? = some f →
      ∃ sig, r'.onDisk[p]? = some sig ∧ matchesSig f.bytes sig = true) :
    Inv config { s with scan := some r' } := by
  refine h.caches rfl rfl rfl ?_ ?_
  · rintro q e (he | he | ⟨r'', hr'', he⟩)
    · exact h.entries q e (.inl he)
    · exact h.entries q e (.inr (.inl he))
    · cases hr''
      rcases hfresh q e he with he | he
      · exact h.entries q e (.inr (.inr ⟨r, hr, he⟩))
      · exact he
  · intro r'' hr''
    cases hr''
    rw [hnow]
    refine ⟨h.begun r hr, fun q f hf hwalks hold hq => ?_⟩
    rw [hnow] at hold
    rw [hrest] at hq
    by_cases hqp : q = p
    · subst hqp
      exact hhere f hf
    · rw [hother q hqp]
      apply h.seen r hr q f hf hwalks hold
      rw [htodo, List.mem_cons, not_or]
      exact ⟨hqp, hq⟩

theorem Inv.skip (h : s.Inv config) {r : ScanRun} (hr : s.scan = some r)
    (htodo : r.todo = p :: rest) (hf : s.files[p]? = none) :
    Inv config { s with scan := some r.skip } := by
  refine h.advance hr htodo rfl ?_ (fun q e he => .inl he) (fun q _ => rfl) fun f hf' => ?_
  · rw [ScanRun.skip, htodo, List.tail_cons]
  · rw [hf] at hf'
    cases hf'

theorem Inv.record (h : s.Inv config) {r : ScanRun} (hr : s.scan = some r)
    (htodo : r.todo = p :: rest) (hf : s.files[p]? = some f) {hash : ContentHash}
    {e : CacheEntry} (he : s.Fits p e) (hhash : Platform.blake3 f.bytes = hash) :
    Inv config { s with scan := some (r.record p (f.sigOf hash) e) } := by
  refine h.advance hr htodo rfl ?_ (fun q e' he' => ?_) (fun q hq => ?_) fun g hg => ?_
  · rw [ScanRun.record, ScanRun.skip, htodo, List.tail_cons]
  · rw [ScanRun.record, Std.ExtTreeMap.getElem?_insert] at he'
    split at he'
    next hq =>
      obtain rfl := Std.compare_eq_iff_eq.mp hq
      cases he'
      exact .inr he
    · exact .inl he'
  · rw [ScanRun.record, Std.ExtTreeMap.getElem?_insert, if_neg]
    · intro hc
      exact hq (Std.compare_eq_iff_eq.mp hc).symm
  · rw [hf] at hg
    cases hg
    rw [ScanRun.record, Std.ExtTreeMap.getElem?_insert_self]
    exact ⟨_, rfl, (matchesSig_iff _ _).2 ⟨rfl, hhash⟩⟩

theorem Inv.look (h : s.Inv config) (hm : s.step config .look = some s') : s'.Inv config := by
  rw [Caching.step] at hm
  split at hm
  next r hr =>
    split at hm
    next p rest htodo hlooked =>
      split at hm
      next f hf =>
        split at hm
        next hash hd =>
          cases hm
          obtain ⟨e, he, hmtime, hsize, rfl⟩ := scanDecision_reuse hd
          obtain ⟨hstood, hsame⟩ := h.entries p e (.inl he)
          have hhash := hsame f hf hmtime hsize
          refine h.record hr htodo hf ⟨?_, fun g hg _ _ => ?_⟩ hhash.symm
          · rw [hmtime, hsize] at hstood
            exact hstood
          · rw [hf] at hg
            cases hg
            exact hhash
        · cases hm
          refine h.caches rfl rfl rfl ?_ ?_
          · rintro q e (he | he | ⟨r', hr', he⟩)
            · exact h.entries q e (.inl he)
            · exact h.entries q e (.inr (.inl he))
            · cases hr'
              exact h.entries q e (.inr (.inr ⟨r, hr, he⟩))
          · intro r' hr'
            cases hr'
            exact h.same r hr
      next hf =>
        cases hm
        exact h.skip hr htodo hf
    · cases hm
  · cases hm

theorem Inv.hash (h : s.Inv config) (hkept : s.Kept .hash) (hm : s.step config .hash = some s') :
    s'.Inv config := by
  rw [Caching.step] at hm
  split at hm
  next r hr =>
    split at hm
    next p rest mtimeNs size htodo hlooked =>
      split at hm
      next f hf =>
        cases hm
        cases hkept r p rest _ f hr htodo hlooked hf
        have hstood := h.stood p f hf
        refine h.record hr htodo hf ⟨hstood, fun g hg _ _ => ?_⟩ rfl
        rw [hf] at hg
        cases hg
        rfl
      next hf =>
        cases hm
        exact h.skip hr htodo hf
    · cases hm
  · cases hm

theorem Inv.step (h : s.Inv config) (hstep : KeptStep config s s') : s'.Inv config := by
  obtain ⟨m, hkept, hm⟩ := hstep
  cases m with
  | tick ns =>
    cases hm
    exact ⟨h.stood, h.entries, fun r hr => Nat.le_add_right_of_le (h.begun r hr), h.seen⟩
  | write p bytes exec mtimeNs =>
    rw [Caching.step, Option.ite_none_right_eq_some] at hm
    cases hm.2
    exact h.put p ⟨bytes, exec, mtimeNs, s.nowNs⟩ hkept rfl
  | chmod p exec =>
    rw [Caching.step] at hm
    split at hm
    next f hf =>
      cases hm
      exact h.chmod hf exec
    · cases hm
  | remove p =>
    cases hm
    exact h.remove p
  | observe p sig =>
    rw [Caching.step] at hm
    split at hm
    · rw [Option.ite_none_right_eq_some] at hm
      cases hm.2
      exact h.caches rfl rfl rfl h.entries h.same
    · cases hm
  | install p bytes sig mtimeNs =>
    rw [Caching.step, Option.ite_none_right_eq_some] at hm
    cases hm.2
    have hput := h.put p ⟨bytes, sig.exec, mtimeNs, s.nowNs⟩ hkept rfl
    exact hput.caches rfl rfl rfl hput.entries hput.same
  | note => exact h.note hkept hm
  | noteAbsent p =>
    rw [Caching.step, Option.ite_none_right_eq_some] at hm
    cases hm.2
    refine h.caches rfl rfl rfl ?_ h.same
    rintro q e (he | he)
    · rw [Std.ExtTreeMap.getElem?_erase] at he
      split at he
      · cases he
      · exact h.entries q e (.inl he)
    · exact h.entries q e (.inr he)
  | beginScan todo =>
    rw [Caching.step, Option.ite_none_right_eq_some] at hm
    obtain ⟨⟨hnone, hheld, hall⟩, heq⟩ := hm
    cases heq
    refine h.caches rfl rfl rfl ?_ ?_
    · rintro q e (he | he | ⟨r, hr, he⟩)
      · exact h.entries q e (.inl he)
      · exact h.entries q e (.inr (.inl he))
      · cases hr
        cases he
    · intro r hr
      cases hr
      refine ⟨Nat.le_refl _, fun q f hf hwalks _ hq => ?_⟩
      have hmem := Std.ExtTreeMap.mem_toList_iff_getElem?_eq_some.2 hf
      exact (hq (of_decide_eq_true (List.all_eq_true.mp hall _ hmem) hwalks)).elim
  | look => exact h.look hm
  | hash => exact h.hash hkept hm
  | endScan =>
    rw [Caching.step] at hm
    split at hm
    next r hr =>
      rw [Option.ite_none_right_eq_some] at hm
      cases hm.2
      refine h.caches rfl rfl rfl ?_ ?_
      · rintro q e (he | he | ⟨r', hr', _⟩)
        · exact h.entries q e (.inr (.inr ⟨r, hr, he⟩))
        · exact h.entries q e (.inr (.inl he))
        · cases hr'
      · exact fun r' hr' => by cases hr'
    · cases hm
  | persist =>
    rw [Caching.step, Option.ite_none_right_eq_some] at hm
    cases hm.2
    refine h.caches rfl rfl rfl ?_ h.same
    rintro q e (he | he | he)
    · exact h.entries q e (.inl he)
    · exact h.entries q e (.inl he)
    · exact h.entries q e (.inr (.inr he))
  | restart readable =>
    cases hm
    refine h.caches rfl rfl rfl ?_ ?_
    · rintro q e (he | he | ⟨r', hr', _⟩)
      · cases readable with
        | true => exact h.entries q e (.inr (.inl he))
        | false => cases he
      · exact h.entries q e (.inr (.inl he))
      · cases hr'
    · exact fun r' hr' => by cases hr'

theorem Inv.reports (h : s.Inv config) : s.Reports config := by
  intro r hr htodo t p f hf hwalks hold hwinner
  obtain ⟨sig, hsig, hmatches⟩ := h.seen r hr p f hf hwalks hold (by rw [htodo]; exact nofun)
  refine ⟨sig, List.mem_map.2 ⟨(p, .modified sig), ?_, rfl⟩⟩
  rw [Std.ExtTreeMap.mem_toList_iff_getElem?_eq_some, Session.collect_reports]
  refine .inl ⟨sig, rfl, hsig, ?_⟩
  rw [diskDiffers]
  split
  next prev hprev =>
    have hfalse := hwinner prev hprev
    obtain ⟨hsize, hhash⟩ := (matchesSig_iff _ _).1 hmatches
    by_contra heq
    have hsame : prev.hash = sig.hash ∧ prev.size = sig.size := by
      simp only [ContentSig.eq, Bool.not_eq_true, Bool.not_eq_false', Bool.and_eq_true,
        decide_eq_true_eq] at heq
      exact heq.1
    rw [(matchesSig_iff _ _).2 ⟨hsame.2 ▸ hsize, hsame.1 ▸ hhash⟩] at hfalse
    cases hfalse
  · rfl
  · rfl

/-- In every run whose steps meet the condition each scan reports every edit from before its
window, and each entry of the cache names a content that the file had. -/
theorem Run.reports_edits (hrun : Relation.ReflTransGen (KeptStep config) start s) :
    s.Reports config ∧ s.Named := by
  have hinv : s.Inv config := by
    induction hrun with
    | refl => exact .start
    | tail _ hstep ih => exact ih.step hstep
  exact ⟨hinv.reports, fun p e he => (hinv.entries p e (.inl he)).1⟩

end

/-- A file is written, noted and scanned after a restart. -/
def noted : Caching :=
  letI := tabulated shortHashes
  { start.put fooPath ⟨[0x31], false, 10, 0⟩ with held := [(fooPath, oneSig)] }

def rescanned : Caching :=
  { noted with
    cache := (∅ : ScanCache).insert fooPath ⟨10, 1, oneSig⟩, held := []
    scan := some ⟨0, [fooPath], none, ∅, ∅⟩ }

theorem rescanned_reports :
    letI := tabulated shortHashes
    rescanned.Reports syncAll ∧ rescanned.Named := by
  let platform := tabulated shortHashes
  have hfresh : start.Kept (.write fooPath [0x31] false 10) := by
    rintro e (he | he | ⟨r, hr, _⟩)
    · cases he
    · cases he
    · cases hr
  have hnoted : noted.Kept .note := by
    intro p sig held f hheld hf
    cases hheld
    have hfile : noted.files[fooPath]? = some ⟨[0x31], false, 10, 0⟩ :=
      Std.ExtTreeMap.getElem?_insert_self
    rw [hfile] at hf
    cases hf
    decide
  have hrun : Relation.ReflTransGen (KeptStep syncAll) start rescanned :=
    Relation.ReflTransGen.refl.tail ⟨.write fooPath [0x31] false 10, hfresh, rfl⟩ |>.tail
      ⟨.observe fooPath oneSig, trivial, rfl⟩ |>.tail ⟨.note, hnoted, rfl⟩ |>.tail
      ⟨.beginScan [fooPath], trivial, rfl⟩
  exact Run.reports_edits hrun

/-- The scan reuses the hash of the first content for the second. -/
def staleScan : ScanRun :=
  ⟨5000000000, [], none, (∅ : Std.ExtTreeMap RelPath ContentSig).insert fooPath
    ⟨oneSig.hash, 1, false, 0⟩, (∅ : ScanCache).insert fooPath ⟨11, 1, ⟨oneSig.hash, 1, false, 0⟩⟩⟩

/-- The file was written again after it was hashed and before it was statted for the cache; the
session was killed before it saw that. -/
def stale : Caching :=
  letI := tabulated shortHashes
  { (start.put fooPath ⟨[0x31], false, 10, 0⟩).put fooPath ⟨[0x32], false, 11, 0⟩ with
    nowNs := 5000000000
    cache := (∅ : ScanCache).insert fooPath ⟨11, 1, oneSig⟩
    saved := (∅ : ScanCache).insert fooPath ⟨11, 1, oneSig⟩
    scan := some staleScan }

theorem stale_hides_edit :
    letI := tabulated shortHashes
    Relation.ReflTransGen (Step syncAll) start stale ∧ ¬ stale.Reports syncAll ∧
      ¬ stale.Named := by
  let platform := tabulated shortHashes
  have hfile : stale.files[fooPath]? = some ⟨[0x32], false, 11, 0⟩ :=
    Std.ExtTreeMap.getElem?_insert_self
  have hentry : stale.cache[fooPath]? = some ⟨11, 1, oneSig⟩ :=
    Std.ExtTreeMap.getElem?_insert_self
  have hlook : step syncAll { stale with scan := some ⟨5000000000, [fooPath], none, ∅, ∅⟩ } .look =
      some stale := by
    have hd : scanDecision (some ⟨11, 1, oneSig⟩) 11 1 5000000000 = .reuse oneSig.hash := by
      decide +kernel
    simp only [step, hfile, hentry, List.length_cons, List.length_nil, Nat.zero_add, hd]
    rfl
  have hkilled : Relation.ReflTransGen (Step syncAll) start
      { stale with nowNs := 0, scan := none } :=
    Relation.ReflTransGen.refl.tail ⟨.write fooPath [0x31] false 10, rfl⟩ |>.tail
      ⟨.observe fooPath oneSig, rfl⟩ |>.tail ⟨.write fooPath [0x32] false 11, rfl⟩ |>.tail
      ⟨.note, rfl⟩ |>.tail ⟨.persist, rfl⟩ |>.tail ⟨.restart true, rfl⟩
  have hlater : Step syncAll { stale with nowNs := 0, scan := none } { stale with scan := none } :=
    ⟨.tick 5000000000, rfl⟩
  have hscan : Step syncAll { stale with scan := none }
      { stale with scan := some ⟨5000000000, [fooPath], none, ∅, ∅⟩ } := ⟨.beginScan [fooPath], rfl⟩
  have hrun := ((hkilled.tail hlater).tail hscan).tail ⟨.look, hlook⟩
  refine ⟨hrun, fun hreports => ?_, fun hnamed => ?_⟩
  · obtain ⟨sig, hsig⟩ := hreports staleScan rfl rfl fooSession fooPath _ hfile (by decide)
      (by decide) fun sig hsig => by cases hsig; decide
    have hnone : reportedChanges fooSession staleScan.onDisk = [] := by decide +kernel
    rw [hnone] at hsig
    cases hsig
  · exact absurd (hnamed fooPath _ hentry) (by decide +kernel)

end Caching

end Tomo
