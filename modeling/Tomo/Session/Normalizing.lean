import Tomo.Session.Quiet
import Tomo.Session.Scanning
import Tomo.Session.Storing

namespace Tomo
set_option autoImplicit true

open Collect

/-- The decomposed forms of names, which a normalizing file system lists. -/
structure Forms [Platform] where
  decomposed : List Char → List Char
  composes : ∀ name, Platform.nfc (decomposed name) = Platform.nfc name
  decomposes : ∀ name, decomposed (Platform.nfc name) = decomposed name

/-- A replica whose file system takes names of one normal form for the same, over files that its
applies reach at once. The volume has each file under the name that it lists it by. -/
structure Normalizer where
  engine : Engine
  caseInsensitive : Bool
  volume : Std.ExtTreeMap (List Char) ContentSig
  /-- All that was ever shipped. -/
  sent : List RemoteChange
  /-- The present paths whose file a change of another path overwrote or removed. -/
  clobbered : List RelPath

section
variable [Platform]

/-- A name is in the form that the scanner and the watcher bring names to. -/
def RelPath.composed (p : RelPath) : Bool := decide (Platform.nfc p.raw = p.raw)

namespace Normalizer

def init (id : ReplicaId) (caseInsensitive : Bool) : Normalizer :=
  ⟨.new id .new, caseInsensitive, ∅, [], []⟩

/-- What a file-system call finds under a path. -/
def lookup (forms : Forms) (r : Normalizer) (p : RelPath) : Expectation :=
  match r.volume[forms.decomposed p.raw]? with
  | some sig => .present sig
  | none => .absent

/-- A file is written or removed. -/
def placed (forms : Forms) (volume : Std.ExtTreeMap (List Char) ContentSig) (p : RelPath) :
    Expectation → Std.ExtTreeMap (List Char) ContentSig
  | .present sig => volume.insert (forms.decomposed p.raw) sig
  | .absent => volume.erase (forms.decomposed p.raw)

def perform (forms : Forms) (r : Normalizer) : Action → Normalizer
  | .apply p target => { r with volume := placed forms r.volume p target }
  | .send c => { r with sent := r.sent ++ [c] }
  | .recordVersion .. | .conflictResolved .. => r

def handle (forms : Forms) (r : Normalizer) (event : Event) : Normalizer :=
  (r.engine.handle event).2.foldl (perform forms) { r with engine := (r.engine.handle event).1 }

/-- Whether an incoming file is refused for an indexed one under case folding. -/
def refusesCase (r : Normalizer) (c : RemoteChange) : Bool :=
  match c.kind with
  | .removed => false
  | .modified _ => r.caseInsensitive && r.engine.index.iter.any fun e => match e.2.winner.state with
    | .present _ => Session.collides c.path e.1
    | .tombstone => false

def prior (r : Normalizer) (p : RelPath) : Expectation :=
  match r.engine.index.get p with
  | some e => expectationFromState e.winner.state
  | none => .absent

def reconcileUnobservedLocal (forms : Forms) (r : Normalizer) (p : RelPath) : Normalizer :=
  let disk := r.lookup forms p
  if needsLocalReconcile disk (r.prior p) (r.engine.isExpectedEcho p disk) then
    r.handle forms (.local ⟨p, Session.observedKind disk⟩)
  else r

/-- The present paths, but for one, whose file is another one or gone. -/
def disturbed (forms : Forms) (r r' : Normalizer) (p : RelPath) : List RelPath :=
  r.engine.index.iter.filterMap fun e => match e.2.winner.state with
    | .present _ => if e.1 ≠ p ∧ r'.lookup forms e.1 ≠ r.lookup forms e.1 then some e.1 else none
    | .tombstone => none

/-- An inbound change. -/
def onChange (forms : Forms) (r : Normalizer) (c : RemoteChange) : Normalizer :=
  if r.refusesCase c then r
  else
    let r' := (r.reconcileUnobservedLocal forms c.path).handle forms (.remote c)
    { r' with clobbered := r.clobbered ++ r.disturbed forms r' c.path }

/-- The path a name of the file system is taken for. -/
def relativize (name : List Char) : Option RelPath := (RelPath.new (Platform.nfc name)).toOption

/-- What the walk of a scan finds. -/
def onDisk (r : Normalizer) : Std.ExtTreeMap RelPath ContentSig :=
  collect (fun (name, sig) => (relativize name).map fun p => (p, sig)) r.volume.toList ∅

omit [Platform] in
/-- What the scan reports of a file that the walk found. -/
def found (index : Index) (e : RelPath × ContentSig) : Option (RelPath × ChangeKind) :=
  if diskDiffers index e.1 e.2 then some (e.1, .modified e.2) else none

omit [Platform] in
/-- What the scan reports of an entry of the index. -/
def gone (onDisk : Std.ExtTreeMap RelPath ContentSig) (e : RelPath × Entry) :
    Option (RelPath × ChangeKind) :=
  match e.2.winner.state with
  | .present _ => if onDisk[e.1]?.isNone then some (e.1, .removed) else none
  | .tombstone => none

/-- The local changes that a scan reports. -/
def scanned (r : Normalizer) : List LocalChange :=
  (collect (gone r.onDisk) r.engine.index.iter
    (collect (found r.engine.index) r.onDisk.toList ∅)).toList.map fun e => ⟨e.1, e.2⟩

def rescan (forms : Forms) (r : Normalizer) : Normalizer :=
  r.scanned.foldl (fun r change => r.handle forms (.local change)) r

/-- The watcher reports a name, and the path it is taken for is looked up. -/
def onWatch (forms : Forms) (r : Normalizer) (name : List Char) : Normalizer :=
  match relativize name with
  | some p => r.handle forms (.local ⟨p, Session.observedKind (r.lookup forms p)⟩)
  | none => r

end Normalizer

/-- A replica on a normalizing file system that nobody writes to, its peer on one that keeps names
as they are, and the changes on their way to either. -/
structure Mixed where
  here : Normalizer
  peer : Mirror
  /-- What the peer's user has made of each path. -/
  authored : RelPath → Expectation
  toHere : List RemoteChange
  /-- How many of the changes shipped from here have reached the peer. -/
  taken : Nat

inductive MixedStep where
  | edit (p : RelPath) (content : Expectation)
  | report (p : RelPath)
  | exchange
  | deliver
  | rescan
  | watch (name : List Char)
  | deliverBack

namespace Mixed

def init (idHere idPeer : ReplicaId) (caseInsensitive : Bool) : Mixed :=
  ⟨.init idHere caseInsensitive, .init idPeer, fun _ => .absent, [], 0⟩

def step (forms : Forms) (w : Mixed) : MixedStep → Mixed
  | .edit p content =>
    { w with peer := w.peer.write p content, authored := Function.update w.authored p content }
  | .report p => { w with
      peer := w.peer.report p
      toHere := w.toHere ++ sends (w.peer.engine.report p (w.peer.disk p)).2 }
  -- Each side ships what the other's index does not cover.
  | .exchange => { w with
      here := { w.here with
        sent := w.here.sent ++ Session.uncoveredHeads w.here.engine.index w.peer.engine.index }
      toHere := w.toHere ++ Session.uncoveredHeads w.peer.engine.index w.here.engine.index }
  | .deliver =>
    match w.toHere with
    | [] => w
    | c :: rest => { w with here := w.here.onChange forms c, toHere := rest }
  | .rescan => { w with here := w.here.rescan forms }
  | .watch name => { w with here := w.here.onWatch forms name }
  | .deliverBack =>
    match w.here.sent[w.taken]? with
    | none => w
    | some c => { w with peer := w.peer.remote c, taken := w.taken + 1 }

def run (forms : Forms) (w : Mixed) (steps : List MixedStep) : Mixed := steps.foldl (step forms) w

/-- The next change to come in here has a name in composed form, or removes a name that the volume
has no file under. -/
def Composed (forms : Forms) (w : Mixed) : MixedStep → Prop
  | .deliver => match w.toHere with
    | [] => True
    | c :: _ => c.path.composed = true ∨ c.kind = .removed ∧ w.here.lookup forms c.path = .absent
  | .edit .. | .report _ | .exchange | .rescan | .watch _ | .deliverBack => True

/-- Every change of the run that comes in does so in composed form. -/
def ComposedRun (forms : Forms) : Mixed → List MixedStep → Prop
  | _, [] => True
  | w, a :: steps => w.Composed forms a ∧ ComposedRun forms (w.step forms a) steps

end Mixed

omit [Platform] in
/-- An entry has heads, and all of them are tombstones. -/
structure Entry.Buried (e : Entry) : Prop where
  nonempty : e.heads ≠ []
  tombstones : ∀ h ∈ e.heads, h.state = .tombstone

omit [Platform] in
theorem Entry.Buried.winner {e : Entry} (h : e.Buried) : e.winner.state = .tombstone :=
  h.tombstones _ (Session.winner_mem h.nonempty)

omit [Platform] in
theorem Entry.Buried.absorbed {o : Option Entry} (h : ∀ e, o = some e → e.Buried)
    (v : VectorClock) : (Engine.absorbed o v .tombstone).Buried := by
  cases o with
  | none =>
    refine ⟨List.cons_ne_nil _ _, fun g hg => ?_⟩
    cases List.mem_singleton.1 hg
    rfl
  | some e =>
    have he := h e rfl
    simp only [Engine.absorbed]
    cases hk : e.knows v with
    | true =>
      rw [Entry.absorb_known hk]
      exact he
    | false =>
      constructor
      · exact List.ne_nil_of_mem ((Entry.mem_absorb hk _).2 (.inl rfl))
      · intro g hg
        rcases (Entry.mem_absorb hk _).1 hg with rfl | ⟨hg, _⟩
        · rfl
        · exact he.tombstones g hg

variable {forms : Forms} {p q : RelPath}

theorem Forms.decomposed_inj (hp : p.composed = true) (hq : q.composed = true)
    (h : forms.decomposed p.raw = forms.decomposed q.raw) : p = q := by
  apply RelPath.ext_raw
  rw [← of_decide_eq_true hp, ← of_decide_eq_true hq, ← forms.composes p.raw, h, forms.composes]

theorem Forms.relativize_decomposed (forms : Forms) (hp : p.composed = true) :
    Normalizer.relativize (forms.decomposed p.raw) = some p := by
  have hnew : RelPath.new p.raw = .ok p := RelPath.new_eq_ok.2 rfl
  rw [Normalizer.relativize, forms.composes, of_decide_eq_true hp, hnew]
  rfl

namespace Normalizer

/-- The index shows the volume under the composed names and holds nothing but tombstones under
others; the volume has composed names only; nothing was shipped, and nothing clobbered. -/
structure Sound (forms : Forms) (r : Normalizer) : Prop where
  agree : ∀ p : RelPath, p.composed = true →
    agrees (r.engine.index.get p) (r.lookup forms p) = true
  buried : ∀ (p : RelPath) e, p.composed = false → r.engine.index.get p = some e → e.Buried
  listed : ∀ name sig, r.volume[name]? = some sig →
    ∃ p : RelPath, p.composed = true ∧ name = forms.decomposed p.raw
  silent : r.sent = []
  apart : r.clobbered = []

variable {r : Normalizer} {c : RemoteChange}

theorem Sound.init (forms : Forms) (id : ReplicaId) (caseInsensitive : Bool) :
    (init id caseInsensitive).Sound forms where
  agree p _ := by
    have hg : (Normalizer.init id caseInsensitive).engine.index.get p = none := Index.get_new p
    rw [hg]
    rfl
  buried p e _ h := by cases (Index.get_new p).symm.trans h
  listed name sig h := by cases h
  silent := rfl
  apart := rfl

/-- A report of what the index shows changes nothing but the journal. -/
theorem handle_agreeing (h : agrees (r.engine.index.get p) (r.lookup forms p) = true) :
    ∃ e, e.index = r.engine.index ∧
      r.handle forms (.local ⟨p, Session.observedKind (r.lookup forms p)⟩) =
        { r with engine := e } := by
  obtain ⟨hactions, hindex⟩ := Engine.report_agreeing h
  refine ⟨(r.engine.report p (r.lookup forms p)).1, hindex, ?_⟩
  rw [Engine.report] at hactions
  rw [handle, hactions]
  rfl

theorem Sound.rejournal (h : r.Sound forms) {e : Engine} (he : e.index = r.engine.index) :
    Sound forms { r with engine := e } where
  agree p hp := by
    change agrees (e.index.get p) (r.lookup forms p) = true
    rw [he]
    exact h.agree p hp
  buried p entry hp hg := by
    have hg' : e.index.get p = some entry := hg
    rw [he] at hg'
    exact h.buried p entry hp hg'
  listed := h.listed
  silent := h.silent
  apart := h.apart

/-- Nothing is unobserved at a path that shows its winner. -/
theorem reconcile_agreeing (h : agrees (r.engine.index.get p) (r.lookup forms p) = true) :
    r.reconcileUnobservedLocal forms p = r := by
  have hsame : (r.lookup forms p).eq (r.prior p) = true := by
    rw [prior]
    cases hg : r.engine.index.get p with
    | none =>
      rw [hg] at h
      exact h
    | some e =>
      rw [hg] at h
      simp only [agrees] at h
      obtain ⟨s, hs⟩ := expectation_state (r.lookup forms p)
      rw [← hs, expectation_eq, EntryState.eq_iff] at h
      rw [← hs, expectation_eq, EntryState.eq_iff, h]
  simp only [reconcileUnobservedLocal, needsLocalReconcile, hsame, Bool.not_true, Bool.false_and,
    Bool.false_eq_true, ↓reduceIte]

theorem perform_paper {a : Action} (ha : a.isPaper = true) (hs : sends [a] = []) :
    r.perform forms a = r := by
  cases a with
  | apply p target => cases ha
  | send c => cases hs
  | recordVersion => rfl
  | conflictResolved => rfl

/-- An absorbed change writes its target, if it has one, and ships nothing. -/
theorem handle_remote (forms : Forms) (r : Normalizer) (c : RemoteChange) :
    r.handle forms (.remote c) = { r with
      engine := (r.engine.handleRemote c).1
      volume := match r.engine.applyTarget c with
        | some t => placed forms r.volume c.path t
        | none => r.volume } := by
  have hsends : sends (r.engine.handleRemote c).2 = [] :=
    (Engine.absorbRemote_spec r.engine c.path (stateFromKind c.kind) c.version).2.2
  have hpaper (l : List Action) (hl : ∀ a ∈ l, a.isPaper = true) (hs : sends l = [])
      (r : Normalizer) : l.foldl (perform forms) r = r := by
    induction l generalizing r with
    | nil => rfl
    | cons a l ih =>
      have hsplit : sends [a] ++ sends l = [] := by rw [← sends_append]; exact hs
      obtain ⟨ha, hl'⟩ := List.append_eq_nil_iff.1 hsplit
      rw [List.foldl_cons, perform_paper (hl a List.mem_cons_self) ha]
      exact ih (fun b hb => hl b (List.mem_cons_of_mem a hb)) hl' r
  have hall (a : Action) (ha : a ∈ r.engine.paperwork c) : a.isPaper = true :=
    (Engine.paperwork_paper r.engine c a ha).1
  simp only [handle, Engine.handle]
  cases ht : r.engine.applyTarget c with
  | none =>
    have hacts := (Engine.applyTarget_none ht).1
    rw [hacts] at hsends
    rw [hacts, hpaper _ hall hsends]
  | some t =>
    have hacts := (Engine.applyTarget_some ht).1
    have hrest : sends (r.engine.paperwork c) = [] := by
      rw [hacts] at hsends
      exact hsends
    rw [hacts, List.foldl_cons, hpaper _ hall hrest]
    rfl

theorem lookup_placed (r r' : Normalizer) (t : Expectation)
    (hv : r'.volume = placed forms r.volume p t) :
    r'.lookup forms q =
      if forms.decomposed p.raw = forms.decomposed q.raw then t else r.lookup forms q := by
  rw [lookup, hv]
  by_cases h : forms.decomposed p.raw = forms.decomposed q.raw
  · cases t with
    | present sig =>
      simp only [placed, Std.ExtTreeMap.getElem?_insert, Std.compare_eq_iff_eq, if_pos h]
    | absent =>
      simp only [placed, Std.ExtTreeMap.getElem?_erase, Std.compare_eq_iff_eq, if_pos h]
  · cases t with
    | present sig =>
      simp only [placed, lookup, Std.ExtTreeMap.getElem?_insert, Std.compare_eq_iff_eq, if_neg h]
    | absent =>
      simp only [placed, lookup, Std.ExtTreeMap.getElem?_erase, Std.compare_eq_iff_eq, if_neg h]

/-- What is listed after an apply was listed before, or is what was applied. -/
theorem listed_placed {volume : Std.ExtTreeMap (List Char) ContentSig} {t : Expectation}
    (hn : (placed forms volume p t)[name]? = some sig) :
    volume[name]? = some sig ∨ name = forms.decomposed p.raw := by
  cases t with
  | present s =>
    simp only [placed, Std.ExtTreeMap.getElem?_insert, Std.compare_eq_iff_eq] at hn
    split at hn
    next heq => exact .inr heq.symm
    next => exact .inl hn
  | absent =>
    simp only [placed, Std.ExtTreeMap.getElem?_erase, Std.compare_eq_iff_eq] at hn
    split at hn
    next => cases hn
    next => exact .inl hn

/-- No file of a composed name changes but the one that is applied. -/
theorem Sound.disturbed_nil (h : r.Sound forms) {r' : Normalizer}
    (hl : ∀ q : RelPath, q.composed = true → q ≠ p → r'.lookup forms q = r.lookup forms q) :
    r.disturbed forms r' p = [] := by
  rw [disturbed, List.filterMap_eq_nil_iff]
  intro e he
  have hg : r.engine.index.get e.1 = some e.2 :=
    Std.ExtTreeMap.mem_toList_iff_getElem?_eq_some.1 he
  cases hw : e.2.winner.state with
  | tombstone => rfl
  | present sig =>
    dsimp only
    rw [if_neg]
    rintro ⟨hne, hchanged⟩
    cases hc : e.1.composed with
    | true => exact hchanged (hl e.1 hc hne)
    | false => cases hw.symm.trans (h.buried e.1 e.2 hc hg).winner

/-- An absorbed change leaves a replica sound that finds nothing but what the index shows under
its name afterwards. -/
theorem Sound.absorb (h : r.Sound forms)
    (hl : ∀ q : RelPath, q.composed = true → q ≠ c.path →
      (r.handle forms (.remote c)).lookup forms q = r.lookup forms q)
    (hc : c.path.composed = true → agrees ((r.engine.handleRemote c).1.index.get c.path)
      ((r.handle forms (.remote c)).lookup forms c.path) = true)
    (hb : ∀ e, c.path.composed = false →
      (r.engine.handleRemote c).1.index.get c.path = some e → e.Buried)
    (hn : ∀ name sig, (r.handle forms (.remote c)).volume[name]? = some sig →
      ∃ q : RelPath, q.composed = true ∧ name = forms.decomposed q.raw) :
    Sound forms { r.handle forms (.remote c) with
      clobbered := r.clobbered ++ r.disturbed forms (r.handle forms (.remote c)) c.path } := by
  obtain ⟨hother, _, _⟩ := r.engine.handleRemote_agrees c (r.lookup forms c.path)
  have hengine : (r.handle forms (.remote c)).engine = (r.engine.handleRemote c).1 := by
    rw [handle_remote]
  have hsent : (r.handle forms (.remote c)).sent = r.sent := by
    rw [handle_remote]
  refine ⟨fun p hp => ?_, fun p e hp hg => ?_, hn, hsent.trans h.silent, ?_⟩
  · change agrees ((r.handle forms (.remote c)).engine.index.get p)
      ((r.handle forms (.remote c)).lookup forms p) = true
    rw [hengine]
    by_cases hpc : p = c.path
    · subst hpc
      exact hc hp
    · rw [hother p hpc, hl p hp hpc]
      exact h.agree p hp
  · have hg' : (r.handle forms (.remote c)).engine.index.get p = some e := hg
    rw [hengine] at hg'
    by_cases hpc : p = c.path
    · subst hpc
      exact hb e hp hg'
    · rw [hother p hpc] at hg'
      exact h.buried p e hp hg'
  · change r.clobbered ++ r.disturbed forms (r.handle forms (.remote c)) c.path = []
    rw [h.apart, h.disturbed_nil hl]
    rfl

/-- A change under a composed name keeps everything sound. -/
theorem Sound.composed (h : r.Sound forms) (hc : c.path.composed = true) :
    (r.onChange forms c).Sound forms := by
  rw [Normalizer.onChange]
  split
  next => exact h
  rw [reconcile_agreeing (h.agree c.path hc)]
  obtain ⟨_, hkeep, hwrite⟩ := r.engine.handleRemote_agrees c (r.lookup forms c.path)
  have hne (q : RelPath) (hq : q.composed = true) (hqc : q ≠ c.path) :
      forms.decomposed c.path.raw ≠ forms.decomposed q.raw :=
    fun heq => hqc (Forms.decomposed_inj hc hq heq).symm
  have hvolume : (r.handle forms (.remote c)).volume = match r.engine.applyTarget c with
      | some t => placed forms r.volume c.path t
      | none => r.volume := by
    rw [handle_remote]
  cases ht : r.engine.applyTarget c with
  | none =>
    rw [ht] at hvolume
    have hsame (q : RelPath) : (r.handle forms (.remote c)).lookup forms q = r.lookup forms q := by
      rw [lookup, hvolume, lookup]
    apply h.absorb
    · intro q _ _
      exact hsame q
    · intro _
      rw [hsame]
      exact hkeep ht (h.agree c.path hc)
    · intro e hf
      rw [hc] at hf
      cases hf
    · intro name sig hn
      rw [hvolume] at hn
      exact h.listed name sig hn
  | some t =>
    rw [ht] at hvolume
    apply h.absorb
    · intro q hq hqc
      rw [lookup_placed r _ t hvolume, if_neg (hne q hq hqc)]
    · intro _
      rw [lookup_placed r _ t hvolume, if_pos rfl]
      exact hwrite t ht
    · intro e hf
      rw [hc] at hf
      cases hf
    · intro name sig hn
      rw [hvolume] at hn
      rcases listed_placed hn with hn | rfl
      · exact h.listed name sig hn
      · exact ⟨c.path, hc, rfl⟩

/-- Erasing a name that nothing is under leaves the volume. -/
theorem placed_absent (hl : r.lookup forms p = .absent) (name : List Char) :
    (placed forms r.volume p .absent)[name]? = r.volume[name]? := by
  simp only [placed, Std.ExtTreeMap.getElem?_erase, Std.compare_eq_iff_eq]
  split
  next heq =>
    subst heq
    rw [lookup] at hl
    cases hv : r.volume[forms.decomposed p.raw]? with
    | none => rfl
    | some sig =>
      rw [hv] at hl
      cases hl
  next => rfl

theorem Sound.agree_absent (h : r.Sound forms) (hp : p.composed = false)
    (hl : r.lookup forms p = .absent) :
    agrees (r.engine.index.get p) (r.lookup forms p) = true := by
  rw [hl]
  cases hg : r.engine.index.get p with
  | none => rfl
  | some e =>
    rw [agrees, (h.buried p e hp hg).winner]
    rfl

/-- So does a removal under another name that the volume has no file under. -/
theorem Sound.removed (h : r.Sound forms) (hc : c.path.composed = false) (hk : c.kind = .removed)
    (hl : r.lookup forms c.path = .absent) : (r.onChange forms c).Sound forms := by
  rw [Normalizer.onChange]
  split
  next => exact h
  have hentry (e : Entry) (hg : (r.engine.handleRemote c).1.index.get c.path = some e) :
      e.Buried := by
    obtain ⟨_, hget, _⟩ :=
      Engine.absorbRemote_spec r.engine c.path (stateFromKind c.kind) c.version
    have hg' := (hget c.path).symm.trans hg
    rw [if_pos rfl, hk] at hg'
    cases hg'
    exact Entry.Buried.absorbed (fun e he => h.buried c.path e hc he) c.version
  have htarget (t : Expectation) (ht : r.engine.applyTarget c = some t) : t = .absent := by
    obtain ⟨_, w, hw, rfl⟩ := Engine.applyTarget_some ht
    rw [Engine.winnerState, Option.map_eq_some_iff] at hw
    obtain ⟨e, hg, rfl⟩ := hw
    rw [(hentry e hg).winner]
    rfl
  rw [reconcile_agreeing (h.agree_absent hc hl)]
  have hvolume (name : List Char) :
      (r.handle forms (.remote c)).volume[name]? = r.volume[name]? := by
    rw [handle_remote]
    cases ht : r.engine.applyTarget c with
    | none => rfl
    | some t =>
      cases htarget t ht
      exact placed_absent hl name
  apply h.absorb
  · intro q _ _
    rw [lookup, hvolume, lookup]
  · intro hf
    rw [hc] at hf
    cases hf
  · intro e _ hg
    exact hentry e hg
  · intro name sig hn
    rw [hvolume] at hn
    exact h.listed name sig hn

/-- The walk finds the files under the composed names. -/
theorem Sound.onDisk (h : r.Sound forms) (p : RelPath) (sig : ContentSig) :
    r.onDisk[p]? = some sig ↔
      p.composed = true ∧ r.volume[forms.decomposed p.raw]? = some sig := by
  have hname (e : List Char × ContentSig) (he : e ∈ r.volume.toList) (q : RelPath)
      (s : ContentSig) (hq : (relativize e.1).map (fun p => (p, e.2)) = some (q, s)) :
      q.composed = true ∧ e = (forms.decomposed q.raw, s) := by
    have hv := Std.ExtTreeMap.mem_toList_iff_getElem?_eq_some.1 he
    obtain ⟨name, s'⟩ := e
    obtain ⟨q', hq', rfl⟩ := h.listed name s' hv
    rw [forms.relativize_decomposed hq'] at hq
    cases hq
    exact ⟨hq', rfl⟩
  rw [Normalizer.onDisk, getElem?_collect]
  · constructor
    · rintro (⟨e, he, hq⟩ | ⟨_, hnone⟩)
      · obtain ⟨hp, rfl⟩ := hname e he p sig hq
        exact ⟨hp, Std.ExtTreeMap.mem_toList_iff_getElem?_eq_some.1 he⟩
      · rw [Std.ExtTreeMap.getElem?_empty] at hnone
        cases hnone
    · rintro ⟨hp, hv⟩
      refine .inl ⟨_, Std.ExtTreeMap.mem_toList_iff_getElem?_eq_some.2 hv, ?_⟩
      dsimp only
      rw [forms.relativize_decomposed hp]
      rfl
  · intro e he e' he' v v' hq hq'
    obtain ⟨_, rfl⟩ := hname e he p v hq
    obtain ⟨_, rfl⟩ := hname e' he' p v' hq'
    have hv := Std.ExtTreeMap.mem_toList_iff_getElem?_eq_some.1 he
    have hv' := Std.ExtTreeMap.mem_toList_iff_getElem?_eq_some.1 he'
    rw [hv] at hv'
    cases hv'
    rfl

/-- A scan has nothing to report. -/
theorem Sound.scanned_nil (h : r.Sound forms) : r.scanned = [] := by
  have hfound : ∀ e ∈ r.onDisk.toList, found r.engine.index e = none := by
    rintro ⟨p, sig⟩ he
    obtain ⟨hp, hv⟩ := (h.onDisk p sig).1 (Std.ExtTreeMap.mem_toList_iff_getElem?_eq_some.1 he)
    have ha := h.agree p hp
    rw [lookup, hv] at ha
    rw [found, if_neg]
    rw [diskDiffers]
    cases hg : r.engine.index.get p with
    | none =>
      rw [hg] at ha
      cases ha
    | some e =>
      rw [hg] at ha
      simp only [agrees] at ha
      cases hw : e.winner.state with
      | tombstone =>
        rw [hw] at ha
        cases ha
      | present prev =>
        rw [hw] at ha
        have ha' : prev.eq sig = true := ha
        simp only [Option.map_some, hw, ha', Bool.not_true, Bool.false_eq_true, not_false_eq_true]
  have hgone : ∀ e ∈ r.engine.index.iter, gone r.onDisk e = none := by
    rintro ⟨p, e⟩ he
    have hg : r.engine.index.get p = some e :=
      Std.ExtTreeMap.mem_toList_iff_getElem?_eq_some.1 he
    rw [gone]
    cases hw : e.winner.state with
    | tombstone => rfl
    | present prev =>
      dsimp only
      rw [if_neg]
      cases hp : p.composed with
      | false => cases hw.symm.trans (h.buried p e hp hg).winner
      | true =>
        have ha := h.agree p hp
        rw [hg, agrees, hw, lookup] at ha
        cases hv : r.volume[forms.decomposed p.raw]? with
        | none =>
          rw [hv] at ha
          cases ha
        | some sig =>
          rw [(h.onDisk p sig).2 ⟨hp, hv⟩]
          simp
  rw [scanned, collect_of_none hfound, collect_of_none hgone]
  rfl

theorem Sound.rescan (h : r.Sound forms) : r.rescan forms = r := by
  rw [Normalizer.rescan, h.scanned_nil]
  rfl

theorem relativize_composed {name : List Char} (forms : Forms) (h : relativize name = some p) :
    p.composed = true := by
  rw [relativize] at h
  cases hn : RelPath.new (Platform.nfc name) with
  | error e =>
    rw [hn] at h
    cases h
  | ok q =>
    rw [hn] at h
    cases h
    have hraw := RelPath.new_eq_ok.1 hn
    apply decide_eq_true
    rw [hraw, ← forms.composes, forms.decomposes, forms.composes]

/-- Nor has the watcher, whatever name it is for. -/
theorem Sound.onWatch (h : r.Sound forms) (name : List Char) :
    ∃ e : Engine, e.index = r.engine.index ∧ r.onWatch forms name = { r with engine := e } := by
  rw [Normalizer.onWatch]
  cases hr : relativize name with
  | none => exact ⟨r.engine, rfl, rfl⟩
  | some p => exact handle_agreeing (h.agree p (relativize_composed forms hr))

theorem onChange_engine (h : agrees (r.engine.index.get c.path) (r.lookup forms c.path) = true) :
    (r.onChange forms c).engine = r.engine ∨
      (r.onChange forms c).engine = (r.engine.handleRemote c).1 := by
  rw [Normalizer.onChange]
  split
  next => exact .inl rfl
  next =>
    rw [reconcile_agreeing h]
    apply Or.inr
    change (r.handle forms (.remote c)).engine = _
    rw [handle_remote]

end Normalizer

omit [Platform] in
/-- A head of an index is at least a version. -/
def Index.Covers (i : Index) (p : RelPath) (v : VectorClock) : Prop :=
  ∃ g ∈ i.headsAt p, v ≤ g.version

section
omit [Platform]
variable {i j : Index} {v : VectorClock} {c : RemoteChange}

theorem mem_headsAt_absorbed {e : Engine} {h : Head}
    (hh : h ∈ (e.handleRemote c).1.index.headsAt p) :
    h ∈ e.index.headsAt p ∨ p = c.path ∧ h.version = c.version := by
  obtain ⟨_, hget, _⟩ := Engine.absorbRemote_spec e c.path (stateFromKind c.kind) c.version
  obtain ⟨entry, hg, hm⟩ := Index.mem_headsAt.1 hh
  have hg' := (hget p).symm.trans hg
  split at hg'
  next hp =>
    subst hp
    cases ho : e.index.get c.path with
    | none =>
      rw [ho] at hg'
      cases hg'
      cases List.mem_singleton.1 hm
      exact .inr ⟨rfl, rfl⟩
    | some old =>
      rw [ho] at hg'
      cases hg'
      simp only [Engine.absorbed] at hm
      cases hk : old.knows c.version with
      | true =>
        rw [Entry.absorb_known hk] at hm
        exact .inl (Index.mem_headsAt.2 ⟨old, ho, hm⟩)
      | false =>
        rcases (Entry.mem_absorb hk _).1 hm with rfl | ⟨hm, _⟩
        · exact .inr ⟨rfl, rfl⟩
        · exact .inl (Index.mem_headsAt.2 ⟨old, ho, hm⟩)
  next => exact .inl (Index.mem_headsAt.2 ⟨entry, hg', hm⟩)

theorem Index.headsAt_upsert (i : Index) (p q : RelPath) (e : Entry) :
    (i.upsert p e).headsAt q = if p = q then e.heads else i.headsAt q := by
  rw [headsAt, Index.get_upsert]
  split
  · rfl
  · rw [headsAt]

/-- What an index covers, it covers after a report. -/
theorem Index.Covers.report {e : Engine} (h : e.index.Covers p v) (q : RelPath)
    (disk : Expectation) : (e.report q disk).1.index.Covers p v := by
  rcases (e.handleLocal_spec ⟨q, Session.observedKind disk⟩).2 with ⟨hindex, _⟩ | ⟨hindex, _⟩
  · rw [Engine.report, Engine.handle, hindex]
    exact h
  · rw [Engine.report, Engine.handle, hindex]
    rw [Covers, Index.headsAt_upsert]
    split
    next hq =>
      subst hq
      obtain ⟨g, hg, hv⟩ := h
      obtain ⟨entry, hget, hm⟩ := Index.mem_headsAt.1 hg
      refine ⟨_, List.mem_singleton.2 rfl, ?_⟩
      calc v ≤ g.version := hv
        _ ≤ entry.mergedClock := Entry.le_mergedClock hm
        _ = e.index.base q := by
          rw [Index.base, hget]
          rfl
        _ ≤ (e.index.base q).tick e.replica := VectorClock.le_tick _ _
    next => exact h

/-- What a report ships is covered. -/
theorem covers_sends {e : Engine} {disk : Expectation} (h : c ∈ sends (e.report p disk).2) :
    (e.report p disk).1.index.Covers c.path c.version := by
  rcases (e.handleLocal_spec ⟨p, Session.observedKind disk⟩).2 with ⟨_, hs⟩ | ⟨hindex, hs⟩
  · rw [Engine.report, Engine.handle, hs] at h
    cases h
  · rw [Engine.report, Engine.handle, hs] at h
    cases List.mem_singleton.1 h
    rw [Engine.report, Engine.handle, hindex, Index.Covers, Index.headsAt_upsert, if_pos rfl]
    exact ⟨_, List.mem_singleton.2 rfl, le_rfl⟩

theorem covers_uncovered (h : c ∈ Session.uncoveredHeads i j) : i.Covers c.path c.version := by
  rw [Session.uncoveredHeads, List.mem_flatMap] at h
  obtain ⟨⟨p, entry⟩, he, hc⟩ := h
  obtain ⟨g, hg, rfl⟩ := List.mem_map.1 hc
  have hget : i.get p = some entry := Std.ExtTreeMap.mem_toList_iff_getElem?_eq_some.1 he
  exact ⟨g, Index.mem_headsAt.2 ⟨entry, hget, List.mem_of_mem_filter hg⟩, le_rfl⟩

/-- Nothing is shipped to a peer that covers every head. -/
theorem uncoveredHeads_nil (h : ∀ p, ∀ g ∈ i.headsAt p, j.Covers p g.version) :
    Session.uncoveredHeads i j = [] := by
  rw [Session.uncoveredHeads, List.flatMap_eq_nil_iff]
  intro ⟨p, entry⟩ he
  have hget : i.get p = some entry := Std.ExtTreeMap.mem_toList_iff_getElem?_eq_some.1 he
  rw [List.map_eq_nil_iff, List.filter_eq_nil_iff]
  intro g hg hf
  obtain ⟨b, hb, hv⟩ := h p g (Index.mem_headsAt.2 ⟨entry, hget, hg⟩)
  obtain ⟨peer, hp, hm⟩ := Index.mem_headsAt.1 hb
  have hcov := (Engine.covered_iff g.version peer.heads).2 ⟨b, hm, hv⟩
  simp only [hp, hcov, Bool.not_true, Bool.false_eq_true] at hf

end

namespace Mixed

/-- This side is sound, and the peer covers all that it knows or will be told. -/
structure Sound (forms : Forms) (w : Mixed) : Prop where
  here : w.here.Sound forms
  covered : ∀ p, ∀ g ∈ w.here.engine.index.headsAt p, w.peer.engine.index.Covers p g.version
  coming : ∀ c ∈ w.toHere, w.peer.engine.index.Covers c.path c.version
  kept : w.peer.disk = w.authored

variable {w : Mixed}

theorem Sound.init (forms : Forms) (idHere idPeer : ReplicaId) (caseInsensitive : Bool) :
    (init idHere idPeer caseInsensitive).Sound forms where
  here := .init forms idHere caseInsensitive
  covered p g hg := by
    obtain ⟨e, he, _⟩ := Index.mem_headsAt.1 hg
    cases (Index.get_new p).symm.trans he
  coming c hc := by cases hc
  kept := rfl

/-- The engine here has the index it had, or none of its heads is new to the peer. -/
theorem Sound.deliver (h : w.Sound forms) {c : RemoteChange} {rest : List RemoteChange}
    (ht : w.toHere = c :: rest)
    (ha : agrees (w.here.engine.index.get c.path) (w.here.lookup forms c.path) = true)
    (hs : (w.here.onChange forms c).Sound forms) :
    Sound forms { w with here := w.here.onChange forms c, toHere := rest } := by
  have hmem : c ∈ w.toHere := by
    rw [ht]
    exact List.mem_cons_self
  refine ⟨hs, fun p g hg => ?_, fun b hb => ?_, h.kept⟩
  · rcases Normalizer.onChange_engine ha with he | he
    · rw [he] at hg
      exact h.covered p g hg
    · rw [he] at hg
      rcases mem_headsAt_absorbed hg with hg | ⟨rfl, hv⟩
      · exact h.covered p g hg
      · rw [hv]
        exact h.coming c hmem
  · exact h.coming b (by rw [ht]; exact List.mem_cons_of_mem c hb)

theorem Sound.step (h : w.Sound forms) (ha : w.Composed forms a) : (w.step forms a).Sound forms := by
  cases a with
  | edit p content =>
    refine ⟨h.here, h.covered, h.coming, ?_⟩
    change Function.update w.peer.disk p content = Function.update w.authored p content
    rw [h.kept]
  | report p =>
    refine ⟨h.here, fun q g hg => (h.covered q g hg).report p _, fun c hc => ?_, h.kept⟩
    rcases List.mem_append.1 hc with hc | hc
    · exact (h.coming c hc).report p _
    · exact covers_sends hc
  | exchange =>
    simp only [Mixed.step, uncoveredHeads_nil h.covered, List.append_nil]
    refine ⟨h.here, h.covered, fun c hc => ?_, h.kept⟩
    rcases List.mem_append.1 hc with hc | hc
    · exact h.coming c hc
    · exact covers_uncovered hc
  | deliver =>
    simp only [Mixed.step]
    simp only [Composed] at ha
    split
    next => exact h
    next c rest ht =>
      rw [ht] at ha
      cases hc : c.path.composed with
      | true => exact h.deliver ht (h.here.agree c.path hc) (h.here.composed hc)
      | false =>
        rcases ha with ha | ⟨hk, hl⟩
        · rw [hc] at ha
          cases ha
        · exact h.deliver ht (h.here.agree_absent hc hl) (h.here.removed hc hk hl)
  | rescan =>
    simp only [Mixed.step, h.here.rescan]
    exact h
  | watch name =>
    obtain ⟨e, he, hw⟩ := h.here.onWatch name
    simp only [Mixed.step, hw]
    refine ⟨h.here.rejournal he, fun p g hg => ?_, h.coming, h.kept⟩
    have hg' : g ∈ e.index.headsAt p := hg
    rw [he] at hg'
    exact h.covered p g hg'
  | deliverBack =>
    simp only [Mixed.step, h.here.silent]
    exact h

theorem ComposedRun.sound (h : w.Sound forms) (hrun : w.ComposedRun forms steps) :
    (w.run forms steps).Sound forms := by
  induction steps generalizing w with
  | nil => exact h
  | cons a steps ih => exact ih (h.step hrun.1) hrun.2

end Mixed

end

/-- An accented letter, and the letter with the accent after it. -/
def composedName : List Char := ['\u00e9']

def decomposedName : List Char := ['e', '\u0301']

def composedPath : RelPath := ⟨composedName, by decide⟩

def decomposedPath : RelPath := ⟨decomposedName, by decide⟩

namespace Mixed

/-- The peer has a file under the decomposed name. It comes in, and a scan finds it under the
composed one. -/
def renamed : List MixedStep :=
  [.edit decomposedPath (.present oneSig), .report decomposedPath, .deliver, .rescan,
    .deliverBack, .deliverBack]

/-- The peer has two files whose names have one normal form. -/
def doubled : List MixedStep :=
  [.edit composedPath (.present twoSig), .report composedPath, .deliver,
    .edit decomposedPath (.present oneSig), .report decomposedPath, .deliver]

end Mixed

end Tomo
