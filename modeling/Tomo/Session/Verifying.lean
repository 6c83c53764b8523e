import Tomo.Session.Superseding

namespace Tomo
set_option autoImplicit true

namespace Session
open Eff
variable [Platform] {s s' : Session} {p q : RelPath} {a b : Assembly}
  {torn : List ContentHash} {written : List (ContentHash × Bytes)}

/-- An invariant that the link has no part in: it may be spoken on, or lost. -/
structure Deaf (I : Session → Prop) : Prop where
  same : ∀ {s s' : Session}, I s → s'.assemblies = s.assemblies → s'.chunkFiles = s.chunkFiles →
    s'.engine = s.engine → s'.tree = s.tree → s'.history = s.history →
    s'.pressure = s.pressure → s'.pendingInstalls = s.pendingInstalls → I s'
  offline : ∀ {s : Session}, I s → I s.goOffline

section
variable {I : Session → Prop}

omit [Platform] in
theorem Deaf.ship (hi : Deaf I) (msgs : List Message) (s : Session) : Upholds I (ship msgs) s := by
  apply Upholds.get
  split
  · exact .pure _ s
  · apply Upholds.ite
    · exact .ite (.set hi.offline) (.throw _ s)
    · exact .set fun h => hi.same h rfl rfl rfl rfl rfl rfl rfl

theorem Deaf.prepareSend (hi : Deaf I) (change : RemoteChange) (s : Session) :
    Upholds I (prepareSend change) s := by
  apply Upholds.get
  apply Upholds.ite
  · exact .pure _ s
  · split
    · exact .pure _ s
    · apply Upholds.ite
      · apply Upholds.ite
        · apply Upholds.map
          apply Upholds.bind
          · exact .modify fun h => hi.same h rfl rfl rfl rfl rfl rfl rfl
          · exact fun _ s' => .pure _ s'
        · exact .pure _ s
      · exact .pure _ s

theorem Deaf.doSend (hi : Deaf I) (change : RemoteChange) (s : Session) :
    Upholds I (doSend change) s := by
  apply (hi.prepareSend change s).bind
  intro msg s'
  cases msg with
  | none => exact .pure _ s'
  | some msg => exact hi.ship [msg] s'

theorem Deaf.flushQueuedSend (hi : Deaf I) (p : RelPath) (s : Session) :
    Upholds I (flushQueuedSend p) s := by
  apply Upholds.get
  split
  · exact .pure _ s
  · apply Upholds.bind
    · exact .set fun h => hi.same h rfl rfl rfl rfl rfl rfl rfl
    · exact fun _ s' => hi.doSend _ s'

end

/-- An invariant of the assemblies and their chunk files, which the link may lose. -/
structure Shelved (I : Session → Prop) : Prop where
  same : ∀ {s s' : Session}, I s → s'.assemblies = s.assemblies → s'.chunkFiles = s.chunkFiles → I s'
  offline : ∀ {s : Session}, I s → I s.goOffline

namespace Shelved
variable {I : Session → Prop}

omit [Platform] in
theorem deaf (hi : Shelved I) : Deaf I where
  same h ha hf _ _ _ _ _ := hi.same h ha hf
  offline := hi.offline

omit [Platform] in
theorem of_frame (hi : Shelved I) (h : I s) (hf : s'.frame = s.frame) : I s' := by
  have ha : s'.frame.assemblies = s.frame.assemblies := by rw [hf]
  have hc : s'.frame.chunkFiles = s.frame.chunkFiles := by rw [hf]
  exact hi.same h ha hc

omit [Platform] in
theorem works (hi : Shelved I) {x : SessionM α} (hw : Works x s) : Upholds I x s :=
  ⟨fun h => hi.of_frame h hw.leaves⟩

theorem executeActions (hi : Shelved I) (bytes : Option Bytes) (v : Option VectorClock)
    (nowMs : Nat) (versions : List (RelPath × VectorClock)) (actions : List Action)
    (captures : List ConflictCapture) (s : Session) :
    Upholds I (executeActions bytes v nowMs versions actions captures) s := by
  induction actions generalizing captures s with
  | nil => exact .pure _ s
  | cons action rest ih =>
    cases action with
    | send change => exact (hi.deaf.doSend change s).bind fun _ s' => ih captures s'
    | apply path target => exact (hi.works (doApply_works ..)).bind fun _ s' => ih captures s'
    | recordVersion path state version =>
      rw [Session.executeActions]
      apply Upholds.ite
      · exact ih captures s
      · exact (hi.works (noteVersion_files ..).books.works).bind fun _ s' => ih captures s'
    | conflictResolved path winner winnerVersion loser loserVersion adopted =>
      cases captures with
      | nil => exact ih [] s
      | cons capture captures =>
        rw [Session.executeActions]
        apply Upholds.bind
        · exact (hi.works (recordConflictCapture_books capture s).works).map
        · exact fun _ s' => ih captures s'

theorem execute (hi : Shelved I) (actions : List Action) (bytes : Option Bytes)
    (v : Option VectorClock) (s : Session) : Upholds I (execute actions bytes v) s :=
  .get (hi.executeActions ..)

omit [Platform] in
theorem handleEvent (hi : Shelved I) (ev : Event) (s : Session) :
    Upholds I (handleEvent ev) s := by
  apply Upholds.get
  apply Upholds.bind
  · exact .set fun h => hi.same h rfl rfl
  · exact fun _ s' => .pure _ s'

theorem absorbAndExecute (hi : Shelved I) (c : RemoteChange) (bytes : Option Bytes)
    (s : Session) : Upholds I (absorbAndExecute c bytes) s := by
  apply (hi.handleEvent _ s).bind
  intro actions s'
  apply Upholds.bind
  · exact .modify fun h => hi.same h rfl rfl
  · exact fun _ s' => hi.execute ..

theorem reconcileUnobservedLocal (hi : Shelved I) (p : RelPath) (s : Session) :
    Upholds I (reconcileUnobservedLocal p) s := by
  apply Upholds.get
  split
  · exact .throw _ s
  · apply Upholds.ite
    · apply (hi.handleEvent _ s).bind
      intro actions s'
      apply Upholds.bind
      · exact .modify fun h => hi.same h rfl rfl
      · exact fun _ s' => hi.execute ..
    · exact .pure _ s

theorem deliver (hi : Shelved I) (c : RemoteChange) (bytes : Option Bytes) (s : Session) :
    Upholds I (deliver c bytes) s :=
  (hi.reconcileUnobservedLocal c.path s).bind fun _ s' => hi.absorbAndExecute c bytes s'

end Shelved

/-- What an assembly has received is on file: as it was last written, and with its hash unless that
writing ran out of space. -/
def Shelf (torn : List ContentHash) (written : List (ContentHash × Bytes)) (s : Session) : Prop :=
  ∀ (p : RelPath) (a : Assembly), s.assemblies[p]? = some a → a.change.kind = .modified a.sig ∧
    ∀ x ∈ a.received, x ∈ a.manifest ∧ ∃ bytes, s.chunkFiles[x]? = some bytes ∧
      (x, bytes) ∈ written ∧ (x ∉ torn → Platform.blake3 bytes = x)

theorem Shelf.of_eq (h : s.Shelf torn written) (ha : s'.assemblies = s.assemblies)
    (hf : s'.chunkFiles = s.chunkFiles) : s'.Shelf torn written := by
  rw [Shelf, ha, hf]
  exact h

omit [Platform] in
/-- Engine, disk and records are as they were; what was staged is too, or it is given up. -/
structure Spared (s u : Session) : Prop where
  engine : u.engine = s.engine
  tree : u.tree = s.tree
  history : u.history = s.history
  pressure : u.pressure = s.pressure
  installs : u.pendingInstalls = s.pendingInstalls ∨ u.pendingInstalls = []

omit [Platform] in
theorem Spared.refl (s : Session) : s.Spared s := ⟨rfl, rfl, rfl, rfl, .inl rfl⟩

/-- The frame has not reached the engine yet, and the shelf is in order. -/
def Holds (torn : List ContentHash) (written : List (ContentHash × Bytes)) (s u : Session) : Prop :=
  s.Spared u ∧ u.Shelf torn written

theorem Shelf.insert (h : s.Shelf torn written)
    (hb : b.change.kind = .modified b.sig ∧ ∀ x ∈ b.received, x ∈ b.manifest ∧
      ∃ bytes, s.chunkFiles[x]? = some bytes ∧ (x, bytes) ∈ written ∧
        (x ∉ torn → Platform.blake3 bytes = x)) :
    Shelf torn written { s with assemblies := s.assemblies.insert p b } := by
  intro q c hq
  have hq' : (s.assemblies.insert p b)[q]? = some c := hq
  rw [inserted_get] at hq'
  split at hq'
  · cases hq'
    exact hb
  · exact h q c hq'

/-- What a whole assembly ends with. -/
def assembled (a : Assembly) (content : Bytes) : SessionM Unit := do
  flushPendingInstallFor a.change.path
  if ← caseCollisionRefused a.change (some content) then pure ()
  else deliver a.change (some content)

theorem Shelved.assembled {I : Session → Prop} (hi : Shelved I) (a : Assembly) (content : Bytes)
    (s : Session) : Upholds I (assembled a content) s := by
  apply (hi.works (flushPendingInstallFor_works _ s)).bind
  intro _ s'
  apply (hi.works (caseCollisionRefused_books _ _ s').works).bind
  intro refused s''
  exact .ite (.pure _ s'') (hi.deliver _ _ s'')

/-- The chunk files whose last writing ran out of space, and all that was ever written to chunk
files, once a chunk frame is handled. -/
def shelfAfter (s : Session) (order : List (RelPath × Assembly)) (hash : ContentHash)
    (bytes : Bytes) (torn : List ContentHash) (written : List (ContentHash × Bytes)) :
    List ContentHash × List (ContentHash × Bytes) :=
  if (chunkTaker order hash).isSome ∧ Platform.blake3 bytes = hash then
    if s.diskFull then (hash :: torn, (hash, []) :: written)
    else (torn.filter fun x => x ≠ hash, (hash, bytes) :: written)
  else (torn, written)

theorem Shelf.write {torn' : List ContentHash} {hash : ContentHash} {bytes : Bytes}
    (h : s.Shelf torn written)
    (hverified : hash ∉ torn' → Platform.blake3 bytes = hash)
    (htorn : ∀ x, x ≠ hash → x ∈ torn → x ∈ torn') :
    Shelf torn' ((hash, bytes) :: written)
      { s with chunkFiles := s.chunkFiles.insert hash bytes } := by
  intro p a ha
  obtain ⟨hkind, hreceived⟩ := h p a ha
  refine ⟨hkind, fun x hx => ?_⟩
  obtain ⟨hin, old, hfile, hwritten, hhash⟩ := hreceived x hx
  by_cases heq : hash = x
  · subst heq
    exact ⟨hin, bytes, Std.ExtTreeMap.getElem?_insert_self, List.mem_cons_self, hverified⟩
  · have hfile' : (s.chunkFiles.insert hash bytes)[x]? = some old := by
      rw [Std.ExtTreeMap.getElem?_insert, if_neg, hfile]
      rwa [Std.compare_eq_iff_eq]
    exact ⟨hin, old, hfile', List.mem_cons_of_mem _ hwritten,
      fun hnot => hhash fun hx => hnot (htorn x (Ne.symm heq) hx)⟩

/-- An inline change keeps what giving up its own assembly keeps. -/
theorem Shelved.onChange {I : Session → Prop} (hi : Shelved I) (c : RemoteChange)
    (hdrop : ∀ s, I s → I (s.abandonSuperseded c.path)) (bytes : Option Bytes) (s : Session) :
    Upholds I (onChange c bytes) s := by
  apply Upholds.get
  apply Upholds.ite
  · apply (hi.works (caseCollisionRefused_books c bytes s).works).bind
    intro refused s'
    apply Upholds.ite
    · exact .pure _ s'
    · apply (hi.deaf.flushQueuedSend c.path s').bind
      intro _ s'
      apply (hi.works (flushPendingInstallFor_works c.path s')).bind
      intro _ s'
      apply Upholds.bind
      · exact .modify (hdrop s')
      · exact fun _ s' => hi.deliver c bytes s'
  · exact .pure _ s

end Session

/-- A session, the chunk files whose last writing ran out of space, and all that was ever written
to chunk files. -/
structure Receipt where
  session : Session
  torn : List ContentHash
  written : List (ContentHash × Bytes)

namespace Receipt
variable [Platform] {t t' : Receipt}

/-- The session after a handler that puts nothing on the shelf. -/
def after (t : Receipt) (x : SessionM Unit) : Receipt := { t with session := (x.exec t.session).2 }

def chunk (t : Receipt) (order : List (RelPath × Assembly)) (hash : ContentHash)
    (bytes : Bytes) : Receipt :=
  let (torn, written) := t.session.shelfAfter order hash bytes t.torn t.written
  ⟨((Session.takeChunk order hash bytes).exec t.session).2, torn, written⟩

/-- Frames arrive with any content, the assemblies standing in any order; the link may go at any
time, and everything else does not touch the assemblies. -/
inductive Step : Receipt → Receipt → Prop where
  | manifest (t : Receipt) (c : RemoteChange) (total : Nat) (manifest : List ContentHash) :
    Step t (t.after (Session.onChangeManifest c total manifest))
  | chunk (t : Receipt) (hash : ContentHash) (bytes : Bytes) (order : List (RelPath × Assembly))
      (ho : order.Perm t.session.assemblies.toList) : Step t (t.chunk order hash bytes)
  | change (t : Receipt) (c : RemoteChange) (bytes : Option Bytes) :
    Step t (t.after (Session.onChange c bytes))
  | offline (t : Receipt) : Step t { t with session := t.session.goOffline }
  | other (t : Receipt) (s : Session) (ha : s.assemblies = t.session.assemblies)
      (hf : s.chunkFiles = t.session.chunkFiles) : Step t { t with session := s }

end Receipt

namespace Receipt

def idle : Receipt := ⟨idleTransfer.session, [], []⟩

def announced : Receipt :=
  letI := tabulated shortHashes
  idle.after (Session.onChangeManifest (modifiedAt secondPath) 1 [sharedChunk])

/-- Two assemblies share a chunk. -/
def twice : Receipt :=
  letI := tabulated shortHashes
  announced.after (Session.onChangeManifest (modifiedAt firstPath) 33 longManifest)

/-- The first of them receives it. -/
def shared : Receipt :=
  letI := tabulated shortHashes
  twice.chunk twice.session.assemblies.toList sharedChunk [0x31]

/-- The disk fills up. -/
def fill (t : Receipt) : Receipt := { t with session := { t.session with diskFull := true } }

def full : Receipt := shared.fill

end Receipt

end Tomo
