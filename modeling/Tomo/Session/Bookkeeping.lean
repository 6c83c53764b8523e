import Tomo.Engine.Actions
import Tomo.History.Content
import Tomo.Session.Inbound

namespace Tomo
set_option autoImplicit true

namespace Session
open Eff
variable {s s' : Session} {x : SessionM α} {f : α → SessionM β}

/-- The session without its records, its outgoing frames and its reminders. -/
def core (s : Session) : Session :=
  { s with
    history := .new
    pressure := .new .off {}
    sent := []
    outboundManifests := ∅
    pendingSends := []
    indexDirty := false
    rescanPending := false }

/-- Giving up assemblies touches nothing but them and their chunk files. -/
theorem abandonAssembly_only (s : Session) (p : RelPath) :
    ∃ assemblies chunkFiles, s.abandonAssembly p = { s with assemblies, chunkFiles } := by
  rw [abandonAssembly]
  split
  · exact ⟨_, _, rfl⟩
  · exact ⟨s.assemblies, s.chunkFiles, rfl⟩

theorem abandonAssembly_fewer (s : Session) (p q : RelPath) (a : Assembly)
    (h : (s.abandonAssembly p).assemblies[q]? = some a) : s.assemblies[q]? = some a ∧ p ≠ q := by
  rw [abandonAssembly] at h
  split at h
  next b _ =>
    have he : ({ s with assemblies := s.assemblies.erase p }.cleanAssemblyChunks b).assemblies =
        s.assemblies.erase p := rfl
    rw [he] at h
    simp only [Std.ExtTreeMap.getElem?_erase, Std.compare_eq_iff_eq] at h
    split at h
    · cases h
    next hpq => exact ⟨h, hpq⟩
  next hn =>
    refine ⟨h, ?_⟩
    rintro rfl
    rw [hn] at h
    cases h

theorem abandonSuperseded_fewer (s : Session) (p q : RelPath) (a : Assembly)
    (h : (s.abandonSuperseded p).assemblies[q]? = some a) : s.assemblies[q]? = some a := by
  rw [abandonSuperseded] at h
  revert h
  generalize s.assemblies.keys.filter _ = l
  induction l generalizing s with
  | nil => exact id
  | cons r rest ih =>
    intro h
    exact (s.abandonAssembly_fewer r q a (ih (s.abandonAssembly r) h)).1

theorem abandonSuperseded_only (s : Session) (p : RelPath) :
    ∃ assemblies chunkFiles, s.abandonSuperseded p = { s with assemblies, chunkFiles } := by
  rw [abandonSuperseded]
  generalize s.assemblies.keys.filter _ = l
  induction l generalizing s with
  | nil => exact ⟨s.assemblies, s.chunkFiles, rfl⟩
  | cons q rest ih =>
    obtain ⟨a, f, h⟩ := s.abandonAssembly_only q
    obtain ⟨a', f', h'⟩ := ih { s with assemblies := a, chunkFiles := f }
    exact ⟨a', f', by rw [List.foldl_cons, h, h']⟩

/-- Every frame sent over the link, if there is one, goes through. -/
def Healthy (s : Session) : Prop := ∀ t, s.transport = some t → t.broken = false

theorem Healthy.of_core (h : s'.core = s.core) (hs : s.Healthy) : s'.Healthy := by
  intro t ht
  have he : s'.core.transport = s.core.transport := by rw [h]
  exact hs t (he.symm.trans ht)

/-- Whether a message announces a change. -/
def announces : Message → Bool
  | .change .. | .changeManifest .. => true
  | .hello .. | .indexExchange _ | .chunkRequest _ | .chunkData .. | .ping _ | .pong _
  | .pause | .resume => false

/-- The frames a computation ships are all of one kind. -/
def Emits (kind : Message → Bool) (x : SessionM α) (s : Session) : Prop :=
  ∃ l, (x.exec s).2.sent = s.sent ++ l ∧ ∀ m ∈ l, kind m = true

namespace Emits
variable {kind : Message → Bool}

theorem silent (h : (x.exec s).2.sent = s.sent) : Emits kind x s :=
  ⟨[], by rw [h, List.append_nil], fun _ hm => by cases hm⟩

theorem get {f : Session → SessionM β} (h : Emits kind (f s) s) : Emits kind (get >>= f) s := h

theorem bind (hx : Emits kind x s) (hf : ∀ a s', x.exec s = (.ok a, s') → Emits kind (f a) s') :
    Emits kind (x >>= f) s := by
  obtain ⟨l, hl, hk⟩ := hx
  rcases he : x.exec s with ⟨r, s'⟩
  rw [he] at hl
  cases r with
  | error e =>
    rw [Emits, exec_bind_error he]
    exact ⟨l, hl, hk⟩
  | ok a =>
    obtain ⟨l', hl', hk'⟩ := hf a s' he
    rw [Emits, exec_bind_ok he]
    refine ⟨l ++ l', ?_, fun m hm => ?_⟩
    · rw [hl', hl, List.append_assoc]
    · exact (List.mem_append.1 hm).elim (hk m) (hk' m)

end Emits

/-- A computation that only keeps records and announces changes, and fails only in the history
store. -/
structure Books (x : SessionM α) (s : Session) : Prop where
  core : (x.exec s).2.core = s.core
  error : ∀ e, (x.exec s).1 = .error e → ∃ h, e = .history h
  emits : Emits announces x s

namespace Books

theorem pure (a : α) (s : Session) : Books (pure a) s := ⟨rfl, (fun _ h => by cases h), .silent rfl⟩

theorem modify {f : Session → Session} (h : (f s).core = s.core) (hs : (f s).sent = s.sent) :
    Books (modify f) s := ⟨h, (fun _ h => by cases h), .silent hs⟩

theorem set (h : s'.core = s.core) (hs : s'.sent = s.sent) : Books (set s') s :=
  ⟨h, (fun _ h => by cases h), .silent hs⟩

theorem get {f : Session → SessionM β} (h : Books (f s) s) : Books (get >>= f) s :=
  ⟨h.1, h.2, h.3⟩

theorem bind_exec (hx : Books x s)
    (hf : ∀ a s', x.exec s = (.ok a, s') → s'.core = s.core → Books (f a) s') :
    Books (x >>= f) s := by
  obtain ⟨hc, he, hm⟩ := hx
  have hem : Emits announces (x >>= f) s := hm.bind fun a s' hr => by
    rw [hr] at hc
    exact (hf a s' hr hc).emits
  rcases hr : x.exec s with ⟨r, s'⟩
  rw [hr] at hc he
  cases r with
  | error e =>
    have hb := exec_bind_error (f := f) hr
    refine ⟨?_, ?_, hem⟩
    · rw [hb]
      exact hc
    · rw [hb]
      intro e' h
      cases h
      exact he e rfl
  | ok a =>
    have hb := exec_bind_ok (f := f) hr
    have hfa := hf a s' hr hc
    refine ⟨?_, ?_, hem⟩
    · rw [hb]
      exact hfa.core.trans hc
    · rw [hb]
      exact hfa.error

theorem bind (hx : Books x s) (hf : ∀ a s', s'.core = s.core → Books (f a) s') :
    Books (x >>= f) s := hx.bind_exec fun a s' _ => hf a s'

theorem map {f : α → β} (hx : Books x s) : Books (f <$> x) s := hx.bind fun a s' _ => pure (f a) s'

theorem discard (hx : Books x s) : Books (discard x) s := hx.map

theorem ite {c : Prop} [Decidable c] {y : SessionM α} (hx : Books x s) (hy : Books y s) :
    Books (if c then x else y) s := by
  split
  · exact hx
  · exact hy

end Books

/-- A computation that keeps its records without fail. -/
structure Files (x : SessionM α) (s : Session) : Prop where
  books : Books x s
  ok : ∃ a, (x.exec s).1 = .ok a

namespace Files

theorem pure (a : α) (s : Session) : Files (pure a) s := ⟨.pure a s, a, rfl⟩

theorem modify {f : Session → Session} (h : (f s).core = s.core) (hs : (f s).sent = s.sent) :
    Files (modify f) s := ⟨.modify h hs, ⟨⟩, rfl⟩

theorem set (h : s'.core = s.core) (hs : s'.sent = s.sent) : Files (set s') s :=
  ⟨.set h hs, ⟨⟩, rfl⟩

theorem get {f : Session → SessionM β} (h : Files (f s) s) : Files (get >>= f) s :=
  ⟨.get h.1, h.2⟩

theorem exec_eq (hx : Files x s) : ∃ a s', x.exec s = (.ok a, s') ∧ s'.core = s.core := by
  obtain ⟨a, ha⟩ := hx.ok
  exact ⟨a, _, Prod.ext ha rfl, hx.books.core⟩

theorem bind_exec (hx : Files x s)
    (hf : ∀ a s', x.exec s = (.ok a, s') → s'.core = s.core → Files (f a) s') :
    Files (x >>= f) s := by
  obtain ⟨a, s', he, hc⟩ := hx.exec_eq
  refine ⟨hx.books.bind_exec fun a s' he hc => (hf a s' he hc).books, ?_⟩
  rw [exec_bind_ok he]
  exact (hf a s' he hc).ok

theorem bind (hx : Files x s) (hf : ∀ a s', s'.core = s.core → Files (f a) s') :
    Files (x >>= f) s := hx.bind_exec fun a s' _ => hf a s'

theorem map {f : α → β} (hx : Files x s) : Files (f <$> x) s := hx.bind fun a s' _ => pure (f a) s'

theorem discard (hx : Files x s) : Files (discard x) s := hx.map

theorem ite {c : Prop} [Decidable c] {y : SessionM α} (hx : Files x s) (hy : Files y s) :
    Files (if c then x else y) s := by
  split
  · exact hx
  · exact hy

end Files

theorem liftHistory_books (r : Except HistoryError α) (s : Session) : Books (liftHistory r) s := by
  cases r with
  | ok a => exact .pure a s
  | error e =>
    refine ⟨rfl, fun e' h => ?_, .silent rfl⟩
    cases h
    exact ⟨e, rfl⟩

section
variable [Platform] (p : RelPath) (state : EntryState) (version : VectorClock) (l : Bool)

/-- The bytes at hand for a state are its content. -/
inductive Fitting : EntryState → Option Bytes → Prop where
  | present (h : matchesSig b sig = true) : Fitting (.present sig) (some b)
  | tombstone (bytes : Option Bytes) : Fitting .tombstone bytes

theorem storeVersion_books (bytes : Option Bytes) (s : Session) :
    Books (storeVersion p state version l bytes) s :=
  .get <| (liftHistory_books _ s).bind fun _ _ _ =>
    (Books.modify rfl rfl).bind fun _ s' _ => .pure _ s'

theorem recordVersion_ok (h : HistoryStore) (hb : Fitting state bytes) (clock : VectorClock)
    (replica : ReplicaId) (origin : Origin) (wallMs : Nat) :
    ∃ r, h.recordVersion p state clock replica origin wallMs bytes = .ok r := by
  cases hb with
  | present hm => exact ⟨_, HistoryStore.recordVersion_present h p clock replica origin wallMs hm⟩
  | tombstone => exact ⟨_, rfl⟩

theorem storeVersion_files (hb : Fitting state bytes) (s : Session) :
    Files (storeVersion p state version l bytes) s := by
  refine ⟨storeVersion_books .., ?_⟩
  obtain ⟨r, hr⟩ := recordVersion_ok p state s.history hb version (s.attribution l).2
    (s.attribution l).1 s.wallMs
  simp only [storeVersion, exec_get_bind, hr]
  exact ⟨_, rfl⟩

theorem readVerified_matches (h : readVerified s.tree s.root p sig = some b) :
    matchesSig b sig = true := by
  rw [readVerified] at h
  split at h
  · split at h
    next hm =>
      cases h
      exact hm
    · cases h
  · cases h

theorem recordVersion_files (s : Session) : Files (recordVersion p state version l) s := by
  apply Files.get
  cases state with
  | present sig =>
    dsimp only
    split
    next b hb =>
      exact (storeVersion_files p _ version l (.present (readVerified_matches p hb)) s).discard
    · exact .pure _ s
  | tombstone => exact (storeVersion_files p _ version l (.tombstone none) s).discard

theorem noteVersion_files (nowMs : Nat) (s : Session) :
    Files (noteVersion p state version l nowMs) s := by
  apply Files.get
  refine (Files.set ?_ ?_).bind fun _ s' _ => ?_
  · rfl
  · rfl
  · split
    · exact recordVersion_files ..
    · exact .pure _ s'
    · exact .pure _ s'

theorem findOrRecord_books (captured : Captured) (s : Session) :
    Books (findOrRecord p state version captured l) s := by
  apply Books.get
  split
  · exact .pure _ s
  · split
    · exact (storeVersion_books ..).map
    · exact (storeVersion_books ..).map
    · exact .pure _ s

/-- What was captured for a state is its content. -/
def CapturedOf (state : EntryState) (c : Captured) : Prop :=
  ∀ sig b, state = .present sig → c = .present b → matchesSig b sig = true

variable {p state} in
theorem captureConflictBytes_of (s : Session) (bytes : Option Bytes) :
    CapturedOf state (s.captureConflictBytes p state bytes) := by
  rintro sig b rfl hc
  rw [captureConflictBytes] at hc
  split at hc
  next b' hf =>
    cases hc
    exact (Option.filter_eq_some_iff.1 hf).2
  · split at hc
    next b' hr =>
      cases hc
      exact readVerified_matches p hr
    · cases hc

theorem findOrRecord_files {captured : Captured} (h : CapturedOf state captured) (s : Session) :
    Files (findOrRecord p state version captured l) s := by
  apply Files.get
  split
  · exact .pure _ s
  · split
    · exact (storeVersion_files _ _ _ _ (.tombstone none) s).map
    next sig b _ =>
      exact (storeVersion_files _ _ _ _ (.present (h sig b rfl rfl)) s).map
    · exact .pure _ s

/-- A capture with the content of its two heads. -/
structure Apt (c : ConflictCapture) : Prop where
  winner : CapturedOf c.winner c.winnerBytes
  loser : CapturedOf c.loser c.loserBytes

theorem recordConflictCapture_files {c : ConflictCapture} (h : Apt c) (s : Session) :
    Files (recordConflictCapture c) s := by
  refine (findOrRecord_files _ _ _ _ h.loser s).bind fun loserId s' _ => ?_
  refine (findOrRecord_files _ _ _ _ h.winner s').bind fun winnerId s' _ => ?_
  split
  · apply Files.get
    exact Files.bind (.set rfl rfl) fun _ s' _ => .pure _ s'
  · exact .pure _ s'

theorem recordConflictCapture_books (c : ConflictCapture) (s : Session) :
    Books (recordConflictCapture c) s := by
  refine (findOrRecord_books ..).bind fun loserId s' _ => ?_
  refine (findOrRecord_books ..).bind fun winnerId s' _ => ?_
  split
  · apply Books.get
    exact Books.bind (.set rfl rfl) fun _ s' _ => .pure _ s'
  · exact .pure _ s'

theorem conflictCaptures_apt (s : Session) (bytes : Option Bytes) (v : Option VectorClock)
    (actions : List Action) : ∀ c ∈ s.conflictCaptures bytes v actions, Apt c := by
  intro c hc
  obtain ⟨a, _, ha⟩ := List.mem_filterMap.1 hc
  cases a with
  | send => cases ha
  | apply => cases ha
  | recordVersion => cases ha
  | conflictResolved =>
    cases ha
    exact ⟨captureConflictBytes_of s bytes, captureConflictBytes_of s bytes⟩

theorem recordPresentIfAbsent_files {sig : ContentSig} {bytes : Bytes}
    (hm : matchesSig bytes sig = true) (s : Session) :
    Files (recordPresentIfAbsent p sig version bytes l) s :=
  .get <| .ite (.pure _ s) (storeVersion_files p _ version l (.present hm) s).discard

theorem recordPresentIfAbsent_books (sig : ContentSig) (bytes : Bytes) (s : Session) :
    Books (recordPresentIfAbsent p sig version bytes l) s :=
  .get <| .ite (.pure _ s) (storeVersion_books ..).discard

theorem incomingBytes_books (sig : ContentSig) (bytes : Option Bytes) (s : Session) :
    Books (incomingBytes sig bytes) s := by
  apply Books.get
  split
  · exact .pure _ s
  · exact liftHistory_books _ s

theorem preserveIncomingFile_books (sig : ContentSig) (bytes : Option Bytes) (s : Session) :
    Books (preserveIncomingFile p sig bytes) s := by
  apply Books.get
  refine (incomingBytes_books ..).bind fun _ s' _ => ?_
  split
  · exact recordPresentIfAbsent_books ..
  · exact .pure _ s'

theorem preserveCollidedIncoming_books (sig : ContentSig) (bytes : Option Bytes) (s : Session) :
    Books (preserveCollidedIncoming p sig version bytes) s := by
  apply Books.get
  apply Books.ite
  · exact .pure _ s
  · refine (incomingBytes_books ..).bind fun _ s' _ => ?_
    split
    · exact (storeVersion_books ..).discard
    · exact .pure _ s'

theorem caseCollisionRefused_books (change : RemoteChange) (bytes : Option Bytes) (s : Session) :
    Books (caseCollisionRefused change bytes) s := by
  apply Books.get
  split
  · exact .pure _ s
  · apply Books.ite
    · exact (preserveCollidedIncoming_books ..).bind fun _ s' _ => .pure _ s'
    · exact .pure _ s

end

theorem markDirty_files (s : Session) : Files markDirty s := .modify rfl rfl

section
variable [Platform]

omit [Platform] in
/-- Over a link that works a message goes out. -/
theorem send_exec (hs : s.Healthy) (msg : Message) :
    (send msg).exec s =
      (.ok ⟨⟩, if s.transport.isSome then { s with sent := s.sent ++ [msg] } else s) := by
  simp only [send, ship, exec_get_bind]
  split
  next ht => simp only [ht, exec_pure, Option.isSome_none, Bool.false_eq_true, ↓reduceIte]
  next t ht =>
    simp only [hs t ht, ht, Option.isSome_some, ↓reduceIte, Bool.false_eq_true, exec_set]

omit [Platform] in
theorem send_files (hs : s.Healthy) {msg : Message} (ha : announces msg = true) :
    Files (send msg) s := by
  have he := send_exec hs msg
  refine ⟨⟨?_, ?_, ?_⟩, ⟨⟩, by rw [he]⟩
  · rw [he]
    dsimp only
    split <;> rfl
  · rw [he]
    intro e h
    cases h
  · rw [Emits, he]
    dsimp only
    split
    · refine ⟨[msg], rfl, fun m hm => ?_⟩
      rw [List.mem_singleton.1 hm]
      exact ha
    · exact ⟨[], (List.append_nil _).symm, fun m hm => by cases hm⟩

theorem prepareSend_files (change : RemoteChange) (s : Session) :
    Files (prepareSend change) s := by
  apply Files.get
  apply Files.ite (.pure _ s)
  split
  · exact .pure _ s
  · apply Files.ite
    · apply Files.ite
      · exact ((Files.modify rfl rfl).bind fun _ s' _ => .pure _ s').map
      · exact .pure _ s
    · exact .pure _ s

/-- What is prepared for the link announces a change. -/
theorem prepareSend_announces (change : RemoteChange) (s : Session)
    (h : (prepareSend change).exec s = (.ok (some msg), s')) : announces msg = true := by
  simp only [prepareSend, exec_get_bind] at h
  split at h
  · cases h
  · split at h
    · cases h
      rfl
    · split at h
      · split at h
        · cases h
          rfl
        · cases h
          rfl
      · cases h

theorem doSend_files (hs : s.Healthy) (change : RemoteChange) : Files (doSend change) s := by
  refine (prepareSend_files change s).bind_exec fun o s' he hc => ?_
  cases o with
  | none => exact .pure _ s'
  | some msg => exact send_files (hs.of_core hc) (prepareSend_announces change s he)

/-- Shipping a queued change of a path cannot fail over a working link. -/
theorem flushQueuedSend_files (hs : s.Healthy) (p : RelPath) : Files (flushQueuedSend p) s := by
  apply Files.get
  split
  · exact .pure _ s
  · refine Files.bind (.set rfl rfl) fun _ s' hc => ?_
    exact doSend_files (hs.of_core hc) _

theorem executeActions_files (hs : s.Healthy) (bytes : Option Bytes) (v : Option VectorClock)
    (nowMs : Nat) (skip : List (RelPath × VectorClock)) {actions : List Action}
    (ha : ∀ a ∈ actions, a.isPaper = true) {captures : List ConflictCapture}
    (hc : ∀ c ∈ captures, Apt c) :
    Files (executeActions bytes v nowMs skip actions captures) s := by
  induction actions generalizing s captures with
  | nil => exact .pure _ s
  | cons a rest ih =>
    have hrest (s' : Session) (hcore : s'.core = s.core) {captures : List ConflictCapture}
        (hc : ∀ c ∈ captures, Apt c) :=
      ih (hs.of_core hcore) (fun b hb => ha b (List.mem_cons_of_mem a hb)) hc
    cases a with
    | send change => exact (doSend_files hs change).bind fun _ s' hcore => hrest s' hcore hc
    | apply p target => cases ha _ List.mem_cons_self
    | recordVersion p state version =>
      rw [executeActions]
      apply Files.ite
      · exact hrest s rfl hc
      · exact (noteVersion_files ..).bind fun _ s' hcore => hrest s' hcore hc
    | conflictResolved p w wv lo lv ad =>
      cases captures with
      | nil => exact hrest s rfl hc
      | cons c captures =>
        have h := recordConflictCapture_files (hc c List.mem_cons_self) s
        exact h.discard.bind fun _ s' hcore =>
          hrest s' hcore fun k hk => hc k (List.mem_cons_of_mem c hk)

theorem execute_files (hs : s.Healthy) (bytes : Option Bytes) (v : Option VectorClock)
    {actions : List Action} (ha : ∀ a ∈ actions, a.isPaper = true) :
    Files (execute actions bytes v) s :=
  .get <| executeActions_files hs bytes v s.nowMs _ ha (conflictCaptures_apt s bytes v actions)

end

end Session

end Tomo
