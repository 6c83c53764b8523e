import Mathlib.Logic.Relation
import Tomo.Session.Apart
import Tomo.Session.Running

namespace Tomo
set_option autoImplicit true

/-- Whether a frame that an earlier transport has read does no more than bring content, ask for it
or keep the link alive. -/
def Message.idle : Message → Bool
  | .change .. | .chunkRequest _ | .chunkData .. | .ping _ | .pong _ | .resume => true
  | .hello .. | .indexExchange _ | .changeManifest .. | .pause => false

def Incoming.idle : Incoming → Bool
  | .message msg => msg.idle
  | _ => false

/-- Whether an item comes from a reader thread. -/
def Incoming.fromPeer : Incoming → Bool
  | .message _ | .peerEof | .protoError => true
  | .watch _ | .shutdown | .pause | .resume => false

namespace Session
open Eff

/-- A due reconnect, which may get through to the peer. -/
def maybeReconnect (reached : Bool) : SessionM Unit := do
  let s ← get
  if s.transport.isSome then pure ()
  else match s.reconnectPlan with
    | .none => pure ()
    | .localPeer | .ssh => if reached then onConnected else pure ()

/-- Retire the transport, push the binary again and greet the peer over a new one. -/
def retrySshOnce : SessionM Unit := do
  modify fun s => { s with
    transport := none, repushRequested := false, connected := false, helloReceived := false }
  onConnected

/-- What a transport, its handshake and its transfers rest on. -/
def gate (s : Session) : Option Transport × Bool × Bool × Std.ExtTreeMap RelPath Assembly ×
    List RemoteChange :=
  (s.transport, s.helloReceived, s.peerPaused, s.assemblies, s.pendingSends)

/-- Nothing has come between a session and its link, and nothing was started over it. -/
structure Undisturbed (s s' : Session) : Prop where
  online : s.transport = some ⟨false⟩ → s'.transport = some ⟨false⟩
  hello : s'.helloReceived = true → s.helloReceived = true
  peer : s'.peerPaused = true → s.peerPaused = true
  assemblies : ∀ p : RelPath, s'.assemblies[p]?.isSome = true → s.assemblies[p]?.isSome = true
  sends : s'.pendingSends ⊆ s.pendingSends

namespace Undisturbed
variable {s₀ s s' : Session} {x : SessionM α}

theorem refl (s : Session) : Undisturbed s s :=
  ⟨id, id, id, fun _ => id, List.Subset.refl _⟩

theorem of_gate (h : Undisturbed s₀ s) (hg : s'.gate = s.gate) : Undisturbed s₀ s' := by
  simp only [gate, Prod.mk.injEq] at hg
  obtain ⟨ht, hh, hp, ha, hs⟩ := hg
  refine ⟨fun h' => ht.trans (h.online h'), fun h' => h.hello (hh ▸ h'), fun h' => h.peer (hp ▸ h'),
    fun p h' => h.assemblies p (ha ▸ h'), ?_⟩
  rw [hs]
  exact h.sends

theorem of_inward (hx : Inward x s) : Upholds (Undisturbed s₀) x s :=
  ⟨fun h => h.of_gate (congrArg gate hx : (x.exec s).2.apart.gate = s.apart.gate)⟩

theorem modifies {f : Session → Session} (hf : (f s).gate = s.gate) :
    Upholds (Undisturbed s₀) (modify f : SessionM PUnit) s := .modify fun h => h.of_gate hf

theorem sets (hs : s'.gate = s.gate) :
    Upholds (Undisturbed s₀) (set s' : SessionM PUnit) s := .set fun h => h.of_gate hs

theorem suspendTransfers (h : Undisturbed s₀ s) : Undisturbed s₀ s.suspendTransfers := by
  obtain ⟨f, hs⟩ := s.suspendTransfers_only
  rw [hs]
  refine ⟨h.online, h.hello, h.peer, fun p hp => ?_, List.nil_subset _⟩
  rw [Std.ExtTreeMap.getElem?_empty] at hp
  cases hp

/-- A link that is broken has been so before. -/
theorem goOffline (h : Undisturbed s₀ s) (ht : s.transport = some ⟨true⟩) :
    Undisturbed s₀ s.goOffline := by
  rw [Session.goOffline, ht]
  refine suspendTransfers ⟨fun h' => ?_, fun h' => (by cases h'), h.peer, h.assemblies, h.sends⟩
  have hb := h.online h'
  rw [ht] at hb
  cases hb

theorem ship (msgs : List Message) (s : Session) : Upholds (Undisturbed s₀) (ship msgs) s := by
  apply Upholds.get
  split
  · exact .pure _ s
  next t ht =>
    split
    next hb =>
      refine .ite (.set fun h => h.goOffline ?_) (.throw _ s)
      rw [ht, ← hb]
    · exact sets rfl

section
variable [Platform]

theorem prepareSend (change : RemoteChange) (s : Session) :
    Upholds (Undisturbed s₀) (prepareSend change) s := by
  refine .get <| .ite (.pure _ s) ?_
  split
  · exact .pure _ s
  · refine .ite (.ite ?_ (.pure _ s)) (.pure _ s)
    exact Upholds.map (Upholds.bind (modifies rfl) fun _ s' => .pure _ s')

theorem doSend (change : RemoteChange) (s : Session) :
    Upholds (Undisturbed s₀) (doSend change) s := by
  refine (prepareSend change s).bind fun m s' => ?_
  cases m with
  | some msg => exact ship [msg] s'
  | none => exact .pure _ s'

theorem flushQueuedSend (p : RelPath) (s : Session) :
    Upholds (Undisturbed s₀) (flushQueuedSend p) s := by
  apply Upholds.get
  split
  · exact .pure _ s
  · refine Upholds.bind (.set fun h => ?_) fun _ s' => doSend _ s'
    exact ⟨h.online, h.hello, h.peer, h.assemblies, fun c hc => h.sends (List.mem_of_mem_eraseP hc)⟩

theorem executeActions (bytes : Option Bytes) (v : Option VectorClock) (nowMs : Nat)
    (cv : List (RelPath × VectorClock)) (actions : List Action) (captures : List ConflictCapture)
    (s : Session) : Upholds (Undisturbed s₀) (executeActions bytes v nowMs cv actions captures) s := by
  induction actions generalizing captures s with
  | nil => exact .pure _ s
  | cons a rest ih =>
    cases a with
    | send change => exact (doSend change s).bind fun _ s' => ih captures s'
    | apply path target => exact (of_inward (doApply_inward ..)).bind fun _ s' => ih captures s'
    | recordVersion path state version =>
      exact .ite (ih captures s)
        ((of_inward (noteVersion_inward ..)).bind fun _ s' => ih captures s')
    | conflictResolved path winner wv loser lv adopted =>
      cases captures with
      | nil => exact ih [] s
      | cons c captures =>
        exact (of_inward (recordConflictCapture_inward c s)).map.bind fun _ s' => ih captures s'

theorem execute (actions : List Action) (bytes : Option Bytes) (v : Option VectorClock)
    (s : Session) : Upholds (Undisturbed s₀) (execute actions bytes v) s :=
  .get <| executeActions ..

omit [Platform] in
theorem handleEvent (ev : Event) (s : Session) : Upholds (Undisturbed s₀) (handleEvent ev) s :=
  .get <| Upholds.bind (sets rfl) fun _ s' => .pure _ s'

theorem reconcileUnobservedLocal (p : RelPath) (s : Session) :
    Upholds (Undisturbed s₀) (reconcileUnobservedLocal p) s := by
  apply Upholds.get
  split
  · exact .throw _ s
  · refine .ite ((handleEvent _ s).bind fun actions s' => ?_) (.pure _ s)
    exact Upholds.bind (modifies rfl) fun _ s' => execute _ _ _ s'

theorem absorbAndExecute (c : RemoteChange) (bytes : Option Bytes) (s : Session) :
    Upholds (Undisturbed s₀) (absorbAndExecute c bytes) s :=
  (handleEvent _ s).bind fun _ _ => Upholds.bind (modifies rfl) fun _ s' => execute _ _ _ s'

omit [Platform] in
theorem abandonSuperseded (p : RelPath) (s : Session) :
    Upholds (Undisturbed s₀) (modify fun s => s.abandonSuperseded p : SessionM PUnit) s := by
  obtain ⟨as, fs, he⟩ := s.abandonSuperseded_only p
  refine .modify fun h => ?_
  have hf := s.abandonSuperseded_fewer p
  rw [he] at hf ⊢
  refine ⟨h.online, h.hello, h.peer, fun q hq => h.assemblies q ?_, h.sends⟩
  obtain ⟨a, ha⟩ := Option.isSome_iff_exists.1 hq
  exact Option.isSome_iff_exists.2 ⟨a, hf q a ha⟩

theorem onChange (c : RemoteChange) (bytes : Option Bytes) (s : Session) :
    Upholds (Undisturbed s₀) (onChange c bytes) s := by
  refine .get <| .ite ?_ (.pure _ s)
  refine (of_inward (caseCollisionRefused_inward c bytes s)).bind fun _ s' => .ite (.pure _ s') ?_
  refine (flushQueuedSend c.path s').bind fun _ s' => ?_
  refine (of_inward (flushPendingInstallFor_inward c.path s')).bind fun _ s' => ?_
  refine (abandonSuperseded c.path s').bind fun _ s' => ?_
  exact (reconcileUnobservedLocal c.path s').bind fun _ s' => absorbAndExecute c bytes s'

omit [Platform] in
/-- An assembly that is there already may change. -/
theorem insert {p : RelPath} {a : Assembly} (h : Undisturbed s₀ s)
    (hp : s.assemblies[p]?.isSome = true)
    (hg : s'.gate = { s with assemblies := s.assemblies.insert p a }.gate) : Undisturbed s₀ s' := by
  have hi : Undisturbed s₀ { s with assemblies := s.assemblies.insert p a } := by
    refine ⟨h.online, h.hello, h.peer, fun q hq => h.assemblies q ?_, h.sends⟩
    simp only [Std.ExtTreeMap.getElem?_insert, Std.compare_eq_iff_eq] at hq
    split at hq
    next he => rwa [← he]
    next => exact hq
  exact hi.of_gate hg

omit [Platform] in
theorem requestNextBatch (p : RelPath) (s : Session) :
    Upholds (Undisturbed s₀) (requestNextBatch p) s := by
  apply Upholds.get
  split
  · exact .pure _ s
  next a ha =>
    refine .ite (.pure _ s) (Upholds.bind (.set fun h => ?_) fun _ s' => ship _ s')
    exact h.insert (by rw [ha]; rfl) rfl

theorem completeAssembly (p : RelPath) (s : Session) :
    Upholds (Undisturbed s₀) (completeAssembly p) s := by
  apply Upholds.get
  split
  · exact .pure _ s
  next a ha =>
    refine Upholds.bind (.set fun h => ?_) fun _ s' => ?_
    · refine ⟨h.online, h.hello, h.peer, fun q hq => h.assemblies q ?_, h.sends⟩
      change (s.assemblies.erase p)[q]?.isSome = true at hq
      rw [Std.ExtTreeMap.getElem?_erase] at hq
      split at hq
      · cases hq
      · exact hq
    · split
      · exact modifies rfl
      · refine (of_inward (flushPendingInstallFor_inward ..)).bind fun _ s' => ?_
        refine (of_inward (caseCollisionRefused_inward ..)).bind fun _ s' => .ite (.pure _ s') ?_
        exact (reconcileUnobservedLocal _ s').bind fun _ s' => absorbAndExecute _ _ s'

theorem advanceAssembly (p : RelPath) (s : Session) :
    Upholds (Undisturbed s₀) (advanceAssembly p) s := by
  apply Upholds.get
  split
  · exact .ite (completeAssembly p s) (requestNextBatch p s)
  · exact requestNextBatch p s

theorem onChunkData (hash : ContentHash) (bytes : Bytes) (s : Session) :
    Upholds (Undisturbed s₀) (onChunkData hash bytes) s := by
  refine .get (.get ?_)
  split
  · exact .pure _ s
  next p a hp =>
    have ha : s.assemblies[p]? = some a := Std.ExtTreeMap.mem_toList_iff_getElem?_eq_some.1
      (List.mem_of_find?_eq_some hp)
    have hsome : s.assemblies[p]?.isSome = true := by rw [ha]; rfl
    refine .ite ?_ (.ite ?_ ?_)
    · exact Upholds.bind (.set fun h => h.insert hsome rfl) fun _ s' => requestNextBatch p s'
    · refine Upholds.bind (.set fun h => ?_) fun _ s' => modifies rfl
      have hf := (s.tornChunk hash).abandonAssembly_fewer p
      obtain ⟨as, fs, he⟩ := (s.tornChunk hash).abandonAssembly_only p
      rw [he] at hf ⊢
      refine ⟨h.online, h.hello, h.peer, fun q hq => h.assemblies q ?_, h.sends⟩
      obtain ⟨b, hb⟩ := Option.isSome_iff_exists.1 hq
      exact Option.isSome_iff_exists.2 ⟨b, (hf q b hb).1⟩
    · exact Upholds.bind (.set fun h => h.insert hsome rfl) fun _ s' => advanceAssembly p s'

omit [Platform] in
theorem onPeerResume (s : Session) : Upholds (Undisturbed s₀) onPeerResume s := by
  refine Upholds.bind (.modify fun h => ?_) fun _ s' => .get (.ite (ship _ s') (.pure _ s'))
  exact ⟨h.online, h.hello, fun h' => (by cases h'), h.assemblies, h.sends⟩

theorem onMessage {msg : Message} (hm : msg.idle = true) (s : Session) :
    Upholds (Undisturbed s₀) (onMessage msg) s := by
  refine .get <| .ite (.pure _ s) ?_
  cases msg with
  | change c bytes => exact onChange c bytes s
  | chunkRequest hashes => exact .get (sets rfl)
  | chunkData hash bytes => exact onChunkData hash bytes s
  | ping nonce => exact ship _ s
  | pong nonce => exact .pure _ s
  | resume => exact onPeerResume s
  | hello | indexExchange | changeManifest | pause => cases hm

/-- An idle item leaves the link alone, and starts nothing. -/
theorem processIncoming {item : Incoming} (hi : item.idle = true) (s : Session) :
    Undisturbed s ((processIncoming item).exec s).2 := by
  cases item with
  | message msg =>
    have hx : Upholds (Undisturbed s) (Session.processIncoming (.message msg)) s :=
      Upholds.bind (modifies rfl) fun _ s' => (onMessage hi s').map
    exact hx.after (.refl s)
  | watch | peerEof | protoError | shutdown | pause | resume => cases hi

end

end Undisturbed

end Session

/-- A queued item, with the number of the transport whose reader thread has queued it. -/
abbrev Queued := Option Nat × Incoming

/-- A session with the queue that its reader threads share. -/
structure Switchboard where
  session : Session
  /-- How many transports have been installed before the last one. -/
  conn : Nat
  /-- What has passed its reader's look at the alive flag and is not queued yet. -/
  held : List (Nat × Incoming)
  channel : List Queued

/-- What happens at a switchboard: a reader thread reads an item and finds its transport alive, or
queues it; the watcher or the control channel queues one; the pump takes up a burst or makes another
pass; a transport is installed by a reconnect, or by a push of the binary. -/
inductive Turn where
  | read (item : Incoming)
  | enqueue (before : List (Nat × Incoming)) (e : Nat × Incoming) (after : List (Nat × Incoming))
  | post (item : Incoming)
  | burst (batch : List (Option Nat × Arrival)) (rest : List Queued)
  | pass (pass : Pass)
  | reconnect
  | repush

/-- Whether a transport is installed. -/
def Turn.installs : Turn → Bool
  | .reconnect | .repush => true
  | .read _ | .enqueue .. | .post _ | .burst .. | .pass _ => false

/-- A pass of the loop between two bursts. -/
def Pass.between : Pass → Bool
  | .shipBulk | .rescan | .pumpHistory | .retryStall | .drainHistory | .around _ => true
  | .startupScan | .completeHistory | .connect | .burst _ => false

/-- `coalesceBurst` of items that are told apart by their transport. -/
def coalesceQueued : List (Option Nat × Arrival) → List (Option Nat × Arrival)
  | [] => []
  | e :: rest =>
    match e.2.item.watched with
    | some p => if rest.any fun f => decide (f.2.item.watched = some p) then coalesceQueued rest
      else e :: coalesceQueued rest
    | none => e :: coalesceQueued rest

theorem coalesceQueued_arrivals (batch : List (Option Nat × Arrival)) :
    (coalesceQueued batch).map Prod.snd = coalesceBurst (batch.map Prod.snd) := by
  induction batch with
  | nil => rfl
  | cons e rest ih =>
    rw [coalesceQueued, List.map_cons, coalesceBurst]
    cases e.2.item.watched with
    | none => rw [List.map_cons, ih]
    | some p =>
      have hany : (rest.map Prod.snd).any (fun b => decide (b.item.watched = some p)) =
          rest.any fun f => decide (f.2.item.watched = some p) := List.any_map
      dsimp only
      rw [hany]
      split
      · exact ih
      · rw [List.map_cons, ih]

namespace Switchboard
open Session

/-- A session over its first transport, with nothing queued. -/
def start (s : Session) : Switchboard := ⟨s, 0, [], []⟩

section
variable [Platform] {b b' : Switchboard}

def Can (b : Switchboard) : Turn → Prop
  | .read item => b.session.transport.isSome = true ∧ (∀ e ∈ b.held, e.1 ≠ b.conn) ∧
      item.fromPeer = true
  | .enqueue before e after => b.held = before ++ e :: after
  | .post item => item.fromPeer = false
  | .burst batch rest => b.channel = batch.map (fun e => (e.1, e.2.item)) ++ rest
  | .pass pass => pass.between = true
  | .reconnect => b.session.transport = none ∧ b.session.reconnecting = true
  | .repush => b.session.repushRequested = true

def next (b : Switchboard) : Turn → Switchboard
  | .read item => { b with held := b.held ++ [(b.conn, item)] }
  | .enqueue before e after =>
    { b with held := before ++ after, channel := b.channel ++ [(some e.1, e.2)] }
  | .post item => { b with channel := b.channel ++ [(none, item)] }
  | .burst batch rest =>
    { b with session := b.session.after (.burst (batch.map Prod.snd)), channel := rest }
  | .pass pass => { b with session := b.session.after pass }
  | .reconnect => { b with session := ((maybeReconnect true).exec b.session).2, conn := b.conn + 1 }
  | .repush => { b with session := (retrySshOnce.exec b.session).2, conn := b.conn + 1 }

def Step (b b' : Switchboard) : Prop := ∃ t, b.Can t ∧ b' = b.next t

/-- What is queued or about to be is idle. -/
structure Settled (b : Switchboard) : Prop where
  held : ∀ e ∈ b.held, e.2.idle = true
  channel : ∀ k item, (some k, item) ∈ b.channel → item.idle = true

/-- A transport is installed only once what is left of the earlier ones is idle. -/
def SettledStep (b b' : Switchboard) : Prop :=
  ∃ t, b.Can t ∧ (t.installs = true → b.Settled) ∧ b' = b.next t

/-- What is left of earlier transports is idle. -/
structure Sound (b : Switchboard) : Prop where
  held : ∀ e ∈ b.held, e.1 < b.conn → e.2.idle = true
  channel : ∀ k item, (some k, item) ∈ b.channel → k < b.conn → item.idle = true

omit [Platform] in
theorem Settled.sound (h : b.Settled) : b.Sound :=
  ⟨fun e he _ => h.held e he, fun k item hi _ => h.channel k item hi⟩

theorem SettledStep.sound (hb : b.Sound) (h : SettledStep b b') : b'.Sound := by
  obtain ⟨t, hc, hs, rfl⟩ := h
  cases t with
  | read item =>
    refine ⟨fun e he hk => ?_, hb.channel⟩
    rcases List.mem_append.1 he with he | he
    · exact hb.held e he hk
    · rw [List.mem_singleton.1 he] at hk
      exact absurd hk (Nat.lt_irrefl _)
  | enqueue before e after =>
    have hin : ∀ f ∈ before ++ after, f ∈ b.held := by
      intro f hf
      rw [show b.held = before ++ e :: after from hc]
      rcases List.mem_append.1 hf with hf | hf
      · exact List.mem_append_left _ hf
      · exact List.mem_append_right _ (List.mem_cons_of_mem e hf)
    refine ⟨fun f hf => hb.held f (hin f hf), fun k item hi hk => ?_⟩
    rcases List.mem_append.1 hi with hi | hi
    · exact hb.channel k item hi hk
    · cases List.mem_singleton.1 hi
      refine hb.held e ?_ hk
      rw [show b.held = before ++ e :: after from hc]
      exact List.mem_append_right _ List.mem_cons_self
  | post item =>
    refine ⟨hb.held, fun k item' hi hk => ?_⟩
    rcases List.mem_append.1 hi with hi | hi
    · exact hb.channel k item' hi hk
    · cases List.mem_singleton.1 hi
  | burst batch rest =>
    refine ⟨hb.held, fun k item hi hk => hb.channel k item ?_ hk⟩
    rw [show b.channel = _ from hc]
    exact List.mem_append_right _ hi
  | pass pass => exact ⟨hb.held, hb.channel⟩
  | reconnect => exact ⟨fun e he _ => (hs rfl).held e he, fun k item hi _ => (hs rfl).channel k item hi⟩
  | repush => exact ⟨fun e he _ => (hs rfl).held e he, fun k item hi _ => (hs rfl).channel k item hi⟩

theorem SettledRun.sound (hb : b.Sound) (h : Relation.ReflTransGen SettledStep b b') : b'.Sound := by
  induction h with
  | refl => exact hb
  | tail _ hstep ih => exact hstep.sound ih

theorem SettledStep.plain (h : SettledStep b b') : Step b b' := by
  obtain ⟨t, hc, _, he⟩ := h
  exact ⟨t, hc, he⟩

end

end Switchboard

end Tomo
