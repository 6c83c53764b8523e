import Tomo.Session.Draining
import Tomo.Session.Probing

namespace Tomo
set_option autoImplicit true

/-- A path and the directories it lies in are all allowed. -/
def Within (allowed : RelPath → Prop) (p : RelPath) : Prop :=
  ∀ d : RelPath, d.components <+: p.components → allowed d

theorem Within.self (h : Within allowed p) : allowed p := h p (List.prefix_refl _)

/-- A path of one component lies in no directory but the root. -/
theorem Within.of_single (hp : allowed p) (h : p.components.length = 1) : Within allowed p := by
  intro d hd
  have hpos := List.length_pos_iff.2 d.components_ne_nil
  have he : d.components = p.components := hd.eq_of_length_le (by omega)
  rw [RelPath.components_injective he]
  exact hp

/-- The path of the change that an event is about. -/
def Event.path : Event → Option RelPath
  | .local c => some c.path
  | .remote c => some c.path
  | .peerIndex _ => none

/-- Whether the rules let changes of a path in. -/
def Config.letsIn (cfg : Config) (p : RelPath) : Prop :=
  decideCrossing (cfg.classify p).cls (cfg.classify p).direction .inbound ≠ .drop

/-- What a frame changes is allowed, if the rules let it in. -/
def Message.Admitted (cfg : Config) (allowed : RelPath → Prop) : Message → Prop
  | .change c _ | .changeManifest c _ _ => cfg.letsIn c.path → Within allowed c.path
  | _ => True

/-- What is watched is allowed. -/
def Incoming.Admitted (cfg : Config) (allowed : RelPath → Prop) : Incoming → Prop
  | .watch (.pending rel _) => Within allowed rel
  | .message msg => msg.Admitted cfg allowed
  | _ => True

/-- What a frame says about whether its sender is paused. -/
def Message.says : Message → Option Bool
  | .pause => some true
  | .resume => some false
  | .hello .. | .indexExchange _ | .change .. | .changeManifest .. | .chunkRequest _
  | .chunkData .. | .ping _ | .pong _ => none

theorem Message.says_of_announces {m : Message} (h : Session.announces m = true) : m.says = none := by
  cases m with
  | change | changeManifest => rfl
  | _ => cases h

/-- Whether a frame starts, ends or announces a pause, or may answer with one. -/
def Message.aboutPause : Message → Bool
  | .hello .. | .pause | .resume => true
  | .indexExchange _ | .change .. | .changeManifest .. | .chunkRequest _ | .chunkData .. | .ping _
  | .pong _ => false

def Incoming.aboutPause : Incoming → Bool
  | .message msg => msg.aboutPause
  | .pause | .resume => true
  | .watch _ | .peerEof | .protoError | .shutdown => false

/-- What a session knows of its peer and has told it. -/
structure Line where
  transport : Option Transport
  sent : List Message
  paused : Bool
  pausedActed : Bool
  peerPaused : Bool
  pendingChunks : List Message

namespace Session
open Eff

def line (s : Session) : Line where
  transport := s.transport
  sent := s.sent
  paused := s.paused
  pausedActed := s.pausedActed
  peerPaused := s.peerPaused
  pendingChunks := s.pendingChunks

theorem letsIn_of_crossing {s : Session} (hc : s.config = cfg)
    (h : s.allowCrossing p .inbound = true) : cfg.letsIn p := by
  intro hd
  rw [allowCrossing, hc, hd] at h
  cases h

/-- What a session keeps on disk and in history, and what it is about to put there. -/
def stake (s : Session) : Session :=
  { s with
    engine := .new ⟨0⟩ .new
    transport := none
    sent := []
    peerReplica := none
    repushRequested := false
    connected := false
    helloReceived := false
    indexDirty := false
    rescanPending := false
    diskStalled := false
    lastStallRetry := 0
    lastActivity := 0
    paused := false
    pausedActed := false
    peerPaused := false
    assemblies := ∅
    outboundManifests := ∅
    pendingChunks := []
    pendingSends := []
    pendingRelease := 0
    createdDirs := []
    chunkFiles := ∅ }

/-- An invariant that every operation on allowed paths keeps, but for those that apply a change,
and for those that change or announce a pause. -/
structure Tended [Platform] (allowed : RelPath → Prop) (I : Session → Prop) : Prop where
  indifferent : ∀ {s s' : Session}, I s → s'.stake = s.stake → s'.line = s.line → I s'
  quit : ∀ {s : Session}, I s → I { s with pendingInstalls := [], pendingChunks := [] }
  hangUp : ∀ {s : Session} {transport}, I s → (transport.isSome = true → s.transport.isSome = true) →
    I { s with transport }
  speak : ∀ {s : Session} {msgs}, I s → (∀ m ∈ msgs, m.says = none) →
    I { s with sent := s.sent ++ msgs }
  serve : ∀ {s : Session} {msgs}, I s → (∀ m ∈ msgs, m.says = none) →
    I { s with pendingChunks := s.pendingChunks ++ msgs }
  bulk : ∀ s, Upholds I shipBulkSubbatch s
  flush : ∀ s, Upholds I flushInstalls s
  store : ∀ {p}, allowed p → ∀ state version l bytes s,
    Upholds I (storeVersion p state version l bytes) s
  note : ∀ {p}, allowed p → ∀ state version l nowMs s,
    Upholds I (noteVersion p state version l nowMs) s
  conflict : ∀ {c : ConflictCapture}, allowed c.path → ∀ s, Upholds I (recordConflictCapture c) s
  pump : ∀ s, Upholds I pumpHistory s
  drain : ∀ s, Upholds I drainHistory s

/-- An invariant that applying a change to an allowed path, once it was probed, keeps as well. -/
structure Kept [Platform] (allowed : RelPath → Prop) (I : Session → Prop) : Prop extends
    Tended allowed I where
  apply : ∀ {p}, Within allowed p → ∀ target bytes s, (∃ o, snapshot s.tree s.root p = .ok o) →
    Upholds I (doApply p target bytes) s

/-- Bulk sending touches the link and its queues only, but for the transfers it gives up. -/
theorem shipBulkSubbatch_upholds [Platform] {J : Session → Prop}
    (hj : ∀ {s s' : Session}, J s → s'.stake = s.stake → s'.assemblies = s.assemblies → J s')
    (ho : ∀ {s : Session}, J s → J s.goOffline) (s : Session) :
    Upholds J shipBulkSubbatch s := by
  have hprepare (change : RemoteChange) (s : Session) : Upholds J (prepareSend change) s := by
    refine .get <| .ite (.pure _ s) ?_
    split
    · exact .pure _ s
    · refine .ite (.ite ?_ (.pure _ s)) (.pure _ s)
      exact (Upholds.bind (.modify fun h => hj h rfl rfl) fun _ s' => .pure _ s').map
  have hgather (n : Nat) (batch : List Message) (s : Session) :
      Upholds J (gatherBulk n batch) s := by
    induction n generalizing batch s with
    | zero => exact .pure _ s
    | succ n ih =>
      refine .get <| .ite (.pure _ s) ?_
      split
      · exact Upholds.bind (.set fun h => hj h rfl rfl) fun _ s' => ih _ s'
      · refine Upholds.bind (.set fun h => hj h rfl rfl) fun _ s' =>
          (hprepare _ s').bind fun m s' => ?_
        cases m with
        | some msg => exact ih _ s'
        | none => exact ih _ s'
      · exact .pure _ s
  refine .get <| (hgather _ _ s).bind fun batch s' => .ite (.pure _ s') (.get ?_)
  split
  · exact .pure _ s'
  · split
    · exact .ite (.set ho) (.throw _ s')
    · exact .set fun h => hj h rfl rfl

theorem goOffline_stake (s : Session) :
    s.goOffline.stake = s.stake ∨ s.goOffline.stake = { s with pendingInstalls := [] }.stake := by
  rw [goOffline]
  split
  · exact .inl rfl
  next t ht =>
    obtain ⟨f, hf⟩ := suspendTransfers_only
      { s with transport := none, connected := false, helloReceived := false }
    right
    rw [hf]
    rfl

/-- An invariant of disk and history, which the link has no part in. -/
structure Tacit [Platform] (allowed : RelPath → Prop) (I : Session → Prop) : Prop extends
    Kept allowed I where
  tacit : ∀ {s s' : Session}, I s → s'.stake = s.stake → I s'
  unstage : ∀ {s : Session}, I s → I { s with pendingInstalls := [] }
  indifferent := fun h hs _ => tacit h hs
  quit := fun h => tacit (unstage h) rfl
  hangUp := fun h _ => tacit h rfl
  speak := fun h _ => tacit h rfl
  serve := fun h _ => tacit h rfl
  bulk := shipBulkSubbatch_upholds (fun h hs _ => tacit h hs) fun {s} h =>
    (goOffline_stake s).elim (tacit h) (tacit (unstage h))

/-- The invariant holds under the rules given, and every change that is being assembled is for an
allowed path. -/
structure Steady (cfg : Config) (allowed : RelPath → Prop) (I : Session → Prop) (s : Session) :
    Prop where
  holds : I s
  config : s.config = cfg
  assembling : ∀ (p : RelPath) (a : Assembly), s.assemblies[p]? = some a →
    Within allowed a.change.path

section
variable [Platform] {cfg : Config} {allowed assembled : RelPath → Prop} {I : Session → Prop}
  {s s' : Session} {x : SessionM α} {p : RelPath}

omit [Platform] in
theorem Works.upholds (hw : Works x s) (hx : Upholds I x s) : Upholds (Steady cfg assembled I) x s := by
  constructor
  intro h
  have hc : (x.exec s).2.frame.config = s.frame.config := by rw [hw.leaves]
  have hf : (x.exec s).2.frame.assemblies = s.frame.assemblies := by rw [hw.leaves]
  exact ⟨hx.after h.holds, hc.trans h.config, fun q a hq =>
    h.assembling q a ((congrArg (·[q]?) hf).symm.trans hq)⟩

theorem Steady.indifferent (hk : Tended allowed I) (h : Steady cfg assembled I s)
    (hf : s'.stake = s.stake) (hl : s'.line = s.line) (ha : s'.assemblies = s.assemblies) :
    Steady cfg assembled I s' where
  holds := hk.indifferent h.holds hf hl
  config := (congrArg Session.config hf : s'.stake.config = s.stake.config).trans h.config
  assembling := by
    rw [ha]
    exact h.assembling

theorem Tended.modifies (hk : Tended allowed I) {f : Session → Session} (hf : (f s).stake = s.stake)
    (hl : (f s).line = s.line) (ha : (f s).assemblies = s.assemblies) :
    Upholds (Steady cfg assembled I) (modify f : SessionM PUnit) s :=
  .modify fun h => h.indifferent hk hf hl ha

theorem Tended.sets (hk : Tended allowed I) (hf : s'.stake = s.stake) (hl : s'.line = s.line)
    (ha : s'.assemblies = s.assemblies) : Upholds (Steady cfg assembled I) (set s' : SessionM PUnit) s :=
  .set fun h => h.indifferent hk hf hl ha

theorem Tended.flushInstalls (hk : Tended allowed I) (s : Session) :
    Upholds (Steady cfg assembled I) flushInstalls s := (flushInstalls_works s).upholds (hk.flush s)

theorem Tended.flushPendingInstallFor (hk : Tended allowed I) (q : RelPath) (s : Session) :
    Upholds (Steady cfg assembled I) (flushPendingInstallFor q) s :=
  .get <| .ite (hk.flushInstalls s) (.pure _ s)

theorem Steady.suspendTransfers (hk : Tended allowed I) (h : Steady cfg assembled I s) :
    Steady cfg assembled I s.suspendTransfers := by
  obtain ⟨f, hs⟩ := s.suspendTransfers_only
  rw [hs]
  refine ⟨hk.indifferent (hk.quit h.holds) rfl rfl, h.config, fun p a hp => ?_⟩
  rw [Std.ExtTreeMap.getElem?_empty] at hp
  cases hp

theorem Steady.goOffline (hk : Tended allowed I) (h : Steady cfg assembled I s) :
    Steady cfg assembled I s.goOffline := by
  rw [Session.goOffline]
  split
  · exact h
  · have hoff : Steady cfg assembled I { s with transport := none } :=
      ⟨hk.hangUp h.holds (fun h => by cases h), h.config, h.assembling⟩
    exact .suspendTransfers hk (hoff.indifferent hk rfl rfl rfl)

theorem Tended.ship (hk : Tended allowed I) {msgs : List Message} (hm : ∀ m ∈ msgs, m.says = none)
    (s : Session) : Upholds (Steady cfg assembled I) (ship msgs) s := by
  apply Upholds.get
  split
  · exact .pure _ s
  · split
    · exact .ite (.set fun h => h.goOffline hk) (.throw _ s)
    · exact .set fun h => ⟨hk.speak h.holds hm, h.config, h.assembling⟩

theorem Tended.send (hk : Tended allowed I) {msg : Message} (hm : msg.says = none) (s : Session) :
    Upholds (Steady cfg assembled I) (send msg) s := by
  refine hk.ship (fun m h => ?_) s
  cases List.mem_singleton.1 h
  exact hm

theorem Tended.prepareSend (hk : Tended allowed I) (change : RemoteChange) (s : Session) :
    Upholds (Steady cfg assembled I) (prepareSend change) s := by
  refine .get <| .ite (.pure _ s) ?_
  split
  · exact .pure _ s
  · refine .ite (.ite ?_ (.pure _ s)) (.pure _ s)
    exact Upholds.map (Upholds.bind (hk.modifies rfl rfl rfl) fun _ s' => .pure _ s')

theorem Tended.doSend (hk : Tended allowed I) (change : RemoteChange) (s : Session) :
    Upholds (Steady cfg assembled I) (doSend change) s := by
  refine (hk.prepareSend change s).bind_exec fun m s' hx => ?_
  cases m with
  | some msg => exact hk.send (Message.says_of_announces (prepareSend_announces change s hx)) s'
  | none => exact .pure _ s'

theorem Tended.flushQueuedSend (hk : Tended allowed I) (q : RelPath) (s : Session) :
    Upholds (Steady cfg assembled I) (flushQueuedSend q) s := by
  apply Upholds.get
  split
  · exact .pure _ s
  · exact Upholds.bind (hk.sets rfl rfl rfl) fun _ s' => hk.doSend _ s'

theorem Tended.shipBulkSubbatch (hk : Tended allowed I) (s : Session) :
    Upholds (Steady cfg assembled I) shipBulkSubbatch s := by
  have hloose (s s' : Session) (h : Steady cfg assembled (fun _ => True) s)
      (hs : s'.stake = s.stake) (ha : s'.assemblies = s.assemblies) :
      Steady cfg assembled (fun _ => True) s' := by
    refine ⟨trivial, (congrArg Session.config hs : s'.stake.config = _).trans h.config, ?_⟩
    rw [ha]
    exact h.assembling
  have hoff (s : Session) (h : Steady cfg assembled (fun _ => True) s) :
      Steady cfg assembled (fun _ => True) s.goOffline := by
    rw [Session.goOffline]
    split
    · exact h
    · obtain ⟨f, hs⟩ := suspendTransfers_only
        { s with transport := none, connected := false, helloReceived := false }
      rw [hs]
      refine ⟨trivial, h.config, fun p a hp => ?_⟩
      rw [Std.ExtTreeMap.getElem?_empty] at hp
      cases hp
  have hrest := shipBulkSubbatch_upholds (hloose _ _) (hoff _) s
  constructor
  intro h
  obtain ⟨_, hc, ha⟩ := hrest.after ⟨trivial, h.config, h.assembling⟩
  exact ⟨(hk.bulk s).after h.holds, hc, ha⟩

theorem Tended.executeActions (hk : Tended allowed I) (bytes : Option Bytes)
    (v : Option VectorClock) (nowMs : Nat) (cv : List (RelPath × VectorClock))
    {actions : List Action} {captures : List ConflictCapture}
    (hpaper : ∀ a ∈ actions, a.isPaper = true) (ha : ∀ a ∈ actions, Within allowed a.path)
    (hc : ∀ c ∈ captures, allowed c.path) (s : Session) :
    Upholds (Steady cfg assembled I) (executeActions bytes v nowMs cv actions captures) s := by
  induction actions generalizing captures s with
  | nil => exact .pure _ s
  | cons a rest ih =>
    have hrest (s : Session) {captures : List ConflictCapture}
        (hc : ∀ c ∈ captures, allowed c.path) :=
      ih (fun b hb => hpaper b (List.mem_cons_of_mem a hb))
        (fun b hb => ha b (List.mem_cons_of_mem a hb)) hc s
    have hp := ha a List.mem_cons_self
    cases a with
    | send change => exact (hk.doSend change s).bind fun _ s' => hrest s' hc
    | apply path target => cases hpaper _ List.mem_cons_self
    | recordVersion path state version =>
      refine Upholds.ite (hrest s hc) (Upholds.bind ?_ fun _ s' => hrest s' hc)
      exact (noteVersion_files ..).books.works.upholds (hk.note hp.self ..)
    | conflictResolved path winner wv loser lv adopted =>
      cases captures with
      | nil => exact hrest s hc
      | cons c captures =>
        refine Upholds.bind ?_ fun _ s' => hrest s' fun b hb => hc b (List.mem_cons_of_mem c hb)
        exact ((recordConflictCapture_books c s).works.upholds
          (hk.conflict (hc c List.mem_cons_self) s)).map

/-- What is captured for a conflict is about the path of the change. -/
theorem conflictCaptures_within {actions : List Action} (s : Session) (bytes : Option Bytes)
    (v : Option VectorClock) (ha : ∀ a ∈ actions, Within allowed a.path) :
    ∀ c ∈ s.conflictCaptures bytes v actions, allowed c.path := by
  intro c hc
  obtain ⟨a, hm, hc⟩ := List.mem_filterMap.1 hc
  split at hc
  · cases hc
    exact (ha _ hm).self
  · cases hc

theorem Tended.execute (hk : Tended allowed I) (bytes : Option Bytes) (v : Option VectorClock)
    {actions : List Action} (hpaper : ∀ a ∈ actions, a.isPaper = true)
    (ha : ∀ a ∈ actions, Within allowed a.path) (s : Session) :
    Upholds (Steady cfg assembled I) (execute actions bytes v) s :=
  .get <| hk.executeActions bytes v s.nowMs _ hpaper ha (conflictCaptures_within s bytes v ha) s

theorem Tended.handleEvent (hk : Tended allowed I) (ev : Event) (s : Session) :
    Upholds (Steady cfg assembled I) (handleEvent ev) s :=
  .get <| Upholds.bind (hk.sets rfl rfl rfl) fun _ s' => .pure _ s'

/-- What is filed after a local change is about its path. -/
theorem Tended.executeLocal (hk : Tended allowed I) {c : LocalChange} (hc : Within allowed c.path)
    (hx : (Session.handleEvent (.local c)).exec s = (.ok actions, s')) (u : Session) :
    Upholds (Steady cfg assembled I) (Session.execute actions none none) u := by
  refine hk.execute none none (fun a ha => ?_) (fun a ha => ?_) u
  · exact (handleEvent_local hx a ha).1
  · rw [(handleEvent_local hx a ha).2]
    exact hc

theorem Tended.markDirty (hk : Tended allowed I) (s : Session) :
    Upholds (Steady cfg assembled I) markDirty s := hk.modifies rfl rfl rfl

theorem Tended.reconcileUnobservedLocal (hk : Tended allowed I) (hp : Within allowed p) (s : Session) :
    Upholds (Steady cfg assembled I) (reconcileUnobservedLocal p) s := by
  apply Upholds.get
  split
  · exact .throw _ s
  · refine .ite ?_ (.pure _ s)
    refine (hk.handleEvent _ s).bind_exec fun actions s' hx => ?_
    exact (hk.markDirty s').bind fun _ s' => hk.executeLocal hp hx s'

theorem Tended.absorbAndExecute (hk : Tended allowed I) {c : RemoteChange}
    (hc : Within allowed c.path) (bytes : Option Bytes) (s : Session)
    (ha : ∀ target, Upholds I (doApply c.path target bytes) (s.absorbed c)) :
    Upholds (Steady cfg assembled I) (absorbAndExecute c bytes) s := by
  have hpath : ∀ a ∈ (s.engine.handleRemote c).2, Within allowed a.path := by
    intro a ha
    rw [s.engine.handleRemote_path c a ha]
    exact hc
  have hcarry : Upholds (Steady cfg assembled I)
      (carryOut c.path (s.engine.applyTarget c) bytes) (s.absorbed c) := by
    cases s.engine.applyTarget c with
    | none => exact .pure _ _
    | some target => exact (doApply_works c.path bytes target _).upholds (ha target)
  have hboth : Upholds (Steady cfg assembled I) (do
      carryOut c.path (s.engine.applyTarget c) bytes
      s.fileAbsorbed c bytes) (s.absorbed c) := by
    refine hcarry.bind fun _ s' => ?_
    refine hk.executeActions bytes _ _ _ (fun a ha => ?_) (fun a ha => ?_) ?_ s'
    · exact (Engine.paperwork_paper s.engine c a ha).1
    · rw [(Engine.paperwork_paper s.engine c a ha).2]
      exact hc
    · exact conflictCaptures_within _ bytes _ hpath
  constructor
  intro h
  rw [absorbAndExecute_exec]
  exact hboth.after (h.indifferent hk rfl rfl rfl)

theorem Kept.absorbAndExecute (hk : Kept allowed I) {c : RemoteChange}
    (hc : Within allowed c.path) (bytes : Option Bytes) (s : Session)
    (hprobe : ∃ o, snapshot s.tree s.root c.path = .ok o) :
    Upholds (Steady cfg assembled I) (Session.absorbAndExecute c bytes) s :=
  hk.toTended.absorbAndExecute hc bytes s fun target => hk.apply hc target bytes _ hprobe

theorem Tended.storeVersion (hk : Tended allowed I) (hp : allowed p) (state : EntryState)
    (version : VectorClock) (l : Bool) (bytes : Option Bytes) (s : Session) :
    Upholds (Steady cfg assembled I) (storeVersion p state version l bytes) s :=
  (storeVersion_books ..).works.upholds (hk.store hp ..)

theorem Tended.caseCollisionRefused (hk : Tended allowed I) {c : RemoteChange}
    (hc : Within allowed c.path) (bytes : Option Bytes) (s : Session) :
    Upholds (Steady cfg assembled I) (caseCollisionRefused c bytes) s := by
  apply Upholds.get
  split
  · exact .pure _ s
  · refine .ite (Upholds.bind ?_ fun _ s' => .pure _ s') (.pure _ s)
    refine .get <| .ite (.pure _ s) ?_
    refine ((incomingBytes_books _ _ s).works.upholds ?_).bind fun b s' => ?_
    · apply Upholds.get
      split
      · exact .pure _ s
      · cases s.history.contentByHash _ with
        | ok o => exact .pure _ s
        | error e => exact .throw _ s
    · cases b with
      | some b => exact (hk.storeVersion hc.self ..).map
      | none => exact .pure _ s'

theorem Tended.abandonSuperseded (hk : Tended allowed I) (q : RelPath) (s : Session) :
    Upholds (Steady cfg assembled I) (modify fun s => s.abandonSuperseded q : SessionM PUnit) s := by
  obtain ⟨as, fs, he⟩ := s.abandonSuperseded_only q
  constructor
  intro h
  have hf := s.abandonSuperseded_fewer q
  rw [exec_modify]
  rw [he] at hf ⊢
  exact ⟨hk.indifferent h.holds rfl rfl, h.config, fun r a hr => h.assembling r a (hf r a hr)⟩

theorem Steady.insert (hk : Tended allowed I) (h : Steady cfg allowed I s)
    (hf : s'.stake = s.stake) (hl : s'.line = s.line)
    (ha : s'.assemblies = s.assemblies.insert p a) (hp : Within allowed a.change.path) :
    Steady cfg allowed I s' where
  holds := hk.indifferent h.holds hf hl
  config := (congrArg Session.config hf : s'.stake.config = s.stake.config).trans h.config
  assembling q b hq := by
    rw [ha] at hq
    simp only [Std.ExtTreeMap.getElem?_insert, Std.compare_eq_iff_eq] at hq
    split at hq
    · cases hq
      exact hp
    · exact h.assembling q b hq

theorem Tended.requestNextBatch (hk : Tended allowed I) (q : RelPath) (s : Session) :
    Upholds (Steady cfg allowed I) (requestNextBatch q) s := by
  refine .assuming fun h => .get ?_
  split
  · exact .pure _ s
  next a ha =>
    refine .ite (.pure _ s) (Upholds.bind (.set fun _ => ?_) fun _ s' => hk.send rfl s')
    exact h.insert hk rfl rfl rfl (h.assembling q a ha)

/-- What is about to be absorbed is allowed. -/
def ArrivesWithin (allowed : RelPath → Prop) (r : Arrived) : Prop :=
  ∀ c bytes, r = some (c, bytes) → Within allowed c.path

theorem arrivesWithin_none (allowed : RelPath → Prop) : ArrivesWithin allowed none :=
  fun _ _ h => by cases h

theorem arrivesWithin_some {c : RemoteChange} (hc : Within allowed c.path)
    (bytes : Option Bytes) : ArrivesWithin allowed (some (c, bytes)) := by
  rintro _ _ ⟨⟩
  exact hc

theorem Tended.arriveChange (hk : Tended allowed I) {c : RemoteChange}
    (hc : cfg.letsIn c.path → Within allowed c.path) (bytes : Option Bytes) (s : Session) :
    Ensures (Steady cfg allowed I) (ArrivesWithin allowed) (arriveChange c bytes) s := by
  refine .assuming fun h => .get <| .ite (fun hcross => ?_) fun _ => .pure (arrivesWithin_none _) s
  have hw := hc (letsIn_of_crossing h.config hcross)
  refine .bind (hk.caseCollisionRefused hw bytes s) fun r s' => ?_
  refine .ite (fun _ => .pure (arrivesWithin_none _) s') fun _ => ?_
  refine .bind (hk.flushQueuedSend c.path s') fun _ s' => ?_
  refine .bind (hk.flushPendingInstallFor c.path s') fun _ s' => ?_
  refine .bind (hk.abandonSuperseded c.path s') fun _ s' => ?_
  refine .bind (hk.reconcileUnobservedLocal hw s') fun _ s' => ?_
  exact .pure (arrivesWithin_some hw bytes) s'

theorem Tended.arriveAssembled (hk : Tended allowed I) (q : RelPath) (s : Session) :
    Ensures (Steady cfg allowed I) (ArrivesWithin allowed) (arriveAssembled q) s := by
  refine .assuming fun h => .get ?_
  split
  · exact .pure (arrivesWithin_none _) s
  next a ha =>
    have hp := h.assembling q a ha
    have herase : Steady cfg allowed I
        ({ s with assemblies := s.assemblies.erase q }.cleanAssemblyChunks a) := by
      refine ⟨hk.indifferent h.holds rfl rfl, h.config, fun r b hr => ?_⟩
      have he : ({ s with assemblies := s.assemblies.erase q }.cleanAssemblyChunks a).assemblies =
          s.assemblies.erase q := rfl
      rw [he] at hr
      simp only [Std.ExtTreeMap.getElem?_erase] at hr
      split at hr
      · cases hr
      · exact h.assembling r b hr
    refine .bind (.set fun _ => herase) fun _ s' => ?_
    split
    · exact .bind (hk.modifies rfl rfl rfl) fun _ s' => .pure (arrivesWithin_none _) s'
    next bytes _ =>
      refine .bind (hk.flushPendingInstallFor _ s') fun _ s' => ?_
      refine .bind (hk.caseCollisionRefused hp _ s') fun r s' => ?_
      refine .ite (fun _ => .pure (arrivesWithin_none _) s') fun _ => ?_
      refine .bind (hk.reconcileUnobservedLocal hp s') fun _ s' => ?_
      exact .pure (arrivesWithin_some hp _) s'

theorem Tended.arriveAdvanced (hk : Tended allowed I) (q : RelPath) (s : Session) :
    Ensures (Steady cfg allowed I) (ArrivesWithin allowed) (arriveAdvanced q) s := by
  have hnext (s' : Session) : Ensures (Steady cfg allowed I) (ArrivesWithin allowed) (do
      Session.requestNextBatch q
      pure none) s' :=
    .bind (hk.requestNextBatch q s') fun _ s' => .pure (arrivesWithin_none _) s'
  apply Ensures.get
  split
  · exact .ite (fun _ => hk.arriveAssembled q s) fun _ => hnext s
  · exact hnext s

theorem Tended.arriveManifest (hk : Tended allowed I) {c : RemoteChange}
    (hc : cfg.letsIn c.path → Within allowed c.path) (total : Nat) (manifest : List ContentHash)
    (s : Session) :
    Ensures (Steady cfg allowed I) (ArrivesWithin allowed) (arriveManifest c total manifest) s := by
  refine .assuming fun h => .get <| .ite (fun hcross => ?_) fun _ => .pure (arrivesWithin_none _) s
  have hw := hc (letsIn_of_crossing h.config hcross)
  refine .bind (hk.flushQueuedSend c.path s) fun _ s' => ?_
  split
  · exact .pure (arrivesWithin_none _) s'
  · refine .bind (hk.abandonSuperseded c.path s') fun _ s' => ?_
    exact .bind (.modify fun h => h.insert hk rfl rfl rfl hw) fun _ s' => hk.arriveAdvanced c.path s'

theorem Tended.arriveChunk (hk : Tended allowed I) {order : List (RelPath × Assembly)}
    (ho : order.Perm s.assemblies.toList) (hash : ContentHash) (bytes : Bytes) :
    Ensures (Steady cfg allowed I) (ArrivesWithin allowed) (arriveChunk order hash bytes) s := by
  refine .assuming fun h => .get ?_
  split
  · exact .pure (arrivesWithin_none _) s
  next q a hq =>
    have ha : s.assemblies[q]? = some a := Std.ExtTreeMap.mem_toList_iff_getElem?_eq_some.1
      (ho.mem_iff.1 (List.mem_of_find?_eq_some hq))
    have hp := h.assembling q a ha
    refine .ite (fun _ => ?_) fun _ => .ite (fun _ => ?_) fun _ => ?_
    · refine .bind (.set fun _ => h.insert hk rfl rfl rfl hp) fun _ s' => ?_
      exact .bind (hk.requestNextBatch q s') fun _ s' => .pure (arrivesWithin_none _) s'
    · refine .bind (.set fun _ => ?_) fun _ s' =>
        .bind (hk.modifies rfl rfl rfl) fun _ s' => .pure (arrivesWithin_none _) s'
      have hf := (s.tornChunk hash).abandonAssembly_fewer q
      obtain ⟨as, fs, he⟩ := (s.tornChunk hash).abandonAssembly_only q
      rw [he] at hf ⊢
      exact ⟨hk.indifferent h.holds rfl rfl, h.config, fun r b hr => h.assembling r b (hf r b hr).1⟩
    · exact .bind (.set fun _ => h.insert hk rfl rfl rfl hp) fun _ s' => hk.arriveAdvanced q s'

theorem Tended.onChunkRequest (hk : Tended allowed I) (hashes : List ContentHash) (s : Session) :
    Upholds (Steady cfg assembled I) (onChunkRequest hashes) s := by
  obtain ⟨out, hx, hout⟩ := onChunkRequest_exec hashes s
  have hserve : ∀ m ∈ out, m.says = none := by
    intro m hm
    obtain ⟨_, _, _, _, _, _, _, rfl⟩ := hout m hm
    rfl
  constructor
  intro h
  rw [hx]
  exact ⟨hk.indifferent (hk.serve h.holds hserve) rfl rfl, h.config, h.assembling⟩

theorem Tended.reconcile (hk : Tended allowed I) (peer : Index) (s : Session) :
    Upholds (Steady cfg assembled I) (modify fun s => s.reconcile peer : SessionM PUnit) s := by
  have hfold (l : List RemoteChange) (u : Session) :
      ∃ sends, l.foldl enqueueBulkSend u = { u with pendingSends := sends } := by
    induction l generalizing u with
    | nil => exact ⟨u.pendingSends, rfl⟩
    | cons c l ih =>
      obtain ⟨l', hl⟩ := ih (u.enqueueBulkSend c)
      refine ⟨l', ?_⟩
      rw [List.foldl_cons, hl, enqueueBulkSend]
      split <;> rfl
  obtain ⟨l, hl⟩ := hfold (uncoveredHeads s.engine.index peer) s
  refine hk.modifies ?_ ?_ ?_
  · rw [Session.reconcile, hl]
    rfl
  · rw [Session.reconcile, hl]
    rfl
  · rw [Session.reconcile, hl]

theorem Tended.resyncIndices (hk : Tended allowed I) (s : Session) :
    Upholds (Steady cfg assembled I) resyncIndices s := .get <| .ite (hk.send rfl _) (.pure _ s)

theorem Tacit.ship (hk : Tacit allowed I) (msgs : List Message) (s : Session) :
    Upholds (Steady cfg allowed I) (ship msgs) s := by
  apply Upholds.get
  split
  · exact .pure _ s
  · split
    · exact .ite (.set fun h => h.goOffline hk.toTended) (.throw _ s)
    · exact .set fun h => ⟨hk.tacit h.holds rfl, h.config, h.assembling⟩

theorem Steady.tacit (hk : Tacit allowed I) (h : Steady cfg assembled I s)
    (hf : s'.stake = s.stake) (ha : s'.assemblies = s.assemblies) : Steady cfg assembled I s' where
  holds := hk.tacit h.holds hf
  config := (congrArg Session.config hf : s'.stake.config = s.stake.config).trans h.config
  assembling := by
    rw [ha]
    exact h.assembling

theorem Tacit.reconcilePauseState (hk : Tacit allowed I) (s : Session) :
    Upholds (Steady cfg allowed I) reconcilePauseState s := by
  refine .get <| .ite (.pure _ s) (Upholds.bind (.set fun h => h.tacit hk rfl rfl) fun _ s' =>
    .ite ?_ ?_)
  · exact Upholds.bind (.modify fun h => h.suspendTransfers hk.toTended) fun _ s' => hk.ship _ s'
  · exact (hk.ship _ s').bind fun _ s' => hk.resyncIndices s'

theorem Tacit.onPeerPause (hk : Tacit allowed I) (s : Session) :
    Upholds (Steady cfg allowed I) onPeerPause s := by
  refine .modify fun h => ?_
  split
  · exact h
  · have h' : Steady cfg allowed I { s with peerPaused := true } := h.tacit hk rfl rfl
    exact h'.suspendTransfers hk.toTended

theorem Tacit.onPeerResume (hk : Tacit allowed I) (s : Session) :
    Upholds (Steady cfg allowed I) onPeerResume s :=
  Upholds.bind (.modify fun h => h.tacit hk rfl rfl) fun _ s' => hk.resyncIndices s'

theorem Tacit.onHello (hk : Tacit allowed I) (protocol : Nat) (version : List Char)
    (replica : ReplicaId) (s : Session) :
    Upholds (Steady cfg allowed I) (onHello protocol version replica) s := by
  refine .get <| .ite (.throw _ s) (.ite (.ite (hk.sets rfl rfl rfl) (.throw _ s)) ?_)
  refine Upholds.bind (hk.sets rfl rfl rfl) fun _ s' => (hk.ship _ s').bind fun _ s' => ?_
  exact .get <| .ite (hk.ship _ s') (.pure _ s')

/-- A frame that comes while the session is paused, or brings no change. -/
theorem Tended.onAside (hk : Tended allowed I) {msg : Message}
    (hm : msg.bringsChange = true → s.paused = true)
    (hq : msg.aboutPause = true → Upholds (Steady cfg assembled I) (onMessage msg) s) :
    Upholds (Steady cfg assembled I) (onMessage msg) s := by
  cases hp : msg.aboutPause with
  | true => exact hq hp
  | false =>
    refine .get ?_
    split
    · exact .pure _ s
    next hpause =>
      have hn : msg.bringsChange = true → isContentFrame msg = false := by
        intro hb
        rwa [hm hb, Bool.true_and, Bool.not_eq_true] at hpause
      cases msg with
      | indexExchange peer => exact hk.reconcile peer s
      | chunkRequest hashes => exact hk.onChunkRequest hashes s
      | ping nonce => exact hk.send rfl s
      | pong nonce => exact .pure _ s
      | hello | pause | resume => cases hp
      | change c bytes => cases hn rfl
      | changeManifest c total manifest => cases hn rfl
      | chunkData hash bytes => cases hn rfl

theorem Tended.arrive (hk : Tended allowed I) {msg : Message} (hm : msg.Admitted cfg allowed)
    (hq : msg.aboutPause = true → Upholds (Steady cfg allowed I) (onMessage msg) s) :
    Ensures (Steady cfg allowed I) (ArrivesWithin allowed) (arrive msg) s := by
  have haside (hm : msg.bringsChange = true → s.paused = true) :
      Ensures (Steady cfg allowed I) (ArrivesWithin allowed) (do
        Session.onMessage msg
        pure none) s :=
    .bind (hk.onAside hm hq) fun _ s' => .pure (arrivesWithin_none _) s'
  apply Ensures.get
  cases hp : s.paused with
  | true => exact haside fun _ => hp
  | false =>
    cases msg with
    | change c bytes => exact hk.arriveChange hm bytes s
    | changeManifest c total manifest => exact hk.arriveManifest hm total manifest s
    | chunkData hash bytes => exact hk.arriveChunk (.refl _) hash bytes
    | hello | indexExchange | chunkRequest | ping | pong | pause | resume =>
      exact haside fun h => by cases h

theorem Kept.onMessage (hk : Kept allowed I) {msg : Message} (hm : msg.Admitted cfg allowed)
    (hq : msg.aboutPause = true → Upholds (Steady cfg allowed I) (onMessage msg) s) :
    Upholds (Steady cfg allowed I) (onMessage msg) s := by
  have h := (hk.arrive hm hq).upholds_bind_exec (f := absorbArrived) fun r s' hr hx => by
    cases r with
    | none => exact .pure _ s'
    | some e =>
      exact hk.absorbAndExecute (hr e.1 e.2 rfl) e.2 s' (arrive_probes msg s e s' hx)
  constructor
  rw [onMessage_arrives]
  exact h.after

theorem Tended.absorbLocal (hk : Tended allowed I) (change : LocalChange)
    (hc : Within allowed change.path) (s : Session) :
    Upholds (Steady cfg assembled I) (absorbLocal change) s := by
  refine (hk.handleEvent _ s).bind_exec fun actions s' hx => ?_
  refine .ite (hk.executeLocal hc hx s') ?_
  exact (hk.markDirty s').bind fun _ s' => hk.executeLocal hc hx s'

theorem Tended.onWatch (hk : Tended allowed I) {signal : WatchSignal}
    (hs : (Incoming.watch signal).Admitted cfg allowed) (s : Session) :
    Upholds (Steady cfg assembled I) (onWatch signal) s := by
  cases signal with
  | needsRescan => exact hk.modifies rfl rfl rfl
  | pending rel kind =>
    refine (hk.flushPendingInstallFor rel s).bind fun _ s' => .get ?_
    split
    · exact hk.sets rfl rfl rfl
    · exact hk.absorbLocal ⟨rel, _⟩ hs s'

/-- Every change that a scan of the disk reports is allowed. -/
def ScanAdmitted (allowed : RelPath → Prop) (s : Session) : Prop :=
  ∀ changes, scanDiff s = .ok changes → ∀ c ∈ changes, Within allowed c.path

theorem Tended.rescan (hk : Tended allowed I) (hs : s.ScanAdmitted allowed) :
    Upholds (Steady cfg assembled I) rescan s := by
  apply Upholds.get
  split
  · exact .throw _ s
  next changes he => exact .forM (fun c hc s' => hk.absorbLocal c (hs changes he c hc) s') s

theorem Tended.startupScan (hk : Tended allowed I) (hs : s.ScanAdmitted allowed) :
    Upholds (Steady cfg assembled I) startupScan s := by
  apply Upholds.get
  split
  · exact .throw _ s
  next changes he =>
    refine .forM (fun c hc s' => ?_) s
    refine (hk.handleEvent _ s').bind_exec fun actions s'' hx => ?_
    exact hk.executeLocal (hs changes he c hc) hx s''

theorem Tended.maybeRescan (hk : Tended allowed I) (hs : s.ScanAdmitted allowed) :
    Upholds (Steady cfg assembled I) maybeRescan s := by
  refine .get <| .ite (.pure _ s) (Upholds.bind_exec (hk.sets rfl rfl rfl) fun _ s' he => ?_)
  cases he
  exact hk.rescan hs

theorem Tended.maybeRetryStall (hk : Tended allowed I) (s : Session) :
    Upholds (Steady cfg assembled I) maybeRetryStall s :=
  .get <| .ite (.pure _ s) (Upholds.bind (hk.sets rfl rfl rfl) fun _ s' => hk.send rfl s')

theorem Tended.processIncoming (hk : Tended allowed I) {item : Incoming}
    (hi : ∀ signal, item = .watch signal → item.Admitted cfg allowed)
    (hm : ∀ msg, item = .message msg → msg.aboutPause = false → ∀ s,
      Upholds (Steady cfg assembled I) (onMessage msg) s)
    (hq : item.aboutPause = true → Upholds (Steady cfg assembled I) (processIncoming item) s) :
    Upholds (Steady cfg assembled I) (processIncoming item) s := by
  cases item with
  | watch signal =>
    exact Upholds.bind (hk.modifies rfl rfl rfl) fun _ s' => (hk.onWatch (hi signal rfl) s').map
  | message msg =>
    cases hp : msg.aboutPause with
    | true => exact hq hp
    | false => exact Upholds.bind (hk.modifies rfl rfl rfl) fun _ s' => (hm msg rfl hp s').map
  | peerEof =>
    exact .get <| .ite (Upholds.bind (.set fun h => h.goOffline hk) fun _ s' => .pure _ s') (.pure _ s)
  | protoError =>
    exact .get <| .ite (Upholds.bind (.set fun h => h.goOffline hk) fun _ s' => .pure _ s') (.throw _ s)
  | shutdown => exact .pure _ s
  | pause | resume => exact hq rfl

theorem Kept.processIncoming (hk : Kept allowed I) {item : Incoming}
    (hi : item.Admitted cfg allowed)
    (hq : item.aboutPause = true → Upholds (Steady cfg allowed I) (processIncoming item) s) :
    Upholds (Steady cfg allowed I) (processIncoming item) s := by
  refine hk.toTended.processIncoming (fun _ _ => hi) (fun msg hmsg hp s' => ?_) hq
  subst hmsg
  refine hk.onMessage hi fun h => ?_
  rw [hp] at h
  cases h

/-- A pause has no part in disk and history. -/
theorem Tacit.tellsOfPause (hk : Tacit allowed I) {msg : Message} (hp : msg.aboutPause = true)
    (s : Session) : Upholds (Steady cfg allowed I) (Session.onMessage msg) s := by
  refine .get <| .ite (.pure _ s) ?_
  cases msg with
  | hello protocol version replica => exact hk.onHello protocol version replica s
  | pause => exact hk.onPeerPause s
  | resume => exact hk.onPeerResume s
  | indexExchange | change | changeManifest | chunkRequest | chunkData | ping | pong => cases hp

theorem Tacit.aboutPause (hk : Tacit allowed I) {item : Incoming} (hp : item.aboutPause = true)
    (s : Session) : Upholds (Steady cfg allowed I) (Session.processIncoming item) s := by
  cases item with
  | message msg =>
    exact Upholds.bind (hk.modifies rfl rfl rfl) fun _ s' => (hk.tellsOfPause hp s').map
  | pause | resume => exact (hk.reconcilePauseState s).map
  | watch | peerEof | protoError | shutdown => cases hp

theorem Tended.processItems (hk : Tended allowed I) {batch : List Arrival}
    (hb : ∀ a ∈ batch, ∀ s, Upholds (Steady cfg assembled I) (Session.processIncoming a.item) s)
    (s : Session) : Upholds (Steady cfg assembled I) (processItems batch) s := by
  induction batch generalizing s with
  | nil => exact .pure _ s
  | cons a rest ih =>
    have hrest := ih fun b h => hb b (List.mem_cons_of_mem a h)
    have hitem := hb a List.mem_cons_self
    rw [Session.processItems]
    have hgo (s' : Session) : Upholds (Steady cfg assembled I) (do
        if ← Session.processIncoming a.item then pure true
        else
          let s ← get
          if s.repushRequested then pure true
          else
            if s.installBatchFull a.elapsedMs then Session.flushInstalls
            Session.processItems rest : SessionM Bool) s' := by
      refine (hitem s').bind fun r s' => ?_
      refine .ite (.pure _ s') (.get <| .ite (.pure _ s') (.ite ?_ (hrest s')))
      exact (hk.flushInstalls s').bind fun _ s' => hrest s'
    refine .ite (Upholds.bind (.modify fun h => ?_) fun _ s' => hgo s') (hgo s)
    exact ⟨hk.hangUp h.holds (fun ht => by rwa [Option.isSome_map] at ht), h.config, h.assembling⟩

theorem Tacit.arrive (hk : Tacit allowed I) {msg : Message} (hm : msg.Admitted cfg allowed)
    (s : Session) : Ensures (Steady cfg allowed I) (ArrivesWithin allowed) (Session.arrive msg) s :=
  hk.toKept.arrive hm fun hp => hk.tellsOfPause hp s

theorem Tacit.processIncoming (hk : Tacit allowed I) {item : Incoming}
    (hi : item.Admitted cfg allowed) (s : Session) :
    Upholds (Steady cfg allowed I) (Session.processIncoming item) s :=
  hk.toKept.processIncoming hi fun hp => hk.aboutPause hp s

theorem Tacit.processItems (hk : Tacit allowed I) {batch : List Arrival}
    (hb : ∀ a ∈ batch, a.item.Admitted cfg allowed) (s : Session) :
    Upholds (Steady cfg allowed I) (Session.processItems batch) s :=
  hk.toTended.processItems (fun a ha s => hk.processIncoming (hb a ha) s) s

theorem coalesceBurst_subset (batch : List Arrival) : coalesceBurst batch ⊆ batch := by
  induction batch with
  | nil => exact List.Subset.refl _
  | cons a rest ih =>
    rw [coalesceBurst]
    split
    · split
      · exact List.subset_cons_of_subset a ih
      · exact List.cons_subset_cons a ih
    · exact List.cons_subset_cons a ih

theorem Tended.processBurst (hk : Tended allowed I) {batch : List Arrival}
    (hb : ∀ a ∈ batch, ∀ s, Upholds (Steady cfg assembled I) (Session.processIncoming a.item) s)
    (s : Session) : Upholds (Steady cfg assembled I) (processBurst batch) s := by
  have hitems := hk.processItems (fun a h => hb a (coalesceBurst_subset batch h)) s
  refine (Upholds.tryCatch hitems.map fun e s' => .pure _ s').bind fun leave s' => ?_
  refine (Upholds.tryCatch (hk.flushInstalls s').map fun e s' => .pure _ s').bind
    fun flush s' => ?_
  cases leave with
  | error e => exact .throw _ s'
  | ok b =>
    cases flush with
    | error e => exact .throw _ s'
    | ok u => exact .pure _ s'

theorem Tacit.processBurst (hk : Tacit allowed I) {batch : List Arrival}
    (hb : ∀ a ∈ batch, a.item.Admitted cfg allowed) (s : Session) :
    Upholds (Steady cfg allowed I) (Session.processBurst batch) s :=
  hk.toTended.processBurst (fun a ha s => hk.processIncoming (hb a ha) s) s

end

end Session

end Tomo
