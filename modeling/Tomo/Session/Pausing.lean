import Tomo.Session.Running

namespace Tomo
set_option autoImplicit true

/-- What a listener takes a speaker for once some frames have arrived. -/
def pictured (believed : Bool) (msgs : List Message) : Bool :=
  msgs.foldl (fun b m => m.says.getD b) believed

theorem pictured_append (b : Bool) (l l' : List Message) :
    pictured b (l ++ l') = pictured (pictured b l) l' := List.foldl_append

theorem pictured_quiet {l : List Message} (h : ∀ m ∈ l, m.says = none) (b : Bool) :
    pictured b l = b := by
  induction l with
  | nil => rfl
  | cons m l ih =>
    have hm := h m List.mem_cons_self
    rw [pictured, List.foldl_cons, hm]
    exact ih fun m' h' => h m' (List.mem_cons_of_mem m h')

def Message.isHello : Message → Bool
  | .hello .. => true
  | _ => false

/-- The frame that an item brings, if it brings one. -/
def Incoming.heard : Incoming → List Message
  | .message msg => [msg]
  | .watch _ | .peerEof | .protoError | .shutdown | .pause | .resume => []

/-- The frames that a pass takes up. -/
def Pass.heard : Pass → List Message
  | .burst batch => batch.flatMap fun a => a.item.heard
  | .startupScan | .completeHistory | .connect | .shipBulk | .rescan | .pumpHistory | .retryStall
  | .drainHistory | .around _ => []

/-- Whether a pass works on the session that stands, over the link that it has. -/
def Pass.works : Pass → Bool
  | .connect | .around _ => false
  | .startupScan | .completeHistory | .burst _ | .shipBulk | .rescan | .pumpHistory | .retryStall
  | .drainHistory => true

namespace Session
open Eff

/-- A speaker owes its peer no news of its pause: unless a command is yet to be acted on, the peer
takes it for what it is, or for unpaused where it has not been greeted. -/
def Honest (greeted picture : Bool) (s : Session) : Prop :=
  s.paused = s.pausedActed → picture = s.pausedActed ∨ greeted = false ∧ picture = false

theorem Honest.weaken {s : Session} (h : Honest (greeted || g) b s) : Honest greeted b s := by
  intro hp
  rcases h hp with h | ⟨hg, hb⟩
  · exact .inl h
  · exact .inr ⟨(Bool.or_eq_false_iff.1 hg).1, hb⟩

/-- A session has only shipped frames, as long as it has kept its link. -/
structure Spoke (l : List Message) (s s' : Session) : Prop where
  paused : s'.paused = s.paused
  acted : s'.pausedActed = s.pausedActed
  peer : s'.peerPaused = s.peerPaused
  link : s'.transport.isSome = true → s.transport.isSome = true
  chunks : (∀ m ∈ s.pendingChunks, m.says = none) → ∀ m ∈ s'.pendingChunks, m.says = none
  sent : s'.transport.isSome = true → s'.sent = s.sent ++ l

theorem Spoke.refl (s : Session) : Spoke [] s s :=
  ⟨rfl, rfl, rfl, id, id, fun _ => (List.append_nil _).symm⟩

theorem Spoke.trans {s t u : Session} (h : Spoke l s t) (h' : Spoke l' t u) :
    Spoke (l ++ l') s u where
  paused := h'.paused.trans h.paused
  acted := h'.acted.trans h.acted
  peer := h'.peer.trans h.peer
  link hu := h.link (h'.link hu)
  chunks hc := h'.chunks (h.chunks hc)
  sent hu := by rw [h'.sent hu, h.sent (h'.link hu), List.append_assoc]

theorem Spoke.goOffline (l : List Message) (s : Session) : Spoke l s s.goOffline := by
  rw [Session.goOffline]
  split
  next hn =>
    refine ⟨rfl, rfl, rfl, id, id, fun h => ?_⟩
    rw [hn] at h
    cases h
  next t ht =>
    obtain ⟨f, hf⟩ := suspendTransfers_only
      { s with transport := none, connected := false, helloReceived := false }
    rw [hf]
    exact ⟨rfl, rfl, rfl, fun h => (by cases h), fun _ m hm => (by cases hm), fun h => by cases h⟩

theorem Spoke.suspendTransfers (s : Session) : Spoke [] s s.suspendTransfers := by
  obtain ⟨f, hf⟩ := s.suspendTransfers_only
  rw [hf]
  exact ⟨rfl, rfl, rfl, id, fun _ m hm => (by cases hm), fun _ => (List.append_nil _).symm⟩

theorem Spoke.ship {s s' : Session} (hx : (Session.ship msgs).exec s = (.ok a, s')) :
    Spoke msgs s s' := by
  simp only [Session.ship, exec_get_bind] at hx
  split at hx
  next hn =>
    cases hx
    refine ⟨rfl, rfl, rfl, id, id, fun h => ?_⟩
    rw [hn] at h
    cases h
  next t ht =>
    rw [exec_ite] at hx
    split at hx
    · rw [exec_ite] at hx
      split at hx
      · cases hx
        exact .goOffline msgs s
      · cases hx
    · cases hx
      exact ⟨rfl, rfl, rfl, id, id, fun _ => rfl⟩

/-- A session has heard some frames, and has been honest with its peer. -/
structure Talks (heard : List Message) (s s' : Session) : Prop where
  paused : s'.paused = s.paused
  peer : s'.peerPaused = pictured s.peerPaused heard
  link : s'.transport.isSome = true → s.transport.isSome = true
  chunks : (∀ m ∈ s.pendingChunks, m.says = none) → ∀ m ∈ s'.pendingChunks, m.says = none
  said : s'.transport.isSome = true → ∃ l, s'.sent = s.sent ++ l ∧
    ∀ greeted b, Honest greeted b s → Honest (greeted || heard.any Message.isHello) (pictured b l) s'

theorem Talks.trans {s t u : Session} (h : Talks l s t) (h' : Talks l' t u) :
    Talks (l ++ l') s u where
  paused := h'.paused.trans h.paused
  peer := by rw [h'.peer, h.peer, pictured_append]
  link hu := h.link (h'.link hu)
  chunks hc := h'.chunks (h.chunks hc)
  said hu := by
    obtain ⟨m, hm, hh⟩ := h.said (h'.link hu)
    obtain ⟨m', hm', hh'⟩ := h'.said hu
    refine ⟨m ++ m', by rw [hm', hm, List.append_assoc], fun greeted b hb => ?_⟩
    have hlast := hh' _ _ (hh greeted b hb)
    rwa [← pictured_append, Bool.or_assoc, ← List.any_append] at hlast

/-- Frames that say nothing of a pause leave the picture as it is. -/
theorem Spoke.talks {s s' : Session} (h : Spoke l s s') (hl : ∀ m ∈ l, m.says = none)
    (hh : ∀ m ∈ heard, m.says = none ∧ m.isHello = false) : Talks heard s s' where
  paused := h.paused
  peer := by rw [pictured_quiet (fun m hm => (hh m hm).1), h.peer]
  link := h.link
  chunks := h.chunks
  said hs := by
    refine ⟨l, h.sent hs, fun greeted b hb => ?_⟩
    have hany : heard.any Message.isHello = false := by
      rw [List.any_eq_false]
      intro m hm
      rw [(hh m hm).2]
      exact Bool.false_ne_true
    rw [hany, Bool.or_false, pictured_quiet hl, Honest, h.paused, h.acted]
    exact hb

section
variable [Platform] {s s' s₀ : Session}

/-- Since a session, nothing was said or heard of a pause. -/
structure Hushed (s₀ s : Session) : Prop where
  chunks : ∀ m ∈ s.pendingChunks, m.says = none
  spoke : ∃ l, Spoke l s₀ s ∧ ∀ m ∈ l, m.says = none

omit [Platform] in
theorem Hushed.trans (h : Hushed s₀ s) (hs : Spoke l s s') (hl : ∀ m ∈ l, m.says = none) :
    Hushed s₀ s' := by
  obtain ⟨l', hl', hq⟩ := h.spoke
  refine ⟨hs.chunks h.chunks, _, hl'.trans hs, fun m hm => ?_⟩
  rcases List.mem_append.1 hm with hm | hm
  · exact hq m hm
  · exact hl m hm

omit [Platform] in
theorem Works.hushed {x : SessionM α} (hw : Works x s) : Upholds (Hushed s₀) x s := by
  constructor
  intro h
  obtain ⟨l, hl, hk⟩ := hw.emits
  have hf := hw.leaves
  have hp : (x.exec s).2.frame.paused = s.frame.paused := by rw [hf]
  have ha : (x.exec s).2.frame.pausedActed = s.frame.pausedActed := by rw [hf]
  have hpeer : (x.exec s).2.frame.peerPaused = s.frame.peerPaused := by rw [hf]
  have ht : (x.exec s).2.frame.transport = s.frame.transport := by rw [hf]
  have hc : (x.exec s).2.frame.pendingChunks = s.frame.pendingChunks := by rw [hf]
  refine h.trans (l := l) ⟨hp, ha, hpeer, ?_, ?_, fun _ => hl⟩ fun m hm =>
    Message.says_of_announces (hk m hm)
  · rw [show (x.exec s).2.transport = s.transport from ht]
    exact id
  · rw [show (x.exec s).2.pendingChunks = s.pendingChunks from hc]
    exact id

omit [Platform] in
theorem Spoke.of_line (h : s'.line = s.line) : Spoke [] s s' := by
  have hp : s'.line.paused = s.line.paused := by rw [h]
  have ha : s'.line.pausedActed = s.line.pausedActed := by rw [h]
  have hpeer : s'.line.peerPaused = s.line.peerPaused := by rw [h]
  have ht : s'.line.transport = s.line.transport := by rw [h]
  have hc : s'.line.pendingChunks = s.line.pendingChunks := by rw [h]
  have hs : s'.line.sent = s.line.sent := by rw [h]
  refine ⟨hp, ha, hpeer, ?_, ?_, fun _ => hs.trans (List.append_nil _).symm⟩
  · rw [show s'.transport = s.transport from ht]
    exact id
  · rw [show s'.pendingChunks = s.pendingChunks from hc]
    exact id

theorem gatherBulk_hushed (n : Nat) {batch : List Message} (hb : ∀ m ∈ batch, m.says = none)
    (s : Session) :
    Ensures (Hushed s₀) (fun msgs => ∀ m ∈ msgs, m.says = none) (gatherBulk n batch) s := by
  induction n generalizing batch s with
  | zero => exact .pure hb s
  | succ n ih =>
    have hpush (msg : Message) (hm : msg.says = none) : ∀ m ∈ batch ++ [msg], m.says = none := by
      intro m h
      rcases List.mem_append.1 h with h | h
      · exact hb m h
      · rw [List.mem_singleton.1 h]
        exact hm
    refine .assuming fun h => .get <| .ite (fun _ => .pure hb s) fun _ => ?_
    cases hc : s.pendingChunks with
    | cons msg rest =>
      have hmem : ∀ m ∈ msg :: rest, m.says = none := by
        rw [← hc]
        exact h.chunks
      refine .bind (.set fun _ => ?_) fun _ s' => ih (hpush msg (hmem msg List.mem_cons_self)) s'
      refine h.trans (l := []) ⟨rfl, rfl, rfl, id, fun _ m hm => ?_, fun _ => ?_⟩ fun m hm => ?_
      · exact hmem m (List.mem_cons_of_mem msg hm)
      · exact (List.append_nil _).symm
      · cases hm
    | nil =>
      cases s.pendingSends with
      | nil => exact .pure hb s
      | cons change rest =>
        refine .bind (.set fun _ => ?_) fun _ s' => ?_
        · exact h.trans (.of_line (by rw [line, line, hc])) fun m hm => by cases hm
        · refine .bind_exec (prepareSend_files change s').books.works.hushed fun o s'' hx => ?_
          cases o with
          | none => exact ih hb s''
          | some msg =>
            exact ih (hpush msg (Message.says_of_announces (prepareSend_announces _ _ hx))) s''

theorem ship_hushed {msgs : List Message} (hm : ∀ m ∈ msgs, m.says = none) (s : Session) :
    Upholds (Hushed s₀) (ship msgs) s := by
  apply Upholds.get
  split
  · exact .pure _ s
  · split
    · exact .ite (.set fun h => h.trans (.goOffline [] s) fun m hm => by cases hm) (.throw _ s)
    · exact .set fun h => h.trans ⟨rfl, rfl, rfl, id, id, fun _ => rfl⟩ hm

theorem shipBulkSubbatch_hushed (s : Session) : Upholds (Hushed s₀) shipBulkSubbatch s := by
  refine .get <| (gatherBulk_hushed _ (fun m hm => by cases hm) s).upholds_bind fun batch s' hb => ?_
  exact .ite (.pure _ s') (ship_hushed hb s')

theorem hushed_kept (s₀ : Session) : Kept (fun _ => True) (Hushed s₀) where
  indifferent h _ hl := h.trans (.of_line hl) fun m hm => by cases hm
  quit h := by
    refine h.trans (l := []) ⟨rfl, rfl, rfl, id, fun _ m hm => ?_, fun _ => ?_⟩ fun m hm => ?_
    · cases hm
    · exact (List.append_nil _).symm
    · cases hm
  hangUp h ht := h.trans (l := []) ⟨rfl, rfl, rfl, ht, id, fun _ => (List.append_nil _).symm⟩
    fun m hm => by cases hm
  speak h hm := h.trans ⟨rfl, rfl, rfl, id, id, fun _ => rfl⟩ hm
  serve h hm := by
    refine h.trans (l := []) ⟨rfl, rfl, rfl, id, fun hc m hm' => ?_, fun _ => ?_⟩ fun m hm => ?_
    · exact (List.mem_append.1 hm').elim (hc m) (hm m)
    · exact (List.append_nil _).symm
    · cases hm
  bulk := shipBulkSubbatch_hushed
  flush s := (flushInstalls_works s).hushed
  store _ _ _ _ _ _ := (storeVersion_books ..).works.hushed
  note _ _ _ _ _ _ := (noteVersion_files ..).books.works.hushed
  conflict _ s := (recordConflictCapture_books _ s).works.hushed
  apply _ target bytes s _ := (doApply_works _ bytes target s).hushed
  pump s := (pumpHistory_books s).works.hushed
  drain s := (drainHistory_books s).works.hushed

omit [Platform] in
theorem Talks.of_spoke (h : Spoke [] s s') : Talks [] s s' :=
  h.talks (fun m hm => by cases hm) fun m hm => by cases hm

/-- Nothing about a pause waits in the bulk queue. -/
def ServesChunks (s : Session) : Prop := ∀ m ∈ s.pendingChunks, m.says = none

theorem Hushed.talks {x : SessionM α} {heard : List Message}
    (hx : Upholds (Steady s.config (fun _ => True) (Hushed s)) x s) (hc : s.ServesChunks)
    (hh : ∀ m ∈ heard, m.says = none ∧ m.isHello = false) : Talks heard s (x.exec s).2 := by
  have hs : Hushed s s := ⟨hc, [], .refl s, fun m hm => by cases hm⟩
  obtain ⟨l, hl, hq⟩ := (hx.after ⟨hs, rfl, fun _ _ _ _ _ => trivial⟩).holds.spoke
  exact hl.talks hq hh

/-- Once it has acted on a command, a session has told its peer. -/
theorem reconcilePauseState_talks (hx : reconcilePauseState.exec s = (.ok a, s')) :
    Talks [] s s' := by
  simp only [reconcilePauseState, exec_get_bind, exec_ite] at hx
  split at hx
  · cases hx
    exact .of_spoke (.refl s)
  next hne =>
    have htold (l : List Message) (h : Spoke l { s with pausedActed := s.paused } s')
        (hl : ∀ b, pictured b l = s.paused) : Talks [] s s' := by
      refine ⟨h.paused, h.peer, h.link, h.chunks, fun hs => ⟨l, h.sent hs, fun _ b _ _ => ?_⟩⟩
      rw [hl, h.acted]
      exact .inl rfl
    simp only [exec_set_bind, exec_ite] at hx
    split at hx
    next hp =>
      obtain ⟨_, u, hsus, hship⟩ := ok_of_bind (f := fun _ => send .pause) hx
      cases hsus
      refine htold _ ((Spoke.suspendTransfers _).trans (.ship hship)) fun b => ?_
      rw [hp]
      rfl
    next hp =>
      obtain ⟨_, u, hship, hx⟩ := ok_of_bind (f := fun _ => resyncIndices) hx
      rw [Bool.not_eq_true] at hp
      have hres : ∃ l, Spoke l u s' ∧ ∀ b, pictured b l = b := by
        simp only [resyncIndices, exec_get_bind, exec_ite] at hx
        split at hx
        · exact ⟨_, .ship hx, fun b => rfl⟩
        · cases hx
          exact ⟨[], .refl _, fun b => rfl⟩
      obtain ⟨l, hl, hq⟩ := hres
      refine htold _ (Spoke.trans (.ship hship) hl) fun b => ?_
      rw [pictured_append, hq, hp]
      rfl

/-- A greeting is answered with the pause, if there is one. -/
theorem onHello_talks {msg : Message} (hm : msg.isHello = true)
    (hx : (onHello protocol version replica).exec s = (.ok a, s'))
    (hr : s'.repushRequested = false) : Talks [msg] s s' := by
  simp only [onHello, exec_get_bind, exec_ite] at hx
  split at hx
  · cases hx
  · split at hx
    · split at hx
      · cases hx
        cases hr
      · cases hx
    · simp only [exec_set_bind] at hx
      obtain ⟨_, u, hship, hx⟩ := ok_of_bind hx
      have hset : Spoke [] s { s with
          helloReceived := true, connected := true, peerReplica := some replica } := .of_line rfl
      have hu : Spoke [.indexExchange s.engine.index] s u := hset.trans (.ship hship)
      have hsays : msg.says = none := by
        cases msg with
        | hello => rfl
        | _ => cases hm
      have htold (l : List Message) (h : Spoke l s s')
          (hl : ∀ b, s.paused = true ∧ pictured b l = true ∨
            s.paused = false ∧ pictured b l = b) : Talks [msg] s s' := by
        refine ⟨h.paused, ?_, h.link, h.chunks, fun hs => ⟨l, h.sent hs, fun g b hb hpa => ?_⟩⟩
        · rw [h.peer, pictured_quiet fun m hm => by rwa [List.mem_singleton.1 hm]]
        · rw [h.paused, h.acted] at hpa
          rw [h.acted]
          left
          rcases hl b with ⟨hp, ht⟩ | ⟨hp, ht⟩
          · rw [ht, ← hpa, hp]
          · rw [ht]
            rcases hb hpa with hb | ⟨_, hb⟩
            · exact hb
            · rw [hb, ← hpa, hp]
      simp only [exec_get_bind, exec_ite] at hx
      split at hx
      next hp =>
        refine htold ([.indexExchange s.engine.index] ++ [.pause]) (hu.trans (.ship hx)) fun b => ?_
        exact .inl ⟨hu.paused.symm.trans hp, rfl⟩
      next hp =>
        cases hx
        refine htold [.indexExchange s.engine.index] hu fun b => .inr ⟨?_, rfl⟩
        rw [← hu.paused]
        exact Bool.eq_false_iff.2 hp

theorem onMessage_talks {msg : Message} (hp : msg.aboutPause = true)
    (hx : (onMessage msg).exec s = (.ok a, s')) (hr : s'.repushRequested = false) :
    Talks [msg] s s' := by
  have hquiet {l : List Message} {t : Session} (h : Spoke l t s') (hl : ∀ b, pictured b l = b)
      (ht : t.line = { s.line with peerPaused := t.peerPaused })
      (hpeer : t.peerPaused = pictured s.peerPaused [msg]) (hn : msg.isHello = false) :
      Talks [msg] s s' := by
    have hpa : t.line.paused = s.line.paused := by rw [ht]
    have hac : t.line.pausedActed = s.line.pausedActed := by rw [ht]
    have hlink : t.line.transport = s.line.transport := by rw [ht]
    have hch : t.line.pendingChunks = s.line.pendingChunks := by rw [ht]
    have hse : t.line.sent = s.line.sent := by rw [ht]
    refine ⟨h.paused.trans hpa, h.peer.trans hpeer, fun hs => ?_, fun hc => h.chunks ?_,
      fun hs => ⟨l, ?_, fun g b hb => ?_⟩⟩
    · rw [show s.transport = t.transport from hlink.symm]
      exact h.link hs
    · rw [show t.pendingChunks = s.pendingChunks from hch]
      exact hc
    · rw [h.sent hs, show t.sent = s.sent from hse]
    · rw [List.any_cons, hn, List.any_nil, Bool.or_false, Bool.or_false, hl, Honest, h.paused,
        h.acted]
      rw [show t.paused = s.paused from hpa, show t.pausedActed = s.pausedActed from hac]
      exact hb
  simp only [onMessage, exec_get_bind] at hx
  cases msg with
  | hello protocol version replica =>
    simp only [isContentFrame, Bool.and_false, Bool.false_eq_true, ↓reduceIte] at hx
    exact onHello_talks rfl hx hr
  | pause =>
    cases hpeer : s.peerPaused with
    | true =>
      simp only [isContentFrame, Bool.and_false, Bool.false_eq_true, ↓reduceIte, onPeerPause,
        exec_modify, hpeer] at hx
      cases hx
      exact hquiet (.refl s) (fun _ => rfl) rfl hpeer rfl
    | false =>
      simp only [isContentFrame, Bool.and_false, Bool.false_eq_true, ↓reduceIte, onPeerPause,
        exec_modify, hpeer] at hx
      cases hx
      exact hquiet (.suspendTransfers { s with peerPaused := true }) (fun _ => rfl) rfl rfl rfl
  | resume =>
    simp only [isContentFrame, Bool.and_false, Bool.false_eq_true, ↓reduceIte, onPeerResume,
      exec_modify_bind, resyncIndices, exec_get_bind, exec_ite] at hx
    split at hx
    · exact hquiet (.ship hx) (fun _ => rfl) rfl rfl rfl
    · cases hx
      exact hquiet (.refl _) (fun _ => rfl) rfl rfl rfl
  | indexExchange | change | changeManifest | chunkRequest | chunkData | ping | pong => cases hp

theorem processIncoming_talks {item : Incoming} (hc : s.ServesChunks)
    (hx : (processIncoming item).exec s = (.ok false, s')) (hr : s'.repushRequested = false) :
    Talks item.heard s s' := by
  cases hp : item.aboutPause with
  | false =>
    have hk : Upholds (Steady s.config (fun _ => True) (Hushed s)) (processIncoming item) s := by
      refine (hushed_kept s).processIncoming (item.admitted_all s.config) fun h => ?_
      rw [hp] at h
      cases h
    have hquiet : ∀ m ∈ item.heard, m.says = none ∧ m.isHello = false := by
      intro m hm
      cases item with
      | message msg =>
        cases List.mem_singleton.1 hm
        cases m with
        | hello | pause | resume => cases hp
        | _ => exact ⟨rfl, rfl⟩
      | _ => cases hm
    have ht := Hushed.talks hk hc hquiet
    rwa [hx] at ht
  | true =>
    cases item with
    | pause | resume =>
      obtain ⟨_, u, hrec, hx⟩ := ok_of_bind (f := fun _ => pure false) hx
      cases hx
      exact reconcilePauseState_talks hrec
    | message msg =>
      simp only [processIncoming, exec_modify_bind] at hx
      obtain ⟨_, u, hmsg, hx⟩ := ok_of_bind hx
      cases hx
      have hset : Talks [] s { s with
          lastActivity := s.nowMs, pendingRelease := s.pendingRelease + inflightCost msg } :=
        .of_spoke (.of_line rfl)
      exact hset.trans (onMessage_talks hp hmsg hr)
    | watch | peerEof | protoError | shutdown => cases hp

theorem flushInstalls_talks (hc : s.ServesChunks) : Talks [] s (flushInstalls.exec s).2 :=
  Hushed.talks ((hushed_kept s).flushInstalls s) hc fun m hm => by cases hm

theorem processItems_talks {batch : List Arrival} (hc : s.ServesChunks)
    (hx : (processItems batch).exec s = (.ok false, s')) :
    Talks (batch.flatMap fun a => a.item.heard) s s' := by
  induction batch generalizing s with
  | nil =>
    cases hx
    exact .of_spoke (.refl _)
  | cons a rest ih =>
    rw [processItems_cons] at hx
    obtain ⟨leave, u, hitem, hx⟩ := ok_of_bind hx
    have hreached : Talks [] s (s.reached a) := by
      apply Talks.of_spoke
      rw [reached]
      split
      · refine ⟨rfl, rfl, rfl, fun h => ?_, id, fun _ => (List.append_nil _).symm⟩
        rwa [Option.isSome_map] at h
      · exact .refl _
    cases leave with
    | true => cases hx
    | false =>
      have hgo : (goOn a rest).exec u = (.ok false, s') := hx
      simp only [goOn, exec_get_bind, exec_ite] at hgo
      split at hgo
      · cases hgo
      next hr =>
        have hu := hreached.trans
          (processIncoming_talks (hreached.chunks hc) hitem (Bool.not_eq_true _ ▸ hr))
        split at hgo
        · obtain ⟨_, v, hflush, hgo⟩ := ok_of_bind hgo
          have hv := flushInstalls_talks (hu.chunks hc)
          rw [hflush] at hv
          exact hu.trans (hv.trans (ih (hv.chunks (hu.chunks hc)) hgo))
        · exact hu.trans (ih (hu.chunks hc) hgo)

omit [Platform] in
/-- What is coalesced away brings no frames. -/
theorem coalesceBurst_heard (batch : List Arrival) :
    ((coalesceBurst batch).flatMap fun a => a.item.heard) = batch.flatMap fun a => a.item.heard := by
  induction batch with
  | nil => rfl
  | cons a rest ih =>
    rw [coalesceBurst]
    split
    next p hw =>
      split
      · have hn : a.item.heard = [] := by
          cases hi : a.item with
          | watch => rfl
          | _ =>
            rw [hi] at hw
            cases hw
        rw [ih, List.flatMap_cons, hn, List.nil_append]
      · rw [List.flatMap_cons, List.flatMap_cons, ih]
    next => rw [List.flatMap_cons, List.flatMap_cons, ih]

theorem processBurst_talks {batch : List Arrival} (hc : s.ServesChunks)
    (hok : ((processBurst batch).exec s).1 = .ok false) :
    Talks (batch.flatMap fun a => a.item.heard) s (s.after (.burst batch)) := by
  obtain ⟨u, hitems, hafter⟩ := processBurst_ok hok
  have hu := processItems_talks hc hitems
  rw [coalesceBurst_heard] at hu
  have hlast := hu.trans (flushInstalls_talks (hu.chunks hc))
  rwa [List.append_nil, hafter] at hlast

/-- A pass goes through, and the session goes on. -/
def Completes (s : Session) : Pass → Prop
  | .burst batch => ((processBurst batch).exec s).1 = .ok false
  | pass => ((work pass).exec s).1 = .ok ⟨⟩

/-- A pass of a session that goes on leaves it honest with its peer. -/
theorem after_talks {pass : Pass} (hw : pass.works = true) (hc : s.ServesChunks)
    (hok : s.Completes pass) : Talks pass.heard s (s.after pass) := by
  have hall := s.passAdmitted_all pass
  have hquiet {x : SessionM PUnit}
      (hx : Upholds (Steady s.config (fun _ => True) (Hushed s)) x s) : Talks [] s (x.exec s).2 :=
    Hushed.talks hx hc fun m hm => by cases hm
  have hk := hushed_kept s
  cases pass with
  | startupScan => exact hquiet (hk.startupScan hall)
  | completeHistory => exact hquiet (hk.reconcileHistoryCompleteness hall)
  | burst batch => exact processBurst_talks hc hok
  | shipBulk => exact hquiet (hk.shipBulkSubbatch s)
  | rescan => exact hquiet (hk.maybeRescan hall)
  | pumpHistory => exact hquiet ((pumpHistory_books s).works.upholds (hk.pump s))
  | retryStall => exact hquiet (hk.maybeRetryStall s)
  | drainHistory => exact hquiet ((drainHistory_books s).works.upholds (hk.drain s))
  | connect | around => cases hw

end

end Session

end Tomo
