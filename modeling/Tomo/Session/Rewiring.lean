import Tomo.Session.Bookkeeping

namespace Tomo
set_option autoImplicit true

/-- What a session keeps of the disk, and of the staged files that are to reach it. -/
structure Disk where
  tree : Tree
  pendingInstalls : List PendingInstall
  createdDirs : List (List Name)
  pendingRelease : Nat
  diskStalled : Bool
  lastStallRetry : Nat

namespace Session
open Eff

/-- The same session over another disk. -/
def on (d : Disk) (s : Session) : Session :=
  { s with
    tree := d.tree
    pendingInstalls := d.pendingInstalls
    createdDirs := d.createdDirs
    pendingRelease := d.pendingRelease
    diskStalled := d.diskStalled
    lastStallRetry := d.lastStallRetry }

/-- What no apply touches. -/
def frame (s : Session) : Session := on ⟨.empty, [], [], 0, false, 0⟩ s.core

theorem frame_of_core {s s' : Session} (h : s'.core = s.core) : s'.frame = s.frame := by
  rw [frame, frame, h]

theorem Healthy.of_frame {s s' : Session} (h : s'.frame = s.frame) (hs : s.Healthy) :
    s'.Healthy := by
  intro t ht
  have he : s'.frame.transport = s.frame.transport := by rw [h]
  exact hs t (he.symm.trans ht)

/-- A computation that works on the disk and the records, and announces changes at most. -/
structure Works (x : SessionM α) (s : Session) : Prop where
  leaves : Leaves frame x s
  emits : Emits announces x s

theorem Works.get {s : Session} {f : Session → SessionM β} (h : Works (f s) s) :
    Works (get >>= f) s := ⟨h.leaves, h.emits⟩

theorem Works.bind {s : Session} {x : SessionM α} {f : α → SessionM β} (hx : Works x s)
    (hf : ∀ a s', s'.frame = s.frame → Works (f a) s') : Works (x >>= f) s := by
  refine ⟨hx.leaves.bind fun a s' hl => (hf a s' hl).leaves, hx.emits.bind fun a s' he => ?_⟩
  have hl := hx.leaves
  rw [Leaves, he] at hl
  exact (hf a s' hl).emits

theorem Books.works {x : SessionM α} {s : Session} (h : Books x s) : Works x s :=
  ⟨frame_of_core h.core, h.emits⟩

theorem flushInstalls_works (s : Session) : Works flushInstalls s := by
  apply Works.get
  split
  · exact ⟨rfl, .silent rfl⟩
  · exact ⟨rfl, .silent rfl⟩

theorem flushPendingInstallFor_works (p : RelPath) (s : Session) :
    Works (flushPendingInstallFor p) s := by
  apply Works.get
  split
  · exact flushInstalls_works s
  · exact ⟨rfl, .silent rfl⟩

theorem applyAbsentGuarded_works (p : RelPath) (s : Session) : Works (applyAbsentGuarded p) s := by
  refine (flushPendingInstallFor_works p s).bind fun _ s' _ => ?_
  refine Works.bind ⟨rfl, .silent rfl⟩ fun _ s' _ => .get ?_
  split
  · exact ⟨rfl, .silent rfl⟩
  · split
    · exact ⟨rfl, .silent rfl⟩
    · exact ⟨rfl, .silent rfl⟩
    · exact ⟨rfl, .silent rfl⟩

section
variable [Platform] (p : RelPath) (sig : ContentSig) (bytes : Option Bytes)

theorem writePresent_works (bytes : Bytes) (s : Session) : Works (writePresent p sig bytes) s := by
  refine (flushPendingInstallFor_works p s).bind fun _ s' _ => .get ?_
  refine Works.bind ⟨rfl, .silent rfl⟩ fun _ s' _ => ?_
  split
  all_goals exact ⟨rfl, .silent rfl⟩

theorem preserveAndClearObstructingFile_works (a : List Name) (s : Session) :
    Works (preserveAndClearObstructingFile a) s := by
  apply Works.get
  split
  · exact ⟨rfl, .silent rfl⟩
  · split
    · exact ⟨rfl, .silent rfl⟩
    · exact ⟨rfl, .silent rfl⟩
    · split
      · exact ⟨rfl, .silent rfl⟩
      · split
        · exact ⟨rfl, .silent rfl⟩
        · refine (recordPresentIfAbsent_books ..).works.bind fun _ s' _ => ?_
          split
          · exact Works.bind ⟨rfl, .silent rfl⟩ fun _ s' _ => ⟨rfl, .silent rfl⟩
          · exact ⟨rfl, .silent rfl⟩

theorem preparePresentTarget_works (s : Session) : Works (preparePresentTarget p sig bytes) s := by
  apply Works.get
  split
  · exact ⟨rfl, .silent rfl⟩
  · exact (preserveIncomingFile_books ..).works.bind fun _ s' _ => ⟨rfl, .silent rfl⟩
  · exact (preserveAndClearObstructingFile_works ..).bind fun _ s' _ => ⟨rfl, .silent rfl⟩

theorem materialize_works (s : Session) : Works (materialize p sig bytes) s := by
  apply Works.get
  refine (liftHistory_books _ s).works.bind fun cas s' _ => ?_
  split
  · exact writePresent_works ..
  · split
    · exact ⟨rfl, .silent rfl⟩
    · exact ⟨rfl, .silent rfl⟩
  · exact writePresent_works ..
  · exact ⟨rfl, .silent rfl⟩

theorem doApply_works (target : Expectation) (s : Session) : Works (doApply p target bytes) s := by
  cases target with
  | absent => exact applyAbsentGuarded_works p s
  | present sig =>
    refine (preparePresentTarget_works p sig bytes s).bind fun ready s' _ => ?_
    cases ready with
    | true => exact materialize_works p sig bytes s'
    | false => exact ⟨rfl, .silent rfl⟩

end

section
variable {d : Disk} {s : Session} {p : RelPath} [Platform]

/-- Both disks read the same at a path. -/
def SameRead (d : Disk) (s : Session) (p : RelPath) : Prop :=
  d.tree.read (join s.root p) = s.tree.read (join s.root p)

omit [Platform] in
theorem SameRead.of_core {s' : Session} (h : SameRead d s p) (hc : s'.core = s.core) :
    SameRead d s' p := by
  have hr : s'.core.root = s.core.root := by rw [hc]
  have ht : s'.core.tree = s.core.tree := by rw [hc]
  simp only [core] at hr ht
  rw [SameRead, hr, ht]
  exact h

theorem SameRead.readVerified (h : SameRead d s p) (sig : ContentSig) :
    readVerified d.tree s.root p sig = readVerified s.tree s.root p sig := by
  rw [Tomo.readVerified, h, Tomo.readVerified]

theorem storeVersion_exec (state : EntryState) (version : VectorClock) (l : Bool)
    (bytes : Option Bytes) (s : Session) :
    (storeVersion p state version l bytes).exec s =
      match s.history.recordVersion p state version (s.attribution l).2 (s.attribution l).1 s.wallMs
        bytes with
      | .ok (history, id) => (.ok id, { s with history })
      | .error e => (.error (.history e), s) := by
  simp only [storeVersion, exec_get_bind]
  cases s.history.recordVersion p state version (s.attribution l).2 (s.attribution l).1 s.wallMs
    bytes <;> rfl

theorem storeVersion_commutes (d : Disk) (state : EntryState) (version : VectorClock) (l : Bool)
    (bytes : Option Bytes) (s : Session) :
    Commutes (on d) (storeVersion p state version l bytes) s := by
  rw [Commutes, storeVersion_exec, storeVersion_exec]
  have ha : (on d s).attribution l = s.attribution l := rfl
  have hh : (on d s).history = s.history := rfl
  have hw : (on d s).wallMs = s.wallMs := rfl
  rw [ha, hh, hw]
  cases s.history.recordVersion p state version (s.attribution l).2 (s.attribution l).1 s.wallMs
    bytes <;> rfl

theorem recordPresent_eq (sig : ContentSig) (version : VectorClock) (l : Bool) (s : Session) :
    (recordVersion p (.present sig) version l).exec s =
      (match readVerified s.tree s.root p sig with
        | some bytes => discard (storeVersion p (.present sig) version l (some bytes))
        | none => pure () : SessionM Unit).exec s := rfl

theorem recordVersion_commutes (h : SameRead d s p) (state : EntryState) (version : VectorClock)
    (l : Bool) : Commutes (on d) (recordVersion p state version l) s := by
  cases state with
  | present sig =>
    rw [Commutes, recordPresent_eq, recordPresent_eq]
    change (match readVerified d.tree s.root p sig with
      | some bytes => discard (storeVersion p (.present sig) version l (some bytes))
      | none => pure () : SessionM Unit).exec (on d s) = _
    rw [h.readVerified]
    cases readVerified s.tree s.root p sig with
    | none => rfl
    | some bytes => exact (storeVersion_commutes ..).map
  | tombstone => exact (storeVersion_commutes d .tombstone version l none s).map

theorem noteVersion_eq (state : EntryState) (version : VectorClock) (l : Bool) (nowMs : Nat)
    (s : Session) :
    (noteVersion p state version l nowMs).exec s =
      let n := s.pressure.note p ⟨state, version, l, match state with
        | .present sig => sig.size
        | .tombstone => 0⟩ nowMs
      (match n.2 with
        | .immediate => recordVersion p state version l
        | .deferred _ | .dropped => pure () : SessionM Unit).exec { s with pressure := n.1 } := rfl

theorem noteVersion_commutes (h : SameRead d s p) (state : EntryState) (version : VectorClock)
    (l : Bool) (nowMs : Nat) : Commutes (on d) (noteVersion p state version l nowMs) s := by
  have hp : (on d s).pressure = s.pressure := rfl
  rw [Commutes, noteVersion_eq, noteVersion_eq, hp]
  generalize s.pressure.note p _ nowMs = n
  obtain ⟨pressure, decision⟩ := n
  cases decision with
  | immediate =>
    have h' : SameRead d { s with pressure } p := h
    exact recordVersion_commutes h' state version l
  | deferred => rfl
  | dropped => rfl

theorem findOrRecord_eq (state : EntryState) (version : VectorClock) (captured : Captured)
    (l : Bool) (s : Session) :
    (findOrRecord p state version captured l).exec s =
      (match (s.history.log p).find? fun m => decide (m.clock = version) &&
          sameState m.state state with
        | some m => pure (some m.id)
        | none =>
          match state, captured with
          | .tombstone, _ => some <$> storeVersion p state version l none
          | .present _, .present bytes => some <$> storeVersion p state version l (some bytes)
          | .present _, _ => pure none : SessionM (Option Nat)).exec s := rfl

theorem findOrRecord_commutes (d : Disk) (state : EntryState) (version : VectorClock)
    (captured : Captured) (l : Bool) (s : Session) :
    Commutes (on d) (findOrRecord p state version captured l) s := by
  rw [Commutes, findOrRecord_eq, findOrRecord_eq]
  change (match (s.history.log p).find? _ with
    | some m => pure (some m.id)
    | none => _ : SessionM (Option Nat)).exec (on d s) = _
  split
  · rfl
  · split
    · exact (storeVersion_commutes ..).map
    · exact (storeVersion_commutes ..).map
    · rfl

theorem recordConflictCapture_commutes (d : Disk) (c : ConflictCapture) (s : Session) :
    Commutes (on d) (recordConflictCapture c) s := by
  refine (findOrRecord_commutes ..).bind fun loserId s' _ => ?_
  refine (findOrRecord_commutes ..).bind fun winnerId s' _ => ?_
  cases winnerId with
  | none => rfl
  | some w => cases loserId <;> rfl

theorem recordPresentIfAbsent_commutes (d : Disk) (sig : ContentSig) (clock : VectorClock)
    (bytes : Bytes) (l : Bool) (s : Session) :
    Commutes (on d) (recordPresentIfAbsent p sig clock bytes l) s := by
  have he (s' : Session) : (recordPresentIfAbsent p sig clock bytes l).exec s' =
      (if presentAt s'.history p clock = true then pure ()
        else discard (storeVersion p (.present sig) clock l (some bytes)) : SessionM Unit).exec s' :=
    rfl
  rw [Commutes, he, he]
  change (if presentAt s.history p clock = true then pure () else _ : SessionM Unit).exec (on d s) =
    _
  split
  · rfl
  · exact (storeVersion_commutes ..).map

theorem incomingBytes_eq (sig : ContentSig) (bytes : Option Bytes) (s : Session) :
    (incomingBytes sig bytes).exec s =
      (match bytes.filter fun b => matchesSig b sig with
        | some bytes => pure (some bytes)
        | none => liftHistory (s.history.contentByHash sig.hash) : SessionM (Option Bytes)).exec s :=
  rfl

theorem incomingBytes_commutes (d : Disk) (sig : ContentSig) (bytes : Option Bytes) (s : Session) :
    Commutes (on d) (incomingBytes sig bytes) s := by
  rw [Commutes, incomingBytes_eq, incomingBytes_eq]
  split
  · rfl
  · change (liftHistory (s.history.contentByHash sig.hash)).exec (on d s) = _
    cases s.history.contentByHash sig.hash <;> rfl

theorem preserveIncomingFile_commutes (d : Disk) (sig : ContentSig) (bytes : Option Bytes)
    (s : Session) : Commutes (on d) (preserveIncomingFile p sig bytes) s := by
  have hc : (on d s).headClockFor p sig = s.headClockFor p sig := rfl
  refine (incomingBytes_commutes d sig bytes s).bind fun o s' _ => ?_
  rw [hc]
  cases o with
  | none => rfl
  | some b =>
    cases s.headClockFor p sig with
    | none => rfl
    | some clock => exact recordPresentIfAbsent_commutes ..

theorem preserveCollidedIncoming_eq (sig : ContentSig) (version : VectorClock)
    (bytes : Option Bytes) (s : Session) :
    (preserveCollidedIncoming p sig version bytes).exec s =
      (if (s.history.log p).any (fun m => decide (m.clock = version) &&
          sameState m.state (.present sig)) = true then pure ()
        else do
          match ← incomingBytes sig bytes with
          | some bytes => discard (storeVersion p (.present sig) version false (some bytes))
          | none => pure () : SessionM Unit).exec s := rfl

theorem preserveCollidedIncoming_commutes (d : Disk) (sig : ContentSig) (version : VectorClock)
    (bytes : Option Bytes) (s : Session) :
    Commutes (on d) (preserveCollidedIncoming p sig version bytes) s := by
  have hh : (on d s).history = s.history := rfl
  rw [Commutes, preserveCollidedIncoming_eq, preserveCollidedIncoming_eq, hh]
  split
  · rfl
  · refine (incomingBytes_commutes d sig bytes s).bind fun o s' _ => ?_
    cases o with
    | none => rfl
    | some b => exact (storeVersion_commutes ..).map

theorem caseCollisionRefused_commutes (d : Disk) (change : RemoteChange) (bytes : Option Bytes)
    (s : Session) : Commutes (on d) (caseCollisionRefused change bytes) s := by
  obtain ⟨p, kind, version⟩ := change
  cases kind with
  | removed => rfl
  | modified sig =>
    have he (s' : Session) : (caseCollisionRefused ⟨p, .modified sig, version⟩ bytes).exec s' =
        (if s'.collidesWithExisting p = true then do
            preserveCollidedIncoming p sig version bytes
            pure true
          else pure false : SessionM Bool).exec s' := rfl
    have hc : (on d s).collidesWithExisting p = s.collidesWithExisting p := rfl
    rw [Commutes, he, he, hc]
    split
    · exact (preserveCollidedIncoming_commutes ..).bind fun _ s' _ => .pure ..
    · rfl

omit [Platform] in
theorem send_commutes (d : Disk) (hs : s.Healthy) (msg : Message) :
    Commutes (on d) (send msg) s := by
  have he (s' : Session) (hs : s'.Healthy) : (send msg).exec s' =
      (.ok ⟨⟩, if s'.transport.isSome then { s' with sent := s'.sent ++ [msg] } else s') := by
    simp only [send, ship, exec_get_bind]
    split
    next ht => simp only [ht, exec_pure, Option.isSome_none, Bool.false_eq_true, ↓reduceIte]
    next t ht =>
      simp only [hs t ht, ht, Option.isSome_some, ↓reduceIte, Bool.false_eq_true, exec_set]
  have hs' : (on d s).Healthy := hs
  have ht : (on d s).transport = s.transport := rfl
  rw [Commutes, he _ hs', he s hs, ht]
  split <;> rfl

theorem prepareSend_commutes (change : RemoteChange) (h : SameRead d s change.path) :
    Commutes (on d) (prepareSend change) s := by
  obtain ⟨p, kind, version⟩ := change
  have he (s' : Session) : (prepareSend ⟨p, kind, version⟩).exec s' =
      (if s'.transport.isNone ∨ s'.outboundSuspended ∨ !s'.allowCrossing p .outbound then pure none
        else match kind with
          | .removed => pure (some (.change ⟨p, .removed, version⟩ none))
          | .modified sig =>
            if shouldSend (s'.tree.read (join s'.root p)).toOption sig then
              if inlineThreshold ≤ ((s'.tree.read (join s'.root p)).toOption.getD []).length then
                some <$> buildManifest ⟨p, .modified sig, version⟩
                  ((s'.tree.read (join s'.root p)).toOption.getD [])
              else pure (some (.change ⟨p, .modified sig, version⟩
                (some ((s'.tree.read (join s'.root p)).toOption.getD []))))
            else pure none : SessionM (Option Message)).exec s' := by
    cases kind <;> rfl
  have ht : (on d s).transport = s.transport := rfl
  have hp : (on d s).outboundSuspended = s.outboundSuspended := rfl
  have hc : (on d s).allowCrossing p .outbound = s.allowCrossing p .outbound := rfl
  have hr : (on d s).tree.read (join (on d s).root p) = s.tree.read (join s.root p) := h
  rw [Commutes, he, he, ht, hp, hc, hr]
  split
  · rfl
  · cases kind with
    | removed => rfl
    | modified sig =>
      dsimp only
      split
      · split
        · rfl
        · rfl
      · rfl

theorem doSend_commutes (hs : s.Healthy) (change : RemoteChange) (h : SameRead d s change.path) :
    Commutes (on d) (doSend change) s := by
  refine (prepareSend_commutes change h).bind fun o s' he => ?_
  cases o with
  | none => rfl
  | some msg =>
    apply send_commutes
    apply hs.of_core
    have hc := (prepareSend_files change s).books.core
    rwa [he] at hc

theorem flushQueuedSend_eq (p : RelPath) (s : Session) :
    (flushQueuedSend p).exec s =
      (match s.pendingSends.find? fun c => decide (c.path = p) with
        | none => pure ()
        | some change => do
          set { s with pendingSends := s.pendingSends.eraseP fun c => decide (c.path = p) }
          doSend change : SessionM Unit).exec s := rfl

theorem flushQueuedSend_commutes (hs : s.Healthy) (h : SameRead d s p) :
    Commutes (on d) (flushQueuedSend p) s := by
  have hq : (on d s).pendingSends = s.pendingSends := rfl
  rw [Commutes, flushQueuedSend_eq, flushQueuedSend_eq, hq]
  cases hf : s.pendingSends.find? fun c => decide (c.path = p) with
  | none => rfl
  | some change =>
    have hp : change.path = p := by simpa only [decide_eq_true_eq] using List.find?_some hf
    subst hp
    have hs' : Healthy { s with
      pendingSends := s.pendingSends.eraseP fun c => decide (c.path = change.path) } := hs
    exact doSend_commutes hs' change h

theorem conflictCaptures_on (h : SameRead d s p) (bytes : Option Bytes) (v : Option VectorClock)
    (actions : List Action) (ha : ∀ a ∈ actions, a.path = p) :
    (on d s).conflictCaptures bytes v actions = s.conflictCaptures bytes v actions := by
  have hc (state : EntryState) :
      (on d s).captureConflictBytes p state bytes = s.captureConflictBytes p state bytes := by
    cases state with
    | tombstone => rfl
    | present sig =>
      change (match bytes.filter fun b => matchesSig b sig with
        | some bytes => Captured.present bytes
        | none =>
          match readVerified d.tree s.root p sig with
          | some bytes => .present bytes
          | none => .unobtainable) = _
      rw [h.readVerified]
      rfl
  apply List.filterMap_congr
  intro a hm
  have hp := ha a hm
  cases a with
  | send => rfl
  | apply => rfl
  | recordVersion => rfl
  | conflictResolved q w wv lo lv ad =>
    obtain rfl : q = p := hp
    simp only [hc]

theorem executeActions_commutes (hs : s.Healthy) (h : SameRead d s p) (bytes : Option Bytes)
    (v : Option VectorClock) (nowMs : Nat) (skip : List (RelPath × VectorClock))
    {actions : List Action} (ha : ∀ a ∈ actions, a.isPaper = true) (hp : ∀ a ∈ actions, a.path = p)
    (captures : List ConflictCapture) :
    Commutes (on d) (executeActions bytes v nowMs skip actions captures) s := by
  induction actions generalizing s captures with
  | nil => rfl
  | cons a rest ih =>
    have hrest (s' : Session) (hc : s'.core = s.core) (captures : List ConflictCapture) :=
      ih (hs.of_core hc) (h.of_core hc) (fun b hb => ha b (List.mem_cons_of_mem a hb))
        (fun b hb => hp b (List.mem_cons_of_mem a hb)) captures
    have hpa := hp a List.mem_cons_self
    cases a with
    | send change =>
      obtain rfl : change.path = p := hpa
      have hr : SameRead d s change.path := h
      refine (doSend_commutes hs change hr).bind fun _ s' he => hrest s' ?_ captures
      have hb := (doSend_files hs change).books.core
      rwa [he] at hb
    | apply q target => cases ha _ List.mem_cons_self
    | recordVersion q state version =>
      obtain rfl : q = p := hpa
      rw [executeActions]
      split
      · exact hrest s rfl captures
      · refine (noteVersion_commutes h ..).bind fun _ s' he => hrest s' ?_ captures
        have hb := (noteVersion_files q state version (!decide (v = some version)) nowMs s).books.core
        rwa [he] at hb
    | conflictResolved q w wv lo lv ad =>
      cases captures with
      | nil => exact hrest s rfl []
      | cons c captures =>
        refine (recordConflictCapture_commutes d c s).map.bind fun _ s' he => hrest s' ?_ captures
        have hb := (recordConflictCapture_books c s).discard.core
        exact (congrArg (fun r => r.2.core) he).symm.trans hb

theorem execute_commutes (hs : s.Healthy) (h : SameRead d s p) (bytes : Option Bytes)
    (v : Option VectorClock) {actions : List Action} (ha : ∀ a ∈ actions, a.isPaper = true)
    (hp : ∀ a ∈ actions, a.path = p) : Commutes (on d) (execute actions bytes v) s := by
  have he (s' : Session) : (execute actions bytes v).exec s' =
      (executeActions bytes v s'.nowMs ((s'.conflictCaptures bytes v actions).flatMap fun c =>
        [(c.path, c.winnerVersion), (c.path, c.loserVersion)]) actions
          (s'.conflictCaptures bytes v actions)).exec s' := by
    simp only [execute, exec_get_bind]
  have hn : (on d s).nowMs = s.nowMs := rfl
  rw [Commutes, he, he, hn, conflictCaptures_on h bytes v actions hp]
  exact executeActions_commutes hs h bytes v _ _ ha hp _

end

end Session

end Tomo
