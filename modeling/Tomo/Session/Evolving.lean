import Tomo.Session.EveryChange

namespace Tomo
set_option autoImplicit true

namespace Session
open Eff

/-- The engine is the same, and no version was forgotten. -/
structure Onward (s s' : Session) : Prop where
  engine : s'.engine = s.engine
  versions : s.history.versions <+: s'.history.versions

theorem Onward.of_eq {s s' : Session} (he : s'.engine = s.engine) (hh : s'.history = s.history) :
    Onward s s' := ⟨he, by rw [hh]⟩

theorem Onward.trans {s s' t : Session} (h : Onward s s') (h' : Onward s' t) : Onward s t :=
  ⟨h'.engine.trans h.engine, h.versions.trans h'.versions⟩

theorem goOffline_onward (s : Session) : Onward s s.goOffline := by
  rcases s.goOffline_only with h | ⟨f, h⟩ <;> rw [h]
  · exact .of_eq rfl rfl
  · exact .of_eq rfl rfl

theorem suspendTransfers_onward (s : Session) : Onward s s.suspendTransfers := by
  obtain ⟨f, hf⟩ := s.suspendTransfers_only
  rw [hf]
  exact .of_eq rfl rfl

theorem abandonSuperseded_onward (s : Session) (p : RelPath) :
    Onward s (s.abandonSuperseded p) := by
  obtain ⟨as, fs, h⟩ := s.abandonSuperseded_only p
  rw [h]
  exact .of_eq rfl rfl

theorem abandonTorn_onward (s : Session) (hash : ContentHash) (p : RelPath) :
    Onward s ((s.tornChunk hash).abandonAssembly p) := by
  obtain ⟨as, fs, h⟩ := (s.tornChunk hash).abandonAssembly_only p
  rw [h]
  exact .of_eq rfl rfl

theorem reconcile_onward (s : Session) (peer : Index) : Onward s (s.reconcile peer) := by
  have hfold (l : List RemoteChange) (u : Session) : Onward u (l.foldl enqueueBulkSend u) := by
    induction l generalizing u with
    | nil => exact .of_eq rfl rfl
    | cons c l ih =>
      refine Onward.trans ?_ (ih (u.enqueueBulkSend c))
      rw [enqueueBulkSend]
      split
      · exact .of_eq rfl rfl
      · exact .of_eq rfl rfl
  exact hfold _ s

/-- A computation tells the engine nothing, and forgets no version. -/
def Quiet (x : SessionM α) (s : Session) : Prop := Onward s (x.exec s).2

namespace Quiet
variable {s s' : Session} {x : SessionM α} {f : α → SessionM β}

theorem pure (a : α) (s : Session) : Quiet (pure a) s := .of_eq rfl rfl

theorem throw (e : CliError) (s : Session) : Quiet (throw e : SessionM α) s := .of_eq rfl rfl

theorem set (h : Onward s s') : Quiet (set s') s := h

theorem modify {f : Session → Session} (h : Onward s (f s)) : Quiet (modify f) s := h

theorem get {f : Session → SessionM β} (h : Quiet (f s) s) : Quiet (get >>= f) s := h

theorem bind (hx : Quiet x s) (hf : ∀ a s', Quiet (f a) s') : Quiet (x >>= f) s := by
  rw [Quiet, exec_bind]
  rw [Quiet] at hx
  rcases he : x.exec s with ⟨r, s'⟩
  rw [he] at hx
  cases r with
  | error e => exact hx
  | ok a => exact hx.trans (hf a s')

theorem map {f : α → β} (hx : Quiet x s) : Quiet (f <$> x) s := hx.bind fun _ s' => pure _ s'

theorem ite {c : Prop} [Decidable c] {y : SessionM α} (hx : Quiet x s) (hy : Quiet y s) :
    Quiet (if c then x else y) s := by
  split
  · exact hx
  · exact hy

end Quiet

theorem ship_quiet (msgs : List Message) (s : Session) : Quiet (ship msgs) s := by
  apply Quiet.get
  split
  · exact .pure _ s
  · split
    · exact .ite (.set (goOffline_onward s)) (.throw _ s)
    · exact .set (.of_eq rfl rfl)

theorem send_quiet (msg : Message) (s : Session) : Quiet (send msg) s := ship_quiet [msg] s

theorem flushInstalls_quiet (s : Session) : Quiet flushInstalls s := by
  apply Quiet.get
  split
  · exact Quiet.bind (.set (.of_eq rfl rfl)) fun _ s' => .throw _ s'
  · exact .set (.of_eq rfl rfl)

theorem flushPendingInstallFor_quiet (p : RelPath) (s : Session) :
    Quiet (flushPendingInstallFor p) s := .get <| .ite (flushInstalls_quiet s) (.pure _ s)

theorem resyncIndices_quiet (s : Session) : Quiet resyncIndices s :=
  .get <| .ite (send_quiet _ s) (.pure _ s)

theorem reconcilePauseState_quiet (s : Session) : Quiet reconcilePauseState s := by
  refine .get <| .ite (.pure _ s) (Quiet.bind (.set (.of_eq rfl rfl)) fun _ s' => .ite ?_ ?_)
  · exact Quiet.bind (.modify (suspendTransfers_onward s')) fun _ s' => send_quiet _ s'
  · exact (send_quiet _ s').bind fun _ s' => resyncIndices_quiet s'

theorem onHello_quiet (protocol : Nat) (version : List Char) (replica : ReplicaId) (s : Session) :
    Quiet (onHello protocol version replica) s := by
  refine .get <| .ite (.throw _ s) (.ite (.ite (.set (.of_eq rfl rfl)) (.throw _ s)) ?_)
  refine Quiet.bind (.set (.of_eq rfl rfl)) fun _ s' => (send_quiet _ s').bind fun _ s' => ?_
  exact .get <| .ite (send_quiet _ s') (.pure _ s')

theorem onPeerPause_quiet (s : Session) : Quiet onPeerPause s := by
  refine .modify ?_
  split
  · exact .of_eq rfl rfl
  · have h : Onward s { s with peerPaused := true } := .of_eq rfl rfl
    exact h.trans (suspendTransfers_onward _)

theorem onConnected_quiet (s : Session) : Quiet onConnected s :=
  Quiet.bind (.modify (.of_eq rfl rfl)) fun _ s' => .get <| send_quiet _ s'

theorem maybeRetryStall_quiet (s : Session) : Quiet maybeRetryStall s :=
  .get <| .ite (.pure _ s) (Quiet.bind (.set (.of_eq rfl rfl)) fun _ s' => send_quiet _ s')

section
variable [Platform] {s s' t : Session} {p : RelPath} {x : SessionM α}

omit [Platform] in
/-- What works on the records and files nothing but rows at the end is quiet. -/
theorem Works.quiet (hw : Works x s)
    (hf : Upholds (Filed (fun _ => True) s.history.versions s.history.conflicts) x s) :
    Quiet x s := by
  constructor
  · have he : (x.exec s).2.frame.engine = s.frame.engine := by rw [hw.leaves]
    exact he
  · have hs : Filed (fun _ => True) s.history.versions s.history.conflicts s :=
      ⟨⟨⟨[], by simp⟩, [], by simp⟩, fun _ _ => trivial⟩
    obtain ⟨l, hl, _⟩ := (hf.after hs).rows.versions
    exact ⟨l, hl.symm⟩

theorem noteVersion_quiet (state : EntryState) (version : VectorClock) (l : Bool) (nowMs : Nat)
    (s : Session) : Quiet (noteVersion p state version l nowMs) s :=
  (noteVersion_files ..).books.works.quiet (filed_kept.note trivial ..)

theorem recordConflictCapture_quiet (c : ConflictCapture) (s : Session) :
    Quiet (recordConflictCapture c) s :=
  (recordConflictCapture_books c s).works.quiet (filed_kept.conflict trivial s)

theorem prepareSend_quiet (change : RemoteChange) (s : Session) : Quiet (prepareSend change) s := by
  refine .get <| .ite (.pure _ s) ?_
  split
  · exact .pure _ s
  · refine .ite (.ite ?_ (.pure _ s)) (.pure _ s)
    exact (Quiet.bind (.modify (.of_eq rfl rfl)) fun _ s' => .pure _ s').map

theorem doSend_quiet (change : RemoteChange) (s : Session) : Quiet (doSend change) s := by
  refine (prepareSend_quiet change s).bind fun m s' => ?_
  cases m with
  | some msg => exact send_quiet msg s'
  | none => exact .pure _ s'

theorem flushQueuedSend_quiet (p : RelPath) (s : Session) : Quiet (flushQueuedSend p) s := by
  apply Quiet.get
  split
  · exact .pure _ s
  · exact Quiet.bind (.set (.of_eq rfl rfl)) fun _ s' => doSend_quiet _ s'

theorem shipBulkSubbatch_quiet (s : Session) : Quiet shipBulkSubbatch s := by
  have hgather (n : Nat) (batch : List Message) (s : Session) : Quiet (gatherBulk n batch) s := by
    induction n generalizing batch s with
    | zero => exact .pure _ s
    | succ n ih =>
      refine .get <| .ite (.pure _ s) ?_
      split
      · exact Quiet.bind (.set (.of_eq rfl rfl)) fun _ s' => ih _ s'
      · refine Quiet.bind (.set (.of_eq rfl rfl)) fun _ s' =>
          (prepareSend_quiet _ s').bind fun m s' => ?_
        cases m with
        | some msg => exact ih _ s'
        | none => exact ih _ s'
      · exact .pure _ s
  exact .get <| (hgather _ _ s).bind fun batch s' => .ite (.pure _ s') (ship_quiet batch s')

omit [Platform] in
theorem requestNextBatch_quiet (p : RelPath) (s : Session) : Quiet (requestNextBatch p) s := by
  apply Quiet.get
  split
  · exact .pure _ s
  · exact .ite (.pure _ s) (Quiet.bind (.set (.of_eq rfl rfl)) fun _ s' => send_quiet _ s')

theorem onChunkRequest_quiet (hashes : List ContentHash) (s : Session) :
    Quiet (onChunkRequest hashes) s := .get <| .set (.of_eq rfl rfl)

theorem caseCollisionRefused_quiet (c : RemoteChange) (bytes : Option Bytes) (s : Session) :
    Quiet (caseCollisionRefused c bytes) s := by
  have hk : Upholds (Steady s.config (fun _ => True)
      (Filed (fun _ => True) s.history.versions s.history.conflicts))
      (caseCollisionRefused c bytes) s := filed_kept.caseCollisionRefused (fun _ _ => trivial) bytes s
  refine (caseCollisionRefused_books c bytes s).works.quiet ⟨fun h => (hk.after ⟨h, rfl, ?_⟩).holds⟩
  exact fun _ _ _ _ _ => trivial

/-- Paperwork is quiet. -/
theorem executeActions_quiet (bytes : Option Bytes) (v : Option VectorClock) (nowMs : Nat)
    (cv : List (RelPath × VectorClock)) {actions : List Action}
    (hpaper : ∀ a ∈ actions, a.isPaper = true) (captures : List ConflictCapture) (s : Session) :
    Quiet (executeActions bytes v nowMs cv actions captures) s := by
  induction actions generalizing captures s with
  | nil => exact .pure _ s
  | cons a rest ih =>
    have hrest (captures : List ConflictCapture) (s : Session) :=
      ih (fun b hb => hpaper b (List.mem_cons_of_mem a hb)) captures s
    cases a with
    | send change => exact (doSend_quiet change s).bind fun _ s' => hrest captures s'
    | apply path target => cases hpaper _ List.mem_cons_self
    | recordVersion path state version =>
      exact .ite (hrest captures s)
        ((noteVersion_quiet state version _ nowMs s).bind fun _ s' => hrest captures s')
    | conflictResolved path winner wv loser lv adopted =>
      cases captures with
      | nil => exact hrest [] s
      | cons c captures =>
        exact (recordConflictCapture_quiet c s).map.bind fun _ s' => hrest captures s'

theorem doApply_quiet (p : RelPath) (target : Expectation) (bytes : Option Bytes) (s : Session) :
    Quiet (doApply p target bytes) s :=
  (doApply_works p bytes target s).quiet (doApply_filed (fun _ _ => trivial) target bytes s)

theorem pumpHistory_quiet (s : Session) : Quiet pumpHistory s :=
  (pumpHistory_books s).works.quiet (filed_kept.pump s)

theorem drainHistory_quiet (s : Session) : Quiet drainHistory s :=
  (drainHistory_books s).works.quiet (filed_kept.drain s)

theorem reconcileHistoryCompleteness_quiet (s : Session) :
    Quiet reconcileHistoryCompleteness s := by
  refine Quiet.bind (.modify (.of_eq rfl rfl)) fun _ s' => .get ?_
  have hforM (l : List (RelPath × EntryState × VectorClock × Bool)) (nowMs : Nat) (s : Session) :
      Quiet (l.forM fun e => noteVersion e.1 e.2.1 e.2.2.1 e.2.2.2 nowMs) s := by
    induction l generalizing s with
    | nil => exact .pure _ s
    | cons e l ih => exact (noteVersion_quiet ..).bind fun _ s' => ih s'
  exact hforM _ _ s'

/-- An invariant of engine and history that local changes keep, and every version that is filed. -/
structure Heeds (J : Session → Prop) : Prop where
  onward : ∀ {s s' : Session}, J s → Onward s s' → J s'
  observe : ∀ {s : Session} (c : LocalChange), J s →
    J { s with engine := (s.engine.handleLocal c).1 }

variable {J : Session → Prop}

namespace Heeds

omit [Platform] in
theorem quiet (hj : Heeds J) (hx : Quiet x s) : Secures J x s := by
  intro a s' he h
  rw [Quiet, he] at hx
  exact hj.onward h hx

omit [Platform] in
/-- A local change is heard, then whatever follows from it is filed and sent. -/
theorem tells (hj : Heeds J) (c : LocalChange) {f : List Action → SessionM β}
    (hf : ∀ u, Quiet (f (s.engine.handleLocal c).2) u) :
    Secures J (handleEvent (.local c) >>= f) s := by
  refine Secures.bind (fun a s' h hs => ?_) fun a s' h => ?_
  · cases h
    exact hj.observe c hs
  · cases h
    exact hj.quiet (hf _)

theorem executes (e : Engine) (c : LocalChange) (u : Session) :
    Quiet (execute (e.handleLocal c).2 none none) u :=
  .get <| executeActions_quiet _ _ _ _ (fun a ha => (e.handleLocal_paper c a ha).1) _ u

theorem absorbLocal (hj : Heeds J) (c : LocalChange) (s : Session) :
    Secures J (absorbLocal c) s := by
  refine hj.tells c fun u => .ite (executes s.engine c u) ?_
  exact Quiet.bind (.modify (.of_eq rfl rfl)) fun _ s' => executes s.engine c s'

theorem reconcileUnobservedLocal (hj : Heeds J) (p : RelPath) (s : Session) :
    Secures J (reconcileUnobservedLocal p) s := by
  apply Secures.get
  split
  · exact .throw _ s
  · refine .ite (hj.tells _ fun u => ?_) (.pure _ s)
    exact Quiet.bind (.modify (.of_eq rfl rfl)) fun _ s' => executes s.engine _ s'

theorem arriveChange (hj : Heeds J) (c : RemoteChange) (bytes : Option Bytes) (s : Session) :
    Secures J (arriveChange c bytes) s := by
  refine .get <| .ite ?_ (.pure _ s)
  refine (hj.quiet (caseCollisionRefused_quiet c bytes s)).bind fun r s' _ => ?_
  refine .ite (.pure _ s') ?_
  refine (hj.quiet (flushQueuedSend_quiet c.path s')).bind fun _ s' _ => ?_
  refine (hj.quiet (flushPendingInstallFor_quiet c.path s')).bind fun _ s' _ => ?_
  refine (hj.quiet (.modify (abandonSuperseded_onward s' c.path))).bind fun _ s' _ => ?_
  exact (hj.reconcileUnobservedLocal c.path s').bind fun _ s' _ => .pure _ s'

theorem arriveAssembled (hj : Heeds J) (q : RelPath) (s : Session) :
    Secures J (arriveAssembled q) s := by
  apply Secures.get
  split
  · exact .pure _ s
  next a _ =>
    have herase : Onward s ({ s with
        assemblies := s.assemblies.erase q }.cleanAssemblyChunks a) := .of_eq rfl rfl
    refine Secures.bind (.set fun h => hj.onward h herase) fun _ s' _ => ?_
    split
    · exact (hj.quiet (.modify (.of_eq rfl rfl))).bind fun _ s' _ => .pure _ s'
    · refine (hj.quiet (flushPendingInstallFor_quiet _ s')).bind fun _ s' _ => ?_
      refine (hj.quiet (caseCollisionRefused_quiet _ _ s')).bind fun r s' _ => ?_
      refine .ite (.pure _ s') ?_
      exact (hj.reconcileUnobservedLocal _ s').bind fun _ s' _ => .pure _ s'

theorem arriveAdvanced (hj : Heeds J) (q : RelPath) (s : Session) :
    Secures J (arriveAdvanced q) s := by
  have hnext (s' : Session) : Secures J (do
      requestNextBatch q
      pure none : SessionM Arrived) s' :=
    (hj.quiet (requestNextBatch_quiet q s')).bind fun _ s' _ => .pure none s'
  apply Secures.get
  split
  · exact .ite (hj.arriveAssembled q s) (hnext s)
  · exact hnext s

theorem arriveManifest (hj : Heeds J) (c : RemoteChange) (total : Nat)
    (manifest : List ContentHash) (s : Session) :
    Secures J (arriveManifest c total manifest) s := by
  refine .get <| .ite ?_ (.pure _ s)
  refine (hj.quiet (flushQueuedSend_quiet c.path s)).bind fun _ s' _ => ?_
  split
  · exact .pure _ s'
  · refine (hj.quiet (.modify (abandonSuperseded_onward s' c.path))).bind fun _ s' _ => ?_
    exact (hj.quiet (.modify (.of_eq rfl rfl))).bind fun _ s' _ => hj.arriveAdvanced c.path s'

theorem arriveChunk (hj : Heeds J) (order : List (RelPath × Assembly)) (hash : ContentHash)
    (bytes : Bytes) (s : Session) : Secures J (arriveChunk order hash bytes) s := by
  apply Secures.get
  split
  · exact .pure _ s
  next q a _ =>
    refine .ite ?_ (.ite ?_ ?_)
    · refine Secures.bind (.set fun h => hj.onward h (.of_eq rfl rfl)) fun _ s' _ => ?_
      exact (hj.quiet (requestNextBatch_quiet q s')).bind fun _ s' _ => .pure none s'
    · refine (hj.quiet (.set (abandonTorn_onward s hash q))).bind fun _ s' _ => ?_
      exact (hj.quiet (.modify (.of_eq rfl rfl))).bind fun _ s' _ => .pure none s'
    · exact Secures.bind (.set fun h => hj.onward h (.of_eq rfl rfl)) fun _ s' _ =>
        hj.arriveAdvanced q s'

theorem onWatch (hj : Heeds J) (signal : WatchSignal) (s : Session) :
    Secures J (onWatch signal) s := by
  cases signal with
  | needsRescan => exact hj.quiet (.modify (.of_eq rfl rfl))
  | pending rel kind =>
    refine (hj.quiet (flushPendingInstallFor_quiet rel s)).bind fun _ s' _ => .get ?_
    split
    · exact .set fun h => hj.onward h (.of_eq rfl rfl)
    · exact hj.absorbLocal _ s'

theorem rescan (hj : Heeds J) (s : Session) : Secures J rescan s := by
  apply Secures.get
  split
  · exact .throw _ s
  · exact .forM (fun c s' => hj.absorbLocal c s') _ s

theorem startupScan (hj : Heeds J) (s : Session) : Secures J startupScan s := by
  apply Secures.get
  split
  · exact .throw _ s
  · exact .forM (fun c s' => hj.tells c fun u => executes s'.engine c u) _ s

theorem maybeRescan (hj : Heeds J) (s : Session) : Secures J maybeRescan s := by
  refine .get <| .ite (.pure _ s) (Secures.bind (.set fun h => ?_) fun _ s' _ => hj.rescan s')
  exact hj.onward h (.of_eq rfl rfl)

end Heeds

/-- A frame that comes while the session is paused, or brings no change. -/
theorem onAside_quiet {msg : Message} (hm : msg.bringsChange = true → s.paused = true) :
    Quiet (onMessage msg) s := by
  refine .get ?_
  split
  · exact .pure _ s
  next hpause =>
    have hn : msg.bringsChange = true → isContentFrame msg = false := by
      intro hb
      rwa [hm hb, Bool.true_and, Bool.not_eq_true] at hpause
    cases msg with
    | hello protocol version replica => exact onHello_quiet protocol version replica s
    | indexExchange peer => exact .modify (reconcile_onward s peer)
    | chunkRequest hashes => exact onChunkRequest_quiet hashes s
    | ping nonce => exact send_quiet _ s
    | pong nonce => exact .pure _ s
    | pause => exact onPeerPause_quiet s
    | resume =>
      exact Quiet.bind (.modify (.of_eq rfl rfl)) fun _ s' => resyncIndices_quiet s'
    | change c bytes => cases hn rfl
    | changeManifest c total manifest => cases hn rfl
    | chunkData hash bytes => cases hn rfl

theorem Heeds.arrive (hj : Heeds J) (msg : Message) (s : Session) : Secures J (arrive msg) s := by
  have haside (hm : msg.bringsChange = true → s.paused = true) : Secures J (do
      onMessage msg
      pure none : SessionM Arrived) s :=
    (hj.quiet (onAside_quiet hm)).bind fun _ s' _ => .pure none s'
  apply Secures.get
  cases hp : s.paused with
  | true => exact haside fun _ => hp
  | false =>
    cases msg with
    | change c bytes => exact hj.arriveChange c bytes s
    | changeManifest c total manifest => exact hj.arriveManifest c total manifest s
    | chunkData hash bytes => exact hj.arriveChunk _ hash bytes s
    | hello | indexExchange | chunkRequest | ping | pong | pause | resume =>
      exact haside fun h => by cases h

omit [Platform] in
theorem reached_onward (a : Arrival) (s : Session) : Onward s (s.reached a) := by
  rw [reached]
  split
  · exact .of_eq rfl rfl
  · exact .of_eq rfl rfl

/-- An item keeps what the absorption of its change keeps, if it brings one. -/
theorem Heeds.item (hj : Heeds J) (a : Arrival) (s : Session)
    (habs : ∀ msg c bytes t, a.item = .message msg →
      (Session.arrive msg).exec (s.receiving a msg) = (.ok (some (c, bytes)), t) →
      Secures J (absorbAndExecute c bytes) t) :
    Secures J (processIncoming a.item) (s.reached a) := by
  cases hi : a.item with
  | watch signal =>
    refine Secures.bind (hj.quiet (.modify (.of_eq rfl rfl))) fun _ s' _ => ?_
    exact (hj.onWatch signal s').map
  | message msg =>
    refine Secures.bind (hj.quiet (.modify (.of_eq rfl rfl))) fun _ s' hs' => ?_
    refine Secures.map fun r t' hx hs => ?_
    cases hs'
    rw [onMessage_arrives] at hx
    obtain ⟨r, t, harr, hx⟩ := ok_of_bind hx
    have ht := hj.arrive msg _ r t harr hs
    cases r with
    | none =>
      cases hx
      exact ht
    | some e => exact habs msg e.1 e.2 t hi harr _ _ hx ht
  | peerEof =>
    refine .get <| .ite (Secures.bind (.set fun h => ?_) fun _ s' _ => .pure _ s') (.pure _ _)
    exact hj.onward h (goOffline_onward _)
  | protoError =>
    refine .get <| .ite (Secures.bind (.set fun h => ?_) fun _ s' _ => .pure _ s') (.throw _ _)
    exact hj.onward h (goOffline_onward _)
  | shutdown => exact .pure _ _
  | pause | resume => exact (hj.quiet (reconcilePauseState_quiet _)).map

/-- A burst that goes through keeps what the absorption of each of its changes keeps. -/
theorem Heeds.burst (hj : Heeds J) {batch : List Arrival}
    (habs : ∀ c bytes t, s.Absorbs batch c bytes t → Secures J (absorbAndExecute c bytes) t)
    (hok : ((processBurst batch).exec s).1 = .ok leave) (h : J s) : J (s.after (.burst batch)) := by
  have hitems (post pre : List Arrival) (u v : Session) (leave : Bool)
      (hsplit : coalesceBurst batch = pre ++ post)
      (hpre : (processItems pre).exec s = (.ok false, u)) (hu : J u)
      (hv : (processItems post).exec u = (.ok leave, v)) : J v := by
    induction post generalizing pre u with
    | nil =>
      cases hv
      exact hu
    | cons a post ih =>
      have hone : Secures J (processItems [a]) u := by
        intro r w hw _
        rw [processItems_cons] at hw
        obtain ⟨r', u', hitem, hw⟩ := ok_of_bind hw
        have hu' : J u' := by
          refine hj.item a u (fun msg c bytes t hi harr => ?_) r' u' hitem
            (hj.onward hu (reached_onward a u))
          exact habs c bytes t ⟨pre, a, post, msg, u, hsplit, hi, hpre, harr⟩
        cases r' with
        | true =>
          cases hw
          exact hu'
        | false =>
          have hgo : Secures J (goOn a []) u' := by
            refine .get <| .ite (.pure _ u') (.ite ?_ (.pure _ u'))
            exact (hj.quiet (flushInstalls_quiet u')).bind fun _ s' _ => .pure _ s'
          exact hgo r w hw hu'
      have happ := processItems_append [a] post u
      rw [List.singleton_append, hv] at happ
      obtain ⟨r, w, hw, hrest⟩ := ok_of_bind happ.symm
      have hjw : J w := hone r w hw hu
      cases r with
      | true =>
        cases hrest
        exact hjw
      | false =>
        refine ih (pre ++ [a]) w (by rw [hsplit, List.append_assoc, List.singleton_append]) ?_ hjw
          hrest
        rw [processItems_append, exec_bind_ok hpre]
        exact hw
  obtain ⟨u, hu, hflush⟩ := processBurst_ok hok
  have hju : J u := hitems (coalesceBurst batch) [] s u leave rfl rfl h hu
  exact hj.quiet (flushInstalls_quiet u) _ _ hflush hju

/-- A pass that goes through keeps what the absorption of each of its changes keeps. -/
theorem Heeds.after (hj : Heeds J) (pass : Pass)
    (habs : ∀ batch, pass = .burst batch → ∀ c bytes t, s.Absorbs batch c bytes t →
      Secures J (absorbAndExecute c bytes) t)
    (hok : ((work pass).exec s).1 = .ok ⟨⟩) (h : J s) : J (s.after pass) := by
  have hexec : (work pass).exec s = (.ok ⟨⟩, s.after pass) := Prod.ext hok rfl
  have hquiet (hx : Quiet (work pass) s) : J (s.after pass) := hj.quiet hx _ _ hexec h
  cases pass with
  | startupScan => exact hj.startupScan s _ _ hexec h
  | completeHistory => exact hquiet (reconcileHistoryCompleteness_quiet s)
  | connect => exact hquiet (onConnected_quiet s)
  | burst batch =>
    obtain ⟨leave, hburst⟩ := ok_of_map hexec
    exact hj.burst (habs batch rfl) (congrArg Prod.fst hburst) h
  | shipBulk => exact hquiet (shipBulkSubbatch_quiet s)
  | rescan => exact hj.maybeRescan s _ _ hexec h
  | pumpHistory => exact hquiet (pumpHistory_quiet s)
  | retryStall => exact hquiet (maybeRetryStall_quiet s)
  | drainHistory => exact hquiet (drainHistory_quiet s)
  | around w => exact hquiet (.modify (.of_eq rfl rfl))

end

end Session

end Tomo
