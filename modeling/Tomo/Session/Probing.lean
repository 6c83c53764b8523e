import Tomo.Session.Arriving
import Tomo.Session.Delivery

namespace Tomo
set_option autoImplicit true

namespace Session
open Eff

/-- Giving up transfers drops what is staged, what is assembled and what is queued. -/
theorem suspendTransfers_only (s : Session) : ∃ f, s.suspendTransfers = { s with
    assemblies := ∅
    chunkFiles := f
    pendingChunks := []
    pendingSends := []
    outboundManifests := ∅
    pendingInstalls := []
    createdDirs := []
    pendingRelease := 0 } := by
  have hfold (l : List (RelPath × Assembly)) (u : Session) :
      ∃ f, l.foldl (fun s e => s.cleanAssemblyChunks e.2) u = { u with chunkFiles := f } := by
    induction l generalizing u with
    | nil => exact ⟨u.chunkFiles, rfl⟩
    | cons e l ih =>
      obtain ⟨f, hf⟩ := ih (u.cleanAssemblyChunks e.2)
      exact ⟨f, by rw [List.foldl_cons, hf]; rfl⟩
  obtain ⟨f, hf⟩ := hfold s.assemblies.toList { s with assemblies := ∅ }
  refine ⟨f, ?_⟩
  rw [Session.suspendTransfers, abandonAllAssemblies, hf]
  rfl

section
variable [Platform] {s s' : Session} {p : RelPath}

/-- A part of the session that the records and the link have no hand in. -/
structure Beside (g : Session → γ) : Prop where
  core : ∀ {s s' : Session}, s'.core = s.core → g s' = g s
  offline : ∀ s : Session, g s.goOffline = g s

omit [Platform] in
theorem goOffline_only (s : Session) : s.goOffline = s ∨ ∃ f, s.goOffline = { s with
    transport := none
    connected := false
    helloReceived := false
    assemblies := ∅
    chunkFiles := f
    pendingChunks := []
    pendingSends := []
    outboundManifests := ∅
    pendingInstalls := []
    createdDirs := []
    pendingRelease := 0 } := by
  rw [goOffline]
  split
  · exact .inl rfl
  · obtain ⟨f, hf⟩ := suspendTransfers_only
      { s with transport := none, connected := false, helloReceived := false }
    exact .inr ⟨f, hf⟩

namespace Beside
variable {g : Session → γ}

omit [Platform] in
theorem ship (hg : Beside g) (msgs : List Message) (s : Session) : Leaves g (ship msgs) s := by
  apply Leaves.get
  split
  · exact .pure _ _ s
  · split
    · exact .ite (.set (hg.offline s)) (.throw _ _ s)
    · exact .set (hg.core rfl)

theorem doSend (hg : Beside g) (change : RemoteChange) (s : Session) :
    Leaves g (doSend change) s := by
  have hp : Leaves g (prepareSend change) s := hg.core (prepareSend_files change s).books.core
  refine hp.bind fun m s' _ => ?_
  cases m with
  | some msg => exact hg.ship [msg] s'
  | none => exact .pure _ _ s'

/-- Paperwork leaves it alone. -/
theorem executeActions (hg : Beside g) (bytes : Option Bytes) (v : Option VectorClock)
    (nowMs : Nat) (cv : List (RelPath × VectorClock)) {actions : List Action}
    (hpaper : ∀ a ∈ actions, a.isPaper = true) (captures : List ConflictCapture) (s : Session) :
    Leaves g (executeActions bytes v nowMs cv actions captures) s := by
  induction actions generalizing captures s with
  | nil => exact .pure _ _ s
  | cons a rest ih =>
    have hrest (captures : List ConflictCapture) (s : Session) :=
      ih (fun b hb => hpaper b (List.mem_cons_of_mem a hb)) captures s
    cases a with
    | send change => exact (hg.doSend change s).bind fun _ s' _ => hrest captures s'
    | apply path target => cases hpaper _ List.mem_cons_self
    | recordVersion path state version =>
      have hn (l : Bool) : Leaves g (noteVersion path state version l nowMs) s :=
        hg.core (noteVersion_files ..).books.core
      exact .ite (hrest captures s) ((hn _).bind fun _ s' _ => hrest captures s')
    | conflictResolved path winner wv loser lv adopted =>
      cases captures with
      | nil => exact hrest [] s
      | cons c captures =>
        have hc : Leaves g (recordConflictCapture c) s :=
          hg.core (recordConflictCapture_books c s).core
        exact hc.map.bind fun _ s' _ => hrest captures s'

end Beside

/-- The disk as a probe sees it. -/
def ground (s : Session) : Tree × List Name := (s.tree, s.root)

omit [Platform] in
theorem ground_beside : Beside ground where
  core {s s'} h := by
    have ht : s'.core.tree = s.core.tree := by rw [h]
    have hr : s'.core.root = s.core.root := by rw [h]
    exact Prod.ext ht hr
  offline s := by
    rcases s.goOffline_only with h | ⟨f, h⟩ <;> rw [h]
    rfl

omit [Platform] in
theorem engine_beside : Beside engine where
  core {s s'} h := by
    have he : s'.core.engine = s.core.engine := by rw [h]
    exact he
  offline s := by
    rcases s.goOffline_only with h | ⟨f, h⟩ <;> rw [h]

omit [Platform] in
/-- What the engine asks for after a local change is paperwork about its path. -/
theorem handleEvent_local {c : LocalChange}
    (hx : (Session.handleEvent (.local c)).exec s = (.ok actions, s')) :
    ∀ a ∈ actions, a.isPaper = true ∧ a.path = c.path := by
  have he : actions = (s.engine.handle (.local c)).2 := by
    simp only [Session.handleEvent, exec_get_bind, exec_set_bind, exec_pure] at hx
    cases hx
    rfl
  rw [he]
  exact Engine.handleLocal_paper s.engine c

/-- The probe of a path finds the same after a reconciliation as before it. -/
theorem reconcileUnobservedLocal_probed
    (hx : (reconcileUnobservedLocal p).exec s = (.ok a, s')) :
    ∃ o, snapshot s'.tree s'.root p = .ok o := by
  cases hd : s.diskExpectation p with
  | error e =>
    rw [reconcile_error hd] at hx
    cases hx
  | ok disk =>
    rw [reconcile_exec hd] at hx
    have hl : Leaves ground (s.fileObserved p disk) (s.observed p disk) := by
      apply Leaves.ite
      · refine Leaves.bind (.modify rfl) fun _ u _ => .get ?_
        exact ground_beside.executeActions _ _ _ _
          (fun a ha => (Engine.handleLocal_paper s.engine _ a ha).1) _ u
      · exact .pure _ _ _
    have hg : s'.ground = s.ground := by
      rw [Leaves, hx] at hl
      refine hl.trans ?_
      rw [observed]
      split <;> rfl
    have ht : s'.tree = s.tree := congrArg Prod.fst hg
    have hr : s'.root = s.root := congrArg Prod.snd hg
    rw [ht, hr]
    rw [diskExpectation] at hd
    split at hd
    next sig h => exact ⟨_, h⟩
    next h => exact ⟨_, h⟩
    next => cases hd

/-- What a computation yields to be absorbed has been probed on disk. -/
def Probes (x : SessionM Arrived) (s : Session) : Prop :=
  ∀ e s', x.exec s = (.ok (some e), s') → ∃ o, snapshot s'.tree s'.root e.1.path = .ok o

namespace Probes
variable {x : SessionM α} {f : α → SessionM Arrived}

theorem none (s : Session) : Probes (pure .none) s := fun _ _ h => by cases h

theorem get {f : Session → SessionM Arrived} (h : Probes (f s) s) : Probes (get >>= f) s := h

theorem bind (hf : ∀ a s', Probes (f a) s') : Probes (x >>= f) s := by
  intro e s' h
  obtain ⟨a, u, _, hu⟩ := ok_of_bind h
  exact hf a u e s' hu

theorem ite {c : Prop} [Decidable c] {x y : SessionM Arrived} (hx : Probes x s)
    (hy : Probes y s) : Probes (if c then x else y) s := by
  split
  · exact hx
  · exact hy

theorem reconciled (c : RemoteChange) (bytes : Option Bytes) (s : Session) :
    Probes (do
      reconcileUnobservedLocal c.path
      pure (some (c, bytes))) s := by
  intro e s' h
  obtain ⟨a, u, hu, hx⟩ := ok_of_bind h
  cases hx
  exact reconcileUnobservedLocal_probed hu

end Probes

theorem arriveChange_probes (c : RemoteChange) (bytes : Option Bytes) (s : Session) :
    Probes (arriveChange c bytes) s := by
  refine .get <| .ite (.bind fun r s' => ?_) (.none s)
  refine .ite (.none s') ?_
  exact .bind fun _ _ => .bind fun _ _ => .bind fun _ _ => .reconciled c bytes _

theorem arriveAssembled_probes (q : RelPath) (s : Session) : Probes (arriveAssembled q) s := by
  apply Probes.get
  split
  · exact .none s
  · refine .bind fun _ s' => ?_
    split
    · exact .bind fun _ s' => .none s'
    · refine .bind fun _ s' => .bind fun r s' => ?_
      exact .ite (.none s') (.reconciled _ _ s')

theorem arriveAdvanced_probes (q : RelPath) (s : Session) : Probes (arriveAdvanced q) s := by
  apply Probes.get
  split
  · exact .ite (arriveAssembled_probes q s) (.bind fun _ s' => .none s')
  · exact .bind fun _ s' => .none s'

/-- A change is probed on disk right before it is absorbed. -/
theorem arrive_probes (msg : Message) (s : Session) : Probes (arrive msg) s := by
  apply Probes.get
  cases s.paused with
  | true => exact .bind fun _ s' => .none s'
  | false =>
    cases msg with
    | change c bytes => exact arriveChange_probes c bytes s
    | changeManifest c total manifest =>
      refine .get <| .ite (.bind fun _ s' => ?_) (.none s)
      split
      · exact .none s'
      · exact .bind fun _ _ => .bind fun _ s' => arriveAdvanced_probes c.path s'
    | chunkData hash bytes =>
      apply Probes.get
      split
      · exact .none s
      · refine .ite ?_ (.ite ?_ ?_)
        · exact .bind fun _ _ => .bind fun _ s' => .none s'
        · exact .bind fun _ _ => .bind fun _ s' => .none s'
        · exact .bind fun _ s' => arriveAdvanced_probes _ s'
    | hello | indexExchange | chunkRequest | ping | pong | pause | resume =>
      exact .bind fun _ s' => .none s'

end

end Session

end Tomo
