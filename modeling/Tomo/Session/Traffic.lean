import Tomo.Session.Superseding

namespace Tomo
set_option autoImplicit true

/-- What a session has sent, and the transfers it has under way. -/
structure Traffic where
  sent : List Message
  assemblies : Std.ExtTreeMap RelPath Assembly
  chunkFiles : Std.ExtTreeMap ContentHash Bytes

namespace Session
open Eff

/-- The same session amidst other traffic: what it has sent comes after what the traffic has. -/
def amidst (w : Traffic) (s : Session) : Session :=
  { s with
    sent := w.sent ++ s.sent
    assemblies := w.assemblies
    chunkFiles := w.chunkFiles }

variable {w : Traffic} {s : Session} {p : RelPath}

theorem flushInstalls_amidst (w : Traffic) (s : Session) : Commutes (amidst w) flushInstalls s := by
  have ht : (amidst w s).tree = s.tree := rfl
  have hp : (amidst w s).pendingInstalls = s.pendingInstalls := rfl
  simp only [Commutes, flushInstalls, exec_get_bind, ht, hp]
  rcases installAll s.tree s.pendingInstalls with ⟨tree, pending, err⟩
  cases err <;> rfl

theorem flushPendingInstallFor_amidst (w : Traffic) (p : RelPath) (s : Session) :
    Commutes (amidst w) (flushPendingInstallFor p) s := by
  have hp : (amidst w s).stagedFor p = s.stagedFor p := rfl
  simp only [Commutes, flushPendingInstallFor, exec_get_bind, hp]
  split
  · exact flushInstalls_amidst w s
  · rfl

theorem applyAbsentGuarded_amidst (w : Traffic) (p : RelPath) (s : Session) :
    Commutes (amidst w) (applyAbsentGuarded p) s := by
  refine (flushPendingInstallFor_amidst w p s).bind fun _ s' _ => ?_
  refine Commutes.bind (.modify rfl) fun _ s' _ => ?_
  have ht : (amidst w s').tree = s'.tree := rfl
  have hr : (amidst w s').root = s'.root := rfl
  simp only [Commutes, exec_get_bind, ht, hr]
  split
  · rfl
  · cases applyAbsent s'.tree s'.root p with
    | ok tree => rfl
    | error e => cases e <;> rfl

section
variable [Platform]

theorem storeVersion_amidst (w : Traffic) (state : EntryState) (version : VectorClock) (l : Bool)
    (bytes : Option Bytes) (s : Session) :
    Commutes (amidst w) (storeVersion p state version l bytes) s := by
  have ha : (amidst w s).attribution l = s.attribution l := rfl
  have hh : (amidst w s).history = s.history := rfl
  have hw : (amidst w s).wallMs = s.wallMs := rfl
  rw [Commutes, storeVersion_exec, storeVersion_exec, ha, hh, hw]
  cases s.history.recordVersion p state version (s.attribution l).2 (s.attribution l).1 s.wallMs
    bytes <;> rfl

theorem recordVersion_amidst (w : Traffic) (state : EntryState) (version : VectorClock) (l : Bool)
    (s : Session) : Commutes (amidst w) (recordVersion p state version l) s := by
  cases state with
  | present sig =>
    apply Commutes.get rfl
    dsimp only
    split
    · exact (storeVersion_amidst ..).map
    · rfl
  | tombstone => exact (storeVersion_amidst w .tombstone version l none s).map

theorem noteVersion_amidst (w : Traffic) (state : EntryState) (version : VectorClock) (l : Bool)
    (nowMs : Nat) (s : Session) : Commutes (amidst w) (noteVersion p state version l nowMs) s := by
  have hp : (amidst w s).pressure = s.pressure := rfl
  simp only [Commutes, noteVersion, exec_get_bind, hp]
  generalize s.pressure.note p _ nowMs = n
  obtain ⟨pressure, decision⟩ := n
  cases decision with
  | immediate => exact recordVersion_amidst w state version l { s with pressure }
  | deferred => rfl
  | dropped => rfl

theorem findOrRecord_amidst (w : Traffic) (state : EntryState) (version : VectorClock)
    (captured : Captured) (l : Bool) (s : Session) :
    Commutes (amidst w) (findOrRecord p state version captured l) s := by
  apply Commutes.get rfl
  split
  · rfl
  · split
    · exact (storeVersion_amidst ..).map
    · exact (storeVersion_amidst ..).map
    · rfl

theorem recordConflictCapture_amidst (w : Traffic) (c : ConflictCapture) (s : Session) :
    Commutes (amidst w) (recordConflictCapture c) s := by
  refine (findOrRecord_amidst ..).bind fun loserId s' _ => ?_
  refine (findOrRecord_amidst ..).bind fun winnerId s' _ => ?_
  cases winnerId with
  | none => rfl
  | some winner => cases loserId <;> rfl

theorem recordPresentIfAbsent_amidst (w : Traffic) (sig : ContentSig) (clock : VectorClock)
    (bytes : Bytes) (l : Bool) (s : Session) :
    Commutes (amidst w) (recordPresentIfAbsent p sig clock bytes l) s := by
  apply Commutes.get rfl
  split
  · rfl
  · exact (storeVersion_amidst ..).map

theorem incomingBytes_amidst (w : Traffic) (sig : ContentSig) (bytes : Option Bytes) (s : Session) :
    Commutes (amidst w) (incomingBytes sig bytes) s := by
  apply Commutes.get rfl
  split
  · rfl
  · cases s.history.contentByHash sig.hash <;> rfl

theorem preserveIncomingFile_amidst (w : Traffic) (sig : ContentSig) (bytes : Option Bytes)
    (s : Session) : Commutes (amidst w) (preserveIncomingFile p sig bytes) s := by
  apply Commutes.get rfl
  refine (incomingBytes_amidst w sig bytes s).bind fun incoming s' _ => ?_
  split
  · exact recordPresentIfAbsent_amidst ..
  · rfl

theorem preserveCollidedIncoming_amidst (w : Traffic) (sig : ContentSig) (version : VectorClock)
    (bytes : Option Bytes) (s : Session) :
    Commutes (amidst w) (preserveCollidedIncoming p sig version bytes) s := by
  apply Commutes.get rfl
  split
  · rfl
  · refine (incomingBytes_amidst w sig bytes s).bind fun incoming s' _ => ?_
    cases incoming with
    | none => rfl
    | some b => exact (storeVersion_amidst ..).map

theorem caseCollisionRefused_amidst (w : Traffic) (c : RemoteChange) (bytes : Option Bytes)
    (s : Session) : Commutes (amidst w) (caseCollisionRefused c bytes) s := by
  apply Commutes.get rfl
  split
  · rfl
  · split
    · exact (preserveCollidedIncoming_amidst ..).bind fun _ s' _ => .pure ..
    · rfl

theorem writePresent_amidst (w : Traffic) (sig : ContentSig) (bytes : Bytes) (s : Session) :
    Commutes (amidst w) (writePresent p sig bytes) s := by
  refine (flushPendingInstallFor_amidst w p s).bind fun _ s' _ => ?_
  have ht : (amidst w s').tree = s'.tree := rfl
  have hr : (amidst w s').root = s'.root := rfl
  have hf : (amidst w s').diskFull = s'.diskFull := rfl
  have hw : (amidst w s').wallMs = s'.wallMs := rfl
  have hd : (amidst w s').createdDirs = s'.createdDirs := rfl
  simp only [Commutes, exec_get_bind, exec_set_bind, ht, hr, hf, hw, hd]
  cases (stagePresent s'.tree s'.root s'.diskFull s'.wallMs s'.createdDirs p sig bytes).result with
  | ok temp => rfl
  | error e =>
    cases e with
    | io op path errno => cases errno <;> rfl
    | _ => rfl

theorem preserveAndClearObstructingFile_amidst (w : Traffic) (a : List Name) (s : Session) :
    Commutes (amidst w) (preserveAndClearObstructingFile a) s := by
  apply Commutes.get rfl
  split
  · rfl
  · split
    · rfl
    · rfl
    · split
      · rfl
      · split
        · rfl
        · refine (recordPresentIfAbsent_amidst ..).bind fun _ s' _ => ?_
          split <;> rfl

theorem preparePresentTarget_amidst (w : Traffic) (sig : ContentSig) (bytes : Option Bytes)
    (s : Session) : Commutes (amidst w) (preparePresentTarget p sig bytes) s := by
  apply Commutes.get rfl
  split
  · rfl
  · exact (preserveIncomingFile_amidst ..).bind fun _ s' _ => rfl
  · exact (preserveAndClearObstructingFile_amidst ..).bind fun _ s' _ => rfl

theorem materialize_amidst (w : Traffic) (sig : ContentSig) (bytes : Option Bytes) (s : Session) :
    Commutes (amidst w) (materialize p sig bytes) s := by
  apply Commutes.get rfl
  refine Commutes.bind ?_ fun cas s' _ => ?_
  · split
    · rfl
    · cases s.history.contentByHash sig.hash <;> rfl
  · split
    · exact writePresent_amidst ..
    · split <;> rfl
    · exact writePresent_amidst ..
    · rfl

theorem doApply_amidst (w : Traffic) (target : Expectation) (bytes : Option Bytes) (s : Session) :
    Commutes (amidst w) (doApply p target bytes) s := by
  cases target with
  | absent => exact applyAbsentGuarded_amidst w p s
  | present sig =>
    refine (preparePresentTarget_amidst w sig bytes s).bind fun ready s' _ => ?_
    cases ready with
    | true => exact materialize_amidst w sig bytes s'
    | false => rfl

omit [Platform] in
theorem send_amidst (w : Traffic) (hs : s.Healthy) (msg : Message) :
    Commutes (amidst w) (send msg) s := by
  have hs' : (amidst w s).Healthy := hs
  have ht : (amidst w s).transport = s.transport := rfl
  rw [Commutes, send_exec hs', send_exec hs, ht]
  split
  · simp only [amidst, List.append_assoc]
  · rfl

theorem prepareSend_amidst (w : Traffic) (c : RemoteChange) (s : Session) :
    Commutes (amidst w) (prepareSend c) s := by
  apply Commutes.get rfl
  split
  · rfl
  · split
    · rfl
    · dsimp only
      split
      · split <;> rfl
      · rfl

theorem doSend_amidst (w : Traffic) (hs : s.Healthy) (c : RemoteChange) :
    Commutes (amidst w) (doSend c) s := by
  refine (prepareSend_amidst w c s).bind fun o s' he => ?_
  cases o with
  | none => rfl
  | some msg =>
    have hc := (prepareSend_files c s).books.core
    rw [he] at hc
    exact send_amidst w (hs.of_core hc) msg

theorem executeActions_amidst (w : Traffic) (hs : s.Healthy) (bytes : Option Bytes)
    (v : Option VectorClock) (nowMs : Nat) (skip : List (RelPath × VectorClock))
    (actions : List Action) (captures : List ConflictCapture) :
    Commutes (amidst w) (executeActions bytes v nowMs skip actions captures) s := by
  induction actions generalizing s captures with
  | nil => rfl
  | cons a rest ih =>
    cases a with
    | send c =>
      refine (doSend_amidst w hs c).bind fun _ s' he => ih (hs.of_core ?_) captures
      have hc := (doSend_files hs c).books.core
      rwa [he] at hc
    | apply q target =>
      refine (doApply_amidst w target bytes s).bind fun _ s' he => ih (hs.of_frame ?_) captures
      have hf := (doApply_works q bytes target s).leaves
      rwa [Leaves, he] at hf
    | recordVersion q state version =>
      rw [executeActions]
      split
      · exact ih hs captures
      · refine (noteVersion_amidst ..).bind fun _ s' he => ih (hs.of_core ?_) captures
        have hc := (noteVersion_files q state version (!decide (v = some version)) nowMs s).books.core
        rwa [he] at hc
    | conflictResolved =>
      cases captures with
      | nil => exact ih hs []
      | cons c captures =>
        refine (recordConflictCapture_amidst w c s).map.bind fun _ s' he =>
          ih (hs.of_core ?_) captures
        have hc := (recordConflictCapture_books c s).discard.core
        exact (congrArg (fun r => r.2.core) he).symm.trans hc

theorem execute_amidst (w : Traffic) (hs : s.Healthy) (actions : List Action) (bytes : Option Bytes)
    (v : Option VectorClock) : Commutes (amidst w) (execute actions bytes v) s := by
  apply Commutes.get rfl
  exact executeActions_amidst w hs bytes v s.nowMs _ actions _

omit [Platform] in
theorem handleEvent_amidst (w : Traffic) (ev : Event) (s : Session) :
    Commutes (amidst w) (handleEvent ev) s := rfl

theorem absorbAndExecute_amidst (w : Traffic) (hs : s.Healthy) (c : RemoteChange)
    (bytes : Option Bytes) : Commutes (amidst w) (absorbAndExecute c bytes) s := by
  refine (handleEvent_amidst w (.remote c) s).bind fun actions s' he => ?_
  have hs' : s'.Healthy := by
    cases he
    exact hs
  refine Commutes.bind (.modify rfl) fun _ s'' he => ?_
  have hs'' : s''.Healthy := by
    cases he
    exact hs'
  exact execute_amidst w hs'' actions bytes (some c.version)

theorem reconcileUnobservedLocal_amidst (w : Traffic) (hs : s.Healthy) (p : RelPath) :
    Commutes (amidst w) (reconcileUnobservedLocal p) s := by
  apply Commutes.get rfl
  split
  · rfl
  · split
    · refine (handleEvent_amidst w _ s).bind fun actions s' he => ?_
      have hs' : s'.Healthy := by
        cases he
        exact hs
      refine Commutes.bind (.modify rfl) fun _ s'' he => ?_
      have hs'' : s''.Healthy := by
        cases he
        exact hs'
      exact execute_amidst w hs'' actions none none
    · rfl

theorem deliver_amidst (w : Traffic) (hs : s.Healthy) (c : RemoteChange) (bytes : Option Bytes) :
    Commutes (amidst w) (deliver c bytes) s := by
  refine (reconcileUnobservedLocal_amidst w hs c.path).bind fun _ s' he => ?_
  have hw := (reconcileUnobservedLocal_aside hs c.path).leaves
  rw [Leaves, he] at hw
  exact absorbAndExecute_amidst w (hs.of_wire hw) c bytes

end

end Session

end Tomo
