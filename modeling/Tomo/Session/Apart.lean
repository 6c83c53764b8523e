import Tomo.Session.Rewiring

namespace Tomo
set_option autoImplicit true

namespace Session
open Eff

/-- The session without its records, its disk and its reminders. -/
def apart (s : Session) : Session :=
  on ⟨.empty, [], [], 0, false, 0⟩
    { s with history := .new, pressure := .new .off {}, indexDirty := false, rescanPending := false }

/-- A computation that records and applies, and has no part in the traffic with the peer. -/
abbrev Inward (x : SessionM α) (s : Session) : Prop := Leaves apart x s

theorem flushInstalls_inward (s : Session) : Inward flushInstalls s := by
  apply Leaves.get
  split
  · rfl
  · rfl

theorem flushPendingInstallFor_inward (p : RelPath) (s : Session) :
    Inward (flushPendingInstallFor p) s := .get <| .ite (flushInstalls_inward s) rfl

theorem applyAbsentGuarded_inward (p : RelPath) (s : Session) :
    Inward (applyAbsentGuarded p) s := by
  refine (flushPendingInstallFor_inward p s).bind fun _ s' _ => ?_
  refine Leaves.bind rfl fun _ s' _ => .get (.ite rfl ?_)
  split
  all_goals rfl

section
variable [Platform] (p : RelPath) (state : EntryState) (version : VectorClock) (l : Bool)

omit [Platform] in
theorem liftHistory_inward (r : Except HistoryError α) (s : Session) : Inward (liftHistory r) s := by
  cases r with
  | ok a => rfl
  | error e => rfl

theorem storeVersion_inward (bytes : Option Bytes) (s : Session) :
    Inward (storeVersion p state version l bytes) s :=
  .get <| (liftHistory_inward _ s).bind fun _ _ _ => rfl

theorem recordVersion_inward (s : Session) : Inward (recordVersion p state version l) s := by
  apply Leaves.get
  cases state with
  | present sig =>
    dsimp only
    split
    · exact (storeVersion_inward ..).map
    · rfl
  | tombstone => exact (storeVersion_inward ..).map

theorem noteVersion_inward (nowMs : Nat) (s : Session) :
    Inward (noteVersion p state version l nowMs) s := by
  refine Leaves.get (Leaves.bind (Leaves.set rfl) fun _ s' _ => ?_)
  split
  · exact recordVersion_inward ..
  · rfl
  · rfl

theorem findOrRecord_inward (captured : Captured) (s : Session) :
    Inward (findOrRecord p state version captured l) s := by
  apply Leaves.get
  split
  · rfl
  · split
    · exact (storeVersion_inward ..).map
    · exact (storeVersion_inward ..).map
    · rfl

theorem recordConflictCapture_inward (c : ConflictCapture) (s : Session) :
    Inward (recordConflictCapture c) s := by
  refine (findOrRecord_inward ..).bind fun loser s' _ => ?_
  refine (findOrRecord_inward ..).bind fun winner s'' _ => ?_
  split
  all_goals rfl

theorem recordPresentIfAbsent_inward (sig : ContentSig) (clock : VectorClock) (bytes : Bytes)
    (s : Session) : Inward (recordPresentIfAbsent p sig clock bytes l) s :=
  .get <| .ite rfl (storeVersion_inward ..).map

theorem incomingBytes_inward (sig : ContentSig) (bytes : Option Bytes) (s : Session) :
    Inward (incomingBytes sig bytes) s := by
  apply Leaves.get
  split
  · rfl
  · exact liftHistory_inward _ s

theorem preserveIncomingFile_inward (sig : ContentSig) (bytes : Option Bytes) (s : Session) :
    Inward (preserveIncomingFile p sig bytes) s := by
  refine .get <| (incomingBytes_inward sig bytes s).bind fun _ s' _ => ?_
  split
  · exact recordPresentIfAbsent_inward ..
  · rfl

theorem preserveCollidedIncoming_inward (sig : ContentSig) (bytes : Option Bytes) (s : Session) :
    Inward (preserveCollidedIncoming p sig version bytes) s := by
  refine .get <| .ite rfl <| (incomingBytes_inward sig bytes s).bind fun b s' _ => ?_
  cases b with
  | some b => exact (storeVersion_inward ..).map
  | none => rfl

theorem caseCollisionRefused_inward (c : RemoteChange) (bytes : Option Bytes) (s : Session) :
    Inward (caseCollisionRefused c bytes) s := by
  apply Leaves.get
  split
  · rfl
  · exact .ite ((preserveCollidedIncoming_inward ..).bind fun _ _ _ => rfl) rfl

theorem preserveAndClearObstructingFile_inward (a : List Name) (s : Session) :
    Inward (preserveAndClearObstructingFile a) s := by
  apply Leaves.get
  split
  · rfl
  · split
    · rfl
    · rfl
    · split
      · rfl
      · split
        · rfl
        · refine (recordPresentIfAbsent_inward ..).bind fun _ s' _ => ?_
          split
          · rfl
          · rfl

variable (sig : ContentSig) (bytes : Option Bytes)

theorem preparePresentTarget_inward (s : Session) : Inward (preparePresentTarget p sig bytes) s := by
  apply Leaves.get
  split
  · rfl
  · exact (preserveIncomingFile_inward ..).bind fun _ _ _ => rfl
  · exact (preserveAndClearObstructingFile_inward ..).bind fun _ _ _ => rfl

theorem writePresent_inward (bytes : Bytes) (s : Session) : Inward (writePresent p sig bytes) s := by
  refine (flushPendingInstallFor_inward p s).bind fun _ s' _ => .get ?_
  refine Leaves.bind (Leaves.set rfl) fun _ s'' _ => ?_
  split
  all_goals rfl

theorem materialize_inward (s : Session) : Inward (materialize p sig bytes) s := by
  refine .get <| (liftHistory_inward _ s).bind fun cas s' _ => ?_
  split
  · exact writePresent_inward ..
  · split
    · rfl
    · rfl
  · exact writePresent_inward ..
  · rfl

theorem doApply_inward (target : Expectation) (s : Session) : Inward (doApply p target bytes) s := by
  cases target with
  | absent => exact applyAbsentGuarded_inward p s
  | present sig =>
    refine (preparePresentTarget_inward p sig bytes s).bind fun ready s' _ => ?_
    exact .ite (materialize_inward ..) rfl

end

end Session

end Tomo
