import Mathlib.Data.List.Infix
import Mathlib.Data.List.Sort
import Tomo.Transport.SshConfig

namespace Tomo
set_option autoImplicit true

namespace Tui

def celebrateTicks : Nat := 4

inductive Key where
  | char (c : Char)
  | enter
  | esc
  | backspace
  | up
  | down
  | left
  | right
  | pageUp
  | pageDown
  | home
  | «end»
deriving DecidableEq

/-- A verdict on a conflict: keep what is on disk, take the loser, or have both. -/
inductive Verdict where
  | keep
  | take
  | both
deriving DecidableEq

/-- What is asked of the session over the control channel. -/
inductive CtlRequest where
  | conflictsList
  | conflictShow (id : Int)
  | resolve (id : Int) (verdict : Verdict)
  | historyPaths (limit : Nat)
  | historyLog (path : Text) (limit : Nat)
  | versionDiff (path : Text) («from» «to» : Int)
  | restore (path : Text) (version : Int)
  | conflictUnresolve (id : Int)
  | pause
  | resume
  | stop
deriving DecidableEq

structure OutCommand where
  seq : Nat
  req : CtlRequest
deriving DecidableEq

inductive Side where
  | you
  | peer
deriving DecidableEq

structure ConflictRow where
  id : Int
  path : Text
  wallMs : Nat
  winner : Side
deriving DecidableEq

/-- The order of the list: the newest first, by the time and then by the id. -/
def ConflictRow.Newer (a b : ConflictRow) : Prop :=
  b.wallMs < a.wallMs ∨ a.wallMs = b.wallMs ∧ b.id ≤ a.id

instance : DecidableRel ConflictRow.Newer :=
  fun a b => inferInstanceAs (Decidable
    (b.wallMs < a.wallMs ∨ a.wallMs = b.wallMs ∧ b.id ≤ a.id))

def parseConflicts (rows : List ConflictRow) : List ConflictRow :=
  rows.insertionSort ConflictRow.Newer

structure ConflictDetail where
  winnerVersion : Int
  loserVersion : Int
  diff : List Text
  diffable : Bool

structure PathRow where
  path : Text
  versions : Nat
  lastVersion : Int
  lastWallMs : Nat

structure VersionRow where
  id : Int
  wallMs : Nat
  size : Option Nat
  side : Side
  exec : Bool
  present : Bool

structure DiffDetail where
  identical : Bool
  diffable : Bool
  diff : List Text

inductive CmdReply where
  | conflicts (rows : List ConflictRow)
  | «show» (id : Int) (detail : ConflictDetail)
  | resolved
  | historyPaths (rows : List PathRow)
  | historyLog (path : Text) (versions : List VersionRow)
  | versionDiff («from» «to» : Int) (detail : DiffDetail)
  | restored (path : Text) (version : Int) (size : Nat)
  | unresolved
  | pauseState (paused : Bool)

structure CmdOutcome where
  seq : Nat
  result : Except Text CmdReply

/-- The events of the session that do more than put a line into the stream. -/
inductive Event where
  | conflict (id : Option Int) (adopted : Bool)
  | heartbeat (paused : Bool)
  | paused
  | resumed
  | other

inductive Msg where
  | event (event : Event)
  | key (key : Key)
  | tick
  | cmd (outcome : CmdOutcome)

/-- What reverses the last verdict on a single conflict. -/
structure UndoPlan where
  conflictId : Int
  path : Text
  verdict : Verdict
  preVersion : Option Int

inductive Screen where
  | main
  | conflicts
  | historyPicker
  | historyTimeline
deriving DecidableEq

inductive Modal where
  | ackAll (count : Nat)
  | stopConfirm
  | restoreConfirm (path : Text) (version : Int) (size wallMs : Nat) (deleted : Bool)
deriving DecidableEq

/-- The state of the terminal interface, less the stream and the footer. -/
structure Model where
  screen : Screen := .main
  help : Bool := false
  modal : Option Modal := none
  quit : Bool := false
  foreground : Bool := false
  stopping : Bool := false
  resolvedTotal : Nat := 0
  filter : Option Text := none
  filterEditing : Bool := false
  paused : Bool := false
  conflicts : List ConflictRow := []
  pendingResolved : List Int := []
  pendingCmds : List (Nat × Int) := []
  adoptedIds : List Int := []
  groupCollapsed : Bool := false
  sel : Nat := 0
  diffs : List (Int × ConflictDetail) := []
  diffRequested : List Int := []
  undo : Option UndoPlan := none
  historyPaths : List PathRow := []
  pickerFilter : Text := []
  pickerSel : Nat := 0
  historyPath : Option Text := none
  timeline : List VersionRow := []
  timelineSel : Nat := 0
  mark : Option Int := none
  versionDiffs : List ((Int × Int) × DiffDetail) := []
  versionDiffRequested : List (Int × Int) := []
  celebrateTicks : Nat := 0
  outbox : List OutCommand := []
  nextSeq : Nat := 0

inductive VisRow where
  | conflict (i : Nat)
  | groupHeader
  | groupChild (i : Nat)
deriving DecidableEq

namespace Model

/-- The conflicts without those that a verdict hides. -/
def visibleConflicts (m : Model) : List ConflictRow :=
  m.conflicts.filter fun c => c.id ∉ m.pendingResolved

/-- The rows of the conflict pane: the single conflicts, then the adopted ones as a group. -/
def visRows (m : Model) : List VisRow :=
  let visible := m.visibleConflicts.zipIdx
  let children := (visible.filter fun (c, _) => c.id ∈ m.adoptedIds).map Prod.snd
  let rows := (visible.filter fun (c, _) => c.id ∉ m.adoptedIds).map fun (_, i) => .conflict i
  if children = [] then rows
  else rows ++ .groupHeader :: if m.groupCollapsed then [] else children.map .groupChild

/-- The conflict under the selection; the header stands for the first one of the group. -/
def selectedConflict (m : Model) : Option ConflictRow :=
  let rows := m.visRows
  let visible := m.visibleConflicts
  match rows[m.sel]? with
  | none => none
  | some (.conflict i) | some (.groupChild i) => visible[i]?
  | some .groupHeader =>
    ((rows.drop (m.sel + 1)).findSome? fun row => match row with
      | .groupChild i => visible[i]?
      | _ => none) <|> visible.find? fun c => c.id ∈ m.adoptedIds

def onGroupHeader (m : Model) : Bool := m.visRows[m.sel]? = some .groupHeader

def filteredPaths (m : Model) : List PathRow :=
  if m.pickerFilter = [] then m.historyPaths
  else m.historyPaths.filter fun p => m.pickerFilter <:+: p.path

def selectedPath (m : Model) : Option PathRow := m.filteredPaths[m.pickerSel]?

def selectedVersion (m : Model) : Option VersionRow := m.timeline[m.timelineSel]?

/-- The two versions to compare: the marked and the selected one, or that and the one before. -/
def diffPair (m : Model) : Option (Int × Int) := do
  let sel ← m.selectedVersion
  match m.mark with
  | some mark => pure (mark, sel.id)
  | none => do
    let prev ← m.timeline[m.timelineSel + 1]?
    pure (prev.id, sel.id)

def enqueue (m : Model) (req : CtlRequest) : Model :=
  { m with outbox := m.outbox ++ [⟨m.nextSeq, req⟩], nextSeq := m.nextSeq + 1 }

/-- A verdict hides its row until it fails. -/
def enqueueResolve (m : Model) (id : Int) (verdict : Verdict) : Model :=
  { m.enqueue (.resolve id verdict) with
    pendingResolved := m.pendingResolved.insert id
    pendingCmds := (m.nextSeq, id) :: m.pendingCmds }

/-- Ask for the diff of the selected conflict, unless it is there or asked for. -/
def ensureDiffLoaded (m : Model) : Model :=
  if m.screen ≠ .conflicts then m
  else match m.selectedConflict with
    | none => m
    | some c =>
      if (m.diffs.lookup c.id).isSome ∨ c.id ∈ m.diffRequested then m
      else { m with diffRequested := c.id :: m.diffRequested }.enqueue (.conflictShow c.id)

/-- The same for the versions of the timeline. -/
def ensureVersionDiffLoaded (m : Model) : Model :=
  if m.screen ≠ .historyTimeline then m
  else match m.historyPath, m.diffPair with
    | some path, some pair =>
      if (m.versionDiffs.lookup pair).isSome ∨ pair ∈ m.versionDiffRequested then m
      else { m with versionDiffRequested := pair :: m.versionDiffRequested }.enqueue
        (.versionDiff path pair.1 pair.2)
    | _, _ => m

/-- A selection in a list of this length. -/
def clamped (sel len : Nat) : Nat := if len = 0 then 0 else if len ≤ sel then len - 1 else sel

def i32OrZero (n : Nat) : Int := if n ≤ 2147483647 then n else 0

/-- A selection that moves within a list of this length. -/
def moved (sel len : Nat) (delta : Int) : Nat :=
  if len = 0 then 0 else (max 0 (min (i32OrZero sel + delta) (i32OrZero (len - 1)))).toNat

def clampSelection (m : Model) : Model :=
  { m with sel := clamped m.sel m.visRows.length }.ensureDiffLoaded

def moveSel (m : Model) (delta : Int) : Model :=
  if m.visRows.length = 0 then { m with sel := 0 }
  else { m with sel := moved m.sel m.visRows.length delta }.ensureDiffLoaded

def clampPicker (m : Model) : Model :=
  { m with pickerSel := clamped m.pickerSel m.filteredPaths.length }

def pickerMove (m : Model) (delta : Int) : Model :=
  { m with pickerSel := moved m.pickerSel m.filteredPaths.length delta }

def timelineMove (m : Model) (delta : Int) : Model :=
  if m.timeline.length = 0 then { m with timelineSel := 0 }
  else { m with timelineSel := moved m.timelineSel m.timeline.length delta }.ensureVersionDiffLoaded

/-- When the last conflict is gone there is something to celebrate. -/
def afterResolve (m : Model) : Model :=
  if m.visibleConflicts = [] then { m with celebrateTicks := Tui.celebrateTicks, sel := 0 }
  else m.clampSelection

/-- A group verdict resolves every adopted conflict and cannot be undone; a single one can, by the
plan that is made before its row is hidden. -/
def verdict (m : Model) (v : Verdict) : Model :=
  if m.onGroupHeader then
    let ids := (m.visibleConflicts.filter fun c => c.id ∈ m.adoptedIds).map ConflictRow.id
    if ids = [] then m
    else (ids.foldl (fun (m : Model) id => m.enqueueResolve id v)
      { m with undo := none }).afterResolve
  else match m.selectedConflict with
    | none => m
    | some c =>
      let preVersion := if v = .take then (m.diffs.lookup c.id).map (·.winnerVersion) else none
      ({ m with undo := some ⟨c.id, c.path, v, preVersion⟩ }.enqueueResolve c.id v).afterResolve

def confirmAckAll (m : Model) : Model :=
  ((m.visibleConflicts.map ConflictRow.id).foldl (fun (m : Model) id => m.enqueueResolve id .keep)
    { m with undo := none }).afterResolve

/-- What is sent to reverse a verdict. -/
def undoRequests (plan : UndoPlan) : List CtlRequest :=
  match plan.verdict, plan.preVersion with
  | .take, some version => [.restore plan.path version, .conflictUnresolve plan.conflictId]
  | _, _ => [.conflictUnresolve plan.conflictId]

/-- Reverse the last verdict and show its row again. -/
def undoLast (m : Model) : Model :=
  match m.undo with
  | none => m
  | some plan =>
    let m := (undoRequests plan).foldl enqueue { m with undo := none }
    { m with pendingResolved := m.pendingResolved.filter (· ≠ plan.conflictId) }.enqueue
      .conflictsList

def requestQuit (m : Model) : Model :=
  if m.foreground then { m with modal := some .stopConfirm } else { m with quit := true }

def togglePause (m : Model) : Model :=
  { m with paused := !m.paused }.enqueue (if m.paused then .resume else .pause)

def filterKey (m : Model) : Key → Model
  | .char c => { m with filter := some (m.filter.getD [] ++ [c]) }
  | .backspace => { m with filter := m.filter.map List.dropLast }
  | .enter => { m with filterEditing := false }
  | .esc => { m with filterEditing := false, filter := none }
  | _ => m

def mainKey (m : Model) (key : Key) : Model :=
  if m.filterEditing then m.filterKey key
  else match key with
    | .char 'q' => m.requestQuit
    | .char 'd' => { m with quit := true }
    | .char '?' => { m with help := true }
    | .char 'c' => { m with screen := .conflicts, sel := 0 }.enqueue .conflictsList
    | .char 'h' =>
      { m with screen := .historyPicker, pickerFilter := [], pickerSel := 0 }.enqueue
        (.historyPaths 200)
    | .char ' ' => m.togglePause
    | .char '/' => { m with filterEditing := true, filter := some (m.filter.getD []) }
    | .esc => { m with filter := none }
    | _ => m

/-- Open the timeline of the selected path. -/
def openTimeline (m : Model) : Model :=
  match m.selectedPath with
  | none => m
  | some row =>
    { m with
      historyPath := some row.path
      screen := .historyTimeline
      timeline := []
      timelineSel := 0
      mark := none }.enqueue (.historyLog row.path 500)

def pickerKey (m : Model) : Key → Model
  | .esc => { m with screen := .main }
  | .enter => m.openTimeline
  | .up => m.pickerMove (-1)
  | .down => m.pickerMove 1
  | .backspace => { m with pickerFilter := m.pickerFilter.dropLast }.clampPicker
  | .char c => { m with pickerFilter := m.pickerFilter ++ [c] }.clampPicker
  | _ => m

def toggleMark (m : Model) : Model :=
  { m with mark := if m.mark.isSome then none else m.selectedVersion.map VersionRow.id
    }.ensureVersionDiffLoaded

def openRestoreConfirm (m : Model) : Model :=
  match m.historyPath, m.selectedVersion with
  | some path, some v =>
    { m with modal := some (.restoreConfirm path v.id (v.size.getD 0) v.wallMs !v.present) }
  | _, _ => m

def timelineKey (m : Model) : Key → Model
  | .esc =>
    if m.mark.isSome then { m with mark := none }.ensureVersionDiffLoaded
    else { m with screen := .historyPicker }
  | .char '?' => { m with help := true }
  | .char 'q' => m.requestQuit
  | .char 'd' => { m with quit := true }
  | .char 'j' | .down => m.timelineMove 1
  | .char 'k' | .up => m.timelineMove (-1)
  | .char 'm' => m.toggleMark
  | .char 'r' => m.openRestoreConfirm
  | _ => m

/-- Fold the adoption group, or open it. -/
def foldGroup (m : Model) (collapsed : Bool) : Model :=
  if m.onGroupHeader then { m with groupCollapsed := collapsed }.clampSelection else m

def conflictKey (m : Model) : Key → Model
  | .char 'c' | .esc => { m with screen := .main }
  | .char '?' => { m with help := true }
  | .char 'q' => m.requestQuit
  | .char 'd' => { m with quit := true }
  | .char 'j' | .down => m.moveSel 1
  | .char 'k' | .up => m.moveSel (-1)
  | .enter => if m.onGroupHeader then m.foldGroup (!m.groupCollapsed) else m.verdict .keep
  | .char 'h' | .left => m.foldGroup true
  | .char 'l' | .right => m.foldGroup false
  | .char 't' => m.verdict .take
  | .char 'b' => m.verdict .both
  | .char ' ' => m.togglePause
  | .char 'a' =>
    let count := m.visibleConflicts.length
    if 0 < count then { m with modal := some (.ackAll count) } else m
  | .char 'u' => m.undoLast
  | _ => m

/-- A key while something is to be confirmed. -/
def modalKey (m : Model) (modal : Modal) (key : Key) : Model :=
  if key = .enter ∨ key = .char 'y' then
    match modal with
    | .stopConfirm => { m with stopping := true, quit := true, modal := none }
    | .ackAll _ => { m.confirmAckAll with modal := none }
    | .restoreConfirm path version _ _ _ => { m with modal := none }.enqueue (.restore path version)
  else if key = .esc ∨ key = .char 'n' ∨ key = .char 'q' ∧ modal = .stopConfirm then
    { m with modal := none }
  else m

/-- The help and what is to be confirmed take the keys first. -/
def keyPress (m : Model) (key : Key) : Model :=
  if m.help then
    if key = .esc ∨ key = .char '?' ∨ key = .char 'q' then { m with help := false } else m
  else match m.modal with
    | some modal => m.modalKey modal key
    | none =>
      match m.screen with
      | .main => m.mainKey key
      | .conflicts => m.conflictKey key
      | .historyPicker => m.pickerKey key
      | .historyTimeline => m.timelineKey key

def ingestEvent (m : Model) : Event → Model
  | .conflict id adopted =>
    let m := if adopted then { m with adoptedIds := id.toList ++ m.adoptedIds } else m
    if m.screen = .conflicts then m.enqueue .conflictsList else m
  | .heartbeat paused => { m with paused }
  | .paused => { m with paused := true }
  | .resumed => { m with paused := false }
  | .other => m

def tick (m : Model) : Model :=
  if m.celebrateTicks = 0 then m
  else { m with
    celebrateTicks := m.celebrateTicks - 1
    screen := if m.celebrateTicks = 1 then .main else m.screen }

/-- A list is the new state of things: what it no longer has is not hidden any more, and there is
nothing to undo. -/
def ingestConflicts (m : Model) (rows : List ConflictRow) : Model :=
  { m with
    conflicts := rows
    pendingResolved := m.pendingResolved.filter fun id => id ∈ rows.map ConflictRow.id
    undo := none }.clampSelection

/-- A verdict that fails shows its row again and asks for the list. -/
def ingestFailure (m : Model) (seq : Nat) : Model :=
  match m.pendingCmds.lookup seq with
  | some id =>
    { m with
      pendingCmds := m.pendingCmds.filter (·.1 ≠ seq)
      pendingResolved := m.pendingResolved.filter (· ≠ id) }.enqueue .conflictsList
  | none => m

def ingestCmd (m : Model) (outcome : CmdOutcome) : Model :=
  match outcome.result with
  | .ok (.conflicts rows) => m.ingestConflicts rows
  | .ok (.show id detail) =>
    { m with
      diffRequested := m.diffRequested.filter (· ≠ id)
      diffs := (id, detail) :: m.diffs }
  | .ok .resolved =>
    { m with
      pendingCmds := m.pendingCmds.filter (·.1 ≠ outcome.seq)
      resolvedTotal := m.resolvedTotal + 1 }
  | .ok (.historyPaths rows) => { m with historyPaths := rows }.clampPicker
  | .ok (.historyLog path versions) =>
    if m.historyPath = some path then
      { m with timeline := versions, timelineSel := 0, mark := none }.ensureVersionDiffLoaded
    else m
  | .ok (.versionDiff a b detail) =>
    { m with
      versionDiffRequested := m.versionDiffRequested.filter (· ≠ (a, b))
      versionDiffs := ((a, b), detail) :: m.versionDiffs }
  | .ok (.restored _ _ _) | .ok .unresolved => m
  | .ok (.pauseState paused) => { m with paused }
  | .error _ => m.ingestFailure outcome.seq

end Model

/-- The one transition of the interface. -/
def update (m : Model) : Msg → Model
  | .event event => m.ingestEvent event
  | .tick => m.tick
  | .cmd outcome => m.ingestCmd outcome
  | .key key => m.keyPress key

end Tui

end Tomo
