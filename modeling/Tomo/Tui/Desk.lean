import Tomo.Tui.State

namespace Tomo
set_option autoImplicit true

namespace Tui

/-- A conflict of the session's store. -/
structure Conflict where
  row : ConflictRow
  resolved : Bool

/-- A command that is sent, and its answer when it is executed; the answer keeps the number of the
verdicts that were executed by then. -/
structure Pending where
  cmd : OutCommand
  answer : Option (Except Text CmdReply) := none
  stamp : Nat := 0

/-- The interface, the commands on their way, the first one to be answered first, and the session
that executes them. The last five fields only record what has happened. -/
structure Desk where
  model : Model := {}
  waiting : List Pending := []
  table : List Conflict := []
  version : Nat := 0
  lastList : Option (Nat × List ConflictRow) := none
  issued : List OutCommand := []
  succeeded : List Nat := []
  failed : List Nat := []
  undone : List Nat := []

/-- How a command is executed. One that fails may have had its effect. -/
inductive Execution where
  | done (reply : CmdReply)
  | failed (effect : Bool) (text : Text)

/-- What happens next: a key, an event or a tick, the execution of a command, the next reply, a
verdict of another client or one that it takes back, or a new conflict. -/
inductive Move where
  | input (msg : Msg)
  | execute (i : Nat) (execution : Execution)
  | reply
  | others (id : Int) (resolved : Bool)
  | arise (row : ConflictRow)

/-- The conflict that a verdict is on. -/
def CtlRequest.target : CtlRequest → Option Int
  | .resolve id _ => some id
  | _ => none

def CtlRequest.isVerdict (req : CtlRequest) : Bool := req.target.isSome

def CmdReply.rows : CmdReply → Option (List ConflictRow)
  | .conflicts rows => some rows
  | _ => none

namespace Pending

/-- The list that the command is answered with. -/
def rows (p : Pending) : Option (List ConflictRow) :=
  match p.answer with
  | some (.ok reply) => reply.rows
  | _ => none

def Resolves (p : Pending) (id : Int) : Prop := p.cmd.req.target = some id

/-- The command has not succeeded. -/
def Unsure (p : Pending) : Prop := p.answer.all fun result => !result.isOk

/-- The answer is a list without this conflict. -/
def Drops (p : Pending) (id : Int) : Prop := ∃ rows ∈ p.rows, id ∉ rows.map ConflictRow.id

instance (p : Pending) (id : Int) : Decidable (p.Resolves id) :=
  inferInstanceAs (Decidable (_ = _))

instance (p : Pending) : Decidable p.Unsure := inferInstanceAs (Decidable (_ = true))

instance (p : Pending) (id : Int) : Decidable (p.Drops id) :=
  inferInstanceAs (Decidable (∃ rows ∈ p.rows, id ∉ rows.map ConflictRow.id))

end Pending

/-- The undo that an input is. -/
def Model.undoing (m : Model) : Msg → Option UndoPlan
  | .key (.char 'u') =>
    if m.help = false ∧ m.modal = none ∧ m.screen = .conflicts then m.undo else none
  | _ => none

namespace Desk

/-- The list of the unresolved conflicts. -/
def listed (d : Desk) : List ConflictRow :=
  parseConflicts ((d.table.filter fun c => !c.resolved).map Conflict.row)

def mark (d : Desk) (id : Int) (resolved : Bool) : Desk :=
  { d with
    table := d.table.map fun c => if c.row.id = id then { c with resolved } else c
    version := d.version + 1 }

/-- The effect of a request on the conflicts. -/
def perform (d : Desk) : CtlRequest → Desk
  | .resolve id _ => d.mark id true
  | .conflictUnresolve id => d.mark id false
  | _ => d

/-- The replies that a request can have. -/
def accepts (d : Desk) : CtlRequest → CmdReply → Bool
  | .conflictsList, .conflicts rows => rows = d.listed
  | .conflictShow id, .show id' _ => id' = id
  | .resolve _ _, .resolved => true
  | .historyPaths _, .historyPaths _ => true
  | .historyLog path _, .historyLog path' _ => path' = path
  | .versionDiff _ a b, .versionDiff a' b' _ => a' = a ∧ b' = b
  | .restore _ _, .restored _ _ _ => true
  | .conflictUnresolve _, .unresolved => true
  | .pause, .pauseState _ | .resume, .pauseState _ => true
  | .stop, .resolved => true
  | _, _ => false

/-- Send what the interface has queued. -/
def dispatch (d : Desk) (m : Model) : Desk :=
  { d with
    model := { m with outbox := [] }
    waiting := d.waiting ++ m.outbox.map fun cmd => { cmd }
    issued := m.outbox.reverse ++ d.issued }

/-- The last verdict that was sent. -/
def latest (d : Desk) : Option OutCommand := d.issued.find? fun c => c.req.isVerdict

def input (d : Desk) (msg : Msg) : Desk :=
  { d.dispatch (update d.model msg) with
    undone := ((d.model.undoing msg).bind fun _ => d.latest.map OutCommand.seq).toList ++ d.undone }

def answer (d : Desk) (i : Nat) (p : Pending) (result : Except Text CmdReply) : Desk :=
  { d with waiting := d.waiting.set i { p with answer := some result, stamp := d.version } }

def execute (d : Desk) (i : Nat) (p : Pending) : Execution → Option Desk
  | .done reply =>
    if d.accepts p.cmd.req reply then
      some { (d.perform p.cmd.req).answer i p (.ok reply) with
        succeeded := p.cmd.seq :: d.succeeded }
    else none
  | .failed effect text =>
    some ((if effect then d.perform p.cmd.req else d).answer i p (.error text))

/-- The list of a reply, with what it was computed after. -/
def listOf (p : Pending) : Except Text CmdReply → Option (Nat × List ConflictRow)
  | .ok reply => reply.rows.map fun rows => (p.stamp, rows)
  | .error _ => none

def deliver (d : Desk) (p : Pending) (rest : List Pending) (result : Except Text CmdReply) : Desk :=
  { { d with waiting := rest }.dispatch (update d.model (.cmd ⟨p.cmd.seq, result⟩)) with
    lastList := listOf p result <|> d.lastList
    failed := if result.isOk then d.failed else p.cmd.seq :: d.failed }

def step (d : Desk) : Move → Option Desk
  | .input (.cmd _) => none
  | .input msg => some (d.input msg)
  | .execute i execution => do
    let p ← d.waiting[i]?
    if p.answer.isNone then d.execute i p execution else none
  | .reply =>
    match d.waiting with
    | [] => none
    | p :: rest => p.answer.map (d.deliver p rest)
  | .others id resolved => some (d.mark id resolved)
  | .arise row =>
    if row.id ∈ d.table.map fun c => c.row.id then none
    else some { d with table := d.table ++ [⟨row, false⟩] }

/-- A verdict on this conflict has been sent and has not succeeded. -/
def Doubts (d : Desk) (id : Int) : Prop := ∃ p ∈ d.waiting, p.Resolves id ∧ p.Unsure

/-- A list is computed only when each conflict on it that the interface hides is about to show
again: a verdict on it has not succeeded, or a reply without it comes before. And `u` is pressed
only when the last verdict is neither on its way without success nor has failed. -/
def Careful (d : Desk) : Move → Prop
  | .input msg => (d.model.undoing msg).isSome → ∀ verdict ∈ d.latest,
    (∀ p ∈ d.waiting, p.cmd.seq = verdict.seq → ¬p.Unsure) ∧ verdict.seq ∉ d.failed
  | .execute i (.done reply) => ∀ rows ∈ reply.rows, ∀ c ∈ rows, c.id ∈ d.model.pendingResolved →
    d.Doubts c.id ∨ ∃ p ∈ d.waiting.take i, p.Drops c.id
  | _ => True

instance (d : Desk) (id : Int) : Decidable (d.Doubts id) :=
  inferInstanceAs (Decidable (∃ p ∈ d.waiting, p.Resolves id ∧ p.Unsure))

instance (d : Desk) (move : Move) : Decidable (d.Careful move) :=
  match move with
  | .input _ => inferInstanceAs (Decidable (_ → ∀ verdict ∈ d.latest, _ ∧ _))
  | .execute _ (.done reply) =>
    inferInstanceAs (Decidable (∀ rows ∈ reply.rows, ∀ c ∈ rows, _ → _ ∨ _))
  | .execute _ (.failed _ _) | .reply | .others _ _ | .arise _ => isTrue trivial

/-- The conflict list settles, a verdict that fails shows its own row and no other, and what is
undone is a verdict that succeeded and was not undone before. -/
structure Settles (d : Desk) (move : Move) (d' : Desk) : Prop where
  listed : d'.waiting = [] → ∀ rows, d'.lastList = some (d'.version, rows) →
    d'.model.visibleConflicts = rows
  shown : move = .reply → ∀ p rest id text, d.waiting = p :: rest → p.Resolves id →
    p.answer = some (.error text) → d'.model.visibleConflicts =
      d.model.conflicts.filter fun c => c.id ∉ d.model.pendingResolved ∨ c.id = id
  undone : ∀ msg plan, move = .input msg → d.model.undoing msg = some plan →
    (∃ q, d.latest = some ⟨q, .resolve plan.conflictId plan.verdict⟩ ∧ q ∈ d.succeeded ∧
      q ∉ d.undone ∧ d'.undone = q :: d.undone) ∧
    (∃ c ∈ d.model.conflicts, c.id = plan.conflictId ∧ c.path = plan.path) ∧
    ∃ cmds, d'.issued = cmds ++ d.issued ∧
      (cmds.map OutCommand.req).reverse = Model.undoRequests plan ++ [.conflictsList]
  sent : (∀ msg, move = .input msg → d.model.undoing msg = none) →
    ∃ cmds, d'.issued = cmds ++ d.issued ∧ ∀ c ∈ cmds, ∀ id, c.req ≠ .conflictUnresolve id

def run (d : Desk) (moves : List Move) : Option Desk := moves.foldlM step d

/-- A run whose steps are careful. -/
def runCarefully (d : Desk) (moves : List Move) : Option Desk :=
  moves.foldlM (fun d move => if d.Careful move then d.step move else none) d

end Desk

/-- What is reached from the start when every step is careful. -/
inductive CarefulRun : Desk → Prop
  | start (foreground : Bool) (table : List Conflict) :
    CarefulRun { model := { foreground }, table }
  | step : CarefulRun d → d.Careful move → d.step move = some d' → CarefulRun d'

end Tui

end Tomo
