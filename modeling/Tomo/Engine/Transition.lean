import Tomo.Engine.Index

namespace Tomo
set_option autoImplicit true

/-- What happened to a path, canonically. -/
inductive ChangeKind where
  | modified (sig : ContentSig)
  | removed
deriving DecidableEq

structure LocalChange where
  path : RelPath
  kind : ChangeKind
deriving DecidableEq

structure RemoteChange where
  path : RelPath
  kind : ChangeKind
  version : VectorClock
deriving DecidableEq

/-- What the tree should look like at a path after an apply. -/
inductive Expectation where
  | present (sig : ContentSig)
  | absent
deriving DecidableEq

def Expectation.eq : Expectation → Expectation → Bool
  | .present a, .present b => a.eq b
  | .absent, .absent => true
  | _, _ => false

inductive Event where
  | local (change : LocalChange)
  | remote (change : RemoteChange)
  | peerIndex (index : Index)

/-- A side effect the engine asks an adapter to perform. -/
inductive Action where
  | send (change : RemoteChange)
  | apply (path : RelPath) (target : Expectation)
  | recordVersion (path : RelPath) (state : EntryState) (version : VectorClock)
  | conflictResolved (path : RelPath) (winner : EntryState) (winnerVersion : VectorClock)
      (loser : EntryState) (loserVersion : VectorClock) (adopted : Bool)
deriving DecidableEq

def Action.path : Action → RelPath
  | .send change => change.path
  | .apply path _ | .recordVersion path _ _ | .conflictResolved path .. => path

def stateFromKind : ChangeKind → EntryState
  | .modified sig => .present sig
  | .removed => .tombstone

def kindFromState : EntryState → ChangeKind
  | .present sig => .modified sig
  | .tombstone => .removed

def expectationFromState : EntryState → Expectation
  | .present sig => .present sig
  | .tombstone => .absent

@[simp] theorem stateFromKind_kindFromState (s : EntryState) :
    stateFromKind (kindFromState s) = s := by
  cases s <;> rfl

/-- The writes the engine has emitted and not yet seen echoed, a list per path. -/
structure EchoJournal where
  outstanding : Std.ExtTreeMap RelPath (List Expectation)

namespace EchoJournal

def new : EchoJournal := ⟨∅⟩

def journal (j : EchoJournal) (p : RelPath) (target : Expectation) : EchoJournal :=
  ⟨j.outstanding.insert p (j.outstanding[p]?.getD [] ++ [target])⟩

def contains (j : EchoJournal) (p : RelPath) (observed : Expectation) : Bool :=
  match j.outstanding[p]? with
  | none => false
  | some l => l.any fun e => e.eq observed

/-- `Vec::swap_remove`: the last element takes the removed one's place. -/
def swapRemove (l : List Expectation) (i : Nat) : List Expectation :=
  match l.getLast? with
  | none => []
  | some e => (l.set i e).dropLast

/-- Retire one expectation matching `observed`; `true` iff there was one. -/
def retire (j : EchoJournal) (p : RelPath) (observed : Expectation) : EchoJournal × Bool :=
  match j.outstanding[p]? with
  | none => (j, false)
  | some l =>
    match l.findIdx? fun e => e.eq observed with
    | none => (j, false)
    | some i =>
      let rest := swapRemove l i
      if rest = [] then (⟨j.outstanding.erase p⟩, true)
      else (⟨j.outstanding.insert p rest⟩, true)

/-- An event is retired exactly where it was expected. -/
theorem retire_contains (j : EchoJournal) (p : RelPath) (o : Expectation) :
    (j.retire p o).2 = j.contains p o := by
  rw [retire, contains]
  cases j.outstanding[p]? with
  | none => rfl
  | some l =>
    dsimp only
    cases hf : l.findIdx? fun e => e.eq o with
    | none =>
      rw [List.findIdx?_eq_none_iff] at hf
      exact (List.any_eq_false.2 fun x hx => by simp [hf x hx]).symm
    | some i =>
      have hany : (l.any fun e => e.eq o) = true := by
        obtain ⟨hi, he, _⟩ := List.findIdx?_eq_some_iff_getElem.1 hf
        exact List.any_eq_true.2 ⟨l[i], List.getElem_mem hi, he⟩
      dsimp only
      rw [hany]
      split <;> rfl

/-- What is still expected at a path. -/
def pending (j : EchoJournal) (p : RelPath) : List Expectation := j.outstanding[p]?.getD []

theorem pending_pos {j : EchoJournal} {p : RelPath} {o : Expectation} (h : j.contains p o = true) :
    0 < (j.pending p).length := by
  rw [contains] at h
  rw [pending]
  cases hout : j.outstanding[p]? with
  | none =>
    rw [hout] at h
    cases h
  | some l =>
    rw [hout] at h
    obtain ⟨o', hmem, _⟩ := List.any_eq_true.mp h
    exact List.length_pos_of_mem hmem

theorem swapRemove_length {l : List Expectation} (h : i < l.length) :
    (swapRemove l i).length = l.length - 1 := by
  rw [swapRemove]
  cases hlast : l.getLast? with
  | none =>
    rw [List.getLast?_eq_none_iff] at hlast
    subst hlast
    cases h
  | some e => rw [List.length_dropLast, List.length_set]

theorem retire_cases (j : EchoJournal) (p : RelPath) (o : Expectation) :
    j.retire p o = (j, false) ∨ ∃ l i, j.outstanding[p]? = some l ∧ i < l.length ∧
      j.retire p o = (if swapRemove l i = [] then ⟨j.outstanding.erase p⟩
        else ⟨j.outstanding.insert p (swapRemove l i)⟩, true) := by
  rw [retire]
  split
  · exact .inl rfl
  next l hout =>
    split
    · exact .inl rfl
    next i hfind =>
      obtain ⟨hi, _⟩ := List.findIdx?_eq_some_iff_getElem.1 hfind
      right
      refine ⟨l, i, hout, hi, ?_⟩
      dsimp only
      split <;> rfl

/-- Retiring takes one expectation of the path out, where there is one. -/
theorem retire_pending (j : EchoJournal) (p q : RelPath) (o : Expectation) :
    ((j.retire p o).1.pending q).length =
      if q = p ∧ j.contains p o = true then (j.pending q).length - 1 else (j.pending q).length := by
  rw [← retire_contains]
  rcases j.retire_cases p o with heq | ⟨l, i, hout, hi, heq⟩
  · rw [heq, if_neg fun h => by cases h.2]
  · have hlen := swapRemove_length hi
    have hown : ((j.retire p o).1.pending p) = swapRemove l i := by
      rw [heq, pending]
      dsimp only
      split
      next hrest => simp [hrest]
      next => simp
    have hother (hq : q ≠ p) : (j.retire p o).1.pending q = j.pending q := by
      have hne : compare p q ≠ .eq := by
        rw [Ne, Std.compare_eq_iff_eq]
        exact Ne.symm hq
      rw [heq, pending, pending]
      dsimp only
      split
      · rw [Std.ExtTreeMap.getElem?_erase, if_neg hne]
      · rw [Std.ExtTreeMap.getElem?_insert, if_neg hne]
    by_cases hq : q = p
    · have hgone : (j.retire p o).2 = true := by rw [heq]
      subst hq
      rw [hown, if_pos ⟨rfl, hgone⟩, hlen, pending, hout, Option.getD_some]
    · rw [hother hq, if_neg fun h => hq h.1]

end EchoJournal

/-- The pure sync state machine for one replica. -/
structure Engine where
  replica : ReplicaId
  index : Index
  echo : EchoJournal

namespace Engine

def new (replica : ReplicaId) (index : Index) : Engine := ⟨replica, index, .new⟩

def isExpectedEcho (e : Engine) (p : RelPath) (observed : Expectation) : Bool :=
  e.echo.contains p observed

/-- Stamp a local change on the merged clock of what the path held, and ship it. -/
def mint (e : Engine) (p : RelPath) (base : VectorClock) (state : EntryState) :
    Engine × List Action :=
  let version := base.tick e.replica
  ({ e with index := e.index.upsert p (.single version state) },
    [.send ⟨p, kindFromState state, version⟩, .recordVersion p state version])

def localModified (e : Engine) (p : RelPath) (sig : ContentSig) : Engine × List Action :=
  match e.index.get p with
  | some entry =>
    if entry.winner.state.eq (.present sig) then (e, [])
    else e.mint p entry.mergedClock (.present sig)
  | none => e.mint p .new (.present sig)

def localRemoved (e : Engine) (p : RelPath) : Engine × List Action :=
  match e.index.get p with
  | some entry =>
    if entry.winner.state.eq .tombstone then (e, [])
    else e.mint p entry.mergedClock .tombstone
  | none => (e, [])

def handleLocal (e : Engine) (c : LocalChange) : Engine × List Action :=
  match c.kind with
  | .modified sig =>
    match e.echo.retire c.path (.present sig) with
    | (echo, true) => ({ e with echo }, [])
    | (_, false) => e.localModified c.path sig
  | .removed =>
    match e.echo.retire c.path .absent with
    | (echo, true) => ({ e with echo }, [])
    | (_, false) => e.localRemoved c.path

/-- Journal `target` for echo suppression and queue the apply. -/
def emitApply (e : Engine) (p : RelPath) (target : Expectation) : Engine × List Action :=
  ({ e with echo := e.echo.journal p target }, [.apply p target])

def remoteUnseen (e : Engine) (p : RelPath) (state : EntryState) (version : VectorClock) :
    Engine × List Action :=
  let e := { e with index := e.index.upsert p (.single version state) }
  match state with
  | .present sig =>
    let (e, actions) := e.emitApply p (.present sig)
    (e, actions ++ [.recordVersion p state version])
  | .tombstone => (e, [.recordVersion p state version])

/-- The conflict notes of an absorb: the winner against every other head. -/
def conflictActions (p : RelPath) (entry : Entry) : List Action :=
  let winner := entry.winner
  (entry.heads.filter fun h => !h.eq winner).map fun h =>
    .conflictResolved p winner.state winner.version h.state h.version entry.adoptionMode

/-- Absorb one incoming version; never sends, the peer converges on its own. -/
def absorbRemote (e : Engine) (p : RelPath) (state : EntryState) (version : VectorClock) :
    Engine × List Action :=
  match e.index.get p with
  | none => e.remoteUnseen p state version
  | some entry =>
    match entry.absorb version state with
    | (_, .alreadyKnown) => (e, [])
    | (entry, .absorbed winnerChanged newConflict novelContent) =>
      let (e, actions) :=
        if winnerChanged then e.emitApply p (expectationFromState entry.winner.state) else (e, [])
      let conflicts := if newConflict then conflictActions p entry else []
      let records := if novelContent then [.recordVersion p state version] else []
      ({ e with index := e.index.upsert p entry }, actions ++ conflicts ++ records)

def handleRemote (e : Engine) (c : RemoteChange) : Engine × List Action :=
  e.absorbRemote c.path (stateFromKind c.kind) c.version

/-- One pass over a list, the actions of its steps in order. -/
def collect (f : Engine → α → Engine × List Action) (e : Engine) (l : List α) :
    Engine × List Action :=
  l.foldl (fun r a => ((f r.1 a).1, r.2 ++ (f r.1 a).2)) (e, [])

/-- Absorb every head of one remote entry, in order. -/
def absorbHeads (e : Engine) (p : RelPath) (hs : List Head) : Engine × List Action :=
  collect (fun e h => e.absorbRemote p h.state h.version) e hs

/-- Whether the peer's heads already cover `version`. -/
def covered (version : VectorClock) (peer : List Head) : Bool :=
  peer.any fun h => match version.compare h.version with
    | .before | .equal => true
    | .after | .concurrent => false

def sendHead (p : RelPath) (h : Head) : Action := .send ⟨p, kindFromState h.state, h.version⟩

/-- One path of `handle_peer_index`. -/
def reconcilePath (remote : Index) (e : Engine) (p : RelPath) : Engine × List Action :=
  match remote.get p with
  | some remoteEntry =>
    let (e, actions) := e.absorbHeads p remoteEntry.heads
    match e.index.get p with
    | some localEntry =>
      let missing := localEntry.heads.filter fun h => !covered h.version remoteEntry.heads
      (e, actions ++ missing.map (sendHead p))
    | none => (e, actions)
  | none =>
    match e.index.get p with
    | some localEntry => (e, localEntry.heads.map (sendHead p))
    | none => (e, [])

/-- The union of both indices' paths, ascending. -/
def unionPaths (a b : Index) : List RelPath :=
  (b.iter.foldl (fun m e => m.insert e.1 ()) (a.entries.map fun _ _ => ())).keys

def handlePeerIndex (e : Engine) (remote : Index) : Engine × List Action :=
  collect (reconcilePath remote) e (unionPaths e.index remote)

/-- Advance the state machine by one event. -/
def handle (e : Engine) : Event → Engine × List Action
  | .local c => e.handleLocal c
  | .remote c => e.handleRemote c
  | .peerIndex i => e.handlePeerIndex i

end Engine

end Tomo
