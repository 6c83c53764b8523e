import Tomo.Tui.Listing

namespace Tomo
set_option autoImplicit true

namespace Tui

namespace Desk

variable {d d' : Desk} {m m' : Model} {p : Pending} {req : CtlRequest}
  {result : Except Text CmdReply}

/-- The plan is that of the last verdict, which has not been undone. -/
structure Backing (d : Desk) (plan : UndoPlan) (q : Nat) : Prop where
  latest : d.latest = some ⟨q, .resolve plan.conflictId plan.verdict⟩
  fresh : q ∉ d.undone
  outcome : q ∈ d.succeeded ∨ q ∈ d.failed ∨ ∃ p ∈ d.waiting, p.cmd.seq = q ∧ p.Unsure
  row : ∃ c ∈ d.model.conflicts, c.id = plan.conflictId ∧ c.path = plan.path

/-- The invariant of the undo. -/
structure Planning (d : Desk) : Prop where
  sent : ∀ c ∈ d.issued, c.seq < d.model.nextSeq
  undone : ∀ q ∈ d.undone, q < d.model.nextSeq
  planned : ∀ plan, d.model.undo = some plan → ∃ q, d.Backing plan q

namespace Planning

theorem latest_early (h : Planning d) (hverdict : d.latest = some verdict) :
    verdict.seq < d.model.nextSeq :=
  h.sent verdict (List.mem_of_find?_eq_some hverdict)

/-- What is issued and undone stays, and each plan is still backed. -/
theorem of_frame (h : Planning d) (hissued : d'.issued = d.issued)
    (hseq : d'.model.nextSeq = d.model.nextSeq) (hundone : d'.undone = d.undone)
    (hplanned : ∀ plan, d'.model.undo = some plan →
      d.model.undo = some plan ∧ d'.model.conflicts = d.model.conflicts ∧
        ∀ q, d.Backing plan q → q ∈ d'.succeeded ∨ q ∈ d'.failed ∨
          ∃ p ∈ d'.waiting, p.cmd.seq = q ∧ p.Unsure) : Planning d' := by
  constructor
  · rw [hissued, hseq]
    exact h.sent
  · rw [hundone, hseq]
    exact h.undone
  · intro plan hplan
    obtain ⟨hold, hconf, houtcome⟩ := hplanned plan hplan
    obtain ⟨q, hq⟩ := h.planned plan hold
    refine ⟨q, ?_, ?_, houtcome q hq, ?_⟩
    · rw [latest, hissued]
      exact hq.latest
    · rw [hundone]
      exact hq.fresh
    · rw [hconf]
      exact hq.row

theorem of_ledger (h : Planning (d.dispatch m)) (he : m'.ledger = m.ledger) :
    Planning (d.dispatch m') := by
  obtain ⟨hconf, -, -, hundo, hout, hseq⟩ := Model.ledger_eq he
  have hwaiting : (d.dispatch m').waiting = (d.dispatch m).waiting := by
    rw [dispatch, dispatch, hout]
  have hissued : (d.dispatch m').issued = (d.dispatch m).issued := by
    rw [dispatch, dispatch, hout]
  apply h.of_frame hissued hseq rfl
  intro plan hplan
  refine ⟨hundo.symm.trans hplan, hconf, fun q hq => ?_⟩
  rw [hwaiting]
  exact hq.outcome

/-- One more command is sent. -/
theorem push (h : Planning (d.dispatch m)) (hout : m'.outbox = m.outbox ++ [⟨m.nextSeq, req⟩])
    (hseq : m'.nextSeq = m.nextSeq + 1)
    (hplanned : ∀ plan, m'.undo = some plan → ∃ q, (d.dispatch m').Backing plan q) :
    Planning (d.dispatch m') := by
  constructor
  · intro c hc
    change c ∈ m'.outbox.reverse ++ d.issued at hc
    change c.seq < m'.nextSeq
    rw [hout, List.reverse_append, List.append_assoc] at hc
    rw [hseq]
    rcases List.mem_cons.1 hc with rfl | hc
    · exact Nat.lt_succ_self _
    · exact Nat.lt_succ_of_lt (h.sent c hc)
  · intro q hq
    exact Nat.lt_of_lt_of_eq (Nat.lt_succ_of_lt (h.undone q hq)) hseq.symm
  · exact hplanned

theorem ask (h : Planning (d.dispatch m)) (hreq : req.isVerdict = false) :
    Planning (d.dispatch (m.enqueue req)) := by
  apply h.push rfl rfl
  intro plan hplan
  obtain ⟨q, hq⟩ := h.planned plan hplan
  refine ⟨q, ?_, hq.fresh, ?_, hq.row⟩
  · have hlatest := hq.latest
    rw [latest, dispatch] at hlatest ⊢
    dsimp only at hlatest ⊢
    rw [Model.enqueue, List.reverse_append, List.append_assoc]
    exact (List.find?_cons_of_neg (by rw [hreq]; exact Bool.false_ne_true)).trans hlatest
  · apply hq.outcome.imp_right
    apply Or.imp_right
    rintro ⟨p, hp, hunsure⟩
    refine ⟨p, ?_, hunsure⟩
    rw [waiting_enqueue]
    exact List.mem_append_left _ hp

theorem hide (h : Planning (d.dispatch m)) (hnone : m.undo = none) (id : Int) (v : Verdict) :
    Planning (d.dispatch (m.enqueueResolve id v)) := by
  apply h.push rfl rfl
  intro plan hplan
  exact nomatch hnone.symm.trans hplan

theorem single (h : Planning (d.dispatch m)) (hc : c ∈ m.conflicts) (v : Verdict)
    (version : Option Int) : Planning (d.dispatch
      (({ m with undo := some ⟨c.id, c.path, v, version⟩ } : Model).enqueueResolve c.id v)) := by
  have hout : (({ m with undo := some ⟨c.id, c.path, v, version⟩ } : Model).enqueueResolve
      c.id v).outbox = m.outbox ++ [⟨m.nextSeq, .resolve c.id v⟩] := rfl
  apply h.push hout rfl
  rintro plan ⟨⟩
  refine ⟨m.nextSeq, ?_, ?_, .inr (.inr ?_), c, hc, rfl, rfl⟩
  · rw [latest, dispatch]
    dsimp only
    rw [Model.enqueueResolve, Model.enqueue, List.reverse_append, List.append_assoc]
    exact List.find?_cons_of_pos rfl
  · intro hq
    exact Nat.lt_irrefl _ (h.undone _ hq)
  · refine ⟨{ cmd := ⟨m.nextSeq, .resolve c.id v⟩ }, ?_, rfl, rfl⟩
    apply List.mem_append_right
    exact List.mem_map_of_mem (List.mem_append_right _ (List.mem_singleton_self _))

theorem asks (h : Planning (d.dispatch m)) (ha : m.Asks m') : Planning (d.dispatch m') := by
  induction ha with
  | refl => exact h
  | still _ he ih => exact ih.of_ledger he
  | ask _ hreq ih => exact ih.ask hreq.1

theorem unplanned (h : Planning (d.dispatch m)) :
    Planning (d.dispatch { m with undo := none }) :=
  h.of_frame rfl rfl rfl nofun

theorem resolveAll (h : Planning (d.dispatch m)) (hnone : m.undo = none) (ids : List Int)
    (v : Verdict) : Planning (d.dispatch (m.resolveAll ids v)) := by
  induction ids generalizing m with
  | nil => exact h
  | cons id ids ih => exact ih (h.hide hnone id v) hnone

theorem turn (h : Planning (d.dispatch m)) (ht : m.Turn m') : Planning (d.dispatch m') := by
  cases ht with
  | asks ha => exact h.asks ha
  | verdicts ids v ha => exact (h.unplanned.resolveAll rfl ids v).asks ha
  | single c v version hc ha => exact (h.single hc v version).asks ha

theorem askAll (h : Planning (d.dispatch m)) {reqs : List CtlRequest}
    (hreqs : ∀ req ∈ reqs, req.isVerdict = false) :
    Planning (d.dispatch (reqs.foldl Model.enqueue m)) := by
  refine List.foldlRecOn (motive := fun m => Planning (d.dispatch m)) reqs Model.enqueue h ?_
  intro m hm req hreq
  exact hm.ask (hreqs req hreq)

theorem undo (h : Planning (d.dispatch m)) (hundo : m.undo = some plan) :
    Planning (d.dispatch m.undoLast) := by
  rw [Model.undoLast, hundo]
  apply ask _ rfl
  have hasked := h.unplanned.askAll (Model.undoRequests_plain plan)
  exact hasked.of_frame rfl rfl rfl fun plan hplan => ⟨hplan, rfl, fun q hq => hq.outcome⟩

theorem input (h : Planning d) (hout : d.model.outbox = [])
    (hmsg : ∀ outcome, msg ≠ .cmd outcome) : Planning (d.input msg) := by
  rw [← dispatch_self hout] at h
  rw [Desk.input]
  cases hu : d.model.undoing msg with
  | none => exact h.turn (Model.input_turn hmsg hu)
  | some plan =>
    obtain ⟨hundo, heq⟩ := Model.undo_eq hu
    have hnext := h.undo hundo
    rw [heq]
    constructor
    · exact hnext.sent
    · intro q hq
      rcases List.mem_append.1 hq with hq | hq
      · obtain ⟨verdict, hverdict, rfl⟩ := Option.map_eq_some_iff.1 (Option.mem_toList.1 hq)
        apply hnext.sent verdict
        exact List.mem_append_right _ (List.mem_of_find?_eq_some hverdict)
      · exact hnext.undone q hq
    · intro plan' hplan'
      exact nomatch (Model.undoLast_undo hundo).symm.trans hplan'

theorem pop (h : Planning d) (hw : d.waiting = p :: rest) (ha : p.answer = some result) :
    Planning (d.popped p rest result) := by
  refine h.of_frame rfl ?_ rfl fun plan hplan => ?_
  · exact (d.model.taken_frame p.cmd.seq result).1
  by_cases hlist : ∃ rows, result = .ok (.conflicts rows)
  · obtain ⟨rows, rfl⟩ := hlist
    cases hplan
  · obtain ⟨hconf, hundo⟩ := d.model.taken_conflicts p.cmd.seq
      fun rows heq => hlist ⟨rows, heq⟩
    refine ⟨hundo.symm.trans hplan, hconf, fun q hq => ?_⟩
    rcases hq.outcome with hsucceeded | hfailed | ⟨p', hp', rfl, hunsure⟩
    · exact .inl hsucceeded
    · refine .inr (.inl ?_)
      rw [popped]
      dsimp only
      split
      · exact hfailed
      · exact List.mem_cons_of_mem _ hfailed
    · rw [hw] at hp'
      rcases List.mem_cons.1 hp' with rfl | hp'
      · obtain ⟨text, rfl⟩ := hunsure.failed ha
        exact .inr (.inl List.mem_cons_self)
      · exact .inr (.inr ⟨p', hp', rfl, hunsure⟩)

theorem deliver (h : Planning d) (hout : d.model.outbox = []) (hw : d.waiting = p :: rest)
    (ha : p.answer = some result) : Planning (d.deliver p rest result) := by
  have hpop := h.pop hw ha
  have hout' : (d.popped p rest result).model.outbox = [] :=
    (d.model.taken_frame p.cmd.seq result).2.1.trans hout
  rw [← dispatch_self hout'] at hpop
  exact hpop.asks (d.model.ingestCmd_asks p.cmd.seq result)

theorem execute (h : Planning d) (hp : d.waiting[i]? = some p)
    (hexec : d.execute i p execution = some d') : Planning d' := by
  obtain ⟨hmodel, hissued, hundone⟩ := execute_frame hexec
  refine h.of_frame hissued (by rw [hmodel]) hundone fun plan hplan => ?_
  refine ⟨by rwa [hmodel] at hplan, by rw [hmodel], fun q hq => ?_⟩
  have hstays : ∀ (e : Desk) (result : Except Text CmdReply), e.waiting = d.waiting →
      e.failed = d.failed → (q ∈ d.succeeded ∨ q ∈ e.failed ∨
        ∃ p' ∈ (e.answer i p result).waiting, p'.cmd.seq = q ∧ p'.Unsure) ∨
      q = p.cmd.seq ∧ ∃ reply, result = .ok reply := by
    intro e result he hf
    rw [hf]
    rcases hq.outcome with hs | hf | ⟨p', hp', rfl, hunsure⟩
    · exact .inl (.inl hs)
    · exact .inl (.inr (.inl hf))
    · rw [← he] at hp hp'
      rcases unsure_answer result hp hp' hunsure with ⟨p'', hp'', hcmd, hunsure'⟩ | ⟨rfl, hreply⟩
      · exact .inl (.inr (.inr ⟨p'', hp'', by rw [hcmd], hunsure'⟩))
      · exact .inr ⟨rfl, hreply⟩
  obtain ⟨hwaiting, -, -, hsucceeded, hfailed, -⟩ := d.perform_frame p.cmd.req
  cases execution with
  | done reply =>
    rw [Desk.execute] at hexec
    split at hexec
    case isFalse => cases hexec
    cases hexec
    rcases hstays _ (.ok reply) hwaiting hfailed with hout | ⟨rfl, -⟩
    · exact hout.imp_left (List.mem_cons_of_mem _)
    · exact .inl List.mem_cons_self
  | failed effect text =>
    cases hexec
    have hnot : ¬(q = p.cmd.seq ∧ ∃ reply : CmdReply, Except.error text = .ok reply) := by
      rintro ⟨-, reply, ⟨⟩⟩
    split
    · refine ((hstays _ _ hwaiting hfailed).resolve_right hnot).imp_left fun hs => ?_
      rw [Desk.answer]
      rwa [hsucceeded]
    · exact (hstays d _ rfl rfl).resolve_right hnot

theorem step (h : Planning d) (hout : d.model.outbox = []) (hstep : d.Stepped move d') :
    Planning d' := by
  cases hstep with
  | input hmsg => exact h.input hout hmsg
  | execute hp hopen hexec => exact h.execute hp hexec
  | reply hw ha => exact h.deliver hout hw ha
  | others id resolved =>
    exact h.of_frame rfl rfl rfl fun plan hplan => ⟨hplan, rfl, fun q hq => hq.outcome⟩
  | arise row =>
    exact h.of_frame rfl rfl rfl fun plan hplan => ⟨hplan, rfl, fun q hq => hq.outcome⟩

end Planning

theorem Listing.settled (h : Listing d) (hwaiting : d.waiting = [])
    (hlast : d.lastList = some (d.version, rows)) : d.model.visibleConflicts = rows := by
  rw [Model.visibleConflicts, (h.shown _ rows hlast).2]
  apply List.filter_eq_self.2
  intro c hc
  rw [decide_eq_true_eq]
  intro hid
  obtain ⟨p, hp, -⟩ := h.listed rows hlast c hc hid
  rw [hwaiting] at hp
  cases hp

/-- A verdict that fails shows its own row, whatever else is on its way. -/
theorem Listing.failure {id : Int} (h : Listing d) (hw : d.waiting = p :: rest)
    (hverdict : p.Resolves id) :
    (d.deliver p rest (.error text)).model.visibleConflicts =
      d.model.conflicts.filter fun c => c.id ∉ d.model.pendingResolved ∨ c.id = id := by
  have htracked := h.tracked p (by rw [hw]; exact List.mem_cons_self) id hverdict
  obtain ⟨hconf, hres, -, -⟩ := (d.model.ingestCmd_asks p.cmd.seq (.error text)).verdicts
  have hnot : ∀ rows, (.error text : Except Text CmdReply) ≠ .ok (.conflicts rows) := nofun
  rw [(d.model.taken_conflicts p.cmd.seq hnot).1] at hconf
  rw [Model.taken_failure htracked] at hres
  change (d.model.ingestCmd ⟨p.cmd.seq, .error text⟩).visibleConflicts = _
  rw [Model.visibleConflicts, hconf, hres]
  apply List.filter_congr
  intro c _
  apply decide_eq_decide.2
  rw [List.mem_filter, decide_eq_true_eq, Classical.not_and_iff_not_or_not, Classical.not_not]

/-- What an undo that is careful takes back, and what it sends. -/
theorem Planning.undone_backed (h : Planning d) (hout : d.model.outbox = [])
    (hcareful : d.Careful (.input msg)) (hplan : d.model.undoing msg = some plan) :
    (∃ q, d.latest = some ⟨q, .resolve plan.conflictId plan.verdict⟩ ∧ q ∈ d.succeeded ∧
      q ∉ d.undone ∧ (d.input msg).undone = q :: d.undone) ∧
    (∃ c ∈ d.model.conflicts, c.id = plan.conflictId ∧ c.path = plan.path) ∧
    ∃ cmds, (d.input msg).issued = cmds ++ d.issued ∧
      (cmds.map OutCommand.req).reverse = Model.undoRequests plan ++ [.conflictsList] := by
  obtain ⟨hundo, heq⟩ := Model.undo_eq hplan
  obtain ⟨q, hq⟩ := h.planned plan hundo
  obtain ⟨hsure, hnotFailed⟩ := hcareful (Option.isSome_of_eq_some hplan) _ hq.latest
  refine ⟨⟨q, hq.latest, ?_, hq.fresh, ?_⟩, hq.row, ?_⟩
  · rcases hq.outcome with hs | hf | ⟨p, hp, hseq, hunsure⟩
    · exact hs
    · exact absurd hf hnotFailed
    · exact absurd hunsure (hsure p hp hseq)
  · rw [Desk.input, hplan, hq.latest]
    rfl
  · obtain ⟨cmds, hcmds, hreqs⟩ := Model.undoLast_sends hundo
    refine ⟨cmds.reverse, ?_, ?_⟩
    · rw [Desk.input, dispatch, heq, hcmds, hout, List.nil_append]
    · rw [List.map_reverse, List.reverse_reverse, hreqs]

theorem Stepped.drained (h : d.Stepped move d') (hout : d.model.outbox = []) :
    d'.model.outbox = [] := by
  cases h with
  | input hmsg => rfl
  | execute hp hopen hexec => rwa [(execute_frame hexec).1]
  | reply hw ha => rfl
  | others id resolved => exact hout
  | arise row => exact hout

/-- Only an undo takes a verdict back. -/
theorem Stepped.sends (h : d.Stepped move d') (hout : d.model.outbox = [])
    (hundoing : ∀ msg, move = .input msg → d.model.undoing msg = none) :
    ∃ cmds, d'.issued = cmds ++ d.issued ∧ ∀ c ∈ cmds, ∀ id, c.req ≠ .conflictUnresolve id := by
  cases h with
  | input hmsg =>
    obtain ⟨cmds, hcmds, hnot⟩ := (Model.input_turn hmsg (hundoing _ rfl)).sends
    refine ⟨cmds.reverse, ?_, fun c hc => hnot c (List.mem_reverse.1 hc)⟩
    rw [Desk.input, dispatch, hcmds, hout, List.nil_append]
  | execute hp hopen hexec => exact ⟨[], (execute_frame hexec).2.1, List.forall_mem_nil _⟩
  | @reply p rest result hw ha =>
    obtain ⟨cmds, hcmds, hplain⟩ := (d.model.ingestCmd_asks p.cmd.seq result).sends
    refine ⟨cmds.reverse, ?_, fun c hc => (hplain c (List.mem_reverse.1 hc)).2⟩
    rw [(d.model.taken_frame p.cmd.seq result).2.1, hout, List.nil_append] at hcmds
    rw [Desk.deliver, dispatch, ← hcmds]
    rfl
  | others id resolved => exact ⟨[], rfl, List.forall_mem_nil _⟩
  | arise row => exact ⟨[], rfl, List.forall_mem_nil _⟩

end Desk

theorem CarefulRun.invariants (h : CarefulRun d) :
    d.model.outbox = [] ∧ d.Listing ∧ d.Planning := by
  induction h with
  | start foreground table =>
    refine ⟨rfl, ?_, ?_⟩
    · constructor
      · exact fun p hp => absurd hp List.not_mem_nil
      · exact List.nodup_nil
      · exact fun p hp => absurd hp List.not_mem_nil
      · exact fun p hp => absurd hp List.not_mem_nil
      · exact fun s rows hlast => nomatch hlast
      · exact fun rows hlast => nomatch hlast
      · exact fun i p rows hp => nomatch hp
    · constructor
      · exact fun c hc => absurd hc List.not_mem_nil
      · exact fun q hq => absurd hq List.not_mem_nil
      · exact fun plan hplan => nomatch hplan
  | step _ hcareful hstep ih =>
    obtain ⟨hout, hlisting, hplanning⟩ := ih
    have hstepped := Desk.step_cases hstep
    exact ⟨hstepped.drained hout, hlisting.step hout hcareful hstepped,
      hplanning.step hout hstepped⟩

/-- Every run of the interface whose steps are careful settles. -/
theorem Desk.settles_run (hrun : CarefulRun d) (hcareful : d.Careful move)
    (hstep : d.step move = some d') : d.Settles move d' := by
  obtain ⟨hout, hlisting, hplanning⟩ := hrun.invariants
  have hstepped := step_cases hstep
  have hnext := hlisting.step hout hcareful hstepped
  constructor
  · intro hwaiting rows hlast
    exact hnext.settled hwaiting hlast
  · rintro rfl p rest id text hw hverdict ha
    cases hstepped with
    | reply hw' ha' =>
      rw [hw] at hw'
      cases hw'
      rw [ha] at ha'
      cases ha'
      exact hlisting.failure hw hverdict
  · rintro msg plan rfl hplan
    cases hstepped with
    | input hmsg => exact hplanning.undone_backed hout hcareful hplan
  · exact hstepped.sends hout

theorem CarefulRun.of_run (h : CarefulRun d) (hrun : d.runCarefully moves = some d') :
    CarefulRun d' := by
  induction moves generalizing d with
  | nil =>
    cases hrun
    exact h
  | cons move moves ih =>
    obtain ⟨d₁, hstep, hrest⟩ := Option.bind_eq_some_iff.1 hrun
    dsimp only at hstep
    split at hstep
    · rename_i hcareful
      exact ih (h.step hcareful hstep) hrest
    · cases hstep

/-- A session with one conflict. -/
def clash : ConflictRow := ⟨1, ['f'], 0, .you⟩

def clashing : Desk := { table := [⟨clash, false⟩] }

/-- Open the conflicts, with the only one on the list, and keep what is on disk. -/
def keeping : List Move :=
  [.input (.key (.char 'c')), .execute 0 (.done (.conflicts [clash])), .reply,
    .execute 0 (.failed false []), .reply, .input (.key .enter)]

/-- The verdict succeeds. -/
def kept : List Move := keeping ++ [.execute 0 (.done .resolved), .reply]

/-- A verdict that has succeeded is taken back. -/
theorem settles_run_undo : ∃ d d', clashing.runCarefully kept = some d ∧
    d.step (.input (.key (.char 'u'))) = some d' ∧ d.Settles (.input (.key (.char 'u'))) d' := by
  have hrun : (clashing.runCarefully kept).map (fun d =>
      decide (d.Careful (.input (.key (.char 'u'))))) = some true := by
    decide +kernel
  obtain ⟨d, hd, hcareful⟩ := Option.map_eq_some_iff.1 hrun
  have hreached : CarefulRun d := (CarefulRun.start false _).of_run hd
  exact ⟨d, _, hd, rfl, Desk.settles_run hreached (of_decide_eq_true hcareful) rfl⟩

/-- Another client opens the conflict again, and the next list has it. -/
def reopening : List Move :=
  [.others 1 false, .input (.key .esc), .input (.key (.char 'c')),
    .execute 0 (.done (.conflicts [clash]))]

/-- The conflict that was opened again stays hidden; and a verdict that has not been executed yet is
taken back. -/
theorem clash_unsettled :
    (∃ d d', clashing.run (kept ++ reopening) = some d ∧ d.step .reply = some d' ∧
      ¬d.Settles .reply d') ∧
    ∃ d d', clashing.run keeping = some d ∧ d.step (.input (.key (.char 'u'))) = some d' ∧
      ¬d.Settles (.input (.key (.char 'u'))) d' := by
  constructor
  · have hrun : ((clashing.run (kept ++ reopening)).bind fun d => (d.step .reply).map fun d' =>
        (d'.waiting.isEmpty, d'.lastList, d'.version, d'.model.visibleConflicts)) =
          some (true, some (2, [clash]), 2, []) := by
      decide +kernel
    obtain ⟨d, hd, hmap⟩ := Option.bind_eq_some_iff.1 hrun
    obtain ⟨d', hd', heq⟩ := Option.map_eq_some_iff.1 hmap
    refine ⟨d, d', hd, hd', fun h => ?_⟩
    rw [Prod.mk.injEq, Prod.mk.injEq, Prod.mk.injEq] at heq
    obtain ⟨hwaiting, hlast, hversion, hvisible⟩ := heq
    rw [← hversion] at hlast
    exact nomatch hvisible.symm.trans (h.listed (List.isEmpty_iff.1 hwaiting) [clash] hlast)
  · have hrun : (clashing.run keeping).map (fun d =>
        ((d.model.undoing (.key (.char 'u'))).isSome, d.latest.map OutCommand.seq, d.succeeded)) =
          some (true, some 2, [0]) := by
      decide +kernel
    obtain ⟨d, hd, heq⟩ := Option.map_eq_some_iff.1 hrun
    rw [Prod.mk.injEq, Prod.mk.injEq] at heq
    obtain ⟨hundoing, hlatest, hsucceeded⟩ := heq
    refine ⟨d, _, hd, rfl, fun h => ?_⟩
    obtain ⟨plan, hplan⟩ := Option.isSome_iff_exists.1 hundoing
    obtain ⟨⟨q, hq, hmem, -⟩, -⟩ := h.undone _ plan rfl hplan
    rw [hq] at hlatest
    cases hlatest
    rw [hsucceeded] at hmem
    exact absurd hmem (by decide)

end Tui

end Tomo
