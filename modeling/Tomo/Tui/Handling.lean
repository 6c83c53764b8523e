import Tomo.Tui.Desk

namespace Tomo
set_option autoImplicit true

namespace Tui

/-- A request that neither gives nor takes back a verdict. -/
def CtlRequest.Plain (req : CtlRequest) : Prop :=
  req.isVerdict = false ∧ ∀ id, req ≠ .conflictUnresolve id

namespace Model

/-- What verdicts depend on. -/
def ledger (m : Model) : List ConflictRow × List Int × List (Nat × Int) × Option UndoPlan ×
    List OutCommand × Nat :=
  (m.conflicts, m.pendingResolved, m.pendingCmds, m.undo, m.outbox, m.nextSeq)

theorem ledger_eq {m m' : Model} (h : m'.ledger = m.ledger) : m'.conflicts = m.conflicts ∧
    m'.pendingResolved = m.pendingResolved ∧ m'.pendingCmds = m.pendingCmds ∧
    m'.undo = m.undo ∧ m'.outbox = m.outbox ∧ m'.nextSeq = m.nextSeq := by
  simpa only [ledger, Prod.mk.injEq] using h

/-- Nothing happens to the verdicts, and only plain requests are sent. -/
inductive Asks (m : Model) : Model → Prop
  | refl : Asks m m
  | still {m₁ m' : Model} : Asks m m₁ → m'.ledger = m₁.ledger → Asks m m'
  | ask {m₁ : Model} {req : CtlRequest} : Asks m m₁ → req.Plain → Asks m (m₁.enqueue req)

namespace Asks

variable {m m₁ m' : Model} {req : CtlRequest}

theorem quiet (h : m'.ledger = m.ledger) : Asks m m' := .still .refl h

theorem setAsk (h : m₁.ledger = m.ledger) (hreq : req.Plain) : Asks m (m₁.enqueue req) :=
  .ask (.quiet h) hreq

theorem after (h : Asks m₁ m') (he : m₁.ledger = m.ledger) : Asks m m' := by
  induction h with
  | refl => exact .quiet he
  | still _ h ih => exact .still ih h
  | ask _ hreq ih => exact .ask ih hreq

end Asks

theorem plain_list : CtlRequest.conflictsList.Plain := ⟨rfl, nofun⟩

variable (m : Model)

theorem ensureDiffLoaded_asks : Asks m m.ensureDiffLoaded := by
  rw [ensureDiffLoaded]
  split
  · exact .refl
  · split
    · exact .refl
    · split
      · exact .refl
      · exact .setAsk rfl ⟨rfl, nofun⟩

theorem ensureVersionDiffLoaded_asks : Asks m m.ensureVersionDiffLoaded := by
  rw [ensureVersionDiffLoaded]
  split
  · exact .refl
  · split
    · split
      · exact .refl
      · exact .setAsk rfl ⟨rfl, nofun⟩
    · exact .refl

theorem clampSelection_asks : Asks m m.clampSelection :=
  (ensureDiffLoaded_asks _).after rfl

theorem moveSel_asks (delta : Int) : Asks m (m.moveSel delta) := by
  rw [moveSel]
  split
  · exact .quiet rfl
  · exact (ensureDiffLoaded_asks _).after rfl

theorem timelineMove_asks (delta : Int) : Asks m (m.timelineMove delta) := by
  rw [timelineMove]
  split
  · exact .quiet rfl
  · exact (ensureVersionDiffLoaded_asks _).after rfl

theorem afterResolve_asks : Asks m m.afterResolve := by
  rw [afterResolve]
  split
  · exact .quiet rfl
  · exact m.clampSelection_asks

theorem requestQuit_asks : Asks m m.requestQuit := by
  rw [requestQuit]
  split <;> exact .quiet rfl

theorem togglePause_asks : Asks m m.togglePause := by
  rw [togglePause]
  split
  · exact .setAsk rfl ⟨rfl, nofun⟩
  · exact .setAsk rfl ⟨rfl, nofun⟩

theorem filterKey_asks (key : Key) : Asks m (m.filterKey key) := by
  apply Asks.quiet
  cases key <;> rfl

theorem mainKey_asks (key : Key) : Asks m (m.mainKey key) := by
  rw [mainKey.eq_def]
  split
  · exact m.filterKey_asks key
  · split
    case h_1 => exact m.requestQuit_asks
    case h_4 | h_5 => exact .setAsk rfl ⟨rfl, nofun⟩
    case h_6 => exact m.togglePause_asks
    all_goals exact .quiet rfl

theorem openTimeline_asks : Asks m m.openTimeline := by
  rw [openTimeline]
  split
  · exact .refl
  · exact .setAsk rfl ⟨rfl, nofun⟩

theorem pickerKey_asks (key : Key) : Asks m (m.pickerKey key) := by
  rw [pickerKey.eq_def]
  split
  case h_2 => exact m.openTimeline_asks
  all_goals exact .quiet rfl

theorem toggleMark_asks : Asks m m.toggleMark :=
  (ensureVersionDiffLoaded_asks _).after rfl

theorem openRestoreConfirm_asks : Asks m m.openRestoreConfirm := by
  rw [openRestoreConfirm]
  split <;> exact .quiet rfl

theorem timelineKey_asks (key : Key) : Asks m (m.timelineKey key) := by
  rw [timelineKey.eq_def]
  split
  case h_1 =>
    split
    · exact (ensureVersionDiffLoaded_asks _).after rfl
    · exact .quiet rfl
  case h_3 => exact m.requestQuit_asks
  case h_5 | h_6 => exact m.timelineMove_asks 1
  case h_7 | h_8 => exact m.timelineMove_asks (-1)
  case h_9 => exact m.toggleMark_asks
  case h_10 => exact m.openRestoreConfirm_asks
  all_goals exact .quiet rfl

theorem foldGroup_asks (collapsed : Bool) : Asks m (m.foldGroup collapsed) := by
  rw [foldGroup]
  split
  · exact (clampSelection_asks _).after rfl
  · exact .refl

theorem ingestEvent_asks (event : Event) : Asks m (m.ingestEvent event) := by
  cases event with
  | conflict id adopted =>
    rw [ingestEvent]
    split
    · split
      · exact .setAsk rfl plain_list
      · exact .quiet rfl
    · split
      · exact .ask .refl plain_list
      · exact .refl
  | heartbeat paused => exact .quiet rfl
  | paused => exact .quiet rfl
  | resumed => exact .quiet rfl
  | other => exact .refl

theorem tick_asks : Asks m m.tick := by
  rw [tick]
  split
  · exact .refl
  · exact .quiet rfl

/-- Verdicts on these conflicts, in order. -/
def resolveAll (m : Model) (ids : List Int) (v : Verdict) : Model :=
  ids.foldl (fun (m : Model) id => m.enqueueResolve id v) m

/-- What an input does: it only asks, it gives verdicts without a plan, it gives one with a plan, or
it takes the last one back. -/
inductive Turn (m : Model) : Model → Prop
  | asks : Asks m m' → Turn m m'
  | verdicts (ids : List Int) (v : Verdict) :
    Asks (({ m with undo := none } : Model).resolveAll ids v) m' → Turn m m'
  | single (c : ConflictRow) (v : Verdict) (version : Option Int) : c ∈ m.conflicts →
    Asks (({ m with undo := some ⟨c.id, c.path, v, version⟩ } : Model).enqueueResolve c.id v) m' →
    Turn m m'

theorem mem_conflicts (hc : c ∈ m.visibleConflicts) : c ∈ m.conflicts := (List.mem_filter.1 hc).1

theorem selectedConflict_mem (hc : m.selectedConflict = some c) : c ∈ m.conflicts := by
  have hget : ∀ {i : Nat}, m.visibleConflicts[i]? = some c → c ∈ m.conflicts := by
    intro i hi
    exact m.mem_conflicts (List.mem_of_getElem? hi)
  rw [selectedConflict] at hc
  split at hc
  · cases hc
  · exact hget hc
  · exact hget hc
  · rw [Option.orElse_eq_some] at hc
    rcases hc with hc | ⟨-, hc⟩
    · obtain ⟨row, -, hrow⟩ := List.exists_of_findSome?_eq_some hc
      split at hrow
      · exact hget hrow
      · cases hrow
    · exact m.mem_conflicts (List.mem_of_find?_eq_some hc)

theorem verdict_turn (v : Verdict) : Turn m (m.verdict v) := by
  rw [verdict]
  split
  · dsimp only
    split
    · exact .asks .refl
    · exact .verdicts _ v (afterResolve_asks _)
  · split
    · exact .asks .refl
    · rename_i c hc
      exact .single c v _ (m.selectedConflict_mem hc) (afterResolve_asks _)

theorem confirmAckAll_turn : Turn m { m.confirmAckAll with modal := none } :=
  .verdicts _ .keep (.still (afterResolve_asks _) rfl)

theorem modalKey_turn (modal : Modal) (key : Key) : Turn m (m.modalKey modal key) := by
  rw [modalKey.eq_def]
  split
  · cases modal with
    | ackAll count => exact m.confirmAckAll_turn
    | stopConfirm => exact .asks (.quiet rfl)
    | restoreConfirm path version size wallMs deleted => exact .asks (.setAsk rfl ⟨rfl, nofun⟩)
  · split
    · exact .asks (.quiet rfl)
    · exact .asks .refl

theorem conflictKey_turn (key : Key) (hu : key ≠ .char 'u') : Turn m (m.conflictKey key) := by
  rw [conflictKey.eq_def]
  split
  case h_4 => exact .asks m.requestQuit_asks
  case h_6 | h_7 => exact .asks (m.moveSel_asks 1)
  case h_8 | h_9 => exact .asks (m.moveSel_asks (-1))
  case h_10 =>
    split
    · exact .asks (m.foldGroup_asks _)
    · exact m.verdict_turn .keep
  case h_11 | h_12 => exact .asks (m.foldGroup_asks true)
  case h_13 | h_14 => exact .asks (m.foldGroup_asks false)
  case h_15 => exact m.verdict_turn .take
  case h_16 => exact m.verdict_turn .both
  case h_17 => exact .asks m.togglePause_asks
  case h_18 =>
    dsimp only
    split
    · exact .asks (.quiet rfl)
    · exact .asks .refl
  case h_19 => exact absurd rfl hu
  all_goals exact .asks (.quiet rfl)

variable {m}

theorem undoing_eq_some {msg : Msg} (h : m.undoing msg = some plan) : msg = .key (.char 'u') ∧
    m.help = false ∧ m.modal = none ∧ m.screen = .conflicts ∧ m.undo = some plan := by
  rw [undoing.eq_def] at h
  split at h
  · split at h
    · rename_i hscreen
      exact ⟨rfl, hscreen.1, hscreen.2.1, hscreen.2.2, h⟩
    · cases h
  · cases h

theorem undoing_u (hhelp : m.help = false) (hmodal : m.modal = none)
    (hscreen : m.screen = .conflicts) : m.undoing (.key (.char 'u')) = m.undo :=
  if_pos ⟨hhelp, hmodal, hscreen⟩

theorem keyPress_turn (h : m.undoing (.key key) = none) : Turn m (m.keyPress key) := by
  rw [keyPress]
  split
  · split
    · exact .asks (.quiet rfl)
    · exact .asks .refl
  · rename_i hhelp
    split
    · exact m.modalKey_turn _ key
    · rename_i hmodal
      split
      · exact .asks (m.mainKey_asks key)
      · rename_i hscreen
        by_cases hu : key = .char 'u'
        · subst hu
          rw [undoing_u (by rwa [Bool.not_eq_true] at hhelp) hmodal hscreen] at h
          rw [conflictKey, undoLast, h]
          exact .asks .refl
        · exact m.conflictKey_turn key hu
      · exact .asks (m.pickerKey_asks key)
      · exact .asks (m.timelineKey_asks key)

theorem input_turn {msg : Msg} (hmsg : ∀ outcome, msg ≠ .cmd outcome)
    (h : m.undoing msg = none) : Turn m (update m msg) := by
  cases msg with
  | event event => exact .asks (m.ingestEvent_asks event)
  | key key => exact keyPress_turn h
  | tick => exact .asks m.tick_asks
  | cmd outcome => exact absurd rfl (hmsg outcome)

theorem undo_eq {msg : Msg} (h : m.undoing msg = some plan) :
    m.undo = some plan ∧ update m msg = m.undoLast := by
  obtain ⟨rfl, hhelp, hmodal, hscreen, hundo⟩ := undoing_eq_some h
  refine ⟨hundo, ?_⟩
  rw [update, keyPress, if_neg (by rw [hhelp]; exact Bool.false_ne_true), hmodal]
  dsimp only
  rw [hscreen]
  rfl

/-- What a reply does to the verdicts, before anything is asked for. -/
def taken (m : Model) (seq : Nat) : Except Text CmdReply → Model
  | .ok (.conflicts rows) => { m with
    conflicts := rows
    pendingResolved := m.pendingResolved.filter fun id => id ∈ rows.map ConflictRow.id
    undo := none }
  | .ok .resolved => { m with pendingCmds := m.pendingCmds.filter (·.1 ≠ seq) }
  | .error _ =>
    match m.pendingCmds.lookup seq with
    | some id => { m with
      pendingCmds := m.pendingCmds.filter (·.1 ≠ seq)
      pendingResolved := m.pendingResolved.filter (· ≠ id) }
    | none => m
  | _ => m

theorem lookup_forgotten (l : List (Nat × Int)) (hq : q ≠ seq) :
    (l.filter (·.1 ≠ seq)).lookup q = l.lookup q := by
  induction l with
  | nil => rfl
  | cons e l ih =>
    obtain ⟨k, id⟩ := e
    by_cases hk : k = seq
    · have hne : (q == k) = false := beq_false_of_ne (hk ▸ hq)
      rw [List.filter_cons_of_neg (by simpa using hk), ih, List.lookup_cons, hne]
    · rw [List.filter_cons_of_pos (by simpa using hk), List.lookup_cons, List.lookup_cons, ih]

/-- A reply changes nothing about the commands but its own, and hides nothing. -/
theorem taken_frame (m : Model) (seq : Nat) (result : Except Text CmdReply) :
    (m.taken seq result).nextSeq = m.nextSeq ∧ (m.taken seq result).outbox = m.outbox ∧
      (m.taken seq result).pendingResolved ⊆ m.pendingResolved ∧
      ∀ q, q ≠ seq → (m.taken seq result).pendingCmds.lookup q = m.pendingCmds.lookup q := by
  cases result with
  | error text =>
    rw [taken]
    split
    · exact ⟨rfl, rfl, List.filter_subset_self _, fun q hq => lookup_forgotten _ hq⟩
    · exact ⟨rfl, rfl, List.Subset.refl _, fun _ _ => rfl⟩
  | ok reply =>
    cases reply with
    | conflicts rows => exact ⟨rfl, rfl, List.filter_subset_self _, fun _ _ => rfl⟩
    | resolved => exact ⟨rfl, rfl, List.Subset.refl _, fun q hq => lookup_forgotten _ hq⟩
    | _ => exact ⟨rfl, rfl, List.Subset.refl _, fun _ _ => rfl⟩

theorem taken_conflicts (m : Model) (seq : Nat) (hlist : ∀ rows, result ≠ .ok (.conflicts rows)) :
    (m.taken seq result).conflicts = m.conflicts ∧ (m.taken seq result).undo = m.undo := by
  rw [taken.eq_def]
  split
  · exact absurd rfl (hlist _)
  · exact ⟨rfl, rfl⟩
  · split <;> exact ⟨rfl, rfl⟩
  · exact ⟨rfl, rfl⟩

theorem taken_failure {text : Text} {id : Int} (h : m.pendingCmds.lookup seq = some id) :
    (m.taken seq (.error text)).pendingResolved = m.pendingResolved.filter (· ≠ id) := by
  rw [taken, h]

theorem ingestFailure_asks (m : Model) (seq : Nat) (text : Text) :
    Asks (m.taken seq (.error text)) (m.ingestFailure seq) := by
  rw [ingestFailure, taken]
  cases m.pendingCmds.lookup seq with
  | some id => exact .ask .refl plain_list
  | none => exact .refl

theorem ingestCmd_asks (m : Model) (seq : Nat) (result : Except Text CmdReply) :
    Asks (m.taken seq result) (m.ingestCmd ⟨seq, result⟩) := by
  cases result with
  | error text => exact m.ingestFailure_asks seq text
  | ok reply =>
    cases reply with
    | conflicts rows => exact clampSelection_asks _
    | historyLog path versions =>
      change Asks m (if m.historyPath = some path then _ else _)
      split
      · exact (ensureVersionDiffLoaded_asks _).after rfl
      · exact .refl
    | _ => exact .quiet rfl

theorem Asks.verdicts {m' : Model} (h : Asks m m') : m'.conflicts = m.conflicts ∧
    m'.pendingResolved = m.pendingResolved ∧ m'.pendingCmds = m.pendingCmds ∧
    m'.undo = m.undo := by
  induction h with
  | refl => exact ⟨rfl, rfl, rfl, rfl⟩
  | still _ h ih =>
    obtain ⟨hconf, hres, hcmds, hundo, -, -⟩ := ledger_eq h
    rw [hconf, hres, hcmds, hundo]
    exact ih
  | ask _ _ ih => exact ih

theorem Asks.sends {m' : Model} (h : Asks m m') :
    ∃ cmds, m'.outbox = m.outbox ++ cmds ∧ ∀ c ∈ cmds, c.req.Plain := by
  induction h with
  | refl => exact ⟨[], (List.append_nil _).symm, nofun⟩
  | still _ h ih =>
    obtain ⟨cmds, ho, hplain⟩ := ih
    obtain ⟨-, -, -, -, hout, -⟩ := ledger_eq h
    exact ⟨cmds, hout.trans ho, hplain⟩
  | @ask m₁ req _ hreq ih =>
    obtain ⟨cmds, ho, hplain⟩ := ih
    refine ⟨cmds ++ [⟨m₁.nextSeq, req⟩], ?_, ?_⟩
    · rw [enqueue, ho, List.append_assoc]
    · intro c hc
      rcases List.mem_append.1 hc with hc | hc
      · exact hplain c hc
      · rw [List.mem_singleton.1 hc]
        exact hreq

theorem resolveAll_sends (m : Model) (ids : List Int) (v : Verdict) :
    ∃ cmds, (m.resolveAll ids v).outbox = m.outbox ++ cmds ∧ ∀ c ∈ cmds, c.req.isVerdict := by
  induction ids generalizing m with
  | nil => exact ⟨[], (List.append_nil _).symm, nofun⟩
  | cons id ids ih =>
    obtain ⟨cmds, ho, hverdict⟩ := ih (m.enqueueResolve id v)
    refine ⟨⟨m.nextSeq, .resolve id v⟩ :: cmds, ?_, ?_⟩
    · rw [resolveAll, List.foldl_cons]
      rw [resolveAll] at ho
      rw [ho]
      exact List.append_assoc ..
    · intro c hc
      rcases List.mem_cons.1 hc with rfl | hc
      · rfl
      · exact hverdict c hc

/-- No input but an undo takes a verdict back. -/
theorem Turn.sends {m' : Model} (h : Turn m m') :
    ∃ cmds, m'.outbox = m.outbox ++ cmds ∧ ∀ c ∈ cmds, ∀ id, c.req ≠ .conflictUnresolve id := by
  cases h with
  | asks h =>
    obtain ⟨cmds, ho, hplain⟩ := h.sends
    exact ⟨cmds, ho, fun c hc => (hplain c hc).2⟩
  | verdicts ids v h =>
    obtain ⟨cmds, ho, hverdict⟩ := resolveAll_sends { m with undo := none } ids v
    obtain ⟨cmds', ho', hplain⟩ := h.sends
    refine ⟨cmds ++ cmds', by rw [ho', ho, List.append_assoc], fun c hc id heq => ?_⟩
    rcases List.mem_append.1 hc with hc | hc
    · have := hverdict c hc
      rw [heq] at this
      cases this
    · exact (hplain c hc).2 id heq
  | single c v version hc h =>
    obtain ⟨cmds, ho, hplain⟩ := h.sends
    refine ⟨⟨m.nextSeq, .resolve c.id v⟩ :: cmds, by rw [ho]; exact List.append_assoc .., ?_⟩
    intro c hc id heq
    rcases List.mem_cons.1 hc with rfl | hc
    · cases heq
    · exact (hplain c hc).2 id heq

theorem undoRequests_plain (plan : UndoPlan) :
    ∀ req ∈ undoRequests plan, req.isVerdict = false := by
  intro req hreq
  rw [undoRequests] at hreq
  split at hreq
  · rcases List.mem_cons.1 hreq with rfl | hreq
    · rfl
    · rw [List.mem_singleton.1 hreq]
      rfl
  · rw [List.mem_singleton.1 hreq]
    rfl

theorem undoLast_undo (h : m.undo = some plan) : m.undoLast.undo = none := by
  rw [undoLast, h]
  dsimp only
  rw [undoRequests]
  split <;> rfl

theorem undoLast_sends (h : m.undo = some plan) :
    ∃ cmds, m.undoLast.outbox = m.outbox ++ cmds ∧
      cmds.map OutCommand.req = undoRequests plan ++ [.conflictsList] := by
  rw [undoLast, h]
  dsimp only
  rw [undoRequests]
  split
  · exact ⟨_, by
      simp only [enqueue, List.foldl_cons, List.foldl_nil, List.append_assoc]
      rfl, rfl⟩
  · exact ⟨_, by
      simp only [enqueue, List.foldl_cons, List.foldl_nil, List.append_assoc]
      rfl, rfl⟩

end Model

end Tui

end Tomo
