import Tomo.Tui.Handling

namespace Tomo
set_option autoImplicit true

namespace Tui

theorem mem_set_of_mem {l : List α} (hx : x ∈ l) (hi : ∀ y, l[i]? = some y → x ≠ y) (a : α) :
    x ∈ l.set i a := by
  obtain ⟨j, hj⟩ := List.mem_iff_getElem?.1 hx
  apply List.mem_of_getElem? (i := j)
  rw [List.getElem?_set_ne, hj]
  rintro rfl
  exact hi x hj rfl

theorem map_set_same {l : List α} (h : l[i]? = some x) (f : α → β) (ha : f a = f x) :
    (l.set i a).map f = l.map f := by
  obtain ⟨hi, rfl⟩ := List.getElem?_eq_some_iff.1 h
  rw [List.map_set, ha, ← List.getElem_map f (h := by rwa [List.length_map])]
  exact List.set_getElem_self _

theorem CtlRequest.target_eq {req : CtlRequest} {id : Int} (h : req.target = some id) :
    ∃ v, req = .resolve id v := by
  cases req with
  | resolve id' v =>
    cases h
    exact ⟨v, rfl⟩
  | _ => cases h

theorem CmdReply.rows_eq {reply : CmdReply} {list : List ConflictRow} (h : list ∈ reply.rows) :
    reply = .conflicts list := by
  cases reply with
  | conflicts rows' =>
    cases h
    rfl
  | _ => cases h

namespace Pending

variable {p : Pending}

theorem rows_eq {list : List ConflictRow} (h : list ∈ p.rows) :
    p.answer = some (.ok (.conflicts list)) := by
  rw [Pending.rows] at h
  split at h
  · rename_i reply ha
    rw [ha, CmdReply.rows_eq h]
  · cases h

theorem Unsure.failed (h : p.Unsure) (ha : p.answer = some result) :
    ∃ text, result = .error text := by
  rw [Unsure, ha] at h
  cases result with
  | error text => exact ⟨text, rfl⟩
  | ok reply => cases h

end Pending

namespace Desk

variable {d d' : Desk} {m m' : Model} {p : Pending} {req : CtlRequest}
  {result : Except Text CmdReply}

/-- The desk without the command whose reply is taken next. -/
def popped (d : Desk) (p : Pending) (rest : List Pending) (result : Except Text CmdReply) : Desk :=
  { d with
    model := d.model.taken p.cmd.seq result
    waiting := rest
    lastList := listOf p result <|> d.lastList
    failed := if result.isOk then d.failed else p.cmd.seq :: d.failed }

/-- No list is up to date. -/
def Stale (d : Desk) : Prop :=
  (∀ q ∈ d.waiting, q.stamp < d.version) ∧ ∀ s rows, d.lastList = some (s, rows) → s < d.version

theorem listOf_none (hlist : ∀ rows, result ≠ .ok (.conflicts rows)) : listOf p result = none := by
  cases result with
  | error text => rfl
  | ok reply =>
    cases reply with
    | conflicts rows => exact absurd rfl (hlist rows)
    | _ => rfl

theorem dispatch_self (h : d.model.outbox = []) : d.dispatch d.model = d := by
  have hm : ({ d.model with outbox := [] } : Model) = d.model := by
    rw [← h]
  rw [dispatch, hm, h, List.map_nil, List.append_nil]
  rfl

theorem perform_frame (d : Desk) (req : CtlRequest) : (d.perform req).waiting = d.waiting ∧
    (d.perform req).model = d.model ∧ (d.perform req).issued = d.issued ∧
    (d.perform req).succeeded = d.succeeded ∧ (d.perform req).failed = d.failed ∧
    (d.perform req).undone = d.undone := by
  cases req <;> exact ⟨rfl, rfl, rfl, rfl, rfl, rfl⟩

theorem execute_frame (h : d.execute i p execution = some d') :
    d'.model = d.model ∧ d'.issued = d.issued ∧ d'.undone = d.undone := by
  obtain ⟨-, hmodel, hissued, -, -, hundone⟩ := d.perform_frame p.cmd.req
  cases execution with
  | done reply =>
    rw [execute] at h
    split at h
    · cases h
      exact ⟨hmodel, hissued, hundone⟩
    · cases h
  | failed effect text =>
    cases h
    split
    · exact ⟨hmodel, hissued, hundone⟩
    · exact ⟨rfl, rfl, rfl⟩

/-- What a step can be. -/
inductive Stepped (d : Desk) : Move → Desk → Prop
  | input {msg : Msg} : (∀ outcome, msg ≠ .cmd outcome) → Stepped d (.input msg) (d.input msg)
  | execute {i : Nat} {p : Pending} {execution : Execution} {d' : Desk} :
    d.waiting[i]? = some p → p.answer = none → d.execute i p execution = some d' →
    Stepped d (.execute i execution) d'
  | reply {p : Pending} {rest : List Pending} {result : Except Text CmdReply} :
    d.waiting = p :: rest → p.answer = some result → Stepped d .reply (d.deliver p rest result)
  | others (id : Int) (resolved : Bool) : Stepped d (.others id resolved) (d.mark id resolved)
  | arise (row : ConflictRow) :
    Stepped d (.arise row) { d with table := d.table ++ [⟨row, false⟩] }

theorem step_cases (h : d.step move = some d') : d.Stepped move d' := by
  cases move with
  | input msg =>
    cases msg with
    | cmd outcome => cases h
    | event event => cases h; exact .input nofun
    | key key => cases h; exact .input nofun
    | tick => cases h; exact .input nofun
  | execute i execution =>
    obtain ⟨p, hp, hexec⟩ := Option.bind_eq_some_iff.1 h
    split at hexec
    · rename_i hopen
      exact .execute hp (Option.isNone_iff_eq_none.1 hopen) hexec
    · cases hexec
  | reply =>
    rw [step] at h
    split at h
    · cases h
    · rename_i p rest hw
      obtain ⟨result, ha, rfl⟩ := Option.map_eq_some_iff.1 h
      exact .reply hw ha
  | others id resolved =>
    cases h
    exact .others id resolved
  | arise row =>
    rw [step] at h
    split at h
    · cases h
    · cases h
      exact .arise row

theorem waiting_enqueue (d : Desk) (m : Model) (req : CtlRequest) :
    (d.dispatch (m.enqueue req)).waiting =
      (d.dispatch m).waiting ++ [{ cmd := ⟨m.nextSeq, req⟩ }] := by
  rw [dispatch, dispatch, Model.enqueue, List.map_append, List.append_assoc]
  rfl

theorem unsure_answer (result : Except Text CmdReply) (hp : d.waiting[i]? = some p)
    (hq : q ∈ d.waiting) (hunsure : q.Unsure) :
    (∃ q' ∈ (d.answer i p result).waiting, q'.cmd = q.cmd ∧ q'.Unsure) ∨
      q = p ∧ ∃ reply, result = .ok reply := by
  by_cases hqp : q = p
  · subst hqp
    cases result with
    | ok reply => exact .inr ⟨rfl, reply, rfl⟩
    | error text =>
      refine .inl ⟨{ q with answer := some (.error text), stamp := d.version }, ?_, rfl, rfl⟩
      exact List.mem_set (List.getElem?_eq_some_iff.1 hp).1 _
  · refine .inl ⟨q, mem_set_of_mem hq ?_ _, rfl, hunsure⟩
    intro y hy
    rw [hp] at hy
    cases hy
    exact hqp

/-- The command that is executed had no answer, so it drops nothing. -/
theorem drops_answer {id : Int} (hp : d.waiting[i]? = some p) (hopen : p.answer = none)
    (hdrops : ∃ q ∈ d.waiting.take j, q.Drops id) :
    ∃ q ∈ (d.answer i p result).waiting.take j, q.Drops id := by
  obtain ⟨q, hq, hdrop⟩ := hdrops
  refine ⟨q, ?_, hdrop⟩
  rw [Desk.answer, List.take_set]
  apply mem_set_of_mem hq
  rintro y hy rfl
  rw [List.getElem?_take] at hy
  split at hy
  · rw [hp] at hy
    cases hy
    obtain ⟨rows, hrows, -⟩ := hdrop
    exact nomatch hopen.symm.trans (Pending.rows_eq hrows)
  · cases hy

/-- The invariant of the list: the lists that are up to date show each conflict, or are about to. -/
structure Listing (d : Desk) : Prop where
  early : ∀ p ∈ d.waiting, p.cmd.seq < d.model.nextSeq
  single : (d.waiting.map fun p => p.cmd.seq).Nodup
  tracked : ∀ p ∈ d.waiting, ∀ id, p.Resolves id → d.model.pendingCmds.lookup p.cmd.seq = some id
  stamps : ∀ p ∈ d.waiting, p.stamp ≤ d.version
  shown : ∀ s rows, d.lastList = some (s, rows) → s ≤ d.version ∧ d.model.conflicts = rows
  listed : ∀ rows, d.lastList = some (d.version, rows) → ∀ c ∈ rows,
    c.id ∈ d.model.pendingResolved → d.Doubts c.id
  coming : ∀ i p rows, d.waiting[i]? = some p → p.answer = some (.ok (.conflicts rows)) →
    p.stamp = d.version → ∀ c ∈ rows, c.id ∈ d.model.pendingResolved →
    d.Doubts c.id ∨ ∃ q ∈ d.waiting.take i, q.Drops c.id

namespace Listing

/-- Fewer conflicts are hidden, and nothing else changes. -/
theorem of_frame (h : Listing d) (hwaiting : d'.waiting = d.waiting)
    (hseq : d'.model.nextSeq = d.model.nextSeq) (hcmds : d'.model.pendingCmds = d.model.pendingCmds)
    (hres : d'.model.pendingResolved ⊆ d.model.pendingResolved)
    (hconf : d'.model.conflicts = d.model.conflicts) (hversion : d'.version = d.version)
    (hlast : d'.lastList = d.lastList) : Listing d' := by
  have hdoubts : ∀ id, d.Doubts id → d'.Doubts id := by
    intro id hid
    rwa [Doubts, hwaiting]
  constructor
  · rw [hwaiting, hseq]
    exact h.early
  · rw [hwaiting]
    exact h.single
  · rw [hwaiting, hcmds]
    exact h.tracked
  · rw [hwaiting, hversion]
    exact h.stamps
  · rw [hlast, hversion, hconf]
    exact h.shown
  · rw [hlast, hversion]
    intro rows hrows c hc hid
    exact hdoubts _ (h.listed rows hrows c hc (hres hid))
  · rw [hwaiting, hversion]
    intro i p rows hp ha hs c hc hid
    exact (h.coming i p rows hp ha hs c hc (hres hid)).imp (hdoubts _) fun hdrops => hdrops

/-- One more command is sent; it hides a conflict only if it resolves it. -/
theorem append (h : Listing d)
    (hwaiting : d'.waiting = d.waiting ++ [{ cmd := ⟨d.model.nextSeq, req⟩ }])
    (hseq : d'.model.nextSeq = d.model.nextSeq + 1)
    (hnew : ∀ id, req.target = some id →
      d'.model.pendingCmds.lookup d.model.nextSeq = some id)
    (hcmds : ∀ q < d.model.nextSeq,
      d'.model.pendingCmds.lookup q = d.model.pendingCmds.lookup q)
    (hres : ∀ id ∈ d'.model.pendingResolved, id ∈ d.model.pendingResolved ∨ req.target = some id)
    (hconf : d'.model.conflicts = d.model.conflicts) (hversion : d'.version = d.version)
    (hlast : d'.lastList = d.lastList) : Listing d' := by
  have hmem : ∀ p, p ∈ d'.waiting → p ∈ d.waiting ∨ p = { cmd := ⟨d.model.nextSeq, req⟩ } := by
    intro p hp
    rwa [hwaiting, List.mem_append, List.mem_singleton] at hp
  have hdoubts : ∀ id, d.Doubts id → d'.Doubts id := by
    rintro id ⟨p, hp, hid⟩
    exact ⟨p, by rw [hwaiting]; exact List.mem_append_left _ hp, hid⟩
  have hhides : ∀ id ∈ d'.model.pendingResolved, id ∉ d.model.pendingResolved → d'.Doubts id := by
    intro id hid hnot
    have htarget := (hres id hid).resolve_left hnot
    refine ⟨{ cmd := ⟨d.model.nextSeq, req⟩ }, ?_, htarget, rfl⟩
    rw [hwaiting]
    exact List.mem_append_right _ (List.mem_singleton_self _)
  constructor
  · intro p hp
    rw [hseq]
    rcases hmem p hp with hp | rfl
    · exact Nat.lt_succ_of_lt (h.early p hp)
    · exact Nat.lt_succ_self _
  · rw [hwaiting, List.map_append]
    apply List.Nodup.append h.single (List.nodup_singleton _)
    apply List.disjoint_singleton.2
    intro hq
    obtain ⟨p, hp, heq⟩ := List.mem_map.1 hq
    exact Nat.lt_irrefl _ (heq ▸ h.early p hp)
  · intro p hp id hid
    rcases hmem p hp with hp | rfl
    · rw [hcmds _ (h.early p hp)]
      exact h.tracked p hp id hid
    · exact hnew id hid
  · intro p hp
    rw [hversion]
    rcases hmem p hp with hp | rfl
    · exact h.stamps p hp
    · exact Nat.zero_le _
  · rw [hlast, hversion, hconf]
    exact h.shown
  · rw [hlast, hversion]
    intro rows hrows c hc hid
    by_cases hold : c.id ∈ d.model.pendingResolved
    · exact hdoubts _ (h.listed rows hrows c hc hold)
    · exact hhides _ hid hold
  · rw [hversion]
    intro i p rows hp ha hs c hc hid
    by_cases hold : c.id ∈ d.model.pendingResolved
    · rw [hwaiting] at hp ⊢
      rcases Nat.lt_or_ge i d.waiting.length with hi | hi
      · rw [List.getElem?_append_left hi] at hp
        rw [List.take_append_of_le_length (Nat.le_of_lt hi)]
        exact (h.coming i p rows hp ha hs c hc hold).imp (hdoubts _) fun hdrops => hdrops
      · rw [List.getElem?_append_right hi] at hp
        rw [List.mem_singleton.1 (List.mem_of_getElem? hp)] at ha
        cases ha
    · exact .inl (hhides _ hid hold)

theorem of_ledger (h : Listing (d.dispatch m)) (he : m'.ledger = m.ledger) :
    Listing (d.dispatch m') := by
  obtain ⟨hconf, hres, hcmds, -, hout, hseq⟩ := Model.ledger_eq he
  have hsub : m'.pendingResolved ⊆ m.pendingResolved := by
    rw [hres]
    exact List.Subset.refl _
  refine h.of_frame ?_ hseq hcmds hsub hconf rfl rfl
  rw [dispatch, dispatch, hout]

theorem ask (h : Listing (d.dispatch m)) (hreq : req.isVerdict = false) :
    Listing (d.dispatch (m.enqueue req)) := by
  apply h.append (waiting_enqueue d m req) rfl
  · intro id hid
    rw [CtlRequest.isVerdict, hid] at hreq
    cases hreq
  · exact fun _ _ => rfl
  · exact fun _ hid => .inl hid
  · rfl
  · rfl
  · rfl

theorem hide (h : Listing (d.dispatch m)) (id : Int) (v : Verdict) :
    Listing (d.dispatch (m.enqueueResolve id v)) := by
  have hwaiting : (d.dispatch (m.enqueueResolve id v)).waiting =
      (d.dispatch m).waiting ++ [{ cmd := ⟨m.nextSeq, .resolve id v⟩ }] :=
    waiting_enqueue d m (.resolve id v)
  apply h.append hwaiting rfl
  · rintro id ⟨⟩
    exact List.lookup_cons_self
  · intro q hq
    have hne : (q == m.nextSeq) = false := beq_false_of_ne (Nat.ne_of_lt hq)
    change List.lookup q ((m.nextSeq, id) :: m.pendingCmds) = _
    rw [List.lookup_cons, hne]
    rfl
  · intro id' hid'
    rcases List.mem_insert_iff.1 hid' with rfl | hid'
    · exact .inr rfl
    · exact .inl hid'
  · rfl
  · rfl
  · rfl

theorem asks (h : Listing (d.dispatch m)) (ha : m.Asks m') : Listing (d.dispatch m') := by
  induction ha with
  | refl => exact h
  | still _ he ih => exact ih.of_ledger he
  | ask _ hreq ih => exact ih.ask hreq.1

theorem resolveAll (h : Listing (d.dispatch m)) (ids : List Int) (v : Verdict) :
    Listing (d.dispatch (m.resolveAll ids v)) := by
  induction ids generalizing m with
  | nil => exact h
  | cons id ids ih => exact ih (h.hide id v)

theorem turn (h : Listing (d.dispatch m)) (ht : m.Turn m') : Listing (d.dispatch m') := by
  cases ht with
  | asks ha => exact h.asks ha
  | verdicts ids v ha =>
    have hnone : Listing (d.dispatch { m with undo := none }) :=
      h.of_frame rfl rfl rfl (List.Subset.refl _) rfl rfl rfl
    exact (hnone.resolveAll ids v).asks ha
  | single c v version hc ha =>
    have hplan : Listing (d.dispatch { m with undo := some ⟨c.id, c.path, v, version⟩ }) :=
      h.of_frame rfl rfl rfl (List.Subset.refl _) rfl rfl rfl
    exact (hplan.hide c.id v).asks ha

/-- The next reply is taken from those that are waited for. -/
theorem pop (h : Listing d) (hw : d.waiting = p :: rest) (ha : p.answer = some result) :
    Listing (d.popped p rest result) := by
  obtain ⟨hseq, -, hres, hcmds⟩ := d.model.taken_frame p.cmd.seq result
  have hp : p ∈ d.waiting := by
    rw [hw]
    exact List.mem_cons_self
  have hrest : ∀ q ∈ rest, q ∈ d.waiting := by
    intro q hq
    rw [hw]
    exact List.mem_cons_of_mem p hq
  obtain ⟨hfirst, hsingle⟩ : (∀ q ∈ rest, q.cmd.seq ≠ p.cmd.seq) ∧
      (rest.map fun q => q.cmd.seq).Nodup := by
    have hnodup := h.single
    rw [hw, List.map_cons, List.nodup_cons] at hnodup
    exact ⟨fun q hq heq => hnodup.1 (heq ▸ List.mem_map_of_mem hq), hnodup.2⟩
  have hdoubts : ∀ id ∈ (d.popped p rest result).model.pendingResolved, d.Doubts id →
      (d.popped p rest result).Doubts id := by
    rintro id hid ⟨q, hq, hverdict, hunsure⟩
    rw [hw] at hq
    rcases List.mem_cons.1 hq with rfl | hq
    · -- The verdict that was in doubt has failed, and does not hide its row any more.
      obtain ⟨text, rfl⟩ := hunsure.failed ha
      rw [popped, Model.taken_failure (h.tracked q hp id hverdict), List.mem_filter] at hid
      exact absurd rfl (of_decide_eq_true hid.2)
    · exact ⟨q, hq, hverdict, hunsure⟩
  constructor
  · intro q hq
    exact Nat.lt_of_lt_of_eq (h.early q (hrest q hq)) hseq.symm
  · exact hsingle
  · intro q hq id hid
    exact (hcmds _ (hfirst q hq)).trans (h.tracked q (hrest q hq) id hid)
  · intro q hq
    exact h.stamps q (hrest q hq)
  · intro s rows hlast
    by_cases hlist : ∃ rows, result = .ok (.conflicts rows)
    · obtain ⟨rows, rfl⟩ := hlist
      cases hlast
      exact ⟨h.stamps p hp, rfl⟩
    · have hlist' := fun rows heq => hlist ⟨rows, heq⟩
      rw [popped, listOf_none hlist'] at hlast
      rw [popped, (Model.taken_conflicts _ _ hlist').1]
      exact h.shown s rows hlast
  · intro rows hlast c hc hid
    apply hdoubts c.id hid
    by_cases hlist : ∃ rows, result = .ok (.conflicts rows)
    · obtain ⟨rows', rfl⟩ := hlist
      have heq : some (p.stamp, rows') = some (d.version, rows) := hlast
      rw [Option.some.injEq, Prod.mk.injEq] at heq
      obtain ⟨hstamp, rfl⟩ := heq
      have hcoming := h.coming 0 p _ (by rw [hw]; rfl) ha hstamp c hc (hres hid)
      apply hcoming.resolve_right
      rintro ⟨q, hq, -⟩
      exact absurd hq List.not_mem_nil
    · have hlist' := fun rows heq => hlist ⟨rows, heq⟩
      rw [popped, listOf_none hlist'] at hlast
      exact h.listed rows hlast c hc (hres hid)
  · intro i q rows hq haq hs c hc hid
    have hcoming := h.coming (i + 1) q rows (by rw [hw]; exact hq) haq hs c hc (hres hid)
    rw [hw] at hcoming
    apply hcoming.imp (hdoubts c.id hid)
    rintro ⟨q', hq', hdrops⟩
    rcases List.mem_cons.1 hq' with rfl | hq'
    · obtain ⟨rows', hrows, hnot⟩ := hdrops
      have hrows' := Pending.rows_eq hrows
      rw [ha] at hrows'
      cases hrows'
      have hin := (List.mem_filter.1 hid).2
      exact absurd (of_decide_eq_true hin) hnot
    · exact ⟨q', hq', hdrops⟩

theorem mark (h : Listing d) (id : Int) (resolved : Bool) : Listing (d.mark id resolved) := by
  constructor
  · exact h.early
  · exact h.single
  · exact h.tracked
  · exact fun p hp => Nat.le_succ_of_le (h.stamps p hp)
  · intro s rows hlast
    obtain ⟨hs, hrows⟩ := h.shown s rows hlast
    exact ⟨Nat.le_succ_of_le hs, hrows⟩
  · intro rows hlast
    exact absurd (h.shown _ rows hlast).1 (Nat.not_succ_le_self _)
  · intro i p rows hp _ hs
    exact absurd (hs ▸ h.stamps p (List.mem_of_getElem? hp)) (Nat.not_succ_le_self _)

theorem mark_stale (h : Listing d) (id : Int) (resolved : Bool) : (d.mark id resolved).Stale :=
  ⟨fun q hq => Nat.lt_succ_of_le (h.stamps q hq),
    fun s rows hlast => Nat.lt_succ_of_le (h.shown s rows hlast).1⟩

theorem perform (h : Listing d) (req : CtlRequest) : Listing (d.perform req) := by
  cases req with
  | resolve id v => exact h.mark id true
  | conflictUnresolve id => exact h.mark id false
  | _ => exact h

/-- A command is executed. One that resolves with success leaves no list up to date, and a list that
is computed has its conflicts shown or about to be. -/
theorem answer (h : Listing d) (hp : d.waiting[i]? = some p) (hopen : p.answer = none)
    (hsure : ∀ id reply, p.Resolves id → result = .ok reply →
      d.Stale ∧ ∀ rows, reply ≠ .conflicts rows)
    (hlist : ∀ rows, result = .ok (.conflicts rows) → ∀ c ∈ rows,
      c.id ∈ d.model.pendingResolved → d.Doubts c.id ∨ ∃ q ∈ d.waiting.take i, q.Drops c.id) :
    Listing (d.answer i p result) := by
  have hpmem := List.mem_of_getElem? hp
  have hmem : ∀ q, q ∈ (d.answer i p result).waiting →
      q ∈ d.waiting ∨ q = { p with answer := some result, stamp := d.version } :=
    fun q hq => List.mem_or_eq_of_mem_set hq
  have hdoubts : (¬∃ id reply, p.Resolves id ∧ result = .ok reply) →
      ∀ id, d.Doubts id → (d.answer i p result).Doubts id := by
    rintro hnot id ⟨q, hq, hverdict, hunsure⟩
    rcases unsure_answer result hp hq hunsure with ⟨q', hq', hcmd, hq'unsure⟩ | hdone
    · refine ⟨q', hq', ?_, hq'unsure⟩
      rwa [Pending.Resolves, hcmd]
    · obtain ⟨rfl, reply, hreply⟩ := hdone
      exact absurd ⟨id, reply, hverdict, hreply⟩ hnot
  constructor
  · intro q hq
    rcases hmem q hq with hq | rfl
    · exact h.early q hq
    · exact h.early p hpmem
  · have hseqs : ((d.answer i p result).waiting.map fun q => q.cmd.seq) =
        d.waiting.map fun q => q.cmd.seq := map_set_same hp _ rfl
    rw [hseqs]
    exact h.single
  · intro q hq id hid
    rcases hmem q hq with hq | rfl
    · exact h.tracked q hq id hid
    · exact h.tracked p hpmem id hid
  · intro q hq
    rcases hmem q hq with hq | rfl
    · exact h.stamps q hq
    · exact Nat.le_refl _
  · exact h.shown
  · intro rows hlast c hc hid
    by_cases hclear : ∃ id reply, p.Resolves id ∧ result = .ok reply
    · obtain ⟨id, reply, hverdict, rfl⟩ := hclear
      exact absurd ((hsure id reply hverdict rfl).1.2 _ rows hlast) (Nat.lt_irrefl _)
    · exact hdoubts hclear _ (h.listed rows hlast c hc hid)
  · intro j q rows hq ha hs c hc hid
    by_cases hclear : ∃ id reply, p.Resolves id ∧ result = .ok reply
    · obtain ⟨id, reply, hverdict, rfl⟩ := hclear
      obtain ⟨hstale, hnot⟩ := hsure id reply hverdict rfl
      rcases hmem q (List.mem_of_getElem? hq) with hq | rfl
      · exact absurd (hs ▸ hstale.1 q hq) (Nat.lt_irrefl _)
      · cases ha
        exact absurd rfl (hnot rows)
    · by_cases hji : i = j
      · subst hji
        rw [Desk.answer, List.getElem?_set_self (List.getElem?_eq_some_iff.1 hp).1] at hq
        cases hq
        cases ha
        exact (hlist rows rfl c hc hid).imp (hdoubts hclear _) (drops_answer hp hopen)
      · rw [Desk.answer, List.getElem?_set_ne hji] at hq
        exact (h.coming j q rows hq ha hs c hc hid).imp (hdoubts hclear _) (drops_answer hp hopen)

theorem askAll (h : Listing (d.dispatch m)) {reqs : List CtlRequest}
    (hreqs : ∀ req ∈ reqs, req.isVerdict = false) :
    Listing (d.dispatch (reqs.foldl Model.enqueue m)) := by
  refine List.foldlRecOn (motive := fun m => Listing (d.dispatch m)) reqs Model.enqueue h ?_
  intro m hm req hreq
  exact hm.ask (hreqs req hreq)

theorem undo (h : Listing (d.dispatch m)) (hundo : m.undo = some plan) :
    Listing (d.dispatch m.undoLast) := by
  have hnone : Listing (d.dispatch { m with undo := none }) :=
    h.of_frame rfl rfl rfl (List.Subset.refl _) rfl rfl rfl
  rw [Model.undoLast, hundo]
  apply ask _ rfl
  exact (hnone.askAll (Model.undoRequests_plain plan)).of_frame rfl rfl rfl
    (List.filter_subset_self _) rfl rfl rfl

theorem input (h : Listing d) (hout : d.model.outbox = []) (hmsg : ∀ outcome, msg ≠ .cmd outcome) :
    Listing (d.input msg) := by
  rw [← dispatch_self hout] at h
  have hnext : Listing (d.dispatch (update d.model msg)) := by
    cases hu : d.model.undoing msg with
    | none => exact h.turn (Model.input_turn hmsg hu)
    | some plan =>
      obtain ⟨hundo, heq⟩ := Model.undo_eq hu
      rw [heq]
      exact h.undo hundo
  exact hnext.of_frame rfl rfl rfl (List.Subset.refl _) rfl rfl rfl

theorem deliver (h : Listing d) (hout : d.model.outbox = []) (hw : d.waiting = p :: rest)
    (ha : p.answer = some result) : Listing (d.deliver p rest result) := by
  have hpop := h.pop hw ha
  have hout' : (d.popped p rest result).model.outbox = [] :=
    (d.model.taken_frame p.cmd.seq result).2.1.trans hout
  rw [← dispatch_self hout'] at hpop
  exact hpop.asks (d.model.ingestCmd_asks p.cmd.seq result)

theorem execute (h : Listing d) (hp : d.waiting[i]? = some p) (hopen : p.answer = none)
    (hcareful : d.Careful (.execute i execution)) (hexec : d.execute i p execution = some d') :
    Listing d' := by
  obtain ⟨hwaiting, hmodel, -⟩ := d.perform_frame p.cmd.req
  cases execution with
  | done reply =>
    rw [Desk.execute] at hexec
    split at hexec
    case isFalse => cases hexec
    rename_i haccepts
    cases hexec
    have hanswer : Listing ((d.perform p.cmd.req).answer i p (.ok reply)) := by
      apply (h.perform p.cmd.req).answer (by rwa [hwaiting]) hopen
      · rintro id reply' hverdict ⟨⟩
        obtain ⟨v, hv⟩ := CtlRequest.target_eq hverdict
        rw [hv] at haccepts ⊢
        refine ⟨h.mark_stale id true, ?_⟩
        rintro rows rfl
        cases haccepts
      · rintro rows ⟨⟩
        have hreq : p.cmd.req = .conflictsList := by
          cases hreq : p.cmd.req with
          | conflictsList => rfl
          | _ =>
            rw [hreq] at haccepts
            cases haccepts
        rw [hreq]
        exact hcareful rows rfl
    exact hanswer.of_frame rfl rfl rfl (List.Subset.refl _) rfl rfl rfl
  | failed effect text =>
    cases hexec
    split
    · apply (h.perform p.cmd.req).answer (by rwa [hwaiting]) hopen
      · rintro id reply hverdict ⟨⟩
      · rintro rows ⟨⟩
    · apply h.answer hp hopen
      · rintro id reply hverdict ⟨⟩
      · rintro rows ⟨⟩

theorem step (h : Listing d) (hout : d.model.outbox = []) (hcareful : d.Careful move)
    (hstep : d.Stepped move d') : Listing d' := by
  cases hstep with
  | input hmsg => exact h.input hout hmsg
  | execute hp hopen hexec => exact h.execute hp hopen hcareful hexec
  | reply hw ha => exact h.deliver hout hw ha
  | others id resolved => exact h.mark id resolved
  | arise row => exact h.of_frame rfl rfl rfl (List.Subset.refl _) rfl rfl rfl

end Listing

end Desk

end Tui

end Tomo
