import Tomo.Session.Bookkeeping

namespace Tomo
set_option autoImplicit true

namespace Session
open Eff

section
variable [Platform] {s s' : Session} {c : RemoteChange}

/-- The frame a change would go out as, with the disk as it is. -/
def outgoing (s : Session) (c : RemoteChange) : Option Message :=
  if s.transport.isNone ∨ s.outboundSuspended ∨ !s.allowCrossing c.path .outbound then none
  else match c.kind with
  | .removed => some (.change c none)
  | .modified sig =>
    let current := (s.tree.read (join s.root c.path)).toOption
    if shouldSend current sig then
      let bytes := current.getD []
      if inlineThreshold ≤ bytes.length then
        some (.changeManifest c bytes.length ((chunkBytes bytes).map Prod.fst))
      else some (.change c (some bytes))
    else none

theorem prepareSend_exec (c : RemoteChange) (s : Session) :
    ∃ outboundManifests, (prepareSend c).exec s =
      (.ok (s.outgoing c), { s with outboundManifests }) := by
  obtain ⟨p, kind, version⟩ := c
  simp only [prepareSend, exec_get_bind, outgoing]
  split
  · exact ⟨_, rfl⟩
  · cases kind with
    | removed => exact ⟨_, rfl⟩
    | modified sig =>
      dsimp only
      split
      · split
        · exact ⟨_, rfl⟩
        · exact ⟨_, rfl⟩
      · exact ⟨_, rfl⟩

/-- What is queued for the link, and what is on offer to be asked for. -/
structure Bulk where
  pendingChunks : List Message
  pendingSends : List RemoteChange
  outboundManifests : Std.ExtTreeMap RelPath (List (ContentHash × (Nat × Nat)))

omit [Platform] in
/-- The same session with other bulk queues. -/
def holding (b : Bulk) (s : Session) : Session :=
  { s with
    pendingChunks := b.pendingChunks
    pendingSends := b.pendingSends
    outboundManifests := b.outboundManifests }

/-- What the bulk queues hold, as the frames it would go out as. -/
def waiting (s : Session) : List Message :=
  s.pendingChunks ++ s.pendingSends.filterMap s.outgoing

/-- How many items the bulk queues hold. -/
def backlog (s : Session) : Nat := s.pendingChunks.length + s.pendingSends.length

/-- A sub-batch takes frames off the queues in order, one at least where there are any. -/
theorem gatherBulk_exec (n : Nat) (batch : List Message) (s : Session) :
    ∃ batch' b, (gatherBulk n batch).exec s = (.ok batch', s.holding b) ∧
      batch' ++ (s.holding b).waiting = batch ++ s.waiting ∧ (s.holding b).backlog ≤ s.backlog ∧
      (0 < n → batch.length < sendBatchFrames → 0 < s.backlog →
        (s.holding b).backlog < s.backlog) := by
  induction n generalizing batch s with
  | zero => exact ⟨batch, ⟨_, _, _⟩, rfl, rfl, Nat.le_refl _, fun h => by cases h⟩
  | succ n ih =>
    rw [gatherBulk, exec_get_bind, exec_ite]
    by_cases hb : sendBatchFrames ≤ batch.length
    · rw [if_pos hb]
      exact ⟨batch, ⟨_, _, _⟩, rfl, rfl, Nat.le_refl _, fun _ h => by omega⟩
    · rw [if_neg hb]
      cases hc : s.pendingChunks with
      | cons msg rest =>
        obtain ⟨batch', b, hx, hw, hl, -⟩ :=
          ih (batch ++ [msg]) (s.holding ⟨rest, s.pendingSends, s.outboundManifests⟩)
        have hsum : s.waiting =
            msg :: (s.holding ⟨rest, s.pendingSends, s.outboundManifests⟩).waiting := by
          rw [waiting, hc]
          rfl
        have hless : s.backlog =
            (s.holding ⟨rest, s.pendingSends, s.outboundManifests⟩).backlog + 1 := by
          simp only [backlog, holding, hc, List.length_cons]
          omega
        refine ⟨batch', b, hx, ?_, by rw [hless]; exact Nat.le_succ_of_le hl, fun _ _ _ => ?_⟩
        · rw [hsum, List.append_cons]
          exact hw
        · rw [hless]
          exact Nat.lt_succ_of_le hl
      | nil =>
        cases hq : s.pendingSends with
        | nil =>
          refine ⟨batch, ⟨s.pendingChunks, s.pendingSends, s.outboundManifests⟩, rfl, rfl,
            Nat.le_refl _, fun _ _ h => ?_⟩
          rw [backlog, hc, hq] at h
          cases h
        | cons c rest =>
          obtain ⟨manifests, hp⟩ := prepareSend_exec c { s with pendingChunks := [], pendingSends := rest }
          obtain ⟨batch', b, hx, hw, hl, -⟩ :=
            ih (batch ++ (s.outgoing c).toList) (s.holding ⟨[], rest, manifests⟩)
          have hsum : s.waiting = (s.outgoing c).toList ++
              (s.holding ⟨[], rest, manifests⟩).waiting := by
            have hr : (s.holding ⟨[], rest, manifests⟩).waiting =
                rest.filterMap s.outgoing := rfl
            rw [hr, waiting, hc, hq, List.nil_append]
            cases he : s.outgoing c with
            | none => exact List.filterMap_cons_none he
            | some msg => exact List.filterMap_cons_some he
          have hless : s.backlog =
              (s.holding ⟨[], rest, manifests⟩).backlog + 1 := by
            simp only [backlog, holding, hc, hq, List.length_nil, List.length_cons]
            omega
          refine ⟨batch', b, ?_, ?_, by rw [hless]; exact Nat.le_succ_of_le hl, fun _ _ _ => ?_⟩
          · rw [exec_set_bind, exec_bind_ok hp]
            have ho : ({ s with pendingChunks := [], pendingSends := rest } : Session).outgoing c =
                s.outgoing c := rfl
            rw [ho]
            cases he : s.outgoing c with
            | none =>
              rw [he, Option.toList_none, List.append_nil] at hx
              exact hx
            | some msg =>
              rw [he] at hx
              exact hx
          · rw [hsum, ← List.append_assoc]
            exact hw
          · rw [hless]
            exact Nat.lt_succ_of_le hl

omit [Platform] in
theorem ship_exec (hs : s.Healthy) (hl : s.transport.isSome = true) (msgs : List Message) :
    (ship msgs).exec s = (.ok ⟨⟩, { s with sent := s.sent ++ msgs }) := by
  rw [ship, exec_get_bind]
  split
  next ht =>
    rw [ht] at hl
    cases hl
  next t ht =>
    rw [hs t ht]
    rfl

/-- Sub-batches one after the other. -/
def drainBulk : Nat → SessionM Unit
  | 0 => pure ()
  | n + 1 => do
    shipBulkSubbatch
    drainBulk n

/-- Drained queues have sent what they held, in order. -/
theorem drainBulk_exec {n : Nat} (hs : s.Healthy) (hl : s.transport.isSome = true)
    (hn : s.backlog ≤ n) :
    ∃ outboundManifests, (drainBulk n).exec s = (.ok ⟨⟩, { s with
      sent := s.sent ++ s.waiting, pendingChunks := [], pendingSends := [],
      outboundManifests }) := by
  induction n generalizing s with
  | zero =>
    have hc : s.pendingChunks = [] := List.length_eq_zero_iff.1 (by rw [backlog] at hn; omega)
    have hq : s.pendingSends = [] := List.length_eq_zero_iff.1 (by rw [backlog] at hn; omega)
    have hw : s.waiting = [] := by rw [waiting, hc, hq]; rfl
    refine ⟨s.outboundManifests, ?_⟩
    rw [hw, List.append_nil, ← hc, ← hq]
    rfl
  | succ n ih =>
    obtain ⟨batch, b, hx, hw, hle, hlt⟩ := gatherBulk_exec s.backlog [] s
    let s' : Session := { s.holding b with sent := s.sent ++ batch }
    have hship : shipBulkSubbatch.exec s = (.ok ⟨⟩, s') := by
      have he : shipBulkSubbatch.exec s = Eff.exec (do
          let batch ← gatherBulk s.backlog []
          if batch = [] then pure () else ship batch) s := rfl
      rw [he, exec_bind_ok hx, exec_ite]
      split
      next hnil =>
        simp only [s', hnil, List.append_nil]
        rfl
      next =>
        exact ship_exec (s := s.holding b) hs hl batch
    have hless : s'.backlog ≤ n := by
      have h' : s'.backlog = (s.holding b).backlog := rfl
      by_cases h0 : 0 < s.backlog
      · have := hlt h0 (by simp [sendBatchFrames]) h0
        omega
      · omega
    obtain ⟨e, hrest⟩ := ih (s := s') hs hl hless
    refine ⟨e, ?_⟩
    have hsum : s'.sent ++ s'.waiting = s.sent ++ s.waiting := by
      have hw' : batch ++ s'.waiting = s.waiting := hw
      rw [← hw', ← List.append_assoc]
    rw [drainBulk, exec_bind_ok hship, hrest, hsum]
    rfl

theorem outgoing_announces {msg : Message} (h : s.outgoing c = some msg) :
    announces msg = true := by
  obtain ⟨m, hm⟩ := prepareSend_exec c s
  rw [h] at hm
  exact prepareSend_announces c s hm

theorem filter_outgoing (s : Session) (c : RemoteChange) :
    (s.outgoing c).toList.filter announces = (s.outgoing c).toList := by
  refine List.filter_eq_self.2 fun m hm => outgoing_announces (s := s) (c := c) ?_
  rwa [Option.mem_toList] at hm

/-- The queued change of a path goes out by itself. -/
theorem flushQueuedSend_exec (hs : s.Healthy) (hl : s.transport.isSome = true) (p : RelPath) :
    ∃ m, (flushQueuedSend p).exec s = (.ok ⟨⟩,
      { s.holding ⟨s.pendingChunks, s.pendingSends.eraseP fun c => decide (c.path = p), m⟩ with
        sent := s.sent ++ ((s.pendingSends.find? fun c => decide (c.path = p)).bind
          s.outgoing).toList }) := by
  rw [flushQueuedSend, exec_get_bind]
  cases hk : s.pendingSends.find? fun c => decide (c.path = p) with
  | none =>
    refine ⟨s.outboundManifests, ?_⟩
    have he : s.pendingSends.eraseP (fun c => decide (c.path = p)) = s.pendingSends :=
      List.eraseP_of_forall_not fun c hc => List.find?_eq_none.1 hk c hc
    rw [he, Option.bind_none, Option.toList_none, List.append_nil]
    rfl
  | some k =>
    let b : Session := { s with
      pendingSends := s.pendingSends.eraseP fun c => decide (c.path = p) }
    obtain ⟨m, hm⟩ := prepareSend_exec k b
    refine ⟨m, ?_⟩
    rw [exec_set_bind, doSend, exec_bind_ok hm, Option.bind_some]
    have ho : b.outgoing k = s.outgoing k := rfl
    rw [ho]
    cases s.outgoing k with
    | none =>
      rw [Option.toList_none, List.append_nil]
      rfl
    | some msg => exact ship_exec (s := { b with outboundManifests := m }) hs hl [msg]

end

end Session

end Tomo
