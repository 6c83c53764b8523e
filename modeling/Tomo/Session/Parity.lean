import Tomo.Session.Bulk
import Tomo.Session.Isolation
import Tomo.Session.Traffic

namespace Tomo
set_option autoImplicit true

namespace Session
open Eff

section
variable [Platform] {s s' : Session} {c : RemoteChange}

/-- Frames arrive one after the other, with nothing in between. -/
def onMessages (msgs : List Message) : SessionM Unit := msgs.forM onMessage

/-- The chunks of a transfer, in the order they come in. -/
def answers (content : ContentHash → Bytes) (order : List ContentHash) : List Message :=
  order.map fun h => .chunkData h (content h)

/-- What a finished transfer ends with. -/
def finish (c : RemoteChange) (bytes : Bytes) : SessionM Unit := do
  flushPendingInstallFor c.path
  if ← caseCollisionRefused c (some bytes) then pure () else deliver c (some bytes)

variable {w : Traffic} {a : Assembly} {content : ContentHash → Bytes} {bytes : Bytes}
  {order : List ContentHash}

theorem finish_aside (hs : s.Healthy) (c : RemoteChange) (bytes : Bytes) :
    Aside (finish c bytes) s := by
  refine (flushPendingInstallFor_works c.path s).aside.bind fun _ s' hw => ?_
  refine (caseCollisionRefused_books c (some bytes) s').aside.bind fun refused s'' hw' => ?_
  cases refused with
  | true => exact .pure _ _
  | false => exact deliver_aside ((hs.of_wire hw).of_wire hw') c (some bytes)

theorem finish_amidst (w : Traffic) (hs : s.Healthy) (c : RemoteChange) (bytes : Bytes) :
    Commutes (amidst w) (finish c bytes) s := by
  refine (flushPendingInstallFor_amidst w c.path s).bind fun _ s' he => ?_
  have hf := (flushPendingInstallFor_works c.path s).leaves
  rw [Leaves, he] at hf
  refine (caseCollisionRefused_amidst w c (some bytes) s').bind fun refused s'' he => ?_
  have hc := (caseCollisionRefused_books c (some bytes) s').core
  rw [he] at hc
  cases refused with
  | true => rfl
  | false => exact deliver_amidst w ((hs.of_frame hf).of_core hc) c (some bytes)

/-- The one transfer under way: what it has received is on file. -/
structure Sole (content : ContentHash → Bytes) (w : Traffic) (a : Assembly) : Prop where
  only : ∀ q, w.assemblies[q]? = if a.change.path = q then some a else none
  whole : matchesSig (a.manifest.flatMap content) a.sig = true
  honest : ∀ h ∈ a.manifest, Platform.blake3 (content h) = h
  filed : ∀ h ∈ a.received, w.chunkFiles[h]? = some (content h)

theorem Sole.get (h : Sole content w a) : w.assemblies[a.change.path]? = some a := by
  rw [h.only, if_pos rfl]

/-- The transfer has moved on. -/
theorem Sole.move (h : Sole content w a) (b : Assembly)
    (hc : b.change = a.change) (hm : b.manifest = a.manifest) (hs : b.sig = a.sig)
    (sent : List Message) (chunkFiles : Std.ExtTreeMap ContentHash Bytes)
    (hf : ∀ h ∈ b.received, chunkFiles[h]? = some (content h)) :
    Sole content ⟨sent, w.assemblies.insert a.change.path b, chunkFiles⟩ b where
  only q := by
    rw [inserted_get, hc, h.only]
    split <;> rfl
  whole := by rw [hm, hs, h.whole]
  honest := by rw [hm]; exact h.honest
  filed := hf

omit [Platform] in
theorem amidst_self (s : Session) :
    s = amidst ⟨s.sent, s.assemblies, s.chunkFiles⟩ { s with sent := [] } := by
  rw [amidst, List.append_nil]

/-- A transfer with all its chunks is over, and its change is taken in. -/
theorem completeAssembly_sole (h : Sole content w a)
    (hc : isComplete a.manifest a.received = true) (s : Session) :
    ∃ chunkFiles, (completeAssembly a.change.path).exec (amidst w s) =
      (finish a.change (a.manifest.flatMap content)).exec (amidst ⟨w.sent, ∅, chunkFiles⟩ s) := by
  have hbytes : (assembleChunks w.chunkFiles a.manifest).filter (fun b => matchesSig b a.sig) =
      some (a.manifest.flatMap content) := by
    rw [assembleChunks_of (fun x hx => h.filed x ?_) h.honest, Option.filter_some, if_pos h.whole]
    exact of_decide_eq_true (List.all_eq_true.1 hc x hx)
  have hnone : w.assemblies.erase a.change.path = ∅ := by
    refine Std.ExtTreeMap.ext_getElem? fun q => ?_
    simp only [Std.ExtTreeMap.getElem?_erase, Std.compare_eq_iff_eq, h.only,
      Std.ExtTreeMap.getElem?_empty]
    split <;> rfl
  have ha : (amidst w s).assemblies[a.change.path]? = some a := h.get
  have hf : (amidst w s).chunkFiles = w.chunkFiles := rfl
  have hm : (amidst w s).assemblies = w.assemblies := rfl
  refine ⟨(cleanAssemblyChunks { amidst w s with assemblies := ∅ } a).chunkFiles, ?_⟩
  rw [completeAssembly, exec_get_bind, ha]
  simp only [exec_set_bind, hf, hbytes, hm, hnone]
  rfl

/-- A transfer that lacks a chunk asks for more. -/
theorem requestNextBatch_sole (h : Sole content w a) (hs : s.Healthy)
    (hl : s.transport.isSome = true) (hn : s.sent = []) :
    ∃ l w' a', (∀ m ∈ l, announces m = false) ∧ Sole content w' a' ∧ w'.sent = w.sent ++ l ∧
      a'.change = a.change ∧ a'.manifest = a.manifest ∧ a'.received = a.received ∧
      (requestNextBatch a.change.path).exec (amidst w s) = (.ok ⟨⟩, amidst w' s) := by
  have hx := requestNextBatch_exec (s := amidst w s) hs hl h.get
  split at hx
  · exact ⟨[], w, a, (fun m hm => by cases hm), h, (List.append_nil _).symm, rfl, rfl, rfl, hx⟩
  · refine ⟨[.chunkRequest (nextRequestBatch a.manifest a.received a.requested)], _, _, ?_,
      h.move { a with
        requested := a.requested ++ nextRequestBatch a.manifest a.received a.requested }
        rfl rfl rfl (w.sent ++ [.chunkRequest (nextRequestBatch a.manifest a.received a.requested)])
        _ h.filed, rfl, rfl, rfl, rfl, ?_⟩
    · intro m hm
      rw [List.mem_singleton.1 hm]
      rfl
    · rw [hx]
      simp only [amidst, hn, List.append_nil]

/-- Chunks that no transfer waits for are passed over. -/
theorem onMessages_idle (h : s.assemblies = ∅) (order : List ContentHash) :
    (onMessages (answers content order)).exec s = (.ok ⟨⟩, s) := by
  induction order with
  | nil => rfl
  | cons x order ih =>
    have hx : (onMessage (.chunkData x (content x))).exec s = (.ok ⟨⟩, s) := by
      rw [onMessage, exec_get_bind, exec_ite]
      split
      · rfl
      · have hn : chunkTaker s.assemblies.toList x = none := by
          rw [h]
          rfl
        simp only [onChunkData, exec_get_bind, takeChunk, hn, exec_pure]
    have he : onMessages (answers content (x :: order)) =
        (do onMessage (.chunkData x (content x)); onMessages (answers content order)) := rfl
    rw [he, exec_bind_ok hx, ih]

theorem finish_then_idle (hs : s.Healthy) (h : s.assemblies = ∅) (c : RemoteChange) (bytes : Bytes)
    (order : List ContentHash) :
    Eff.exec (do finish c bytes; onMessages (answers content order)) s =
      (finish c bytes).exec s := by
  have hw := (finish_aside hs c bytes).leaves
  rw [Leaves] at hw
  rw [exec_bind]
  rcases hx : (finish c bytes).exec s with ⟨r, u⟩
  rw [hx] at hw
  cases r with
  | error e => rfl
  | ok _ =>
    have ha : u.wire.assemblies = s.wire.assemblies := by rw [hw]
    have hu : u.assemblies = ∅ := ha.trans h
    exact onMessages_idle hu order

/-- The only transfer takes a chunk that it lacks. -/
theorem takeChunk_sole (h : Sole content w a) (hd : s.diskFull = false) {x : ContentHash}
    (hm : x ∈ a.manifest) (hr : x ∉ a.received) :
    ∃ w' a', Sole content w' a' ∧ w'.sent = w.sent ∧ a'.change = a.change ∧
      a'.manifest = a.manifest ∧ a'.received = x :: a.received ∧
      (onChunkData x (content x)).exec (amidst w s) =
        (advanceAssembly a.change.path).exec (amidst w' s) := by
  have ht : chunkTaker (amidst w s).assemblies.toList x = some (a.change.path, a) := by
    have hone (e : RelPath × Assembly) (he : e ∈ (amidst w s).assemblies.toList) :
        e = (a.change.path, a) := by
      obtain ⟨q, b⟩ := e
      have hb := (Std.ExtTreeMap.mem_toList_iff_getElem?_eq_some.1 he : w.assemblies[q]? = some b)
      rw [h.only] at hb
      split at hb
      next hq =>
        cases hb
        rw [hq]
      next => cases hb
    have hin : (a.change.path, a) ∈ (amidst w s).assemblies.toList :=
      Std.ExtTreeMap.mem_toList_iff_getElem?_eq_some.2 h.get
    cases hf : chunkTaker (amidst w s).assemblies.toList x with
    | none =>
      have hn := List.find?_eq_none.1 hf _ hin
      simp [hm, hr] at hn
    | some e => rw [hone e (List.mem_of_find?_eq_some hf)]
  refine ⟨_, _, h.move { a with received := x :: a.received } rfl rfl rfl w.sent
    (w.chunkFiles.insert x (content x)) (fun y hy => ?_), rfl, rfl, rfl, rfl, ?_⟩
  · rw [Std.ExtTreeMap.getElem?_insert]
    simp only [Std.compare_eq_iff_eq]
    split
    next hxy => rw [hxy]
    next hxy => exact h.filed y ((List.mem_cons.1 hy).resolve_left fun hy => hxy hy.symm)
  · have hfull : ¬(amidst w s).diskFull = true := Bool.eq_false_iff.1 hd
    simp only [onChunkData, exec_get_bind, takeChunk, ht, h.honest x hm, ne_eq, not_true_eq_false,
      ↓reduceIte]
    rw [if_neg hfull, exec_set_bind]
    rfl

/-- Any other chunk is passed over. -/
theorem onChunkData_other (h : Sole content w a) {x : ContentHash}
    (hx : x ∈ a.manifest → x ∈ a.received) (s : Session) :
    (onChunkData x (content x)).exec (amidst w s) = (.ok ⟨⟩, amidst w s) := by
  have ht : chunkTaker (amidst w s).assemblies.toList x = none := by
    refine List.find?_eq_none.2 fun e he hc => ?_
    obtain ⟨q, b⟩ := e
    have hb := (Std.ExtTreeMap.mem_toList_iff_getElem?_eq_some.1 he : w.assemblies[q]? = some b)
    rw [h.only] at hb
    split at hb
    next =>
      cases hb
      rw [Bool.and_eq_true, decide_eq_true_eq, decide_eq_true_eq] at hc
      exact hc.1 (hx hc.2)
    next => cases hb
  simp only [onChunkData, exec_get_bind, takeChunk, ht, exec_pure]

/-- A transfer that gets every chunk it lacks ends by taking in its change. -/
theorem answers_finish (order : List ContentHash) (h : Sole content w a) (hs : s.Healthy)
    (hl : s.transport.isSome = true) (hn : s.sent = []) (hd : s.diskFull = false)
    (hp : s.paused = false) (ho : ∀ x ∈ a.manifest, x ∈ a.received ∨ x ∈ order)
    (hi : isComplete a.manifest a.received = false) :
    ∃ l chunkFiles, (∀ m ∈ l, announces m = false) ∧
      (onMessages (answers content order)).exec (amidst w s) =
        (finish a.change (a.manifest.flatMap content)).exec (amidst ⟨w.sent ++ l, ∅, chunkFiles⟩ s) := by
  induction order generalizing w a with
  | nil =>
    rw [isComplete, List.all_eq_false] at hi
    obtain ⟨x, hx, hr⟩ := hi
    rcases ho x hx with h' | h'
    · exact (hr (decide_eq_true h')).elim
    · cases h'
  | cons x order ih =>
    have he : (onMessages (answers content (x :: order))).exec (amidst w s) = Eff.exec (do
        onChunkData x (content x)
        onMessages (answers content order)) (amidst w s) := by
      have hp' : (amidst w s).paused = false := hp
      change (onMessage (.chunkData x (content x)) >>= fun _ =>
        onMessages (answers content order)).exec (amidst w s) = _
      rw [exec_bind, exec_bind, onMessage, exec_get_bind, hp']
      rfl
    rw [he, exec_bind]
    by_cases hx : x ∈ a.manifest ∧ x ∉ a.received
    · -- the chunk is taken, and the transfer either ends or goes on
      obtain ⟨w', a', h', hw, hc, hm, hr, htake⟩ := takeChunk_sole h hd hx.1 hx.2
      rw [htake, ← exec_bind, ← hc]
      have ho' (y : ContentHash) (hy : y ∈ a'.manifest) : y ∈ a'.received ∨ y ∈ order := by
        rw [hm] at hy
        rw [hr, List.mem_cons]
        rcases ho y hy with hy | hy
        · exact .inl (.inr hy)
        · exact (List.mem_cons.1 hy).imp_left .inl
      have hadv : (advanceAssembly a'.change.path).exec (amidst w' s) =
          if isComplete a'.manifest a'.received = true then
            (completeAssembly a'.change.path).exec (amidst w' s)
          else (requestNextBatch a'.change.path).exec (amidst w' s) := by
        have hg : (amidst w' s).assemblies[a'.change.path]? = some a' := h'.get
        rw [advanceAssembly, exec_get_bind, hg, exec_ite]
      rw [exec_bind, hadv]
      by_cases hcm : isComplete a'.manifest a'.received = true
      · obtain ⟨chunkFiles, hcomp⟩ := completeAssembly_sole h' hcm s
        refine ⟨[], chunkFiles, (fun m hm => by cases hm), ?_⟩
        rw [if_pos hcm, hcomp, ← exec_bind, finish_then_idle (s := amidst _ s) hs rfl, hw, hm,
          List.append_nil]
      · rw [if_neg hcm]
        obtain ⟨l, v, b, hk, hb, hvs, hbc, hbm, hbr, hreq⟩ := requestNextBatch_sole h' hs hl hn
        rw [hreq, thenRun_ok]
        obtain ⟨l', chunkFiles, hk', hend⟩ := ih hb (by rw [hbm, hbr]; exact ho')
          (by rw [hbm, hbr]; exact Bool.eq_false_iff.2 hcm)
        refine ⟨l ++ l', chunkFiles, fun m hm => (List.mem_append.1 hm).elim (hk m) (hk' m), ?_⟩
        rw [hend, hbc, hbm, hm, hvs, hw, List.append_assoc]
    · have hskip : x ∈ a.manifest → x ∈ a.received := fun hm => by_contra fun hr => hx ⟨hm, hr⟩
      rw [onChunkData_other h hskip, thenRun_ok]
      refine ih h (fun y hy => ?_) hi
      rcases ho y hy with hr | hr
      · exact .inl hr
      · rcases List.mem_cons.1 hr with rfl | hr
        · exact .inl (hskip hy)
        · exact .inr hr

theorem refusesCase_of_frame (h : s'.frame = s.frame) (c : RemoteChange) :
    s'.refusesCase c = s.refusesCase c := by
  have he : s'.frame.engine = s.frame.engine := by rw [h]
  have hf : s'.frame.fs = s.frame.fs := by rw [h]
  simp only [frame, Session.on, core] at he hf
  rw [refusesCase, refusesCase, collidesWithExisting, collidesWithExisting, he, hf]

omit [Platform] in
theorem abandonSuperseded_idle (h : s.assemblies = ∅) (p : RelPath) :
    s.abandonSuperseded p = s := by
  rw [abandonSuperseded, h]
  rfl

variable {sig : ContentSig} {manifest : List ContentHash}

/-- A manifest and its chunks come down to what the queued send leaves, and the finish. -/
theorem chunked_finish (hs : s.Healthy) (hl : s.transport.isSome = true)
    (hd : s.diskFull = false) (ha : s.assemblies = ∅) (hp : s.paused = false)
    (hin : s.allowCrossing c.path .inbound = true) (hk : c.kind = .modified sig)
    (hw : matchesSig (manifest.flatMap content) sig = true)
    (hv : ∀ x ∈ manifest, Platform.blake3 (content x) = x) (ho : ∀ x ∈ manifest, x ∈ order)
    (hq : (flushQueuedSend c.path).exec s = (.ok ⟨⟩, s')) (total : Nat) :
    ∃ l chunkFiles, (∀ m ∈ l, announces m = false) ∧
      (onMessages (.changeManifest c total manifest :: answers content order)).exec s =
        (finish c (manifest.flatMap content)).exec
          (amidst ⟨s'.sent ++ l, ∅, chunkFiles⟩ { s' with sent := [] }) := by
  have hc := (flushQueuedSend_files hs c.path).books.core
  rw [hq] at hc
  have hs' : s'.Healthy := hs.of_core hc
  have hl' : s'.transport.isSome = true := by
    have h : s'.core.transport = s.core.transport := by rw [hc]
    exact (congrArg Option.isSome h).trans hl
  have hd' : s'.diskFull = false := by
    have h : s'.core.diskFull = s.core.diskFull := by rw [hc]
    exact h.trans hd
  have ha' : s'.assemblies = ∅ := by
    have h : s'.core.assemblies = s.core.assemblies := by rw [hc]
    exact h.trans ha
  have hp' : s'.paused = false := by
    have h : s'.core.paused = s.core.paused := by rw [hc]
    exact h.trans hp
  let a : Assembly := ⟨c, sig, manifest, [], [], total⟩
  let w : Traffic := ⟨s'.sent, s'.assemblies.insert c.path a, s'.chunkFiles⟩
  let b : Session := { s' with sent := [] }
  have hsole : Sole content w a := by
    refine ⟨fun q => ?_, hw, hv, fun x hx => by cases hx⟩
    rw [inserted_get, ha', Std.ExtTreeMap.getElem?_empty]
  have hx : (onMessages (.changeManifest c total manifest :: answers content order)).exec s =
      Eff.exec (do
        advanceAssembly c.path
        onMessages (answers content order)) (amidst w b) := by
    change (onMessage (.changeManifest c total manifest) >>= fun _ =>
      onMessages (answers content order)).exec s = _
    rw [exec_bind, exec_bind]
    have hm : (onMessage (.changeManifest c total manifest)).exec s =
        (advanceAssembly c.path).exec (amidst w b) := by
      simp only [onMessage, exec_get_bind, hp, Bool.false_and, Bool.false_eq_true, ↓reduceIte,
        onChangeManifest, hin, hk]
      rw [exec_bind_ok hq, exec_modify_bind, exec_modify_bind, abandonSuperseded_idle ha']
      simp only [amidst, w, b, a, List.append_nil]
    rw [hm]
  have hadv : (advanceAssembly c.path).exec (amidst w b) =
      if isComplete a.manifest a.received = true then (completeAssembly c.path).exec (amidst w b)
      else (requestNextBatch c.path).exec (amidst w b) := by
    have hg : (amidst w b).assemblies[c.path]? = some a := hsole.get
    rw [advanceAssembly, exec_get_bind, hg, exec_ite]
  rw [hx, exec_bind, hadv]
  by_cases hcm : isComplete a.manifest a.received = true
  · obtain ⟨chunkFiles, hcomp⟩ := completeAssembly_sole hsole hcm b
    refine ⟨[], chunkFiles, (fun m hm => by cases hm), ?_⟩
    rw [if_pos hcm, hcomp, ← exec_bind, finish_then_idle (s := amidst _ b) hs' rfl, List.append_nil]
  · rw [if_neg hcm]
    obtain ⟨l, v, a', hk', hb, hvs, hbc, hbm, hbr, hreq⟩ :=
      requestNextBatch_sole (s := b) hsole hs' hl' rfl
    rw [hreq, thenRun_ok]
    obtain ⟨l', chunkFiles, hl', hend⟩ := answers_finish order (s := b) hb hs' hl' rfl hd'
      hp' (by rw [hbm]; exact fun x hx => .inr (ho x hx))
      (by rw [hbm, hbr]; exact Bool.eq_false_iff.2 hcm)
    refine ⟨l ++ l', chunkFiles, fun m hm => (List.mem_append.1 hm).elim (hk' m) (hl' m), ?_⟩
    rw [hend, hbc, hbm, hvs, List.append_assoc]

theorem onMessages_one (msg : Message) (s : Session) :
    (onMessages [msg]).exec s = (onMessage msg).exec s := by
  change (onMessage msg >>= fun _ => pure PUnit.unit).exec s = _
  rw [exec_bind]
  rcases (onMessage msg).exec s with ⟨r, u⟩
  cases r <;> rfl

/-- An inline change that no other file stands against comes down to the same. -/
theorem inline_finish (hs : s.Healthy) (ha : s.assemblies = ∅) (hp : s.paused = false)
    (hin : s.allowCrossing c.path .inbound = true) (hc : s.refusesCase c = false)
    (hq : (flushQueuedSend c.path).exec s = (.ok ⟨⟩, s')) (bytes : Bytes) :
    (onMessages [.change c (some bytes)]).exec s = (finish c bytes).exec s' := by
  have hcore := (flushQueuedSend_files hs c.path).books.core
  rw [hq] at hcore
  have hx : (onChange c (some bytes)).exec s = Eff.exec (do
      flushPendingInstallFor c.path
      modify fun s => s.abandonSuperseded c.path
      deliver c (some bytes)) s' := by
    simp only [onChange, exec_get_bind, hin, ↓reduceIte]
    rw [exec_bind_ok (caseCollisionRefused_clear hc _)]
    simp only [Bool.false_eq_true, ↓reduceIte]
    rw [exec_bind_ok hq]
    rfl
  rw [onMessages_one, onMessage, exec_get_bind, hp]
  change (onChange c (some bytes)).exec s = _
  rw [hx, finish, exec_bind, exec_bind]
  have hf := (flushPendingInstallFor_works c.path s').leaves
  rw [Leaves] at hf
  rcases hu : (flushPendingInstallFor c.path).exec s' with ⟨r, u⟩
  rw [hu] at hf
  cases r with
  | error e => rfl
  | ok _ =>
    have hframe : u.frame = s.frame := hf.trans (frame_of_core hcore)
    have hu' : u.assemblies = ∅ := by
      have h : u.frame.assemblies = s.frame.assemblies := by rw [hframe]
      exact h.trans ha
    have hclear : u.refusesCase c = false := (refusesCase_of_frame hframe c).trans hc
    rw [thenRun_ok, thenRun_ok, exec_modify_bind, abandonSuperseded_idle hu',
      exec_bind_ok (caseCollisionRefused_clear hclear _)]
    rfl

omit [Platform] in
/-- The session once everything staged is in place. -/
def installed (s : Session) : Session :=
  { s with
    tree := (installAll s.tree s.pendingInstalls).1
    pendingInstalls := []
    createdDirs := if s.pendingInstalls = [] then s.createdDirs else []
    pendingRelease := 0 }

omit [Platform] in
/-- Everything staged can be renamed into place. -/
def Installable (s : Session) : Prop := (installAll s.tree s.pendingInstalls).2.2 = none

instance (s : Session) : Decidable s.Installable := inferInstanceAs (Decidable (_ = none))

omit [Platform] in
theorem flushInstalls_exec (h : s.Installable) : flushInstalls.exec s = (.ok ⟨⟩, s.installed) := by
  rw [Installable] at h
  simp only [flushInstalls, exec_get_bind, installed]
  rcases hi : installAll s.tree s.pendingInstalls with ⟨tree, pending, err⟩
  rw [hi] at h
  cases h
  rfl

/-- A batch ends, and the bulk queues are drained. -/
def settle : SessionM Unit := do
  flushInstalls
  let s ← get
  drainBulk s.backlog

theorem settle_exec (h : s.Installable) (hs : s.Healthy) (hl : s.transport.isSome = true) :
    ∃ outboundManifests, settle.exec s = (.ok ⟨⟩, { s.installed with
      sent := s.sent ++ s.installed.waiting, pendingChunks := [], pendingSends := [],
      outboundManifests }) := by
  obtain ⟨m, hm⟩ := drainBulk_exec (s := s.installed) hs hl (Nat.le_refl _)
  refine ⟨m, ?_⟩
  rw [settle, exec_bind_ok (flushInstalls_exec h), exec_get_bind, hm]
  rfl

/-- Two ways to take in a change lead to the same index, echoes, tree, history and captures to
come, and have announced the same changes. -/
structure Alike (r r' : Except CliError Unit × Session) : Prop where
  outcome : r.1 = r'.1
  engine : r.2.engine = r'.2.engine
  tree : r.2.tree = r'.2.tree
  history : r.2.history = r'.2.history
  pressure : r.2.pressure = r'.2.pressure
  changes : (r.2.sent.filter announces).Perm (r'.2.sent.filter announces)

/-- What was sent before makes no difference but for itself. -/
theorem settle_amidst {w' : Traffic} (hs : s.Healthy) (hl : s.transport.isSome = true)
    (hw : w.sent.filter announces = w'.sent.filter announces) :
    Alike (settle.exec (amidst w s)) (settle.exec (amidst w' s)) := by
  have hf (w : Traffic) := flushInstalls_amidst w s
  simp only [Commutes] at hf
  have hwire := (flushInstalls_works s).leaves
  rw [Leaves] at hwire
  rw [settle, exec_bind, exec_bind, hf, hf]
  rcases hx : flushInstalls.exec s with ⟨r, u⟩
  rw [hx] at hwire
  have hu : u.transport = s.transport := by
    have h : u.frame.transport = s.frame.transport := by rw [hwire]
    exact h
  have hsent (w : Traffic) : (amidst w u).sent ++ (amidst w u).waiting =
      w.sent ++ (u.sent ++ u.waiting) := List.append_assoc ..
  cases r with
  | error e =>
    refine ⟨rfl, rfl, rfl, rfl, rfl, ?_⟩
    simp only [thenRun_error, amidst, List.filter_append, hw, List.Perm.refl]
  | ok _ =>
    have hsu : u.Healthy := fun t ht => hs t (hu.symm.trans ht)
    have hlu : u.transport.isSome = true := by rw [hu, hl]
    have hd (w : Traffic) := drainBulk_exec (s := amidst w u) (n := (amidst w u).backlog) hsu hlu
      (Nat.le_refl _)
    obtain ⟨m, hm⟩ := hd w
    obtain ⟨m', hm'⟩ := hd w'
    rw [thenRun_ok, thenRun_ok, exec_get_bind, exec_get_bind, hm, hm']
    refine ⟨rfl, rfl, rfl, rfl, rfl, ?_⟩
    simp only [hsent, List.filter_append, hw, List.Perm.refl]

/-- The history once a refused version is kept. -/
def collided (s : Session) (p : RelPath) (sig : ContentSig) (version : VectorClock)
    (bytes : Bytes) : HistoryStore :=
  if (s.history.log p).any fun m =>
      decide (m.clock = version) && sameState m.state (.present sig) then s.history
  else
    match s.history.recordVersion p (.present sig) version (s.attribution false).2
      (s.attribution false).1 s.wallMs (some bytes) with
    | .ok (history, _) => history
    | .error _ => s.history

/-- A refused change is kept in history, and nothing else happens. -/
theorem caseCollisionRefused_exec (hk : c.kind = .modified sig) (hm : matchesSig bytes sig = true)
    (h : s.refusesCase c = true) :
    (caseCollisionRefused c (some bytes)).exec s =
      (.ok true, { s with history := s.collided c.path sig c.version bytes }) := by
  obtain ⟨p, kind, version⟩ := c
  cases hk
  have hc : s.collidesWithExisting p = true := h
  have hin : (incomingBytes sig (some bytes)).exec s = (.ok (some bytes), s) := by
    simp only [incomingBytes, exec_get_bind, Option.filter_some, hm, ↓reduceIte, exec_pure]
  have hkeep : (preserveCollidedIncoming p sig version (some bytes)).exec s =
      (.ok ⟨⟩, { s with history := s.collided p sig version bytes }) := by
    rw [preserveCollidedIncoming, exec_get_bind, exec_ite, collided]
    split
    · rfl
    · obtain ⟨⟨history, id⟩, hr⟩ := recordVersion_ok p (.present sig) s.history (.present hm) version
        (s.attribution false).2 (s.attribution false).1 s.wallMs
      have hst := storeVersion_exec (p := p) (.present sig) version false (some bytes) s
      rw [hr] at hst
      rw [exec_bind_ok hin, hr]
      change (storeVersion p (.present sig) version false (some bytes) >>= fun _ =>
        pure PUnit.unit).exec s = _
      rw [exec_bind_ok hst]
      rfl
  simp only [caseCollisionRefused, exec_get_bind, hc, ↓reduceIte]
  rw [exec_bind_ok hkeep]
  rfl

/-- A queued change of the path would go out as another frame once what is staged is in place. -/
def Overtaken (s : Session) (p : RelPath) : Prop :=
  ∃ k, s.pendingSends.find? (fun c => decide (c.path = p)) = some k ∧
    s.outgoing k ≠ s.installed.outgoing k

omit [Platform] in
/-- The first match of a list, and the rest. -/
theorem find_perm_eraseP {l : List RemoteChange} {q : RemoteChange → Bool} {k : RemoteChange}
    (h : l.find? q = some k) : l.Perm (k :: l.eraseP q) := by
  obtain ⟨hq, l₁, l₂, rfl, hn⟩ := List.find?_eq_some_iff_append.1 h
  have he : (l₁ ++ k :: l₂).eraseP q = l₁ ++ l₂ := by
    rw [List.eraseP_append_right _ fun b hb hb' => by simpa [hb'] using hn b hb, List.eraseP_cons_of_pos hq]
  rw [he]
  exact List.perm_middle

omit [Platform] in
theorem toList_perm_iff {x y : Option Message} : x.toList.Perm y.toList ↔ x = y := by
  refine ⟨fun h => ?_, fun h => by rw [h]⟩
  cases x with
  | none =>
    cases y with
    | none => rfl
    | some b => cases h.length_eq
  | some a =>
    cases y with
    | none => cases h.length_eq
    | some b => rw [List.singleton_perm_singleton.1 h]

/-- The queue with the change of a path sent ahead announces the same, whenever that change goes
out as the same frame. -/
theorem ahead_perm_iff (s : Session) (p : RelPath) {l : List Message}
    (hn : ∀ m ∈ l, announces m = false) :
    ((s.sent ++ (s.pendingChunks ++ s.pendingSends.filterMap s.installed.outgoing)).filter
      announces).Perm ((s.sent ++ ((s.pendingSends.find? fun c => decide (c.path = p)).bind
        s.outgoing).toList ++ l ++ (s.pendingChunks ++ (s.pendingSends.eraseP fun c =>
          decide (c.path = p)).filterMap s.installed.outgoing)).filter announces) ↔
      ¬s.Overtaken p := by
  have hl : l.filter announces = [] := List.filter_eq_nil_iff.2 fun m hm => by rw [hn m hm]; decide
  simp only [List.filter_append, List.append_assoc, hl, List.nil_append, List.perm_append_left_iff]
  cases hf : s.pendingSends.find? fun c => decide (c.path = p) with
  | none =>
    have he : s.pendingSends.eraseP (fun c => decide (c.path = p)) = s.pendingSends :=
      List.eraseP_of_forall_not fun c hc => List.find?_eq_none.1 hf c hc
    rw [he]
    refine iff_of_true (.refl _) ?_
    rintro ⟨k, hk, _⟩
    rw [hf] at hk
    cases hk
  | some k =>
    have hsplit : (s.pendingSends.filterMap s.installed.outgoing).Perm
        ((s.installed.outgoing k).toList ++
          (s.pendingSends.eraseP fun c => decide (c.path = p)).filterMap s.installed.outgoing) := by
      refine ((find_perm_eraseP hf).filterMap _).trans ?_
      cases hk : s.installed.outgoing k with
      | none => rw [List.filterMap_cons_none hk]; exact .refl _
      | some msg => rw [List.filterMap_cons_some hk]; exact .refl _
    have hleft := (hsplit.filter announces).append_left (s.pendingChunks.filter announces)
    rw [List.filter_append, filter_outgoing, ← List.append_assoc] at hleft
    have hswap := hleft.trans (List.perm_append_comm.append_right _)
    rw [List.append_assoc] at hswap
    rw [Option.bind_some, filter_outgoing]
    have hiff : (s.installed.outgoing k).toList.Perm (s.outgoing k).toList ↔
        ¬s.Overtaken p := by
      rw [toList_perm_iff]
      constructor
      · rintro h ⟨k', hk', hne⟩
        rw [hf] at hk'
        cases hk'
        exact hne h.symm
      · exact fun h => by_contra fun hne => h ⟨k, hf, fun he => hne he.symm⟩
    rw [← hiff]
    constructor
    · exact fun h => (List.perm_append_right_iff _).1 (hswap.symm.trans h)
    · exact fun h => hswap.trans (h.append_right _)

/-- A refused change is kept in history, with what is staged for its path in place or nothing
staged for it. -/
theorem finish_refused (hi : s.Installable) (hk : c.kind = .modified sig)
    (hm : matchesSig bytes sig = true) (hc : s.refusesCase c = true) :
    ∃ v, (v = s ∨ v = s.installed) ∧ (finish c bytes).exec s =
      (.ok ⟨⟩, { v with history := s.collided c.path sig c.version bytes }) := by
  have hend {v : Session} (hf : (flushPendingInstallFor c.path).exec s = (.ok ⟨⟩, v))
      (hvc : v.refusesCase c = true) : (finish c bytes).exec s =
        (.ok ⟨⟩, { v with history := v.collided c.path sig c.version bytes }) := by
    rw [finish, exec_bind_ok hf, exec_bind_ok (caseCollisionRefused_exec hk hm hvc)]
    rfl
  by_cases hst : s.stagedFor c.path = true
  · refine ⟨s.installed, .inr rfl, hend ?_ hc⟩
    rw [flushPendingInstallFor, exec_get_bind, if_pos hst, flushInstalls_exec hi]
  · refine ⟨s, .inl rfl, hend ?_ hc⟩
    rw [flushPendingInstallFor, exec_get_bind, if_neg hst]
    rfl

/-- The frames that wait do not depend on the history. -/
theorem waiting_history (s : Session) (history : HistoryStore) :
    ({ s with history } : Session).installed.waiting = s.installed.waiting := rfl

/-- Nothing is staged any more once it is in place. -/
theorem waiting_installed (s : Session) (history : HistoryStore) :
    ({ s.installed with history } : Session).installed.waiting = s.installed.waiting := rfl

/-- A refused change that came in chunks: the queued change of its path went out first, with the
disk as it was, and the others go out with everything staged in place. -/
theorem refused_alike_iff (hi : s.Installable) (hs : s.Healthy) (hl : s.transport.isSome = true)
    (hk : c.kind = .modified sig) (hm : matchesSig bytes sig = true) (hc : s.refusesCase c = true)
    {u : Session} (hq : (flushQueuedSend c.path).exec s = (.ok ⟨⟩, u)) {l : List Message}
    (hn : ∀ m ∈ l, announces m = false) (chunkFiles : Std.ExtTreeMap ContentHash Bytes) :
    Alike (settle.exec { s with history := s.collided c.path sig c.version bytes })
      (Eff.exec (do finish c bytes; settle)
        (amidst ⟨u.sent ++ l, ∅, chunkFiles⟩ { u with sent := [] })) ↔ ¬s.Overtaken c.path := by
  obtain ⟨m, hm'⟩ := flushQueuedSend_exec hs hl c.path
  rw [hm'] at hq
  cases hq
  generalize hv : amidst _ _ = v
  have hsent : v.sent = s.sent ++ ((s.pendingSends.find? fun k => decide (k.path = c.path)).bind
      s.outgoing).toList ++ l := by
    rw [← hv, amidst, List.append_nil]
  have hvi : v.Installable := by rw [← hv]; exact hi
  have hvc : v.refusesCase c = true := by rw [← hv]; exact hc
  obtain ⟨v', hv', hx⟩ := finish_refused hvi hk hm hvc
  obtain ⟨m₁, h₁⟩ := settle_exec
    (s := { s with history := s.collided c.path sig c.version bytes }) hi hs hl
  have hchanges := ahead_perm_iff s c.path hn
  rw [← hsent] at hchanges
  rw [exec_bind_ok hx, h₁]
  rcases hv' with rfl | rfl
  · obtain ⟨m₂, h₂⟩ := settle_exec
      (s := { v' with history := v'.collided c.path sig c.version bytes }) hvi
      (by rw [← hv]; exact hs) (by rw [← hv]; exact hl)
    rw [h₂, waiting_history v']
    subst hv
    exact ⟨fun h => hchanges.1 h.changes, fun h => ⟨rfl, rfl, rfl, rfl, rfl, hchanges.2 h⟩⟩
  · obtain ⟨m₂, h₂⟩ := settle_exec
      (s := { v.installed with history := v.collided c.path sig c.version bytes }) rfl
      (by rw [← hv]; exact hs) (by rw [← hv]; exact hl)
    rw [h₂, waiting_history s, waiting_installed v]
    subst hv
    exact ⟨fun h => hchanges.1 h.changes, fun h => ⟨rfl, rfl, rfl, rfl, rfl, hchanges.2 h⟩⟩

theorem finish_settle_alike {w' : Traffic} (hs : s.Healthy) (hl : s.transport.isSome = true)
    (hw : w.sent.filter announces = w'.sent.filter announces) (c : RemoteChange) (bytes : Bytes) :
    Alike (Eff.exec (do finish c bytes; settle) (amidst w s))
      (Eff.exec (do finish c bytes; settle) (amidst w' s)) := by
  have hf (w : Traffic) := finish_amidst w hs c bytes
  simp only [Commutes] at hf
  have hwire := (finish_aside hs c bytes).leaves
  rw [Leaves] at hwire
  rw [exec_bind, exec_bind, hf, hf]
  rcases hx : (finish c bytes).exec s with ⟨r, u⟩
  rw [hx] at hwire
  cases r with
  | error e =>
    refine ⟨rfl, rfl, rfl, rfl, rfl, ?_⟩
    simp only [thenRun_error, amidst, List.filter_append, hw, List.Perm.refl]
  | ok _ =>
    have hu : u.wire.transport = s.wire.transport := by rw [hwire]
    exact settle_amidst (hs.of_wire hwire) ((congrArg Option.isSome hu).trans hl) hw

/-- Frames arrive, their batch ends, and the bulk queues are drained. -/
def takeIn (msgs : List Message) : SessionM Unit := do
  onMessages msgs
  settle

/-- With no transfer under way, no failing disk and a working link, a change that comes in chunks
does what it does inline, but where it is refused and the queued change of its path goes out as
another frame once what is staged is in place. -/
theorem chunked_alike_iff (hs : s.Healthy) (hl : s.transport.isSome = true)
    (hd : s.diskFull = false) (hi : s.Installable) (ha : s.assemblies = ∅)
    (hk : c.kind = .modified sig) (hm : matchesSig bytes sig = true)
    (hb : manifest.flatMap content = bytes) (hv : ∀ x ∈ manifest, Platform.blake3 (content x) = x)
    (ho : ∀ x ∈ manifest, x ∈ order) (total : Nat) :
    Alike ((takeIn [.change c (some bytes)]).exec s)
      ((takeIn (.changeManifest c total manifest :: answers content order)).exec s) ↔
        ¬(s.paused = false ∧ s.allowCrossing c.path .inbound = true ∧ s.refusesCase c = true ∧
          s.Overtaken c.path) := by
  subst hb
  by_cases hr : s.paused = false ∧ s.allowCrossing c.path .inbound = true
  · obtain ⟨hp, hin⟩ := hr
    obtain ⟨_, u, hq, hcore⟩ := (flushQueuedSend_files hs c.path).exec_eq
    obtain ⟨l, chunkFiles, hn, hx⟩ := chunked_finish hs hl hd ha hp hin hk hm hv ho hq total
    have hchunked : (takeIn (.changeManifest c total manifest :: answers content order)).exec s =
        Eff.exec (do finish c (manifest.flatMap content); settle)
          (amidst ⟨u.sent ++ l, ∅, chunkFiles⟩ { u with sent := [] }) := by
      rw [takeIn, exec_bind, hx, exec_bind]
    rw [hchunked]
    cases hc : s.refusesCase c with
    | true =>
      have hinline : (takeIn [.change c (some (manifest.flatMap content))]).exec s =
          settle.exec { s with
            history := s.collided c.path sig c.version (manifest.flatMap content) } := by
        have hone : (onChange c (some (manifest.flatMap content))).exec s = (.ok ⟨⟩, { s with
            history := s.collided c.path sig c.version (manifest.flatMap content) }) := by
          simp only [onChange, exec_get_bind, hin, ↓reduceIte]
          rw [exec_bind_ok (caseCollisionRefused_exec hk hm hc)]
          rfl
        have hmsg := onMessages_one (.change c (some (manifest.flatMap content))) s
        rw [onMessage, exec_get_bind, hp] at hmsg
        rw [takeIn, exec_bind_ok (hmsg.trans hone)]
      rw [hinline]
      exact (refused_alike_iff hi hs hl hk hm hc hq hn chunkFiles).trans
        ⟨fun h hc => h hc.2.2.2, fun h ho => h ⟨hp, hin, rfl, ho⟩⟩
    | false =>
      refine iff_of_true ?_ fun h => by cases h.2.2.1
      have hu : u.core.transport = s.core.transport := by rw [hcore]
      rw [takeIn, exec_bind, inline_finish hs ha hp hin hc hq, ← exec_bind]
      conv in (Eff.exec _ u) => rw [amidst_self u]
      refine finish_settle_alike (s := { u with sent := [] }) (hs.of_core hcore)
        ((congrArg Option.isSome hu).trans hl) ?_ c _
      have hnone : l.filter announces = [] :=
        List.filter_eq_nil_iff.2 fun m hm => by rw [hn m hm]; decide
      rw [List.filter_append, hnone, List.append_nil]
  · -- neither frame gets in, and no transfer waits for a chunk
    refine iff_of_true ?_ fun h => hr ⟨h.1, h.2.1⟩
    have hmsg (msg : Message) (hcontent : isContentFrame msg = true)
        (hout : s.paused = false → s.allowCrossing c.path .inbound = false →
          (onMessage msg).exec s = (.ok ⟨⟩, s)) : (onMessage msg).exec s = (.ok ⟨⟩, s) := by
      cases hp : s.paused with
      | true =>
        simp only [onMessage, exec_get_bind, hp, hcontent, Bool.and_self, ↓reduceIte, exec_pure]
      | false => exact hout hp (Bool.eq_false_iff.2 fun hin => hr ⟨hp, hin⟩)
    have hinline := hmsg (.change c (some (manifest.flatMap content))) rfl fun hp hin => by
      simp only [onMessage, exec_get_bind, hp, Bool.false_and, Bool.false_eq_true, ↓reduceIte,
        onChange, hin, exec_pure]
    have hchunked := hmsg (.changeManifest c total manifest) rfl fun hp hin => by
      simp only [onMessage, exec_get_bind, hp, Bool.false_and, Bool.false_eq_true, ↓reduceIte,
        onChangeManifest, hin, exec_pure]
    have hall : (onMessages (.changeManifest c total manifest :: answers content order)).exec s =
        (.ok ⟨⟩, s) := by
      change (onMessage (.changeManifest c total manifest) >>= fun _ =>
        onMessages (answers content order)).exec s = _
      rw [exec_bind_ok hchunked, onMessages_idle ha]
    rw [takeIn, takeIn, exec_bind_ok ((onMessages_one ..).trans hinline), exec_bind_ok hall]
    exact ⟨rfl, rfl, rfl, rfl, rfl, .refl _⟩

end

end Session

/-- The file `foo` in another spelling. -/
def fooUpper : RelPath := ⟨"FOO".toList, by decide⟩

/-- A disk that folds case answers to both spellings of a file that was renamed to the other. -/
def renamedTree : Tree := (fooTree 0x31).put (join rootDir fooUpper) (.file [0x31] 0o644 7)

/-- A change of `foo` that wins over ours, which it does not know. -/
def adverseChange : RemoteChange :=
  ⟨fooPath, .modified { twoSig with mtimeMs := 6 }, VectorClock.new.tick ⟨2⟩⟩

/-- What the peer has. -/
def adverseIndex : Index :=
  Index.new.upsert fooPath (.single adverseChange.version (.present { twoSig with mtimeMs := 6 }))

/-- The change the peer makes next. -/
def laterChange : RemoteChange :=
  ⟨fooPath, .modified oneSig, (VectorClock.new.tick ⟨2⟩).tick ⟨2⟩⟩

/-- In one burst a rival change is staged, the rename to the other spelling is seen, and the peer's
index comes in. -/
def overtakenSession : Session :=
  letI := folding
  (Eff.exec (do
    Session.onMessage (.change adverseChange (some [0x32]))
    Session.onWatch (.pending fooUpper .dirty)
    Session.onMessage (.indexExchange adverseIndex)) { Session.start rootDir syncAll fooEngine .new
      renamedTree with fs := ⟨true, false⟩, transport := some ⟨false⟩ }).2

/-- The peer's next change is refused. In chunks it first lets our queued version go out; inline
that version is overwritten while it is still in the queue. -/
theorem refused_chunks_differ :
    letI := folding
    overtakenSession.Healthy ∧ overtakenSession.transport.isSome = true ∧
      overtakenSession.diskFull = false ∧ overtakenSession.Installable ∧
      overtakenSession.assemblies = ∅ ∧
      overtakenSession.allowCrossing laterChange.path .inbound = true ∧
      matchesSig [0x31] oneSig = true ∧ Platform.blake3 [0x31] = sharedChunk ∧
      ¬Session.Alike
        ((Session.takeIn [.change laterChange (some [0x31])]).exec overtakenSession)
        ((Session.takeIn (.changeManifest laterChange 1 [sharedChunk] ::
          Session.answers (fun _ => [0x31]) [sharedChunk])).exec overtakenSession) := by
  let platform := folding
  refine ⟨?_, by decide +kernel, by decide +kernel, by decide +kernel, ?_, by decide +kernel,
    by decide +kernel, by decide +kernel, fun h => ?_⟩
  · have ht : overtakenSession.transport = some ⟨false⟩ := by decide +kernel
    intro t h
    rw [ht] at h
    cases h
    rfl
  · have he : overtakenSession.assemblies.isEmpty = true := by decide +kernel
    exact Std.ExtTreeMap.isEmpty_iff.1 he
  · have hlen := h.changes.length_eq
    revert hlen
    decide +kernel

/-- Where nothing collides, the two ways agree. -/
theorem chunked_alike_second :
    letI := tabulated shortHashes
    Session.Alike
      ((Session.takeIn [.change (modifiedAt secondPath) (some [0x31])]).exec idleTransfer.session)
      ((Session.takeIn (.changeManifest (modifiedAt secondPath) 1 [sharedChunk] ::
        Session.answers (fun _ => [0x31]) [sharedChunk])).exec idleTransfer.session) := by
  let platform := tabulated shortHashes
  refine (Session.chunked_alike_iff idleTransfer_start.healthy rfl rfl rfl rfl rfl
    (by decide) (by decide) (by decide) (by decide) 1).2 ?_
  rintro ⟨_, _, hc, _⟩
  revert hc
  decide +kernel

end Tomo
