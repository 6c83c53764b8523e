import Mathlib.Logic.Relation
import Tomo.Session.Abiding
import Tomo.Session.Rules

namespace Tomo
set_option autoImplicit true

namespace Session
open Eff

section
variable [Platform] {k : Remit} {s₀ s s' : Session} {p : RelPath}

omit [Platform] in
theorem Bound.loosen (h : Bound k s₀ s) : Bound k.anywhere s₀ s := { h with ground := trivial }

omit [Platform] in
theorem Bound.absorbed (h : Bound k s₀ s) {c : RemoteChange} (hc : k.about c.path) :
    Bound k s₀ (s.absorbed c) := by
  refine { h with anchored := ⟨h.anchored.root_dir, h.anchored.guarded⟩, entries := fun q hq => ?_ }
  rw [← h.entries q hq]
  apply (Engine.handleRemote_agrees s.engine c .absent).1
  rintro rfl
  exact hq hc

/-- A change that is let in, probed, and reached without a link is absorbed within the remit. -/
theorem absorbAndExecute_bound (hg : ∀ t, k.ground t) {c : RemoteChange} (hc : k.cfg.letsIn c.path)
    (hl : ¬Strays k.cfg k.root s.tree c.path) (hprobe : snapshot s.tree s.root c.path = .ok o)
    (bytes : Option Bytes) : Upholds (Bound k s₀) (absorbAndExecute c bytes) s := by
  have hp := k.in_about hc
  have hpath : ∀ a ∈ (s.engine.handleRemote c).2, k.about a.path := by
    intro a ha
    rw [s.engine.handleRemote_path c a ha]
    exact hp
  have hcarry : Upholds (Bound k s₀) (carryOut c.path (s.engine.applyTarget c) bytes)
      (s.absorbed c) := by
    cases s.engine.applyTarget c with
    | none => exact .pure _ _
    | some target => exact doApply_bound (s := s.absorbed c) hg hc hl hprobe target bytes
  have hboth : Upholds (Bound k s₀) (do
      carryOut c.path (s.engine.applyTarget c) bytes
      s.fileAbsorbed c bytes) (s.absorbed c) := by
    refine hcarry.bind fun _ s' => ?_
    refine executeActions_bound bytes _ _ _ (fun a ha => ?_) (fun a ha => ?_) ?_ s'
    · exact (Engine.paperwork_paper s.engine c a ha).1
    · rw [(Engine.paperwork_paper s.engine c a ha).2]
      exact hp
    · exact conflictCaptures_path _ bytes _ hpath
  constructor
  intro h
  rw [absorbAndExecute_exec]
  exact hboth.after (h.absorbed hp)

/-- What the peer may ask for is served from files that the rules let out. -/
def Serves (k : Remit) (s : Session) : Prop :=
  ∀ (q : RelPath) content range, k.cfg.letsOut q →
    s.tree.read (join s.root q) = .ok content → k.served (slice content range)

theorem onChunkRequest_bound (hs : Serves k s) (hashes : List ContentHash) :
    Upholds (Bound k s₀) (onChunkRequest hashes) s := by
  obtain ⟨out, hx, hout⟩ := onChunkRequest_exec hashes s
  constructor
  intro h
  rw [hx]
  refine { h with anchored := ⟨h.anchored.root_dir, h.anchored.guarded⟩, queued := ?_ }
  intro m hm
  rcases List.mem_append.1 hm with hm | hm
  · exact h.queued m hm
  · obtain ⟨p, chunks, content, hash, range, hp, hread, rfl⟩ := hout m hm
    exact hs p content range (h.announced p chunks hp) hread

omit [Platform] in
theorem reconcile_worth (s : Session) (peer : Index) : (s.reconcile peer).worth = s.worth := by
  rw [Session.reconcile]
  generalize uncoveredHeads s.engine.index peer = l
  induction l generalizing s with
  | nil => rfl
  | cons c l ih =>
    refine (ih (s.enqueueBulkSend c)).trans ?_
    rw [enqueueBulkSend]
    split <;> rfl

omit [Platform] in
theorem resyncIndices_bound (s : Session) : Upholds (Bound k s₀) resyncIndices s :=
  .get <| .ite (send_bound (.indexExchange _) trivial s) (.pure _ s)

omit [Platform] in
theorem reconcilePauseState_bound (s : Session) : Upholds (Bound k s₀) reconcilePauseState s := by
  refine .get <| .ite (.pure _ s) (Upholds.bind (bound_set rfl) fun _ s' => .ite ?_ ?_)
  · exact Upholds.bind (.modify Bound.suspended) fun _ s' => send_bound .pause trivial s'
  · exact (send_bound .resume trivial s').bind fun _ s' => resyncIndices_bound s'

omit [Platform] in
theorem onHello_bound (protocol : Nat) (version : List Char) (replica : ReplicaId) (s : Session) :
    Upholds (Bound k s₀) (onHello protocol version replica) s := by
  refine .get <| .ite (.throw _ s) (.ite (.ite (bound_set rfl) (.throw _ s)) ?_)
  refine Upholds.bind (bound_set rfl) fun _ s' => ?_
  refine (send_bound (.indexExchange _) trivial s').bind fun _ s' => ?_
  exact .get <| .ite (send_bound .pause trivial s') (.pure _ s')

omit [Platform] in
theorem onPeerPause_bound (s : Session) : Upholds (Bound k s₀) onPeerPause s := by
  refine .modify fun h => ?_
  split
  · exact h
  · have hp : Bound k s₀ { s with peerPaused := true } := h.same rfl
    exact hp.suspended

/-- A frame that comes while the session is paused, or brings no change. -/
theorem onAside_bound {msg : Message} (hm : msg.bringsChange = true → s.paused = true)
    (hs : Serves k s) : Upholds (Bound k s₀) (onMessage msg) s := by
  refine .get ?_
  split
  · exact .pure _ s
  next hpause =>
    have hn : msg.bringsChange = true → isContentFrame msg = false := by
      intro hb
      rwa [hm hb, Bool.true_and, Bool.not_eq_true] at hpause
    cases msg with
    | hello protocol version replica => exact onHello_bound protocol version replica s
    | indexExchange peer => exact bound_modify (reconcile_worth s peer)
    | chunkRequest hashes => exact onChunkRequest_bound hs hashes
    | ping nonce => exact send_bound (.pong nonce) trivial s
    | pong nonce => exact .pure _ s
    | pause => exact onPeerPause_bound s
    | resume => exact Upholds.bind (bound_modify rfl) fun _ s' => resyncIndices_bound s'
    | change c bytes => cases hn rfl
    | changeManifest c total manifest => cases hn rfl
    | chunkData hash bytes => cases hn rfl

/-- The paths whose change a frame may bring to completion. -/
def Aims (s : Session) : Message → RelPath → Prop
  | .change c _, p | .changeManifest c _ _, p => p = c.path
  | .chunkData hash _, p => ∃ (q : RelPath) (a : Assembly), s.assemblies[q]? = some a ∧
      hash ∈ a.manifest ∧ p = a.change.path
  | .hello .., _ | .indexExchange _, _ | .chunkRequest _, _ | .ping _, _ | .pong _, _ | .pause, _
  | .resume, _ => False

theorem arrive_bound (msg : Message) (hs : Serves k s) :
    Ensures (Bound k s₀) (ArrivesLetIn k.cfg (s.Aims msg)) (arrive msg) s := by
  have haside (hm : msg.bringsChange = true → s.paused = true) :
      Ensures (Bound k s₀) (ArrivesLetIn k.cfg (s.Aims msg)) (do
        onMessage msg
        pure none) s :=
    .bind (onAside_bound hm hs) fun _ s' => .pure (arrives_none _ _) s'
  apply Ensures.get
  cases hp : s.paused with
  | true => exact haside fun _ => hp
  | false =>
    cases msg with
    | change c bytes =>
      exact arriveChange_bound (A := s.Aims (.change c bytes)) rfl bytes s
    | changeManifest c total manifest =>
      exact arriveManifest_bound (A := s.Aims (.changeManifest c total manifest)) rfl total
        manifest s
    | chunkData hash bytes => exact arriveChunk_bound (fun q a hq hm => ⟨q, a, hq, hm, rfl⟩) bytes
    | hello | indexExchange | chunkRequest | ping | pong | pause | resume =>
      exact haside fun h => by cases h

/-- A frame stays within the remit, unless a link leads from the path of its change to a file that
is not let in. -/
theorem onMessage_bound {msg : Message} (hs : Serves k s)
    (hg : ∀ t, k.ground t → ∀ p, s.Aims msg p → k.cfg.letsIn p → ¬Strays k.cfg k.root t p)
    (h : Bound k s₀ s) : Bound k.anywhere s₀ ((onMessage msg).exec s).2 := by
  obtain ⟨hb, hr⟩ := (arrive_bound msg hs).after h
  rw [onMessage_arrives, exec_bind]
  rcases hx : (arrive msg).exec s with ⟨r, s'⟩
  rw [hx] at hb hr
  cases r with
  | error e => exact hb.loosen
  | ok e =>
    cases e with
    | none => exact hb.loosen
    | some e =>
      obtain ⟨hin, haim⟩ := hr _ rfl e rfl
      obtain ⟨o, hprobe⟩ := arrive_probes msg s e s' hx
      have hl : ¬Strays k.anywhere.cfg k.anywhere.root s'.tree e.1.path :=
        hg s'.tree hb.ground e.1.path haim hin
      exact (absorbAndExecute_bound (k := k.anywhere) (fun _ => trivial) hin hl hprobe e.2).after
        hb.loosen

theorem onWatch_bound {signal : WatchSignal} (hp : ∀ rel kind, signal = .pending rel kind →
    k.about rel) (s : Session) : Upholds (Bound k s₀) (onWatch signal) s := by
  cases signal with
  | needsRescan => exact bound_modify rfl
  | pending rel kind =>
    refine (flushPendingInstallFor_bound rel s).bind fun _ s' => .get ?_
    split
    · exact bound_set rfl
    · exact absorbLocal_bound (c := ⟨rel, _⟩) (hp rel kind rfl) s'

/-- What a visit of the walk adds is not ignored. -/
theorem visit_synced (hr : s.tree.get s.root = some .dir) {e : List Name × Node Name}
    (h : s.visit out e = .ok out')
    (ho : ∀ (p : RelPath) sig, out[p]? = some sig → s.config.synced p) (p : RelPath) sig
    (hp : out'[p]? = some sig) : s.config.synced p := by
  rw [visit] at h
  split at h
  next hv =>
    obtain ⟨⟨comps, hc⟩, hfile, hent⟩ := hv
    rw [← hc] at hfile hent h
    rw [List.drop_left] at hent h
    have hne : comps ≠ [] := by
      rintro rfl
      rw [List.append_nil] at hfile
      obtain ⟨b, m, t, hg⟩ := FileTree.isFile_iff.1 hfile
      rw [hr] at hg
      cases hg
    split at h
    · cases h
      exact ho p sig hp
    next rel hrel =>
      split at h
      next sig' hsig =>
        cases h
        simp only [Std.ExtTreeMap.getElem?_insert, Std.compare_eq_iff_eq] at hp
        split at hp
        next he =>
          subst he
          have hpos := List.length_pos_iff.2 hne
          have hlast := List.all_eq_true.1 hent (comps.length - 1)
            (List.mem_range.2 (Nat.sub_lt hpos Nat.one_pos))
          rw [Nat.sub_add_cancel hpos, List.take_length, hrel] at hlast
          exact fun hi => of_decide_eq_true hlast hi
        next => exact ho p sig hp
      · cases h
        exact ho p sig hp
      · cases h
  next =>
    cases h
    exact ho p sig hp

theorem walkTree_synced (hr : s.tree.get s.root = some .dir) (h : walkTree s = .ok out)
    (p : RelPath) sig (hp : out[p]? = some sig) : s.config.synced p := by
  rw [walkTree_visits hr] at h
  have hfold (l : List (List Name × Node Name)) (m : Std.ExtTreeMap RelPath ContentSig)
      (hm : ∀ (p : RelPath) sig, m[p]? = some sig → s.config.synced p)
      (h : l.foldlM s.visit m = .ok out) : s.config.synced p := by
    induction l generalizing m with
    | nil =>
      cases h
      exact hm p sig hp
    | cons e l ih =>
      rw [List.foldlM_cons] at h
      cases hv : s.visit m e with
      | error err =>
        rw [hv] at h
        cases h
      | ok m' =>
        rw [hv] at h
        exact ih m' (visit_synced hr hv hm) h
  refine hfold _ ∅ (fun q sig hq => ?_) h
  rw [Std.ExtTreeMap.getElem?_empty] at hq
  cases hq

/-- A scan reports nothing of an ignored path. -/
theorem scanDiff_synced (hr : s.tree.get s.root = some .dir) (h : scanDiff s = .ok changes)
    (c : LocalChange) (hc : c ∈ changes) : s.config.synced c.path := by
  cases hw : walkTree s with
  | error e =>
    rw [scanDiff, hw] at h
    cases h
  | ok onDisk =>
    rw [scanDiff_collects hw] at h
    cases h
    obtain ⟨e, he, rfl⟩ := List.mem_map.1 hc
    have hget := Std.ExtTreeMap.mem_toList_iff_getElem?_eq_some.1 he
    rcases (collect_reports e.1 e.2).1 hget with ⟨sig, _, hs, _⟩ | ⟨_, _, hsync, _⟩
    · exact walkTree_synced hr hw e.1 sig hs
    · exact hsync

theorem rescan_bound (hr : s.tree.get s.root = some .dir)
    (hp : ∀ p, s.config.synced p → k.about p) : Upholds (Bound k s₀) rescan s := by
  apply Upholds.get
  split
  · exact .throw _ s
  next changes hc =>
    exact .forM (fun c hm s' => absorbLocal_bound (hp c.path (scanDiff_synced hr hc c hm)) s') s

theorem startupScan_bound (hr : s.tree.get s.root = some .dir)
    (hp : ∀ p, s.config.synced p → k.about p) : Upholds (Bound k s₀) startupScan s := by
  apply Upholds.get
  split
  · exact .throw _ s
  next changes hc =>
    refine .forM (fun c hm s' => ?_) s
    have hcp := hp c.path (scanDiff_synced hr hc c hm)
    exact (handleEvent_bound hcp s').bind_exec fun actions s'' hx => executeLocal_bound hcp hx s''

theorem completeness_bound (hp : ∀ e ∈ s.missingVersions, k.about e.1) :
    Upholds (Bound k s₀) reconcileHistoryCompleteness s := by
  refine Upholds.bind_exec (bound_modify rfl) fun _ s' hx => ?_
  cases hx
  exact .get <| .forM (fun e hm s' => noteVersion_bound (hp e hm) ..) _

omit [Platform] in
theorem ruled_filed (hp : ∀ p, k.cfg.synced p → k.about p) :
    Ruled k s₀ s ↔ Filed k.about s₀.history.versions s₀.history.conflicts s :=
  ⟨fun h => ⟨h.1, fun p hs => hp p (h.2 p hs)⟩, fun h => ⟨h.rows, fun p hs =>
    k.about_synced (h.staged p hs)⟩⟩

theorem recordDueVersions_inward (due : List (RelPath × StagedCapture)) (s : Session) :
    Inward (recordDueVersions due) s :=
  .get <| .ite rfl ((liftHistory_inward _ s).bind fun _ _ _ => rfl)

theorem pumpHistory_bound (hp : ∀ p, k.cfg.synced p → k.about p) (s : Session) :
    Upholds (Bound k s₀) pumpHistory s := by
  refine (pumpHistory_books s).bound ?_ ⟨fun h => ?_⟩
  · exact .get <| Leaves.bind (.set rfl) fun _ s' _ => recordDueVersions_inward _ s'
  · exact (ruled_filed hp).2 ((pumpHistory_upholds s).after ((ruled_filed hp).1 h))

theorem drainHistory_bound (hp : ∀ p, k.cfg.synced p → k.about p) (s : Session) :
    Upholds (Bound k s₀) drainHistory s := by
  have hdrain (n nowMs : Nat) (s : Session) : Inward (drainFrom n nowMs) s := by
    induction n generalizing nowMs s with
    | zero => rfl
    | succ n ih =>
      apply Leaves.get
      split
      · rfl
      · refine Leaves.bind (.set rfl) fun _ s' _ => ?_
        exact (recordDueVersions_inward _ s').bind fun _ s' _ => ih _ s'
  refine (drainHistory_books s).bound (.get (hdrain _ _ s)) ⟨fun h => ?_⟩
  exact (ruled_filed hp).2 ((drainHistory_upholds s).after ((ruled_filed hp).1 h))

/-- What a session does at a time: it takes up one item of a burst, it renames what is staged into
place, or it makes one of the other passes of its loop. -/
inductive Deed where
  | take (a : Arrival)
  | install
  | pass (pass : Pass)

/-- The session after a deed, also one that fails. -/
def does (s : Session) : Deed → Session
  | .take a => ((processIncoming a.item).exec (s.reached a)).2
  | .install => (flushInstalls.exec s).2
  | .pass pass => s.after pass

/-- A burst ends with the renaming of what is staged, also after an error. -/
theorem processBurst_after (batch : List Arrival) (s : Session) : s.after (.burst batch) =
    (flushInstalls.exec ((processItems (coalesceBurst batch)).exec s).2).2 := by
  rcases hi : (processItems (coalesceBurst batch)).exec s with ⟨r, u⟩
  rcases hf : flushInstalls.exec u with ⟨f, v⟩
  have hleave : Eff.exec (try Except.ok <$> processItems (coalesceBurst batch)
      catch e => pure (.error e)) s = (.ok r, u) := by
    rw [exec_tryCatch, map_eq_pure_bind, exec_bind, hi]
    cases r <;> rfl
  have hflush : Eff.exec (try Except.ok <$> flushInstalls catch e => pure (.error e)) u =
      (.ok f, v) := by
    rw [exec_tryCatch, map_eq_pure_bind, exec_bind, hf]
    cases f <;> rfl
  change (((fun _ => PUnit.unit) <$> processBurst batch : SessionM PUnit).exec s).2 = _
  rw [map_eq_pure_bind, exec_bind, processBurst, exec_bind_ok hleave, exec_bind_ok hflush]
  cases r <;> cases f <;> rfl

/-- A burst takes up items and renames staged files, however it ends. -/
theorem burst_deeds (batch : List Arrival) (s : Session) : ∃ deeds : List Deed,
    (∀ d ∈ deeds, d = .install ∨ ∃ a ∈ batch, d = .take a) ∧
      deeds.foldl does s = s.after (.burst batch) := by
  have hitems (l : List Arrival) (s : Session) : ∃ deeds : List Deed,
      (∀ d ∈ deeds, d = .install ∨ ∃ a ∈ l, d = .take a) ∧
        deeds.foldl does s = ((processItems l).exec s).2 := by
    induction l generalizing s with
    | nil => exact ⟨[], fun d hd => (by cases hd), rfl⟩
    | cons a rest ih =>
      have hstop : ∀ d ∈ [Deed.take a], d = .install ∨ ∃ b ∈ a :: rest, d = .take b := by
        intro d hd
        exact .inr ⟨a, List.mem_cons_self, List.mem_singleton.1 hd⟩
      have hmore {deeds : List Deed} (h : ∀ d ∈ deeds, d = .install ∨ ∃ b ∈ rest, d = .take b) :
          ∀ d ∈ deeds, d = .install ∨ ∃ b ∈ a :: rest, d = .take b := by
        intro d hd
        obtain hi | ⟨b, hb, he⟩ := h d hd
        · exact .inl hi
        · exact .inr ⟨b, List.mem_cons_of_mem a hb, he⟩
      rw [processItems_cons, exec_bind]
      rcases hx : (processIncoming a.item).exec (s.reached a) with ⟨r, u⟩
      have hu : s.does (.take a) = u := by rw [does, hx]
      cases r with
      | error e => exact ⟨[.take a], hstop, hu⟩
      | ok leave =>
        cases leave with
        | true => exact ⟨[.take a], hstop, hu⟩
        | false =>
          simp only [thenRun_ok, Bool.false_eq_true, ↓reduceIte, goOn, exec_get_bind, exec_ite]
          split
          · exact ⟨[.take a], hstop, hu⟩
          · split
            · rw [exec_bind]
              rcases hf : flushInstalls.exec u with ⟨f, v⟩
              have hv : u.does .install = v := by rw [does, hf]
              cases f with
              | error e =>
                refine ⟨[.take a, .install], fun d hd => ?_, ?_⟩
                · rcases List.mem_cons.1 hd with rfl | hd
                  · exact hstop _ List.mem_cons_self
                  · exact .inl (List.mem_singleton.1 hd)
                · rw [List.foldl_cons, List.foldl_cons, hu, hv]
                  rfl
              | ok _ =>
                obtain ⟨deeds, hd, he⟩ := ih v
                refine ⟨.take a :: .install :: deeds, fun d hm => ?_, ?_⟩
                · rcases List.mem_cons.1 hm with rfl | hm
                  · exact hstop _ List.mem_cons_self
                  · rcases List.mem_cons.1 hm with rfl | hm
                    · exact .inl rfl
                    · exact hmore hd d hm
                · rw [List.foldl_cons, List.foldl_cons, hu, hv, he]
                  rfl
            · obtain ⟨deeds, hd, he⟩ := ih u
              refine ⟨.take a :: deeds, fun d hm => ?_, ?_⟩
              · rcases List.mem_cons.1 hm with rfl | hm
                · exact hstop _ List.mem_cons_self
                · exact hmore hd d hm
              · rw [List.foldl_cons, hu, he]
  obtain ⟨deeds, hd, he⟩ := hitems (coalesceBurst batch) s
  refine ⟨deeds ++ [.install], fun d hm => ?_, ?_⟩
  · rcases List.mem_append.1 hm with hm | hm
    · obtain hi | ⟨a, ha, he⟩ := hd d hm
      · exact .inl hi
      · exact .inr ⟨a, coalesceBurst_subset batch ha, he⟩
    · exact .inl (List.mem_singleton.1 hm)
  · rw [List.foldl_append, he]
    exact (processBurst_after batch s).symm

/-- What may come to a session: the watcher passes on nothing that is ignored, a burst comes item
by item, and others change the disk between two bursts and leave the root a directory. -/
def Happens (s : Session) : Deed → Prop
  | .take a => ∀ rel kind, a.item = .watch (.pending rel kind) → s.config.synced rel
  | .pass (.around w) => s.pendingInstalls = [] ∧ w.tree.get s.root = some .dir
  | .pass (.burst _) => False
  | _ => True

/-- No winner that history lacks is about an ignored path when history is completed, and no link
leads from the path of a frame's change to a file that is not let in. -/
def Fair (s : Session) : Deed → Prop
  | .take a => ∀ msg, a.item = .message msg → ∀ p, s.Aims msg p → s.config.letsIn p →
      ¬Strays s.config s.root s.tree p
  | .pass .completeHistory => ∀ e ∈ s.missingVersions, s.config.synced e.1
  | _ => True

def FairStep (s s' : Session) : Prop := ∃ d, s.Happens d ∧ s.Fair d ∧ s' = s.does d

/-- Bytes that a path of a session has shown, at some time of a run, under a name that the rules
let out. -/
def Served (s : Session) (bytes : Bytes) : Prop :=
  ∃ u, Relation.ReflTransGen FairStep s u ∧ ∃ (q : RelPath) (content : Bytes) (range : Nat × Nat),
    s.config.letsOut q ∧ u.tree.read (join u.root q) = .ok content ∧ bytes = slice content range

/-- A session as its loop starts, whatever index and history it has loaded. -/
structure Unbegun (s : Session) : Prop where
  root_dir : s.tree.get s.root = some .dir
  pendingInstalls : s.pendingInstalls = []
  assemblies : s.assemblies = ∅
  outboundManifests : s.outboundManifests = ∅
  pendingChunks : s.pendingChunks = []
  staging : s.pressure.staging = ∅

/-- A path has the same entry and the same history as before. -/
structure Untold (s s' : Session) (p : RelPath) : Prop where
  entry : s'.engine.index.get p = s.engine.index.get p
  versions : s'.history.versions.filter (fun r => r.path = p) =
    s.history.versions.filter (fun r => r.path = p)
  conflicts : s'.history.conflicts.filter (fun r => r.path = p) =
    s.history.conflicts.filter (fun r => r.path = p)

/-- What the rules ask of a deed. -/
structure Obeys (served : Bytes → Prop) (s : Session) (d : Deed) : Prop where
  sent : ∃ l, (s.does d).sent = s.sent ++ l ∧ ∀ m ∈ l, m.LetOut s.config served
  files : (∀ w, d ≠ .pass (.around w)) → ∀ p, ¬s.config.letsIn p →
    (s.does d).tree.fileAt (join s.root p) = s.tree.fileAt (join s.root p)
  ignored : ∀ p, ¬s.config.synced p → Untold s (s.does d) p
  inbound : ∀ a msg, d = .take a → a.item = .message msg → ∀ p, ¬s.config.letsIn p →
    Untold s (s.does d) p

omit [Platform] in
theorem Bound.untold (h : Bound k s₀ s) (hp : ¬k.about p) : Untold s₀ s p := by
  obtain ⟨l, hl, hall⟩ := h.rows.versions
  obtain ⟨c, hc, hcall⟩ := h.rows.conflicts
  refine ⟨h.entries p hp, ?_, ?_⟩
  · rw [hl, List.filter_append, List.append_right_eq_self, List.filter_eq_nil_iff]
    intro r hr he
    exact hp (of_decide_eq_true he ▸ hall r hr)
  · rw [hc, List.filter_append, List.append_right_eq_self, List.filter_eq_nil_iff]
    intro r hr he
    exact hp (of_decide_eq_true he ▸ hcall r hr)

/-- What a session has under way is within its rules. -/
structure Orderly (cfg : Config) (served : Bytes → Prop) (s : Session) : Prop where
  config : s.config = cfg
  anchored : s.Anchored
  staged : ∀ i ∈ s.pendingInstalls, cfg.letsIn i.path
  assembling : ∀ (q : RelPath) (a : Assembly), s.assemblies[q]? = some a → cfg.letsIn a.change.path
  announced : ∀ (q : RelPath) chunks, s.outboundManifests[q]? = some chunks → cfg.letsOut q
  queued : ∀ m ∈ s.pendingChunks, m.LetOut cfg served
  captured : s.pressure.Stages cfg.synced

omit [Platform] in
theorem Bound.orderly (h : Bound k s₀ s) : Orderly k.cfg k.served s := { h with }

omit [Platform] in
theorem Orderly.bound (h : Orderly k.cfg k.served s) (hr : s.root = k.root) (hg : k.ground s.tree) :
    Bound k s s :=
  { h with
    root := hr
    ground := hg
    spoken := ⟨[], (List.append_nil _).symm, fun m hm => by cases hm⟩
    files := fun _ _ => rfl
    entries := fun _ _ => rfl
    rows := ⟨⟨[], (List.append_nil _).symm, fun r hr => by cases hr⟩,
      [], (List.append_nil _).symm, fun r hr => by cases hr⟩ }

/-- The remit of a frame: paths that are let in, over a disk without such links. -/
def inboundRemit (s : Session) (served : Bytes → Prop) (msg : Message) : Remit where
  cfg := s.config
  root := s.root
  about := s.config.letsIn
  served
  ground t := ∀ p, s.Aims msg p → s.config.letsIn p → ¬Strays s.config s.root t p
  in_about h := h
  about_synced := Config.letsIn.synced
  ground_install hq hpoke hg p ha hin hs := hg p ha hin (hs.of_install hq hpoke)

/-- The remit of everything else: paths that are not ignored. -/
def syncedRemit (s : Session) (served : Bytes → Prop) : Remit where
  cfg := s.config
  root := s.root
  about := s.config.synced
  served
  ground _ := True
  in_about := Config.letsIn.synced
  about_synced h := h
  ground_install _ _ _ := trivial

omit [Platform] in
theorem reached_worth (a : Arrival) (s : Session) : (s.reached a).worth = s.worth := by
  rw [reached]
  split <;> rfl

omit [Platform] in
theorem reached_assemblies (a : Arrival) (s : Session) :
    (s.reached a).assemblies = s.assemblies := by
  rw [reached]
  split <;> rfl

omit [Platform] in
theorem reached_ground (a : Arrival) (s : Session) :
    (s.reached a).root = s.root ∧ (s.reached a).tree = s.tree := by
  rw [reached]
  split <;> exact ⟨rfl, rfl⟩

omit [Platform] in
theorem Aims.of_assemblies {msg : Message} (ha : s'.assemblies = s.assemblies)
    (h : s'.Aims msg p) : s.Aims msg p := by
  cases msg with
  | chunkData hash bytes =>
    rw [Aims, ha] at h
    exact h
  | change | changeManifest => exact h
  | hello | indexExchange | chunkRequest | ping | pong | pause | resume => exact h

/-- A frame is taken up within its remit. -/
theorem take_message_bound {served : Bytes → Prop} {msg : Message} {a : Arrival}
    (hi : a.item = .message msg) (h : Orderly s.config served s)
    (hs : Serves (s.inboundRemit served msg) s) (hf : s.Fair (.take a)) :
    Bound (s.inboundRemit served msg).anywhere s (s.does (.take a)) := by
  have hb : Bound (s.inboundRemit served msg) s s :=
    Orderly.bound (k := s.inboundRemit served msg) h rfl (hf msg hi)
  obtain ⟨hr, ht⟩ := reached_ground a s
  have hu : Bound (s.inboundRemit served msg) s (s.receiving a msg) :=
    (hb.same (reached_worth a s)).same rfl
  have hserve : Serves (s.inboundRemit served msg) (s.receiving a msg) := by
    intro q content range hout hread
    refine hs q content range hout ?_
    rw [← ht, ← hr]
    exact hread
  have hm := onMessage_bound hserve (fun t hg p ha hin =>
    hg p (ha.of_assemblies (reached_assemblies a s)) hin) hu
  have hx : s.does (.take a) = ((onMessage msg).exec (s.receiving a msg)).2 := by
    rw [does, hi]
    change (Eff.exec (do
      onMessage msg
      pure false : SessionM Bool) (s.receiving a msg)).2 = _
    rw [exec_bind]
    rcases (onMessage msg).exec (s.receiving a msg) with ⟨r, v⟩
    cases r <;> rfl
  rw [hx]
  exact hm

theorem processIncoming_bound {item : Incoming} (hi : ∀ msg, item ≠ .message msg)
    (hp : ∀ rel kind, item = .watch (.pending rel kind) → k.about rel) (s : Session) :
    Upholds (Bound k s₀) (processIncoming item) s := by
  cases item with
  | watch signal =>
    refine Upholds.bind (bound_modify rfl) fun _ s' => ?_
    refine (onWatch_bound (fun rel kind he => ?_) s').map
    subst he
    exact hp rel kind rfl
  | message msg => exact (hi msg rfl).elim
  | peerEof =>
    exact .get <| .ite (Upholds.bind (.set Bound.offline) fun _ s' => .pure _ s') (.pure _ s)
  | protoError =>
    exact .get <| .ite (Upholds.bind (.set Bound.offline) fun _ s' => .pure _ s') (.throw _ s)
  | shutdown => exact .pure _ s
  | pause | resume => exact (reconcilePauseState_bound s).map

theorem maybeRescan_bound (hr : s.tree.get s.root = some .dir)
    (hp : ∀ p, s.config.synced p → k.about p) : Upholds (Bound k s₀) maybeRescan s := by
  refine .get <| .ite (.pure _ s) (Upholds.bind_exec (bound_set rfl) fun _ s' hx => ?_)
  cases hx
  exact rescan_bound hr hp

omit [Platform] in
theorem maybeRetryStall_bound (s : Session) : Upholds (Bound k s₀) maybeRetryStall s :=
  .get <| .ite (.pure _ s) (Upholds.bind (bound_set rfl) fun _ s' =>
    send_bound (.indexExchange _) trivial s')

omit [Platform] in
theorem onConnected_bound (s : Session) : Upholds (Bound k s₀) onConnected s :=
  Upholds.bind (bound_modify rfl) fun _ s' => .get (send_bound (.hello _ _ _) trivial s')

/-- Any other deed is about paths that are not ignored. -/
theorem does_bound {served : Bytes → Prop} {d : Deed} (h : Orderly s.config served s)
    (hh : s.Happens d) (hf : s.Fair d) (hd : ∀ a msg, d = .take a → a.item ≠ .message msg)
    (hw : ∀ w, d ≠ .pass (.around w)) : Bound (s.syncedRemit served) s (s.does d) := by
  have hb : Bound (s.syncedRemit served) s s :=
    Orderly.bound (k := s.syncedRemit served) h rfl trivial
  have hroot := h.anchored.root_dir
  have hall : ∀ p, (s.syncedRemit served).cfg.synced p → (s.syncedRemit served).about p :=
    fun p hp => hp
  cases d with
  | take a =>
    have hr : Bound (s.syncedRemit served) s (s.reached a) := hb.same (reached_worth a s)
    have hp : ∀ rel kind, a.item = .watch (.pending rel kind) →
        (s.syncedRemit served).about rel := hh
    exact (processIncoming_bound (fun msg hi => hd a msg rfl hi) hp _).after hr
  | install => exact (flushInstalls_bound s).after hb
  | pass pass =>
    cases pass with
    | startupScan => exact (startupScan_bound hroot hall).after hb
    | completeHistory =>
      have hm : ∀ e ∈ s.missingVersions, (s.syncedRemit served).about e.1 := hf
      exact (completeness_bound hm).after hb
    | connect => exact (onConnected_bound s).after hb
    | burst batch => exact hh.elim
    | shipBulk => exact (shipBulkSubbatch_bound s).after hb
    | rescan => exact (maybeRescan_bound hroot hall).after hb
    | pumpHistory => exact (pumpHistory_bound hall s).after hb
    | retryStall => exact (maybeRetryStall_bound s).after hb
    | drainHistory => exact (drainHistory_bound hall s).after hb
    | around w => exact (hw w rfl).elim

/-- What happens to a session keeps what it has under way within its rules, and obeys them. -/
theorem Orderly.does {served : Bytes → Prop} {d : Deed} (h : Orderly s.config served s)
    (hs : ∀ msg, Serves (s.inboundRemit served msg) s) (hh : s.Happens d) (hf : s.Fair d) :
    Orderly s.config served (s.does d) ∧ Obeys served s d := by
  by_cases hm : ∃ a msg, d = .take a ∧ a.item = .message msg
  · obtain ⟨a, msg, rfl, hi⟩ := hm
    have hb := take_message_bound hi h (hs msg) hf
    have hin (p : RelPath) (hp : ¬s.config.letsIn p) : Untold s (s.does (.take a)) p :=
      hb.untold hp
    refine ⟨hb.orderly, hb.spoken, fun _ => hb.files, fun p hp => ?_, fun _ _ _ _ => hin⟩
    exact hin p fun hlet => hp hlet.synced
  · have hd : ∀ a msg, d = .take a → a.item ≠ .message msg :=
      fun a msg he hi => hm ⟨a, msg, he, hi⟩
    by_cases hw : ∃ w, d = .pass (.around w)
    · obtain ⟨w, rfl⟩ := hw
      obtain ⟨hstaged, hroot⟩ := hh
      refine ⟨{ h with anchored := ⟨hroot, fun i hi => ?_⟩ }, ⟨[], ?_, fun m hm => by cases hm⟩,
        fun hn => (hn w rfl).elim, fun p _ => ⟨rfl, rfl, rfl⟩, fun a msg he => by cases he⟩
      · have hi' : i ∈ s.pendingInstalls := hi
        rw [hstaged] at hi'
        cases hi'
      · exact (List.append_nil _).symm
    · have hb := does_bound h hh hf hd fun w he => hw ⟨w, he⟩
      exact ⟨hb.orderly, hb.spoken, fun _ => hb.files, fun p hp => hb.untold hp,
        fun a msg he hi => (hd a msg he hi).elim⟩

omit [Platform] in
theorem Unbegun.orderly (h : Unbegun s) (served : Bytes → Prop) : Orderly s.config served s := by
  constructor
  case config => rfl
  case anchored =>
    refine ⟨h.root_dir, fun i hi => ?_⟩
    rw [h.pendingInstalls] at hi
    cases hi
  case staged =>
    intro i hi
    rw [h.pendingInstalls] at hi
    cases hi
  case assembling =>
    intro q a hq
    rw [h.assemblies, Std.ExtTreeMap.getElem?_empty] at hq
    cases hq
  case announced =>
    intro q chunks hq
    rw [h.outboundManifests, Std.ExtTreeMap.getElem?_empty] at hq
    cases hq
  case queued =>
    intro m hm
    rw [h.pendingChunks] at hm
    cases hm
  case captured =>
    intro p hp
    rw [h.staging, Std.ExtTreeMap.getElem?_empty] at hp
    cases hp

theorem FairRun.serves (hrun : Relation.ReflTransGen FairStep s s') (hc : s'.config = s.config)
    (msg : Message) : Serves (s'.inboundRemit (Served s) msg) s' := by
  intro q content range hq hread
  refine ⟨s', hrun, q, content, range, ?_, hread, rfl⟩
  rw [← hc]
  exact hq

theorem FairRun.orderly (h : Unbegun s) (hrun : Relation.ReflTransGen FairStep s s') :
    Orderly s.config (Served s) s' := by
  induction hrun with
  | refl => exact h.orderly _
  | @tail u v hrun hstep ih =>
    obtain ⟨d, hh, hf, rfl⟩ := hstep
    have hc := ih.config
    rw [← hc] at ih ⊢
    exact (ih.does (FairRun.serves hrun hc) hh hf).1

end

end Session

end Tomo
