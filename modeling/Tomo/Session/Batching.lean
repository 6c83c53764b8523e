import Tomo.Session.Assembling

namespace Tomo
set_option autoImplicit true

namespace Assembly

/-- What is asked for next. -/
def batch (a : Assembly) : List ContentHash := nextRequestBatch a.manifest a.received a.requested

def ask (a : Assembly) : Assembly := { a with requested := a.requested ++ a.batch }

/-- What becomes of an assembly that takes a chunk, and what it asks for then. -/
def deliver (a : Assembly) (hash : ContentHash) (intact full : Bool) :
    Option Assembly × List ContentHash :=
  if intact then
    if full then (none, [])
    else
      let a := { a with received := hash :: a.received }
      if isComplete a.manifest a.received then (none, []) else (some a.ask, a.batch)
  else
    let a := { a with requested := a.requested.filter fun h => h ≠ hash }
    (some a.ask, a.batch)

/-- The chunks requested and not yet received. -/
def outstanding (a : Assembly) : Finset ContentHash := a.requested.toFinset \ a.received.toFinset

end Assembly

/-- As many as a batch holds of the chunks neither held nor asked for. -/
theorem nextRequestBatch_length (manifest received requested : List ContentHash) :
    (nextRequestBatch manifest received requested).length =
      min requestBatch (manifest.toFinset \ (received.toFinset ∪ requested.toFinset)).card := by
  obtain ⟨hn, hm⟩ := missingChunks_spec manifest received
  have hset : ((missingChunks manifest received).filter fun h => h ∉ requested).toFinset =
      manifest.toFinset \ (received.toFinset ∪ requested.toFinset) := by
    ext h
    simp only [List.mem_toFinset, List.mem_filter, hm, decide_eq_true_eq, Finset.mem_sdiff,
      Finset.mem_union, not_or]
    tauto
  rw [nextRequestBatch, List.length_take, ← hset, List.toFinset_card_of_nodup (hn.filter _)]

theorem Assembly.batch_spec (a : Assembly) : a.batch.Nodup ∧
    ∀ h ∈ a.batch, h ∈ a.manifest ∧ h ∉ a.received ∧ h ∉ a.requested :=
  nextRequestBatch_spec a.manifest a.received a.requested

namespace Session
open Eff
variable {s : Session} {p : RelPath} {a : Assembly} {r : Option Assembly × List ContentHash}

/-- What a handler makes of one assembly, and what it asks for, over a link that holds. -/
structure Advances (x : SessionM Unit) (s : Session) (p : RelPath)
    (r : Option Assembly × List ContentHash) : Prop where
  assembly : (x.exec s).2.assemblies[p]? = r.1
  sent : ∃ l, (x.exec s).2.sent = s.sent ++ l ∧ asked l = r.2
  healthy : (x.exec s).2.Healthy
  linked : (x.exec s).2.transport.isSome = true

theorem Advances.after {x y : SessionM Unit} (h : Advances y s' p r) (he : x.exec s = y.exec s')
    (hs : s'.sent = s.sent) : Advances x s p r := by
  obtain ⟨ha, hl, hh, ht⟩ := h
  rw [← he] at ha hl hh ht
  rw [hs] at hl
  exact ⟨ha, hl, hh, ht⟩

/-- What leaves the assemblies alone asks for nothing. -/
theorem Aside.advances {x : SessionM Unit} (hx : Aside x s) (hs : s.Healthy)
    (hl : s.transport.isSome = true) : Advances x s p (s.assemblies[p]?, []) := by
  obtain ⟨l, hsent, hk⟩ := hx.emits
  have hw : (x.exec s).2.wire = s.wire := hx.leaves
  have ht : (x.exec s).2.wire.transport = s.wire.transport := by rw [hw]
  have ha : (x.exec s).2.wire.assemblies = s.wire.assemblies := by rw [hw]
  have ht' : (x.exec s).2.transport = s.transport := ht
  have ha' : (x.exec s).2.assemblies = s.assemblies := ha
  exact ⟨by rw [ha'], ⟨l, hsent, asked_announces hk⟩, hs.of_wire hw, by rw [ht', hl]⟩

theorem requestNextBatch_advances (hs : s.Healthy) (hl : s.transport.isSome = true)
    (ha : s.assemblies[p]? = some a) :
    Advances (requestNextBatch p) s p (some a.ask, a.batch) := by
  have hx := requestNextBatch_exec hs hl ha
  by_cases hnil : nextRequestBatch a.manifest a.received a.requested = []
  · rw [if_pos hnil] at hx
    have hask : a.ask = a := by
      rw [Assembly.ask, Assembly.batch, hnil, List.append_nil]
    refine ⟨by rw [hx, ha, hask], ⟨[], by rw [hx, List.append_nil], ?_⟩, by rwa [hx], by rwa [hx]⟩
    rw [Assembly.batch, hnil]
    rfl
  · rw [if_neg hnil] at hx
    refine ⟨?_, ⟨[.chunkRequest a.batch], by rw [hx]; rfl, asked_request _⟩, ?_, by rwa [hx]⟩
    · rw [hx]
      simp only [Std.ExtTreeMap.getElem?_insert_self]
      rfl
    · rw [hx]
      exact hs

section
variable [Platform]

theorem completeAssembly_advances (hs : s.Healthy) (hl : s.transport.isSome = true)
    (ha : s.assemblies[p]? = some a) : Advances (completeAssembly p) s p (none, []) := by
  obtain ⟨x, hx, haside⟩ := completeAssembly_aside hs ha
  have hs' : (s.without p a).Healthy := hs
  have hgone : (s.without p a).assemblies[p]? = none := by
    rw [getElem?_without, if_pos rfl]
  have hadv := haside.advances (p := p) hs' hl
  rw [hgone] at hadv
  exact hadv.after hx rfl

theorem advanceAssembly_advances (hs : s.Healthy) (hl : s.transport.isSome = true)
    (ha : s.assemblies[p]? = some a) : Advances (advanceAssembly p) s p
      (if isComplete a.manifest a.received then (none, []) else (some a.ask, a.batch)) := by
  have hx : (advanceAssembly p).exec s = if isComplete a.manifest a.received = true then
      (completeAssembly p).exec s else (requestNextBatch p).exec s := by
    simp only [advanceAssembly, exec_get_bind, ha]
    split <;> rfl
  cases hc : isComplete a.manifest a.received with
  | true =>
    rw [hc, if_pos rfl] at hx
    exact (completeAssembly_advances hs hl ha).after hx rfl
  | false =>
    rw [hc, if_neg Bool.false_ne_true] at hx
    exact (requestNextBatch_advances hs hl ha).after hx rfl

/-- The assembly that takes a chunk advances by it. -/
theorem takeChunk_advances (hs : s.Healthy) (hl : s.transport.isSome = true)
    {order : List (RelPath × Assembly)} {hash : ContentHash} (bytes : Bytes)
    (ho : order.Perm s.assemblies.toList) (ht : chunkTaker order hash = some (p, a)) :
    Advances (takeChunk order hash bytes) s p
      (a.deliver hash (decide (Platform.blake3 bytes = hash)) s.diskFull) := by
  have ha : s.assemblies[p]? = some a :=
    Std.ExtTreeMap.mem_toList_iff_getElem?_eq_some.1 (ho.mem_iff.1 (List.mem_of_find?_eq_some ht))
  rw [Assembly.deliver]
  by_cases hv : Platform.blake3 bytes = hash
  · simp only [hv, decide_true, ↓reduceIte]
    cases hfull : s.diskFull with
    | true =>
      have hx : (takeChunk order hash bytes).exec s =
          noteDiskFull.exec ((s.tornChunk hash).abandonAssembly p) := by
        simp only [takeChunk, exec_get_bind, ht, hv, ne_eq, not_true_eq_false, ↓reduceIte, hfull,
          exec_set_bind]
      obtain ⟨m, files, hab⟩ := (s.tornChunk hash).abandonAssembly_only p
      have hgone : m[p]? = none := by
        cases hm : m[p]? with
        | none => rfl
        | some b =>
          have hb := (s.tornChunk hash).abandonAssembly_fewer p p b (by rw [hab]; exact hm)
          exact absurd rfl hb.2
      rw [hab] at hx
      refine ⟨by rw [hx]; exact hgone, ⟨[], ?_, rfl⟩, by rw [hx]; exact hs, by rw [hx]; exact hl⟩
      rw [hx, List.append_nil]
      rfl
    | false =>
      let kept : Assembly := { a with received := hash :: a.received }
      have hx : (takeChunk order hash bytes).exec s = (advanceAssembly p).exec { s with
          chunkFiles := s.chunkFiles.insert hash bytes
          assemblies := s.assemblies.insert p kept } := by
        simp only [takeChunk, exec_get_bind, ht, hv, ne_eq, not_true_eq_false, ↓reduceIte, hfull,
          exec_set_bind, Bool.false_eq_true, kept]
      have hadv := advanceAssembly_advances (p := p) (a := kept) (s := { s with
          chunkFiles := s.chunkFiles.insert hash bytes
          assemblies := s.assemblies.insert p kept }) hs hl Std.ExtTreeMap.getElem?_insert_self
      exact hadv.after hx rfl
  · simp only [hv, decide_false, Bool.false_eq_true, ↓reduceIte]
    let dropped : Assembly := { a with requested := a.requested.filter fun h => h ≠ hash }
    have hx : (takeChunk order hash bytes).exec s = (requestNextBatch p).exec { s with
        assemblies := s.assemblies.insert p dropped } := by
      simp only [takeChunk, exec_get_bind, ht, hv, ne_eq, not_false_eq_true, ↓reduceIte,
        exec_set_bind, dropped]
    have hadv := requestNextBatch_advances (p := p) (a := dropped) (s := { s with
        assemblies := s.assemblies.insert p dropped }) hs hl Std.ExtTreeMap.getElem?_insert_self
    exact hadv.after hx rfl

/-- A manifest that is let in starts an assembly that has asked for its first batch. -/
theorem onChangeManifest_advances (hs : s.Healthy) (hl : s.transport.isSome = true)
    {c : RemoteChange} {total : Nat} {manifest : List ContentHash} (hkind : c.kind = .modified sig)
    (hin : s.allowCrossing c.path .inbound = true)
    (hok : (onChangeManifest c total manifest).exec s = (.ok ⟨⟩, s')) :
    Advances (onChangeManifest c total manifest) s c.path
      (if isComplete manifest [] then (none, [])
      else (some (Assembly.ask ⟨c, sig, manifest, [], [], total⟩),
        nextRequestBatch manifest [] [])) := by
  have hx : (onChangeManifest c total manifest).exec s = Eff.exec (do
        flushQueuedSend c.path
        modify fun s => s.abandonSuperseded c.path
        modify fun s => { s with
          assemblies := s.assemblies.insert c.path ⟨c, sig, manifest, [], [], total⟩ }
        advanceAssembly c.path) s := by
    rw [onChangeManifest, exec_get_bind, hkind, if_pos hin]
  have haside := flushQueuedSend_aside hs c.path
  obtain ⟨l, hsent, hk⟩ := haside.emits
  have hw : ((flushQueuedSend c.path).exec s).2.wire = s.wire := haside.leaves
  rcases he : (flushQueuedSend c.path).exec s with ⟨result, s''⟩
  rw [he] at hsent hw
  cases result with
  | error e =>
    rw [exec_bind_error he, hok] at hx
    cases hx
  | ok u =>
    have hhealthy : s''.Healthy := hs.of_wire hw
    have ht : s''.wire.transport = s.wire.transport := by rw [hw]
    have hlinked : s''.transport.isSome = true := by
      have ht' : s''.transport = s.transport := ht
      rw [ht', hl]
    obtain ⟨m, files, hab⟩ := s''.abandonSuperseded_only c.path
    let fresh : Assembly := ⟨c, sig, manifest, [], [], total⟩
    have hadv := advanceAssembly_advances (p := c.path) (a := fresh) (s := { s'' with
        chunkFiles := files
        assemblies := m.insert c.path fresh }) hhealthy hlinked
      Std.ExtTreeMap.getElem?_insert_self
    have hexec : (onChangeManifest c total manifest).exec s =
        (advanceAssembly c.path).exec { s'' with
          chunkFiles := files
          assemblies := m.insert c.path fresh } := by
      rw [hx, exec_bind_ok he]
      simp only [exec_modify_bind, hab]
      rfl
    obtain ⟨ha, ⟨l', hsent', hasked⟩, hh, hl'⟩ := hadv
    rw [← hexec] at ha hsent' hh hl'
    refine ⟨ha, ⟨l ++ l', ?_, ?_⟩, hh, hl'⟩
    · rw [hsent', hsent, List.append_assoc]
    · rw [asked_append, asked_announces hk, List.nil_append, hasked]
      rfl

end

end Session

/-- A session that pulls the chunks of one path, with all it has asked for and the deliveries that
failed their check. -/
structure Pull where
  session : Session
  asked : List ContentHash
  failed : List ContentHash

namespace Pull
variable [Platform]

/-- A manifest arrives. -/
def start (s : Session) (c : RemoteChange) (total : Nat) (manifest : List ContentHash) : Pull where
  session := ((Session.onChangeManifest c total manifest).exec s).2
  asked := Tomo.asked
    (((Session.onChangeManifest c total manifest).exec s).2.sent.drop s.sent.length)
  failed := []

/-- A chunk arrives, the assemblies standing in some order. -/
def take (t : Pull) (order : List (RelPath × Assembly)) (hash : ContentHash) (bytes : Bytes) :
    Pull where
  session := ((Session.takeChunk order hash bytes).exec t.session).2
  asked := t.asked ++ Tomo.asked
    (((Session.takeChunk order hash bytes).exec t.session).2.sent.drop t.session.sent.length)
  failed := if Platform.blake3 bytes = hash then t.failed else hash :: t.failed

/-- A chunk that the path has asked for goes to its assembly, intact or not; or the session does
anything that leaves this assembly alone, as for a duplicate. -/
inductive Step (p : RelPath) : Pull → Pull → Prop where
  | chunk (order : List (RelPath × Assembly)) (hash : ContentHash) (bytes : Bytes) :
    order.Perm t.session.assemblies.toList → Session.chunkTaker order hash = some (p, a) →
    hash ∈ t.asked → Step p t (t.take order hash bytes)
  | other (s' : Session) : s'.assemblies[p]? = t.session.assemblies[p]? → s'.Healthy →
    s'.transport.isSome = true → Step p t { t with session := s' }

/-- A batch at most is under way, no chunk is asked for again but after a delivery that failed, and
the chunk that completes the assembly finds all of the manifest asked for. -/
structure Modest (p : RelPath) (t : Pull) : Prop where
  bounded : ∀ a : Assembly, t.session.assemblies[p]? = some a → a.outstanding.card ≤ requestBatch
  once : ∀ h, t.asked.count h ≤ 1 + t.failed.count h
  covered : ∀ (a : Assembly) h, t.session.assemblies[p]? = some a → h ∈ t.asked →
    isComplete a.manifest (h :: a.received) = true → ∀ h' ∈ a.manifest, h' ∈ t.asked

variable {p : RelPath} {t t' : Pull} {l : List ContentHash} {hash : ContentHash}

/-- The books of one assembly against what it has asked for and what failed. -/
structure Books (l asked failed : List ContentHash) (a : Assembly) : Prop where
  manifest : a.manifest = l
  requested : ∀ h ∈ a.requested, h ∈ l ∧ h ∈ asked
  received : ∀ h ∈ a.received, h ∈ asked
  dropped : ∀ h, h ∉ a.requested → h ∉ a.received → asked.count h ≤ failed.count h
  once : ∀ h, asked.count h ≤ 1 + failed.count h

omit [Platform] in
/-- What is asked for next was not asked for, or failed. -/
theorem Books.ask {asked failed : List ContentHash} (h : Books l asked failed a) :
    Books l (asked ++ a.batch) failed a.ask := by
  obtain ⟨hn, hm⟩ := a.batch_spec
  have hcount (x : ContentHash) (hx : x ∈ a.batch) : a.batch.count x = 1 :=
    List.count_eq_one_of_mem hn hx
  constructor
  case manifest => exact h.manifest
  case requested =>
    intro x hx
    rcases List.mem_append.1 hx with hx | hx
    · exact ⟨(h.requested x hx).1, List.mem_append_left _ (h.requested x hx).2⟩
    · rw [← h.manifest]
      exact ⟨(hm x hx).1, List.mem_append_right _ hx⟩
  case received => exact fun x hx => List.mem_append_left _ (h.received x hx)
  case dropped =>
    intro x hreq hrec
    have hbatch : x ∉ a.batch := fun hx => hreq (List.mem_append_right _ hx)
    have hold := h.dropped x (fun hx => hreq (List.mem_append_left _ hx)) hrec
    rw [List.count_append, List.count_eq_zero_of_not_mem hbatch]
    exact hold
  case once =>
    intro x
    rw [List.count_append]
    by_cases hx : x ∈ a.batch
    · have hold := h.dropped x (hm x hx).2.2 (hm x hx).2.1
      rw [hcount x hx]
      omega
    · rw [List.count_eq_zero_of_not_mem hx]
      exact h.once x

omit [Platform] in
theorem Books.start (c : RemoteChange) (sig : ContentSig) (l : List ContentHash) (total : Nat) :
    Books l [] [] ⟨c, sig, l, [], [], total⟩ where
  manifest := rfl
  requested h hh := by cases hh
  received h hh := by cases hh
  dropped h _ _ := Nat.le_refl _
  once h := Nat.zero_le _

omit [Platform] in
/-- An intact chunk is received, a corrupt one is no longer asked for. -/
theorem Books.keep {asked failed : List ContentHash} (h : Books l asked failed a)
    (hr : hash ∈ asked) : Books l asked failed { a with received := hash :: a.received } where
  manifest := h.manifest
  requested := h.requested
  received x hx := by
    rcases List.mem_cons.1 hx with rfl | hx
    · exact hr
    · exact h.received x hx
  dropped x hreq hrec := h.dropped x hreq fun hx => hrec (List.mem_cons_of_mem _ hx)
  once := h.once

omit [Platform] in
theorem Books.drop {asked failed : List ContentHash} (h : Books l asked failed a)
    (hash : ContentHash) : Books l asked (hash :: failed)
      { a with requested := a.requested.filter fun x => x ≠ hash } where
  manifest := h.manifest
  requested x hx := h.requested x (List.mem_of_mem_filter hx)
  received := h.received
  dropped x hreq hrec := by
    by_cases hx : x = hash
    · subst hx
      have hold := h.once x
      rw [List.count_cons_self]
      omega
    · have hreq' : x ∉ a.requested := fun hm => hreq (List.mem_filter.2 ⟨hm, by simpa using hx⟩)
      exact (h.dropped x hreq' hrec).trans List.count_le_count_cons
  once x := by
    have hold := h.once x
    have hmore : failed.count x ≤ (hash :: failed).count x := List.count_le_count_cons
    omega

omit [Platform] in
theorem Books.covered {asked failed : List ContentHash} (h : Books l asked failed a)
    (hc : isComplete a.manifest (hash :: a.received) = true) (hr : hash ∈ asked) :
    ∀ h' ∈ a.manifest, h' ∈ asked := by
  intro x hx
  have hall := List.all_eq_true.1 hc x hx
  rw [decide_eq_true_eq] at hall
  rcases List.mem_cons.1 hall with rfl | hrec
  · exact hr
  · exact h.received x hrec

/-- What holds all the time, whatever the manifest. -/
structure Kept (p : RelPath) (l : List ContentHash) (t : Pull) : Prop where
  healthy : t.session.Healthy
  linked : t.session.transport.isSome = true
  once : ∀ h, t.asked.count h ≤ 1 + t.failed.count h
  books : ∀ a : Assembly, t.session.assemblies[p]? = some a → Books l t.asked t.failed a

omit [Platform] in
/-- The books are right after a handler when they are for what it makes of the assembly. -/
theorem Kept.of_advances {x : SessionM Unit} {s : Session} {r : Option Assembly × List ContentHash}
    {asked failed : List ContentHash} (h : Session.Advances x s p r)
    (honce : ∀ h, (asked ++ r.2).count h ≤ 1 + failed.count h)
    (hbooks : ∀ a, r.1 = some a → Books l (asked ++ r.2) failed a) :
    Kept p l
      ⟨(x.exec s).2, asked ++ Tomo.asked ((x.exec s).2.sent.drop s.sent.length), failed⟩ := by
  obtain ⟨ha, ⟨tail, hsent, hasked⟩, hhealthy, hlinked⟩ := h
  have hlog : Tomo.asked ((x.exec s).2.sent.drop s.sent.length) = r.2 := by
    rw [hsent, List.drop_left, hasked]
  refine ⟨hhealthy, hlinked, ?_, ?_⟩
  · rw [hlog]
    exact honce
  · intro a hget
    rw [hlog]
    exact hbooks a (ha.symm.trans hget)

theorem kept_start {s : Session} {c : RemoteChange} {total : Nat} (hs : s.Healthy)
    (hl : s.transport.isSome = true) (hkind : c.kind = .modified sig)
    (hin : s.allowCrossing c.path .inbound = true)
    (hok : (Session.onChangeManifest c total l).exec s = (.ok ⟨⟩, s')) :
    Kept c.path l (start s c total l) := by
  have hadv := Session.onChangeManifest_advances hs hl hkind hin hok
  have hbooks := (Books.start c sig l total).ask
  have hkept (r : Option Assembly × List ContentHash)
      (hadv : Session.Advances (Session.onChangeManifest c total l) s c.path r)
      (honce : ∀ h, ([] ++ r.2).count h ≤ 1 + [].count h)
      (hbooks : ∀ a, r.1 = some a → Books l ([] ++ r.2) [] a) : Kept c.path l (start s c total l) :=
    .of_advances hadv honce hbooks
  apply hkept _ hadv
  · intro h
    split
    · exact Nat.zero_le _
    · exact hbooks.once h
  · intro a ha
    split at ha
    · cases ha
    next hc =>
      cases ha
      rw [if_neg hc]
      exact hbooks

omit [Platform] in
/-- Taking a chunk that was asked for keeps the books. -/
theorem Books.deliver {asked failed : List ContentHash} (h : Books l asked failed a)
    (hr : hash ∈ asked) (intact full : Bool) :
    (∀ x, (asked ++ (a.deliver hash intact full).2).count x ≤
        1 + (if intact then failed else hash :: failed).count x) ∧
      ∀ b, (a.deliver hash intact full).1 = some b →
        Books l (asked ++ (a.deliver hash intact full).2)
          (if intact then failed else hash :: failed) b := by
  have hgone : (∀ x, (asked ++ []).count x ≤ 1 + failed.count x) ∧
      ∀ b, none = some b → Books l (asked ++ []) failed b := by
    rw [List.append_nil]
    exact ⟨h.once, fun b hb => by cases hb⟩
  have hasks {failed : List ContentHash} {a : Assembly} (h : Books l asked failed a) :
      (∀ x, (asked ++ a.batch).count x ≤ 1 + failed.count x) ∧
        ∀ b, some a.ask = some b → Books l (asked ++ a.batch) failed b := by
    refine ⟨h.ask.once, fun b hb => ?_⟩
    cases hb
    exact h.ask
  unfold Assembly.deliver
  cases intact with
  | false => exact hasks (h.drop hash)
  | true =>
    cases full with
    | true => exact hgone
    | false =>
      simp only [↓reduceIte, Bool.false_eq_true]
      split
      · exact hgone
      · exact hasks (h.keep hr)

theorem Kept.take (h : Kept p l t) {order : List (RelPath × Assembly)} (bytes : Bytes)
    (ho : order.Perm t.session.assemblies.toList)
    (ht : Session.chunkTaker order hash = some (p, a)) (hr : hash ∈ t.asked) :
    Kept p l (t.take order hash bytes) := by
  have ha : t.session.assemblies[p]? = some a :=
    Std.ExtTreeMap.mem_toList_iff_getElem?_eq_some.1 (ho.mem_iff.1 (List.mem_of_find?_eq_some ht))
  have hadv := Session.takeChunk_advances h.healthy h.linked bytes ho ht
  obtain ⟨honce, hbooks⟩ :=
    (h.books a ha).deliver hr (decide (Platform.blake3 bytes = hash)) t.session.diskFull
  rw [Pull.take]
  simp only [decide_eq_true_eq] at honce hbooks
  exact .of_advances hadv honce hbooks

theorem Step.kept (h : Kept p l t) (hstep : Step p t t') : Kept p l t' := by
  cases hstep with
  | chunk order hash bytes ho ht hr => exact h.take bytes ho ht hr
  | other s' ha hh hl =>
    refine ⟨hh, hl, h.once, fun a hget => h.books a ?_⟩
    rw [← ha]
    exact hget

theorem kept_run (h : Kept p l t) (hrun : Relation.ReflTransGen (Step p) t t') : Kept p l t' := by
  induction hrun with
  | refl => exact h
  | tail _ hstep ih => exact hstep.kept ih

omit [Platform] in
/-- Of a manifest of one batch no more than a batch is ever under way. -/
theorem Books.outstanding_le {asked failed : List ContentHash} (h : Books l asked failed a)
    (hl : l.toFinset.card ≤ requestBatch) : a.outstanding.card ≤ requestBatch := by
  have hsub : a.outstanding ⊆ l.toFinset := by
    intro x hx
    have hreq := List.mem_toFinset.1 (Finset.mem_sdiff.1 hx).1
    exact List.mem_toFinset.2 (h.requested x hreq).1
  exact (Finset.card_le_card hsub).trans hl

omit [Platform] in
/-- A longer manifest has more than a batch under way once the first delivery fails: one chunk is
to come again, and it is not all the next batch asks for. -/
theorem refused_outstanding {a : Assembly} (hreceived : a.received = []) (hreq : a.requested = [])
    (hl : requestBatch < a.manifest.toFinset.card) (hm : hash ∈ a.batch) (full : Bool) :
    ∃ b, (a.ask.deliver hash false full).1 = some b ∧ requestBatch < b.outstanding.card := by
  let left : List ContentHash := a.batch.filter fun h => h ≠ hash
  let d : Assembly := { a with requested := left }
  have hd : a.ask.deliver hash false full = (some d.ask, d.batch) := by
    simp only [Assembly.deliver, Assembly.ask, hreq, List.nil_append, Bool.false_eq_true,
      ↓reduceIte]
    rfl
  obtain ⟨hn, _⟩ := a.batch_spec
  have hlength : a.batch.length = requestBatch := by
    rw [Assembly.batch, nextRequestBatch_length, hreceived, hreq]
    simp only [List.toFinset_nil, Finset.union_empty, Finset.sdiff_empty]
    omega
  have hleft : left.length = requestBatch - 1 := by
    have herase : left = a.batch.erase hash := by
      rw [hn.erase_eq_filter]
      apply List.filter_congr
      intro x _
      rw [Bool.eq_iff_iff]
      simp
    rw [herase, List.length_erase_of_mem hm, hlength]
  obtain ⟨hn', hm'⟩ := d.batch_spec
  have hmore : 2 ≤ d.batch.length := by
    have hcard := Finset.le_card_sdiff left.toFinset a.manifest.toFinset
    have hle := left.toFinset_card_le
    rw [Assembly.batch, nextRequestBatch_length]
    simp only [d, hreceived, List.toFinset_nil, Finset.empty_union]
    have hbatch : 2 ≤ requestBatch := by decide
    omega
  have hnodup : (left ++ d.batch).Nodup := by
    rw [List.nodup_append]
    refine ⟨hn.filter _, hn', fun x hx y hy hxy => ?_⟩
    subst hxy
    exact (hm' x hy).2.2 hx
  refine ⟨d.ask, by rw [hd], ?_⟩
  have hout : d.ask.outstanding = (left ++ d.batch).toFinset := by
    rw [Assembly.outstanding, Assembly.ask]
    simp only [d, hreceived, List.toFinset_nil, Finset.sdiff_empty]
  rw [hout, List.toFinset_card_of_nodup hnodup, List.length_append, hleft]
  have hbatch : 0 < requestBatch := by decide
  omega

omit [Platform] in
/-- The deliveries an order of the assemblies can give to one of them. -/
theorem exists_taker {s : Session} {a : Assembly} (ha : s.assemblies[p]? = some a)
    (hash : ContentHash) (hm : hash ∈ a.manifest) (hr : hash ∉ a.received) :
    ∃ order : List (RelPath × Assembly), order.Perm s.assemblies.toList ∧
      Session.chunkTaker order hash = some (p, a) := by
  have hmem : (p, a) ∈ s.assemblies.toList :=
    Std.ExtTreeMap.mem_toList_iff_getElem?_eq_some.2 ha
  refine ⟨_, (List.perm_cons_erase hmem).symm, ?_⟩
  rw [Session.chunkTaker, List.find?_cons_of_pos]
  simp [hm, hr]

/-- With more than a batch to pull, some order of deliveries has more than a batch under way. -/
theorem exists_immodest {s : Session} {c : RemoteChange} {total : Nat} (hs : s.Healthy)
    (hl : s.transport.isSome = true) (hkind : c.kind = .modified sig)
    (hin : s.allowCrossing c.path .inbound = true)
    (hok : (Session.onChangeManifest c total l).exec s = (.ok ⟨⟩, s'))
    (hlong : requestBatch < l.toFinset.card) :
    ∃ t, Relation.ReflTransGen (Step c.path) (start s c total l) t ∧ ¬Modest c.path t := by
  let fresh : Assembly := ⟨c, sig, l, [], [], total⟩
  have hkept := kept_start hs hl hkind hin hok
  have hadv := Session.onChangeManifest_advances hs hl hkind hin hok
  have hcomplete : isComplete l [] = false := by
    rw [isComplete, List.all_eq_false]
    obtain ⟨h, hh⟩ := Finset.card_pos.1 (Nat.zero_lt_of_lt hlong)
    exact ⟨h, List.mem_toFinset.1 hh, by simp⟩
  rw [hcomplete, if_neg Bool.false_ne_true] at hadv
  have ha : (start s c total l).session.assemblies[c.path]? = some fresh.ask := hadv.assembly
  obtain ⟨hn, hm⟩ := fresh.batch_spec
  -- some chunk that was asked for has another hash than the empty file
  obtain ⟨hash, hhash, hne⟩ : ∃ hash ∈ fresh.batch, Platform.blake3 [] ≠ hash := by
    by_contra hall
    push Not at hall
    have hone := List.eq_replicate_of_mem fun h hh => (hall h hh).symm
    have hlength : fresh.batch.length = requestBatch := by
      rw [Assembly.batch, nextRequestBatch_length]
      simp only [fresh, List.toFinset_nil, Finset.union_empty, Finset.sdiff_empty]
      omega
    rw [hlength] at hone
    have hrep : (List.replicate requestBatch (Platform.blake3 [])).Nodup := hone ▸ hn
    exact absurd (List.nodup_replicate.1 hrep) (by decide)
  obtain ⟨order, ho, ht⟩ := exists_taker ha hash (hm hash hhash).1 fun h => by cases h
  have hasked : hash ∈ (start s c total l).asked := by
    have hreq : hash ∈ fresh.ask.requested := List.mem_append_right _ hhash
    exact ((hkept.books _ ha).requested hash hreq).2
  have htake := Session.takeChunk_advances hkept.healthy hkept.linked [] ho ht
  rw [decide_eq_false hne] at htake
  obtain ⟨b, hb, hover⟩ :=
    refused_outstanding rfl rfl hlong hhash (start s c total l).session.diskFull
  refine ⟨_, .single (.chunk order hash [] ho ht hasked), fun hmodest => ?_⟩
  have hbounded := hmodest.bounded b (htake.assembly.trans hb)
  omega

/-- In every order of deliveries a chunk is asked for once and again only after a failure, and all
are asked for by the end; a batch at most is under way in every order just when the manifest has no
more chunks than that. -/
theorem modest_iff {s : Session} {c : RemoteChange} {total : Nat} (hs : s.Healthy)
    (hl : s.transport.isSome = true) (hkind : c.kind = .modified sig)
    (hin : s.allowCrossing c.path .inbound = true)
    (hok : (Session.onChangeManifest c total l).exec s = (.ok ⟨⟩, s')) :
    ((∀ t, Relation.ReflTransGen (Step c.path) (start s c total l) t → Modest c.path t) ↔
        l.toFinset.card ≤ requestBatch) ∧
      ∀ t, Relation.ReflTransGen (Step c.path) (start s c total l) t →
        (∀ h, t.asked.count h ≤ 1 + t.failed.count h) ∧
          ∀ (a : Assembly) h, t.session.assemblies[c.path]? = some a → h ∈ t.asked →
            isComplete a.manifest (h :: a.received) = true → ∀ h' ∈ a.manifest, h' ∈ t.asked := by
  have hrun (t : Pull) (ht : Relation.ReflTransGen (Step c.path) (start s c total l) t) :
      (∀ h, t.asked.count h ≤ 1 + t.failed.count h) ∧
        ∀ (a : Assembly) h, t.session.assemblies[c.path]? = some a → h ∈ t.asked →
          isComplete a.manifest (h :: a.received) = true → ∀ h' ∈ a.manifest, h' ∈ t.asked := by
    have hkept := kept_run (kept_start hs hl hkind hin hok) ht
    exact ⟨hkept.once, fun a h ha hr hc => (hkept.books a ha).covered hc hr⟩
  refine ⟨⟨fun hall => ?_, fun hshort t ht => ?_⟩, hrun⟩
  · by_contra hlong
    obtain ⟨t, ht, hnot⟩ := exists_immodest hs hl hkind hin hok (Nat.lt_of_not_le hlong)
    exact hnot (hall t ht)
  · obtain ⟨honce, hcovered⟩ := hrun t ht
    have hkept := kept_run (kept_start hs hl hkind hin hok) ht
    exact ⟨fun a ha => (hkept.books a ha).outstanding_le hshort, honce, hcovered⟩

end Pull

/-- A manifest of two batches. -/
def twoBatches : List ContentHash :=
  sharedChunk :: (List.range 63).map fun n => ⟨List.replicate 32 (UInt8.ofNat n), by simp⟩

def Pull.opened : Pull :=
  letI := tabulated shortHashes
  Pull.start idleTransfer.session (modifiedAt secondPath) 64 twoBatches

/-- The first chunk has arrived, intact. -/
def Pull.crowded : Pull :=
  letI := tabulated shortHashes
  Pull.opened.take Pull.opened.session.assemblies.toList sharedChunk [0x31]

/-- After one delivery all of the rest of two batches is under way. -/
theorem Pull.crowded_immodest :
    letI := tabulated shortHashes
    Relation.ReflTransGen (Pull.Step secondPath) Pull.opened Pull.crowded ∧
      (Pull.crowded.session.assemblies[secondPath]?.map fun a => a.outstanding.card) = some 63 ∧
      ¬Pull.Modest secondPath Pull.crowded := by
  let platform := tabulated shortHashes
  have htaker : ((Session.chunkTaker Pull.opened.session.assemblies.toList sharedChunk).map
      Prod.fst) = some secondPath := by decide +kernel
  obtain ⟨⟨q, a⟩, ht, rfl⟩ := Option.map_eq_some_iff.1 htaker
  have hasked : sharedChunk ∈ Pull.opened.asked := by decide +kernel
  have hstep : Pull.Step secondPath Pull.opened Pull.crowded :=
    Pull.Step.chunk Pull.opened.session.assemblies.toList sharedChunk [0x31] (.refl _) ht hasked
  have hcard : (Pull.crowded.session.assemblies[secondPath]?.map fun a => a.outstanding.card) =
      some 63 := by decide +kernel
  refine ⟨.single hstep, hcard, fun h => ?_⟩
  obtain ⟨b, hb, hcount⟩ := Option.map_eq_some_iff.1 hcard
  have hle := h.bounded b hb
  rw [hcount] at hle
  exact absurd hle (by decide)

/-- A manifest of one chunk. -/
theorem Pull.single_modest :
    letI := tabulated shortHashes
    [sharedChunk].toFinset.card ≤ requestBatch ∧
      ∀ t, Relation.ReflTransGen (Pull.Step secondPath)
        (Pull.start idleTransfer.session (modifiedAt secondPath) 1 [sharedChunk]) t →
          Pull.Modest secondPath t := by
  let platform := tabulated shortHashes
  have hok : ((Session.onChangeManifest (modifiedAt secondPath) 1 [sharedChunk]).exec
      idleTransfer.session).1 = .ok ⟨⟩ := by decide +kernel
  have hshort : [sharedChunk].toFinset.card ≤ requestBatch := by decide +kernel
  exact ⟨hshort, (Pull.modest_iff idleTransfer_start.healthy rfl rfl (by decide +kernel)
    (Prod.ext hok rfl)).1.2 hshort⟩

end Tomo
