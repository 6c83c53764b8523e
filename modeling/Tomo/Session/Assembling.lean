import Mathlib.Data.Finset.Card
import Mathlib.Logic.Relation
import Tomo.Session.Link

namespace Tomo
set_option autoImplicit true

section
variable {manifest received requested : List ContentHash} {h : ContentHash}

theorem missingChunks_spec (manifest received : List ContentHash) :
    (missingChunks manifest received).Nodup ∧
      ∀ h, h ∈ missingChunks manifest received ↔ h ∈ manifest ∧ h ∉ received := by
  have hfold (l out : List ContentHash) (hn : out.Nodup) :
      (l.foldl (fun out h => if h ∈ received ∨ h ∈ out then out else out ++ [h]) out).Nodup ∧
        ∀ h, h ∈ l.foldl (fun out h => if h ∈ received ∨ h ∈ out then out else out ++ [h]) out ↔
          h ∈ out ∨ h ∈ l ∧ h ∉ received := by
    induction l generalizing out with
    | nil => exact ⟨hn, fun h => by simp⟩
    | cons c l ih =>
      rw [List.foldl_cons]
      by_cases hc : c ∈ received ∨ c ∈ out
      · rw [if_pos hc]
        obtain ⟨h1, h2⟩ := ih out hn
        refine ⟨h1, fun h => (h2 h).trans ?_⟩
        constructor
        · rintro (ho | ⟨hl, hr⟩)
          · exact .inl ho
          · exact .inr ⟨List.mem_cons_of_mem c hl, hr⟩
        · rintro (ho | ⟨hl, hr⟩)
          · exact .inl ho
          · rcases List.mem_cons.1 hl with rfl | hl
            · exact .inl (hc.resolve_left hr)
            · exact .inr ⟨hl, hr⟩
      · rw [if_neg hc]
        rw [not_or] at hc
        have hn' : (out ++ [c]).Nodup := by
          rw [List.nodup_append]
          refine ⟨hn, List.nodup_singleton c, fun a ha b hb hab => hc.2 ?_⟩
          rw [List.mem_singleton] at hb
          rwa [← hb, ← hab]
        obtain ⟨h1, h2⟩ := ih _ hn'
        refine ⟨h1, fun h => (h2 h).trans ?_⟩
        rw [List.mem_append, List.mem_singleton, List.mem_cons]
        constructor
        · rintro ((ho | rfl) | ⟨hl, hr⟩)
          · exact .inl ho
          · exact .inr ⟨.inl rfl, hc.1⟩
          · exact .inr ⟨.inr hl, hr⟩
        · rintro (ho | ⟨rfl | hl, hr⟩)
          · exact .inl (.inl ho)
          · exact .inl (.inr rfl)
          · exact .inr ⟨hl, hr⟩
  obtain ⟨h1, h2⟩ := hfold manifest [] List.nodup_nil
  exact ⟨h1, fun h => (h2 h).trans (by simp)⟩

/-- What is asked for next is missing, has not been asked for, and is asked for once. -/
theorem nextRequestBatch_spec (manifest received requested : List ContentHash) :
    (nextRequestBatch manifest received requested).Nodup ∧
      ∀ h ∈ nextRequestBatch manifest received requested,
        h ∈ manifest ∧ h ∉ received ∧ h ∉ requested := by
  obtain ⟨hn, hm⟩ := missingChunks_spec manifest received
  refine ⟨(hn.filter _).take, fun h hh => ?_⟩
  have hf := List.mem_of_mem_take hh
  rw [List.mem_filter, hm, decide_eq_true_eq] at hf
  exact ⟨hf.1.1, hf.1.2, hf.2⟩

/-- Where nothing is left to ask for, an incomplete assembly waits for something it asked for. -/
theorem nextRequestBatch_nil (hb : nextRequestBatch manifest received requested = [])
    (hc : isComplete manifest received = false) :
    ∃ h ∈ manifest, h ∈ requested ∧ h ∉ received := by
  rw [isComplete, List.all_eq_false] at hc
  obtain ⟨h, hm, hr⟩ := hc
  rw [decide_eq_true_eq] at hr
  refine ⟨h, hm, by_contra fun hq => ?_, hr⟩
  rw [nextRequestBatch, List.take_eq_nil_iff] at hb
  have hf : h ∈ (missingChunks manifest received).filter fun h => h ∉ requested := by
    rw [List.mem_filter, (missingChunks_spec manifest received).2, decide_eq_true_eq]
    exact ⟨⟨hm, hr⟩, hq⟩
  rcases hb with hb | hb
  · cases hb
  · rw [hb] at hf
    cases hf

end

/-- The chunks a list of frames asks for. -/
def asked (l : List Message) : List ContentHash :=
  l.flatMap fun
    | .chunkRequest hashes => hashes
    | _ => []

theorem asked_announces {l : List Message} (h : ∀ m ∈ l, Session.announces m = true) :
    asked l = [] := by
  rw [asked, List.flatMap_eq_nil_iff]
  intro m hm
  have ha := h m hm
  cases m <;> first | rfl | cases ha

theorem asked_request (hashes : List ContentHash) : asked [.chunkRequest hashes] = hashes :=
  List.flatMap_singleton ..

theorem asked_append (l l' : List Message) : asked (l ++ l') = asked l ++ asked l' :=
  List.flatMap_append

namespace Session
open Eff
variable {s s' : Session} {u : List ContentHash} {skip : Option RelPath} {p : RelPath}
  {a : Assembly}

/-- An assembly waits for a chunk it has asked for. -/
def Waits (s : Session) (h : ContentHash) (p : RelPath) : Prop :=
  ∃ a, s.assemblies[p]? = some a ∧ h ∈ a.requested ∧ h ∉ a.received

/-- Every assembly that waits for a chunk has an answer of its own coming, and every incomplete
one waits, but for one that is being looked after. -/
structure Backed (s : Session) (unanswered : List ContentHash) (skip : Option RelPath) : Prop where
  healthy : s.Healthy
  linked : s.transport.isSome = true
  requested : ∀ (p : RelPath) (a : Assembly), s.assemblies[p]? = some a →
    ∀ h ∈ a.requested, h ∈ a.manifest
  backed : ∀ h (F : Finset RelPath), (∀ p ∈ F, s.Waits h p) → F.card ≤ unanswered.count h
  waits : ∀ (p : RelPath) (a : Assembly), some p ≠ skip → s.assemblies[p]? = some a →
    isComplete a.manifest a.received = false → ∃ h ∈ a.manifest, h ∈ a.requested ∧ h ∉ a.received

/-- Assemblies may be dropped. -/
theorem Backed.fewer (hb : s.Backed u skip) (ht : s'.transport = s.transport)
    (hf : ∀ (p : RelPath) (a : Assembly), s'.assemblies[p]? = some a → s.assemblies[p]? = some a) :
    s'.Backed u skip where
  healthy t h := hb.healthy t (by rw [← ht, h])
  linked := by rw [ht, hb.linked]
  requested p a ha := hb.requested p a (hf p a ha)
  backed h F hF := hb.backed h F fun p hp => by
    obtain ⟨a, ha, hw⟩ := hF p hp
    exact ⟨a, hf p a ha, hw⟩
  waits p a hp ha := hb.waits p a hp (hf p a ha)

theorem Backed.of_wire (hb : s.Backed u skip) (hw : s'.wire = s.wire) : s'.Backed u skip := by
  have ht : s'.wire.transport = s.wire.transport := by rw [hw]
  have ha : s'.wire.assemblies = s.wire.assemblies := by rw [hw]
  have ha' : s'.assemblies = s.assemblies := ha
  exact hb.fewer ht fun p a h => by rwa [← ha']

/-- A computation keeps assemblies backed by what is asked for. -/
def Backs (x : SessionM Unit) (s : Session) (u : List ContentHash) (skip : Option RelPath) : Prop :=
  ∃ l, (x.exec s).2.sent = s.sent ++ l ∧ (x.exec s).2.Backed (u ++ asked l) skip

theorem Aside.backs {x : SessionM Unit} (hx : Aside x s) (hb : s.Backed u skip) :
    Backs x s u skip := by
  obtain ⟨l, hl, hk⟩ := hx.emits
  refine ⟨l, hl, ?_⟩
  rw [asked_announces hk, List.append_nil]
  exact hb.of_wire hx.leaves

/-- Asking follows what leaves the assemblies alone. -/
theorem Aside.backs_bind {x : SessionM α} {f : α → SessionM Unit} (hx : Aside x s)
    (hb : s.Backed u skip) (hf : ∀ a s', s'.Backed u skip → Backs (f a) s' u skip) :
    Backs (x >>= f) s u skip := by
  obtain ⟨l, hl, hk⟩ := hx.emits
  have hw := hx.leaves
  rw [Leaves] at hw
  rcases he : x.exec s with ⟨r, s'⟩
  rw [he] at hl hw
  cases r with
  | error e =>
    rw [Backs, exec_bind_error he]
    refine ⟨l, hl, ?_⟩
    rw [asked_announces hk, List.append_nil]
    exact hb.of_wire hw
  | ok a =>
    obtain ⟨l', hl', hb'⟩ := hf a s' (hb.of_wire hw)
    rw [Backs, exec_bind_ok he]
    refine ⟨l ++ l', by rw [hl', hl, List.append_assoc], ?_⟩
    rwa [asked_append, asked_announces hk, List.nil_append]

/-- The rest of a handler, once its first part is done. -/
theorem Backs.after {x y : SessionM Unit} (hy : Backs y s' u skip) (he : x.exec s = y.exec s')
    (hs : s'.sent = s.sent) : Backs x s u skip := by
  obtain ⟨l, hl, hb⟩ := hy
  rw [Backs, he]
  exact ⟨l, by rw [hl, hs], hb⟩

theorem requestNextBatch_exec (hs : s.Healthy) (hl : s.transport.isSome = true)
    (ha : s.assemblies[p]? = some a) :
    (requestNextBatch p).exec s =
      (.ok ⟨⟩, if nextRequestBatch a.manifest a.received a.requested = [] then s
      else { s with
        assemblies := s.assemblies.insert p
          { a with requested := a.requested ++ nextRequestBatch a.manifest a.received a.requested }
        sent := s.sent ++ [.chunkRequest (nextRequestBatch a.manifest a.received a.requested)] })
    := by
  simp only [requestNextBatch, exec_get_bind, ha]
  split
  · rfl
  · have hs' (m : Std.ExtTreeMap RelPath Assembly) : Healthy { s with assemblies := m } := hs
    rw [exec_set_bind, send_exec (hs' _), if_pos hl]

/-- Asking for the next batch makes an incomplete assembly wait. -/
theorem requestNextBatch_backs (hb : s.Backed u (some p)) (ha : s.assemblies[p]? = some a)
    (hc : isComplete a.manifest a.received = false) : Backs (requestNextBatch p) s u none := by
  have hx := requestNextBatch_exec hb.healthy hb.linked ha
  obtain ⟨hn, hm⟩ := nextRequestBatch_spec a.manifest a.received a.requested
  by_cases hnil : nextRequestBatch a.manifest a.received a.requested = []
  · rw [if_pos hnil] at hx
    refine ⟨[], by rw [hx, List.append_nil], ?_⟩
    rw [hx, asked, List.flatMap_nil, List.append_nil]
    refine ⟨hb.healthy, hb.linked, hb.requested, hb.backed, fun q b _ hq hi => ?_⟩
    by_cases hqp : q = p
    · subst q
      rw [ha] at hq
      cases hq
      exact nextRequestBatch_nil hnil hc
    · exact hb.waits q b (fun h => hqp (Option.some.inj h)) hq hi
  · rw [if_neg hnil] at hx
    obtain ⟨batch, hbatch⟩ : ∃ batch, batch = nextRequestBatch a.manifest a.received a.requested :=
      ⟨_, rfl⟩
    rw [← hbatch] at hx hn hm hnil
    have hget (q : RelPath) : (s.assemblies.insert p { a with requested := a.requested ++ batch })[q]? =
        if p = q then some { a with requested := a.requested ++ batch } else s.assemblies[q]? := by
      simp only [Std.ExtTreeMap.getElem?_insert, Std.compare_eq_iff_eq]
    refine ⟨[.chunkRequest batch], by rw [hx], ?_⟩
    rw [hx, asked_request]
    refine ⟨hb.healthy, hb.linked, fun q b hq h hh => ?_, fun h F hF => ?_, fun q b _ hq hi => ?_⟩
    · have hq' := (hget q).symm.trans hq
      split at hq'
      · cases hq'
        rcases List.mem_append.1 hh with hh | hh
        · exact hb.requested p a ha h hh
        · exact (hm h hh).1
      · exact hb.requested q b hq' h hh
    · -- only the assembly that asks can be waiting for more than before
      have hold (q : RelPath) (hq : q ∈ F) (hne : h ∈ batch → q ≠ p) : s.Waits h q := by
        obtain ⟨b, hbq, hr, hn⟩ := hF q hq
        have hbq' := (hget q).symm.trans hbq
        split at hbq'
        next hpq =>
          cases hbq'
          subst hpq
          refine ⟨a, ha, ?_, hn⟩
          exact (List.mem_append.1 hr).resolve_right fun hb => hne hb rfl
        next => exact ⟨b, hbq', hr, hn⟩
      rw [List.count_append]
      by_cases hh : h ∈ batch
      · have hle := hb.backed h (F.erase p) fun q hq => by
          rw [Finset.mem_erase] at hq
          exact hold q hq.2 fun _ => hq.1
        have hcard := Finset.pred_card_le_card_erase (s := F) (a := p)
        have hone := List.count_eq_one_of_mem hn hh
        omega
      · have hle := hb.backed h F fun q hq => hold q hq fun hb => (hh hb).elim
        omega
    · have hq' := (hget q).symm.trans hq
      split at hq'
      · cases hq'
        obtain ⟨h, hh⟩ := List.exists_mem_of_ne_nil batch hnil
        exact ⟨h, (hm h hh).1, List.mem_append_right _ hh, (hm h hh).2.1⟩
      next hpq => exact hb.waits q b (fun h => hpq (Option.some.inj h).symm) hq' hi

section
variable [Platform]

/-- The session without one assembly and its chunks. -/
def without (s : Session) (p : RelPath) (a : Assembly) : Session :=
  { s with assemblies := s.assemblies.erase p }.cleanAssemblyChunks a

omit [Platform] in
theorem getElem?_without (s : Session) (p : RelPath) (a : Assembly) (q : RelPath) :
    (s.without p a).assemblies[q]? = if p = q then none else s.assemblies[q]? := by
  have he : (s.without p a).assemblies = s.assemblies.erase p := rfl
  rw [he]
  simp only [Std.ExtTreeMap.getElem?_erase, Std.compare_eq_iff_eq]

/-- The bytes of an assembly are delivered where they are whole, or left to the next rescan. -/
def takeBytes (change : RemoteChange) : Option Bytes → SessionM Unit
  | none => modify fun s => { s with rescanPending := true }
  | some bytes => do
    flushPendingInstallFor change.path
    if ← caseCollisionRefused change (some bytes) then pure ()
    else deliver change (some bytes)

theorem completeAssembly_exec (ha : s.assemblies[p]? = some a) :
    (completeAssembly p).exec s = (takeBytes a.change
      ((assembleChunks s.chunkFiles a.manifest).filter fun b => matchesSig b a.sig)).exec
        (s.without p a) := by
  simp only [completeAssembly, exec_get_bind, ha, exec_set_bind]
  cases (assembleChunks s.chunkFiles a.manifest).filter fun b => matchesSig b a.sig <;> rfl

/-- An assembly is dropped before its content is looked at; the rest leaves the others alone. -/
theorem completeAssembly_aside (hs : s.Healthy) (ha : s.assemblies[p]? = some a) :
    ∃ x : SessionM Unit, (completeAssembly p).exec s = x.exec (s.without p a) ∧
      Aside x (s.without p a) := by
  refine ⟨_, completeAssembly_exec ha, ?_⟩
  cases (assembleChunks s.chunkFiles a.manifest).filter fun b => matchesSig b a.sig with
  | none => exact ⟨rfl, .silent rfl⟩
  | some bytes =>
    refine (flushPendingInstallFor_works _ _).aside.bind fun _ s' hw => ?_
    refine (caseCollisionRefused_books ..).aside.bind fun r s'' hw' => ?_
    cases r with
    | true => exact .pure _ _
    | false =>
      have hs' : (s.without p a).Healthy := hs
      exact deliver_aside (hs'.of_wire (hw'.trans hw)) _ _

theorem completeAssembly_backs (hb : s.Backed u (some p)) (ha : s.assemblies[p]? = some a) :
    Backs (completeAssembly p) s u none := by
  have hstart : (s.without p a).Backed u none := by
    have hf (q : RelPath) (b : Assembly) (h : (s.without p a).assemblies[q]? = some b) :
        p ≠ q ∧ s.assemblies[q]? = some b := by
      rw [getElem?_without] at h
      split at h
      · cases h
      next hpq => exact ⟨hpq, h⟩
    have hfew : (s.without p a).Backed u (some p) := hb.fewer rfl fun q b h => (hf q b h).2
    refine ⟨hfew.healthy, hfew.linked, hfew.requested, hfew.backed, fun q b _ hq => ?_⟩
    exact hfew.waits q b (fun h => (hf q b hq).1 (Option.some.inj h).symm) hq
  obtain ⟨x, hx, haside⟩ := completeAssembly_aside hb.healthy ha
  obtain ⟨l, hl, hbl⟩ := haside.backs hstart
  rw [Backs, hx]
  exact ⟨l, hl, hbl⟩

theorem advanceAssembly_backs (hb : s.Backed u (some p)) (ha : s.assemblies[p]? = some a) :
    Backs (advanceAssembly p) s u none := by
  have hx : (advanceAssembly p).exec s = if isComplete a.manifest a.received = true then
      (completeAssembly p).exec s else (requestNextBatch p).exec s := by
    simp only [advanceAssembly, exec_get_bind, ha]
    split <;> rfl
  rw [Backs, hx]
  cases hc : isComplete a.manifest a.received with
  | true => exact completeAssembly_backs hb ha
  | false => exact requestNextBatch_backs hb ha hc

theorem onChangeManifest_exec (c : RemoteChange) (total : Nat) (manifest : List ContentHash)
    (s : Session) :
    (onChangeManifest c total manifest).exec s =
      if s.allowCrossing c.path .inbound = true then Eff.exec (do
        flushQueuedSend c.path
        match c.kind with
        | .removed => pure ()
        | .modified sig =>
          modify fun s => s.abandonSuperseded c.path
          modify fun s => { s with
            assemblies := s.assemblies.insert c.path ⟨c, sig, manifest, [], [], total⟩ }
          advanceAssembly c.path) s
      else Eff.exec (pure ()) s := by
  rw [onChangeManifest, exec_get_bind]
  exact exec_ite ..

/-- A manifest starts an assembly that waits for its first batch. -/
theorem onChangeManifest_backs (hb : s.Backed u none) (c : RemoteChange) (total : Nat)
    (manifest : List ContentHash) : Backs (onChangeManifest c total manifest) s u none := by
  have hnil (hb : s.Backed u none) : Backs (pure ()) s u none :=
    ⟨[], (List.append_nil _).symm, by rwa [asked, List.flatMap_nil, List.append_nil]⟩
  rw [Backs, onChangeManifest_exec]
  split
  · refine (flushQueuedSend_aside hb.healthy c.path).backs_bind hb fun _ s hb => ?_
    cases c.kind with
    | removed => exact ⟨[], (List.append_nil _).symm, by rwa [asked, List.flatMap_nil, List.append_nil]⟩
    | modified sig =>
      obtain ⟨m, files, hab⟩ := s.abandonSuperseded_only c.path
      let fresh : Assembly := ⟨c, sig, manifest, [], [], total⟩
      have hget (q : RelPath) : (m.insert c.path fresh)[q]? =
          if c.path = q then some fresh else m[q]? := by
        simp only [Std.ExtTreeMap.getElem?_insert, Std.compare_eq_iff_eq]
      have hm (q : RelPath) (a : Assembly) (h : m[q]? = some a) : s.assemblies[q]? = some a := by
        apply s.abandonSuperseded_fewer c.path q a
        rw [hab]
        exact h
      have hfew : Backed { s with assemblies := m, chunkFiles := files } u none :=
        hb.fewer rfl hm
      have hnew : Backed { s with assemblies := m.insert c.path fresh, chunkFiles := files } u
          (some c.path) := by
        refine ⟨hfew.healthy, hfew.linked, fun q b hq h hh => ?_, fun h F hF => ?_,
          fun q b hne hq hi => ?_⟩
        · have hq' := (hget q).symm.trans hq
          split at hq'
          · cases hq'
            cases hh
          · exact hfew.requested q b hq' h hh
        · refine hfew.backed h F fun q hq => ?_
          obtain ⟨b, hbq, hr, hn⟩ := hF q hq
          have hbq' := (hget q).symm.trans hbq
          split at hbq'
          · cases hbq'
            cases hr
          · exact ⟨b, hbq', hr, hn⟩
        · have hq' := (hget q).symm.trans hq
          split at hq'
          next hpq => exact (hne (by rw [hpq])).elim
          · exact hfew.waits q b (by simp) hq' hi
      have hadv := advanceAssembly_backs hnew ((hget c.path).trans (if_pos rfl))
      refine hadv.after ?_ rfl
      simp only [exec_modify_bind, hab]
      rfl
  · exact hnil hb

omit [Platform] in
/-- One answer fewer is due where one assembly fewer waits for it. -/
theorem Backed.answered (hb : s.Backed u none) {hash : ContentHash} (hp : s.Waits hash p)
    (ht : s'.transport = s.transport)
    (hold : ∀ (q : RelPath) (b : Assembly), s'.assemblies[q]? = some b →
      ∃ a, s.assemblies[q]? = some a ∧ b.requested = a.requested ∧ b.manifest = a.manifest ∧
        (∀ h, h ∉ b.received → h ∉ a.received) ∧ (q ≠ p → b = a) ∧
        (q = p → hash ∈ b.received)) : s'.Backed (u.erase hash) (some p) where
  healthy t h := hb.healthy t (by rw [← ht, h])
  linked := by rw [ht, hb.linked]
  requested q b hq h hh := by
    obtain ⟨a, ha, hr, hm, _⟩ := hold q b hq
    rw [hm]
    rw [hr] at hh
    exact hb.requested q a ha h hh
  backed h F hF := by
    have hwait (q : RelPath) (hq : q ∈ F) : s.Waits h q := by
      obtain ⟨b, hbq, hr, hn⟩ := hF q hq
      obtain ⟨a, ha, hr', _, hrec, _⟩ := hold q b hbq
      exact ⟨a, ha, hr' ▸ hr, hrec h hn⟩
    by_cases hh : h = hash
    · subst hh
      have hnp : p ∉ F := by
        intro hq
        obtain ⟨b, hbq, _, hn⟩ := hF p hq
        obtain ⟨_, _, _, _, _, _, hrec⟩ := hold p b hbq
        exact hn (hrec rfl)
      have hle := hb.backed h (insert p F) fun q hq => by
        rcases Finset.mem_insert.1 hq with rfl | hq
        · exact hp
        · exact hwait q hq
      rw [Finset.card_insert_of_notMem hnp] at hle
      rw [List.count_erase_self]
      omega
    · rw [List.count_erase_of_ne hh]
      exact hb.backed h F hwait
  waits q b hne hq hi := by
    obtain ⟨a, ha, _, _, _, he, _⟩ := hold q b hq
    have hqp : q ≠ p := fun h => hne (by rw [h])
    rw [he hqp] at hi ⊢
    exact hb.waits q a (by simp) ha hi

/-- An answer is kept by an assembly that asked for it, or by none. -/
theorem takeChunk_backs (hb : s.Backed u none) {order : List (RelPath × Assembly)}
    {hash : ContentHash} {bytes : Bytes} (ho : order.Perm s.assemblies.toList)
    (hv : Platform.blake3 bytes = hash)
    (hr : ∀ p a, chunkTaker order hash = some (p, a) → hash ∈ a.requested) :
    Backs (takeChunk order hash bytes) s (u.erase hash) none := by
  cases ht : chunkTaker order hash with
  | none =>
    have hx : (takeChunk order hash bytes).exec s = (.ok ⟨⟩, s) := by
      simp only [takeChunk, exec_get_bind, ht, exec_pure]
    refine ⟨[], by rw [hx, List.append_nil], ?_⟩
    rw [hx, asked, List.flatMap_nil, List.append_nil]
    refine ⟨hb.healthy, hb.linked, hb.requested, fun h F hF => ?_, hb.waits⟩
    by_cases hh : h = hash
    · subst hh
      -- whoever waited for the chunk would have taken it
      have hempty : F = ∅ := by
        rw [Finset.eq_empty_iff_forall_notMem]
        intro q hq
        obtain ⟨b, hbq, hreq, hrec⟩ := hF q hq
        have hm : (q, b) ∈ order :=
          ho.mem_iff.2 (Std.ExtTreeMap.mem_toList_iff_getElem?_eq_some.2 hbq)
        have hn := List.find?_eq_none.1 ht (q, b) hm
        simp [hrec, hb.requested q b hbq h hreq] at hn
      rw [hempty]
      exact Nat.zero_le _
    · rw [List.count_erase_of_ne hh]
      exact hb.backed h F hF
  | some e =>
    obtain ⟨p, a⟩ := e
    have ha : s.assemblies[p]? = some a :=
      Std.ExtTreeMap.mem_toList_iff_getElem?_eq_some.1 (ho.mem_iff.1 (List.mem_of_find?_eq_some ht))
    have hlack : hash ∉ a.received := by
      have h := List.find?_some ht
      rw [Bool.and_eq_true, decide_eq_true_eq] at h
      exact h.1
    have hp : s.Waits hash p := ⟨a, ha, hr p a ht, hlack⟩
    by_cases hfull : s.diskFull = true
    · have hx : (takeChunk order hash bytes).exec s =
          noteDiskFull.exec ((s.tornChunk hash).abandonAssembly p) := by
        simp only [takeChunk, exec_get_bind, ht, hv, ne_eq, not_true_eq_false, ↓reduceIte, hfull,
          exec_set_bind]
      obtain ⟨m, files, hab⟩ := (s.tornChunk hash).abandonAssembly_only p
      have hm (q : RelPath) (b : Assembly) (h : m[q]? = some b) :
          s.assemblies[q]? = some b ∧ p ≠ q := by
        apply (s.tornChunk hash).abandonAssembly_fewer p q b
        rw [hab]
        exact h
      have hdrop : Backed (noteDiskFull.exec ((s.tornChunk hash).abandonAssembly p)).2
          (u.erase hash) (some p) := by
        rw [hab]
        refine hb.answered hp rfl fun q b hq => ?_
        obtain ⟨hq', hne⟩ := hm q b hq
        exact ⟨b, hq', rfl, rfl, fun _ => id, fun _ => rfl, fun h => (hne h.symm).elim⟩
      refine ⟨[], by rw [hx, hab, List.append_nil]; rfl, ?_⟩
      rw [hx, asked, List.flatMap_nil, List.append_nil]
      refine ⟨hdrop.healthy, hdrop.linked, hdrop.requested, hdrop.backed, fun q b _ hq => ?_⟩
      refine hdrop.waits q b (fun h => ?_) hq
      rw [hab] at hq
      exact (hm q b hq).2 (Option.some.inj h).symm
    · let kept : Assembly := { a with received := hash :: a.received }
      have hx : (takeChunk order hash bytes).exec s = (advanceAssembly p).exec { s with
          chunkFiles := s.chunkFiles.insert hash bytes
          assemblies := s.assemblies.insert p kept } := by
        simp only [takeChunk, exec_get_bind, ht, hv, ne_eq, not_true_eq_false, ↓reduceIte, hfull,
          exec_set_bind, Bool.false_eq_true, kept]
      have hget (q : RelPath) : (s.assemblies.insert p kept)[q]? =
          if p = q then some kept else s.assemblies[q]? := by
        simp only [Std.ExtTreeMap.getElem?_insert, Std.compare_eq_iff_eq]
      have hkept : Backed { s with
          chunkFiles := s.chunkFiles.insert hash bytes
          assemblies := s.assemblies.insert p kept } (u.erase hash) (some p) := by
        refine hb.answered hp rfl fun q b hq => ?_
        have hq' := (hget q).symm.trans hq
        split at hq'
        next hpq =>
          cases hq'
          subst hpq
          exact ⟨a, ha, rfl, rfl, fun h hn hr => hn (List.mem_cons_of_mem _ hr),
            fun h => (h rfl).elim, fun _ => List.mem_cons_self⟩
        next hpq =>
          exact ⟨b, hq', rfl, rfl, fun _ => id, fun _ => rfl, fun h => (hpq h.symm).elim⟩
      exact (advanceAssembly_backs hkept ((hget p).trans (if_pos rfl))).after hx rfl

theorem onChange_backs (hb : s.Backed u none) (c : RemoteChange) (bytes : Option Bytes) :
    Backs (onChange c bytes) s u none := by
  have hnil {s : Session} (hb : s.Backed u none) : Backs (pure ()) s u none :=
    (Aside.pure ⟨⟩ s).backs hb
  have hx : (onChange c bytes).exec s =
      if s.allowCrossing c.path .inbound = true then Eff.exec (do
        if ← caseCollisionRefused c bytes then pure ()
        else
          flushQueuedSend c.path
          flushPendingInstallFor c.path
          modify fun s => s.abandonSuperseded c.path
          deliver c bytes) s
      else Eff.exec (pure ()) s := by
    simp only [onChange, exec_get_bind, exec_ite]
    rfl
  rw [Backs, hx]
  split
  · refine (caseCollisionRefused_books c bytes s).aside.backs_bind hb fun refused s hb => ?_
    cases refused with
    | true => exact hnil hb
    | false =>
      refine (flushQueuedSend_aside hb.healthy c.path).backs_bind hb fun _ s hb => ?_
      refine (flushPendingInstallFor_works c.path s).aside.backs_bind hb fun _ s hb => ?_
      obtain ⟨m, files, hab⟩ := s.abandonSuperseded_only c.path
      have hfew : (s.abandonSuperseded c.path).Backed u none := by
        refine hb.fewer ?_ (s.abandonSuperseded_fewer c.path)
        rw [hab]
      refine ((deliver_aside hfew.healthy c bytes).backs hfew).after ?_ ?_
      · rw [exec_modify_bind]
      · rw [hab]
  · exact hnil hb

end

end Session

/-- A receiving session and the chunks it has asked for and not got yet, one for each request. -/
structure Transfer where
  session : Session
  unanswered : List ContentHash

namespace Transfer

/-- A handler runs, and what it asks for is to be answered. -/
def after (t : Transfer) (x : SessionM Unit) : Transfer where
  session := (x.exec t.session).2
  unanswered := t.unanswered ++ asked ((x.exec t.session).2.sent.drop t.session.sent.length)

variable [Platform] {t t' : Transfer}

/-- Manifests and inline changes arrive, and each request is answered once, in any order and with
the assemblies in any order. -/
inductive Step : Transfer → Transfer → Prop where
  | manifest (t : Transfer) (c : RemoteChange) (total : Nat) (l : List ContentHash) :
    Step t (t.after (Session.onChangeManifest c total l))
  | change (t : Transfer) (c : RemoteChange) (bytes : Option Bytes) :
    Step t (t.after (Session.onChange c bytes))
  | answer (t : Transfer) (hash : ContentHash) (bytes : Bytes) (order : List (RelPath × Assembly))
      (hu : hash ∈ t.unanswered) (hv : Platform.blake3 bytes = hash)
      (ho : order.Perm t.session.assemblies.toList) :
    Step t ({ t with unanswered := t.unanswered.erase hash }.after
      (Session.takeChunk order hash bytes))

/-- The steps that give an answer to an assembly that asked for it. -/
inductive RoutedStep : Transfer → Transfer → Prop where
  | manifest (t : Transfer) (c : RemoteChange) (total : Nat) (l : List ContentHash) :
    RoutedStep t (t.after (Session.onChangeManifest c total l))
  | change (t : Transfer) (c : RemoteChange) (bytes : Option Bytes) :
    RoutedStep t (t.after (Session.onChange c bytes))
  | answer (t : Transfer) (hash : ContentHash) (bytes : Bytes) (order : List (RelPath × Assembly))
      (hu : hash ∈ t.unanswered) (hv : Platform.blake3 bytes = hash)
      (ho : order.Perm t.session.assemblies.toList)
      (hr : ∀ p a, Session.chunkTaker order hash = some (p, a) → hash ∈ a.requested) :
    RoutedStep t ({ t with unanswered := t.unanswered.erase hash }.after
      (Session.takeChunk order hash bytes))

/-- Every incomplete assembly lacks a chunk that it has asked for and whose answer is to come, and
there are as many answers to come for a chunk as assemblies that wait for it. -/
def Progresses (t : Transfer) : Prop :=
  (∀ (p : RelPath) (a : Assembly), t.session.assemblies[p]? = some a →
    isComplete a.manifest a.received = false →
    ∃ h ∈ a.manifest, h ∈ a.requested ∧ h ∉ a.received ∧ h ∈ t.unanswered) ∧
  ∀ h (F : Finset RelPath), (∀ p ∈ F, t.session.Waits h p) → F.card ≤ t.unanswered.count h

omit [Platform] in
theorem after_backed {x : SessionM Unit} (h : Session.Backs x t.session t.unanswered none) :
    (t.after x).session.Backed (t.after x).unanswered none := by
  obtain ⟨l, hl, hb⟩ := h
  rw [after, hl, List.drop_left]
  exact hb

theorem RoutedStep.backed (hb : t.session.Backed t.unanswered none) (hstep : RoutedStep t t') :
    t'.session.Backed t'.unanswered none := by
  cases hstep with
  | manifest c total l => exact after_backed (Session.onChangeManifest_backs hb c total l)
  | change c bytes => exact after_backed (Session.onChange_backs hb c bytes)
  | answer hash bytes order hu hv ho hr =>
    exact after_backed (t := { t with unanswered := t.unanswered.erase hash })
      (Session.takeChunk_backs hb ho hv hr)

/-- A session over a working link starts with nothing under way. -/
structure Start (t : Transfer) : Prop where
  healthy : t.session.Healthy
  linked : t.session.transport.isSome = true
  idle : t.session.assemblies = ∅

omit [Platform] in
theorem Start.backed (h : t.Start) : t.session.Backed t.unanswered none where
  healthy := h.healthy
  linked := h.linked
  requested p a ha := by
    rw [h.idle, Std.ExtTreeMap.getElem?_empty] at ha
    cases ha
  backed c F hF := by
    have hempty : F = ∅ := by
      rw [Finset.eq_empty_iff_forall_notMem]
      intro q hq
      obtain ⟨b, hb, _⟩ := hF q hq
      rw [h.idle, Std.ExtTreeMap.getElem?_empty] at hb
      cases hb
    rw [hempty]
    exact Nat.zero_le _
  waits p a _ ha := by
    rw [h.idle, Std.ExtTreeMap.getElem?_empty] at ha
    cases ha

/-- In a run that gives every answer to an assembly that asked for it, every incomplete assembly
has an answer of its own to come; with none to come all are complete. -/
theorem RoutedRun.progresses (h : t.Start) (hrun : Relation.ReflTransGen RoutedStep t t') :
    t'.Progresses := by
  have hb : t'.session.Backed t'.unanswered none := by
    induction hrun with
    | refl => exact h.backed
    | tail _ hstep ih => exact hstep.backed ih
  refine ⟨fun p a ha hc => ?_, hb.backed⟩
  obtain ⟨c, hm, hr, hn⟩ := hb.waits p a (by simp) ha hc
  have hle := hb.backed c {p} fun q hq => by
    rw [Finset.mem_singleton.1 hq]
    exact ⟨a, ha, hr, hn⟩
  rw [Finset.card_singleton] at hle
  exact ⟨c, hm, hr, hn, List.count_pos_iff.1 hle⟩

end Transfer

/-- The hash of the one chunk that two files share. -/
def sharedChunk : ContentHash :=
  digest 0xd63bd9a826af91c1fea371965a64e11ee20f13e46b5f52c59901136605b3a487

/-- A manifest whose last chunk is the shared one, one batch later than the others. -/
def longManifest : List ContentHash := (List.range requestBatch).map digest ++ [sharedChunk]

/-- A session over a link, with nothing asked for yet. -/
def idleTransfer : Transfer where
  session := { fooSession with transport := some ⟨false⟩ }
  unanswered := []

theorem idleTransfer_start : idleTransfer.Start where
  healthy t ht := by
    cases ht
    rfl
  linked := rfl
  idle := rfl

def Transfer.oneManifest : Transfer :=
  letI := tabulated shortHashes
  idleTransfer.after (Session.onChangeManifest (modifiedAt secondPath) 1 [sharedChunk])

/-- Two transfers share a chunk, and only the second has asked for it. -/
def Transfer.twoManifests : Transfer :=
  letI := tabulated shortHashes
  Transfer.oneManifest.after (Session.onChangeManifest (modifiedAt firstPath) 33 longManifest)

/-- The answer for the second transfer arrives. -/
def Transfer.misrouted : Transfer :=
  letI := tabulated shortHashes
  { Transfer.twoManifests with
    unanswered := Transfer.twoManifests.unanswered.erase sharedChunk }.after
      (Session.takeChunk Transfer.twoManifests.session.assemblies.toList sharedChunk [0x31])

/-- A chunk that goes to an assembly which has not asked for it leaves the one that has asked for
it incomplete, with no answer to come. -/
theorem Transfer.misrouted_stuck :
    letI := tabulated shortHashes
    Relation.ReflTransGen Transfer.Step idleTransfer Transfer.misrouted ∧
      (∃ a, Transfer.misrouted.session.assemblies[secondPath]? = some a ∧
        isComplete a.manifest a.received = false ∧ a.manifest = [sharedChunk] ∧
        a.requested = [sharedChunk]) ∧
      sharedChunk ∉ Transfer.misrouted.unanswered ∧ ¬Transfer.misrouted.Progresses := by
  let platform := tabulated shortHashes
  -- one evaluation of the run gives all three
  obtain ⟨hasked, hb, hu⟩ : sharedChunk ∈ Transfer.twoManifests.unanswered ∧
      Transfer.misrouted.session.assemblies[secondPath]? = some
        ⟨modifiedAt secondPath, oneSig, [sharedChunk], [], [sharedChunk], 1⟩ ∧
      sharedChunk ∉ Transfer.misrouted.unanswered := by
    decide +kernel
  have hrun : Relation.ReflTransGen Transfer.Step idleTransfer Transfer.misrouted := by
    have h1 : Transfer.Step idleTransfer Transfer.oneManifest := .manifest ..
    have h2 : Transfer.Step Transfer.oneManifest Transfer.twoManifests := .manifest ..
    have h3 : Transfer.Step Transfer.twoManifests Transfer.misrouted :=
      .answer _ sharedChunk [0x31] _ hasked (by decide) (.refl _)
    exact ((Relation.ReflTransGen.single h1).tail h2).tail h3
  have hc : isComplete [sharedChunk] [] = false := by simp [isComplete]
  refine ⟨hrun, ⟨_, hb, hc, rfl, rfl⟩, hu, fun h => ?_⟩
  obtain ⟨c, hc, _, _, hcu⟩ := h.1 secondPath _ hb hc
  have he : c = sharedChunk := List.mem_singleton.1 hc
  rw [he] at hcu
  exact hu hcu

/-- With one transfer the chunk goes where it is waited for. -/
theorem Transfer.oneManifest_progresses : Transfer.oneManifest.Progresses := by
  let platform := tabulated shortHashes
  exact Transfer.RoutedRun.progresses idleTransfer_start
    (.single (.manifest idleTransfer (modifiedAt secondPath) 1 [sharedChunk]))

end Tomo
