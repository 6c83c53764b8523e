import Tomo.Session.Pausing

namespace Tomo
set_option autoImplicit true

/-- Two sessions: the host chases its peer, and every connection of it serves a fresh guest. -/
structure Pair where
  host : Session
  guest : Session
  /-- Frames of earlier connections that the host has not taken up yet. -/
  stale : List Message
  toHost : List Message
  toGuest : List Message
  /-- Whether the guest's greeting of this connection has been processed, and the host's. -/
  hostGreeted : Bool
  guestGreeted : Bool

/-- What happens to a pair: a session works on what it has taken from its link, its surroundings
change, or the host gets through to a new guest, with some frames of old still queued. -/
inductive Move where
  | host (pass : Pass) (old new : List Message)
  | guest (pass : Pass)
  | hostAmid (w : Surroundings)
  | guestAmid (w : Surroundings)
  | connect (guest : Session) (left : List Message)

namespace Session

/-- The frames that a session has written on its way to another state. -/
def said (s s' : Session) : List Message := s'.sent.drop s.sent.length

/-- A session as it comes up: unpaused, and offline. -/
structure Fresh (s : Session) : Prop where
  offline : s.transport = none
  unpaused : s.paused = false
  unacted : s.pausedActed = false
  peer : s.peerPaused = false
  chunks : s.pendingChunks = []

/-- If a command has not been acted on yet, the peer has not been told of it either, or will be told
otherwise once it is greeted. -/
def Retractable (greeted picture : Bool) (s : Session) : Prop :=
  s.paused ≠ s.pausedActed → picture = s.pausedActed ∨ greeted = false ∧ picture = false

end Session

namespace Pair
open Session

/-- What the host will take its guest for once every frame has arrived, and the guest its host. -/
def hostPicture (p : Pair) : Bool := pictured p.host.peerPaused (p.stale ++ p.toHost)

def guestPicture (p : Pair) : Bool := pictured p.guest.peerPaused p.toGuest

section
variable [Platform] {p p' : Pair}

def Can (p : Pair) : Move → Prop
  | .host pass old new => pass.works = true ∧ p.host.Completes pass ∧ pass.heard = old ++ new ∧
      old <+: p.stale ∧ new <+: p.toHost ∧ (new = [] ∨ old = p.stale)
  | .guest pass => pass.works = true ∧ p.guest.Completes pass ∧ pass.heard <+: p.toGuest
  | .hostAmid _ | .guestAmid _ => True
  | .connect guest left => p.host.transport = none ∧ guest.Fresh ∧ left <+: p.stale ++ p.toHost

def next (p : Pair) : Move → Pair
  | .host pass old new => { p with
      host := p.host.after pass
      stale := p.stale.drop old.length
      toHost := p.toHost.drop new.length
      toGuest := p.toGuest ++ p.host.said (p.host.after pass)
      hostGreeted := p.hostGreeted || new.any Message.isHello }
  | .guest pass => { p with
      guest := p.guest.after pass
      toGuest := p.toGuest.drop pass.heard.length
      toHost := p.toHost ++ p.guest.said (p.guest.after pass)
      guestGreeted := p.guestGreeted || pass.heard.any Message.isHello }
  | .hostAmid w => { p with host := p.host.amid w }
  | .guestAmid w => { p with guest := p.guest.amid w }
  | .connect guest left => {
      host := p.host.after .connect
      guest := guest.after .connect
      stale := left
      toHost := guest.said (guest.after .connect)
      toGuest := p.host.said (p.host.after .connect)
      hostGreeted := false
      guestGreeted := false }

def Step (p p' : Pair) : Prop := ∃ m, p.Can m ∧ p' = p.next m

/-- A command is only taken back while the peer has no news of it, and the host only connects while
it takes its peer for unpaused. -/
def Fair (p : Pair) : Move → Prop
  | .hostAmid w => p.host.transport.isSome = true → w.paused ≠ p.host.paused →
      Retractable p.hostGreeted p.guestPicture p.host
  | .guestAmid w => p.host.transport.isSome = true → w.paused ≠ p.guest.paused →
      Retractable p.guestGreeted p.hostPicture p.guest
  | .connect _ left => pictured p.host.peerPaused left = false
  | .host .. | .guest _ => True

def FairStep (p p' : Pair) : Prop := ∃ m, p.Can m ∧ p.Fair m ∧ p' = p.next m

/-- Two sessions that have not met. -/
def start (host guest : Session) : Pair := ⟨host, guest, [], [], [], false, false⟩

/-- Both are connected and have processed both greetings, every frame has arrived, and every
command has been acted on. -/
structure Settled (p : Pair) : Prop where
  hostUp : p.host.transport.isSome = true
  guestUp : p.guest.transport.isSome = true
  hostGreeted : p.hostGreeted = true
  guestGreeted : p.guestGreeted = true
  stale : p.stale = []
  toHost : p.toHost = []
  toGuest : p.toGuest = []
  hostActed : p.host.paused = p.host.pausedActed
  guestActed : p.guest.paused = p.guest.pausedActed

/-- Each takes the other for what it is, so neither holds back from an unpaused peer. -/
def Agreed (p : Pair) : Prop :=
  (p.guest.peerPaused = p.host.paused ∧ p.host.peerPaused = p.guest.paused) ∧
    (p.host.paused = false → p.guest.paused = false →
      p.host.outboundSuspended = false ∧ p.guest.outboundSuspended = false)

/-- Neither session owes the other any news. -/
structure Agreeing (p : Pair) : Prop where
  host : p.host.transport.isSome = true → Honest p.hostGreeted p.guestPicture p.host
  guest : p.host.transport.isSome = true → p.guest.transport.isSome = true →
    Honest p.guestGreeted p.hostPicture p.guest
  hostServes : p.host.ServesChunks
  guestServes : p.guest.ServesChunks

omit [Platform] in
theorem said_append {s s' : Session} (h : s'.sent = s.sent ++ l) : s.said s' = l := by
  rw [said, h, List.drop_left]

/-- What a session says and hears while it works on its share of the frames in flight. -/
theorem Agreeing.host_step {pass : Pass} {old new : List Message} (h : p.Agreeing)
    (hc : p.Can (.host pass old new)) : (p.next (.host pass old new)).Agreeing := by
  obtain ⟨hw, hok, hheard, ⟨stale, hstale⟩, ⟨toHost, hto⟩, horder⟩ := hc
  have ht := after_talks hw h.hostServes hok
  rw [hheard] at ht
  have hstale' : p.stale.drop old.length = stale := by rw [← hstale, List.drop_left]
  have hto' : p.toHost.drop new.length = toHost := by rw [← hto, List.drop_left]
  have hqueue : p.stale ++ p.toHost = (old ++ new) ++ (stale ++ toHost) := by
    rcases horder with hn | ho
    · subst hn
      rw [← hstale, ← hto, List.nil_append, List.append_nil, List.append_assoc]
    · have hnil : stale = [] := by
        have happ : old ++ stale = old := by rw [hstale, ho]
        exact List.append_right_eq_self.mp happ
      rw [← hstale, ← hto, hnil, List.append_nil, List.nil_append, List.append_assoc]
  refine ⟨fun hup => ?_, fun hup hgup => ?_, ht.chunks h.hostServes, h.guestServes⟩
  · obtain ⟨l, hl, hh⟩ := ht.said hup
    have hb := hh _ _ (h.host (ht.link hup))
    rw [List.any_append, Bool.or_comm (old.any _), ← Bool.or_assoc, guestPicture,
      ← pictured_append] at hb
    have hpic : (p.next (.host pass old new)).guestPicture =
        pictured p.guest.peerPaused (p.toGuest ++ l) := by
      rw [guestPicture, next, said_append hl]
    rw [hpic]
    exact hb.weaken
  · have hpic : (p.next (.host pass old new)).hostPicture = p.hostPicture := by
      simp only [hostPicture, next, hstale', hto']
      rw [hqueue, pictured_append _ (old ++ new), ht.peer]
    rw [hpic]
    exact h.guest (ht.link hup) hgup

theorem Agreeing.guest_step {pass : Pass} (h : p.Agreeing) (hc : p.Can (.guest pass)) :
    (p.next (.guest pass)).Agreeing := by
  obtain ⟨hw, hok, ⟨toGuest, hto⟩⟩ := hc
  have ht := after_talks hw h.guestServes hok
  have hto' : p.toGuest.drop pass.heard.length = toGuest := by rw [← hto, List.drop_left]
  refine ⟨fun hup => ?_, fun hup hgup => ?_, h.hostServes, ht.chunks h.guestServes⟩
  · have hpic : (p.next (.guest pass)).guestPicture = p.guestPicture := by
      simp only [guestPicture, next, hto']
      rw [← hto, pictured_append, ht.peer]
    rw [hpic]
    exact h.host hup
  · obtain ⟨l, hl, hh⟩ := ht.said hgup
    have hb := hh _ _ (h.guest hup (ht.link hgup))
    have hpic : (p.next (.guest pass)).hostPicture = pictured p.hostPicture l := by
      rw [hostPicture, hostPicture, next, said_append hl, ← List.append_assoc, pictured_append]
    rw [hpic]
    exact hb

omit [Platform] in
/-- A command keeps a session honest while the last one may still be taken back. -/
theorem honest_amid {s : Session} {w : Surroundings} (h : Honest g b s)
    (hr : w.paused ≠ s.paused → Retractable g b s) : Honest g b (s.amid w) := by
  intro hp
  have hp : w.paused = s.pausedActed := hp
  by_cases hw : w.paused = s.paused
  · exact h (hw.symm.trans hp)
  · exact hr hw fun he => hw (hp.trans he.symm)

theorem Agreeing.connect_step {guest : Session} {left : List Message} (h : p.Agreeing)
    (hg : guest.Fresh) (hf : pictured p.host.peerPaused left = false) :
    (p.next (.connect guest left)).Agreeing := by
  have hhost : p.host.said (p.host.after .connect) =
      [.hello protocolVersion p.host.binaryVersion p.host.engine.replica] := said_append rfl
  have hguest : guest.said (guest.after .connect) =
      [.hello protocolVersion guest.binaryVersion guest.engine.replica] := said_append rfl
  refine ⟨fun _ _ => .inr ⟨rfl, ?_⟩, fun _ _ _ => .inl ?_, h.hostServes, ?_⟩
  · rw [guestPicture, next, hhost]
    exact hg.peer
  · rw [hostPicture, next, hguest, pictured_append]
    change pictured p.host.peerPaused left = guest.pausedActed
    rw [hf, hg.unacted]
  · intro m hm
    have hm : m ∈ guest.pendingChunks := hm
    rw [hg.chunks] at hm
    cases hm

theorem Agreeing.step (h : p.Agreeing) (hs : p.FairStep p') : p'.Agreeing := by
  obtain ⟨m, hc, hf, rfl⟩ := hs
  have hup (w : Surroundings) (s : Session) :
      (s.amid w).transport.isSome = s.transport.isSome := Option.isSome_map
  cases m with
  | host pass old new => exact h.host_step hc
  | guest pass => exact h.guest_step hc
  | hostAmid w =>
    refine ⟨fun ht => ?_, fun ht hgt => ?_, h.hostServes, h.guestServes⟩
    · have ht := (hup w p.host).symm.trans ht
      exact honest_amid (h.host ht) (hf ht)
    · exact h.guest ((hup w p.host).symm.trans ht) hgt
  | guestAmid w =>
    refine ⟨h.host, fun ht hgt => ?_, h.hostServes, h.guestServes⟩
    exact honest_amid (h.guest ht ((hup w p.guest).symm.trans hgt)) (hf ht)
  | connect guest left => exact h.connect_step hc.2.1 hf

/-- In a fair run of two sessions, each takes the other for what it is whenever all has settled. -/
theorem FairStep.agreed {host guest : Session} (hh : host.Fresh) (hg : guest.Fresh)
    (hrun : Relation.ReflTransGen FairStep (start host guest) p) (hs : p.Settled) : p.Agreed := by
  have hinv : p.Agreeing := by
    clear hs
    induction hrun with
    | refl =>
      refine ⟨fun hup => ?_, fun hup => ?_, fun m hm => ?_, fun m hm => ?_⟩
      · rw [start, hh.offline] at hup
        cases hup
      · rw [start, hh.offline] at hup
        cases hup
      · rw [start, hh.chunks] at hm
        cases hm
      · rw [start, hg.chunks] at hm
        cases hm
    | tail _ hstep ih => exact ih.step hstep
  have hhost : p.guest.peerPaused = p.host.paused := by
    have h := hinv.host hs.hostUp hs.hostActed
    rw [guestPicture, hs.toGuest, hs.hostGreeted] at h
    rw [hs.hostActed]
    exact h.resolve_right fun hn => by cases hn.1
  have hguest : p.host.peerPaused = p.guest.paused := by
    have h := hinv.guest hs.hostUp hs.guestUp hs.guestActed
    rw [hostPicture, hs.stale, hs.toHost, hs.guestGreeted] at h
    rw [hs.guestActed]
    exact h.resolve_right fun hn => by cases hn.1
  refine ⟨⟨hhost, hguest⟩, fun hp hg => ?_⟩
  rw [outboundSuspended, outboundSuspended, hhost, hguest, hp, hg]
  exact ⟨rfl, rfl⟩

end

end Pair

/-- Frames as they arrive over a link that holds. -/
def arrivals (msgs : List Message) : List Arrival := msgs.map fun m => ⟨.message m, false, 0⟩

theorem arrivals_heard (msgs : List Message) : (Pass.burst (arrivals msgs)).heard = msgs := by
  rw [arrivals, Pass.heard, List.flatMap_map]
  exact List.flatMap_singleton' msgs

/-- The guest takes up all that is in flight to it. -/
def Pair.guestTakes [Platform] (p : Pair) : Pair := p.next (.guest (.burst (arrivals p.toGuest)))

/-- The guest takes up all that is in flight, then the host. -/
def Pair.exchange [Platform] (p : Pair) : Pair :=
  p.guestTakes.next (.host (.burst (arrivals p.guestTakes.toHost)) [] p.guestTakes.toHost)

/-- Neither session ends in an exchange. -/
abbrev Pair.Flows [Platform] (p : Pair) : Prop :=
  ((Session.processBurst (arrivals p.toGuest)).exec p.guest).1 = .ok false ∧
    ((Session.processBurst (arrivals p.guestTakes.toHost)).exec p.guestTakes.host).1 = .ok false

theorem Pair.exchange_run [Platform] {p : Pair} (hs : p.stale = []) (h : p.Flows) :
    Relation.ReflTransGen FairStep p p.exchange := by
  have hguest : FairStep p p.guestTakes := by
    refine ⟨.guest (.burst (arrivals p.toGuest)), ⟨rfl, h.1, ?_⟩, trivial, rfl⟩
    rw [arrivals_heard]
  refine (Relation.ReflTransGen.single hguest).tail
    ⟨.host (.burst (arrivals p.guestTakes.toHost)) [] p.guestTakes.toHost, ?_, trivial, rfl⟩
  exact ⟨rfl, h.2, arrivals_heard _, List.nil_prefix, List.prefix_refl _, .inr hs.symm⟩

theorem Pair.FairStep.plain [Platform] {p p' : Pair} (h : FairStep p p') : Step p p' := by
  obtain ⟨m, hc, _, he⟩ := h
  exact ⟨m, hc, he⟩

/-- A session that chases its peer. -/
def hostSession : Session := { fooSession with reconnectPlan := .localPeer }

def guestSession : Session :=
  .start rootDir syncAll (.new ⟨2⟩ .new) .new ((FileTree.empty : Tree).put rootDir .dir)

theorem hostSession_fresh : hostSession.Fresh := ⟨rfl, rfl, rfl, rfl, rfl⟩

theorem guestSession_fresh : guestSession.Fresh := ⟨rfl, rfl, rfl, rfl, rfl⟩

def unmet : Pair := .start hostSession guestSession

/-- Both have greeted each other and exchanged what they know. -/
def Pair.meet (p : Pair) : Pair :=
  letI := tabulated shortHashes
  ((p.next (.connect guestSession [])).exchange.exchange).exchange

def met : Pair := unmet.meet

theorem met_run :
    letI := tabulated shortHashes
    Relation.ReflTransGen Pair.FairStep unmet met := by
  let platform := tabulated shortHashes
  let p := unmet.next (.connect guestSession [])
  have hconn : Pair.FairStep unmet p :=
    ⟨.connect guestSession [], ⟨rfl, guestSession_fresh, List.nil_prefix⟩, rfl, rfl⟩
  have h1 := Pair.exchange_run (p := p) rfl (by decide +kernel)
  have h2 := Pair.exchange_run (p := p.exchange) rfl (by decide +kernel)
  have h3 := Pair.exchange_run (p := p.exchange.exchange) rfl (by decide +kernel)
  exact (((Relation.ReflTransGen.single hconn).trans h1).trans h2).trans h3

/-- Both are unpaused and take each other so. -/
theorem met_agreed : met.Agreed := by
  let platform := tabulated shortHashes
  refine Pair.FairStep.agreed hostSession_fresh guestSession_fresh met_run ?_
  constructor <;> decide +kernel

/-- The surroundings of a session but for the pause that it is told of. -/
def Session.told (s : Session) (paused : Bool) : Surroundings :=
  ⟨s.tree, s.diskFull, s.nowMs, s.wallMs, paused, false⟩

/-- The guest is paused and acts on it. -/
def guestActs : Pair :=
  letI := tabulated shortHashes
  (met.next (.guestAmid (met.guest.told true))).next (.guest (.burst [⟨.pause, false, 0⟩]))

/-- The host hears of it, and loses the link. -/
def hostAlone : Pair :=
  letI := tabulated shortHashes
  guestActs.exchange.next (.host (.burst [⟨.peerEof, false, 0⟩]) [] [])

/-- The host serves a new guest, which is not paused. -/
def metAgain : Pair := hostAlone.meet

theorem hostAlone_run :
    letI := tabulated shortHashes
    Relation.ReflTransGen Pair.Step unmet hostAlone := by
  let platform := tabulated shortHashes
  have hmet : Relation.ReflTransGen Pair.Step unmet met :=
    met_run.lift id fun _ _ h => h.plain
  have hflag : Pair.Step met (met.next (.guestAmid (met.guest.told true))) :=
    ⟨.guestAmid (met.guest.told true), trivial, rfl⟩
  have hacts : Pair.Step (met.next (.guestAmid (met.guest.told true))) guestActs := by
    refine ⟨.guest (.burst [⟨.pause, false, 0⟩]), ⟨rfl, ?_, List.nil_prefix⟩, rfl⟩
    exact (by decide +kernel : ((Session.processBurst [⟨.pause, false, 0⟩]).exec
      (met.next (.guestAmid (met.guest.told true))).guest).1 = .ok false)
  have hheard := (Pair.exchange_run (p := guestActs) rfl (by decide +kernel)).lift id
    fun _ _ h => h.plain
  have hlost : Pair.Step guestActs.exchange hostAlone := by
    refine ⟨.host (.burst [⟨.peerEof, false, 0⟩]) [] [], ?_, rfl⟩
    refine ⟨rfl, ?_, rfl, List.nil_prefix, List.nil_prefix, .inl rfl⟩
    exact (by decide +kernel : ((Session.processBurst [⟨.peerEof, false, 0⟩]).exec
      guestActs.exchange.host).1 = .ok false)
  exact (((hmet.tail hflag).tail hacts).trans hheard).tail hlost

/-- The host holds back from a guest that was never paused. -/
theorem metAgain_disagreed :
    letI := tabulated shortHashes
    Relation.ReflTransGen Pair.Step unmet metAgain ∧ metAgain.Settled ∧
      metAgain.host.paused = false ∧ metAgain.guest.paused = false ∧
      metAgain.host.outboundSuspended = true ∧ ¬metAgain.Agreed := by
  let platform := tabulated shortHashes
  let p := hostAlone.next (.connect guestSession [])
  have hconn : Pair.Step hostAlone p :=
    ⟨.connect guestSession [], ⟨by decide +kernel, guestSession_fresh, List.nil_prefix⟩, rfl⟩
  have h1 := Pair.exchange_run (p := p) rfl (by decide +kernel)
  have h2 := Pair.exchange_run (p := p.exchange) rfl (by decide +kernel)
  have h3 := Pair.exchange_run (p := p.exchange.exchange) rfl (by decide +kernel)
  have hrun := (hostAlone_run.tail hconn).trans
    (((h1.trans h2).trans h3).lift id fun _ _ h => h.plain)
  have hsettled : metAgain.Settled := by
    constructor <;> decide +kernel
  have hhost : metAgain.host.paused = false := by decide +kernel
  have hguest : metAgain.guest.paused = false := by decide +kernel
  have hheld : metAgain.host.outboundSuspended = true := by decide +kernel
  refine ⟨hrun, hsettled, hhost, hguest, hheld, fun h => ?_⟩
  rw [(h.2 hhost hguest).1] at hheld
  cases hheld

end Tomo
