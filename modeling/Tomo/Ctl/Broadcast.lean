import Tomo.Lib.Channel

namespace Tomo
set_option autoImplicit true

/-- Per-subscriber queue depth. -/
def subscriberCap : Nat := 1024

/-- A consumer's handle, with the lines its `recv` has returned so far. -/
structure Subscription where
  channel : Channel String subscriberCap
  lagged : Bool
  received : List String

namespace Subscription

def new : Subscription := ⟨.new, false, []⟩

/-- What `publish` does with one subscriber, and whether `retain` keeps it. -/
def offer (sub : Subscription) (line : String) : Bool × Subscription :=
  match sub.channel.trySend line with
  | .ok channel => (true, { sub with channel })
  | .error .full => (false, { sub with channel := sub.channel.dropSender, lagged := true })
  | .error .disconnected => (false, { sub with channel := sub.channel.dropSender })

/-- `none` while there is nothing to return yet, and after the handle is gone. -/
def recv (sub : Subscription) : Option Subscription :=
  if sub.channel.receiver then
    match sub.channel.recv with
    | none => none
    | some (none, _) => some sub
    | some (some line, channel) => some { sub with channel, received := sub.received ++ [line] }
  else none

/-- A wait that runs out has found nothing queued. -/
def timeout (sub : Subscription) : Option Subscription :=
  if sub.channel.receiver ∧ sub.channel.queue = [] then some sub else none

def drop (sub : Subscription) : Option Subscription :=
  if sub.channel.receiver then some { sub with channel := sub.channel.dropReceiver } else none

def close (sub : Subscription) : Subscription := { sub with channel := sub.channel.dropSender }

theorem timeout_eq {sub sub' : Subscription} (h : sub.timeout = some sub') : sub' = sub := by
  rw [timeout] at h
  split at h
  · cases h
    rfl
  · cases h

theorem offer_sender (sub : Subscription) (line : String) :
    (sub.offer line).2.channel.sender = (sub.channel.sender && (sub.offer line).1) := by
  rw [offer]
  split
  next hsend =>
    rw [Bool.and_true]
    exact (Channel.trySend_ok hsend).2.2.2.1
  · rw [Bool.and_false, Channel.dropSender_sender]
  · rw [Bool.and_false, Channel.dropSender_sender]

/-- The next line would find the queue full. -/
def Full (sub : Subscription) : Prop :=
  sub.channel.receiver = true ∧ sub.channel.queue.length = subscriberCap

instance : DecidablePred Full := fun _ => inferInstanceAs (Decidable (_ ∧ _))

/-- The line is queued, or finds the queue full, or finds nobody there. -/
theorem offer_cases (sub : Subscription) (line : String) :
    (sub.channel.receiver = true ∧ ¬sub.Full ∧ (sub.offer line).2.received = sub.received ∧
      (sub.offer line).2.channel.queue = sub.channel.queue ++ [line] ∧
      (sub.offer line).2.channel.sender = sub.channel.sender ∧
      (sub.offer line).2.channel.receiver = true ∧ (sub.offer line).2.lagged = sub.lagged) ∨
    (sub.Full ∧ sub.offer line = (false, { sub.close with lagged := true })) ∨
    (sub.channel.receiver = false ∧ sub.offer line = (false, sub.close)) := by
  cases hsend : sub.channel.trySend line with
  | ok channel =>
    left
    obtain ⟨hreceiver, hroom, hqueue, hsender, hreceiver'⟩ := Channel.trySend_ok hsend
    have hfull : ¬sub.Full := fun h => Nat.ne_of_lt hroom h.2
    simp [Subscription.offer, hsend, hfull, hreceiver, hqueue, hsender, hreceiver']
  | error e =>
    right
    cases e with
    | full =>
      left
      have hfull : sub.Full := (sub.channel.trySend_full_iff line).mp hsend
      simp [Subscription.offer, Subscription.close, hsend, hfull]
    | disconnected =>
      right
      have hreceiver := (sub.channel.trySend_disconnected_iff line).mp hsend
      simp [Subscription.offer, Subscription.close, hsend, hreceiver]

theorem recv_eq {sub sub' : Subscription} (h : sub.recv = some sub') :
    sub'.received ++ sub'.channel.queue = sub.received ++ sub.channel.queue ∧
      sub'.channel.sender = sub.channel.sender ∧
      sub'.channel.receiver = sub.channel.receiver ∧ sub'.lagged = sub.lagged := by
  rw [recv] at h
  split at h
  · split at h
    · cases h
    · cases h
      exact ⟨rfl, rfl, rfl, rfl⟩
    next hrecv =>
      cases h
      obtain ⟨hqueue, hsender, hreceiver⟩ := Channel.recv_some hrecv
      rw [hqueue, List.append_assoc]
      exact ⟨rfl, hsender, hreceiver, rfl⟩
  · cases h

theorem drop_eq {sub sub' : Subscription} (h : sub.drop = some sub') :
    sub' = { sub with channel := sub.channel.dropReceiver } := by
  rw [drop] at h
  split at h
  · cases h
    rfl
  · cases h

end Subscription

/-- A `retain` under way: the line, who was kept so far, and who is still to be offered it. -/
structure Retain where
  line : String
  kept : List Nat
  rest : List Nat

/-- Subscribers are numbered as they come; `publishing` holds the lock until it is done. -/
structure Broadcaster where
  subs : List Nat
  publishing : Option Retain
  subscriptions : List Subscription

inductive BroadcastStep where
  | subscribe
  | publish (line : String)
  | offer (i : Nat)
  | unlock
  | closeAll
  | recv (i : Nat)
  | timeout (i : Nat)
  | drop (i : Nat)
  deriving DecidableEq

namespace Broadcaster

def new : Broadcaster := ⟨[], none, []⟩

/-- A step of one consumer. -/
def consume (s : Broadcaster) (i : Nat) (f : Subscription → Option Subscription) :
    Option Broadcaster :=
  match s.subscriptions[i]? with
  | none => none
  | some sub => (f sub).map fun sub' => { s with subscriptions := s.subscriptions.set i sub' }

/-- One step of anyone; `none` where it cannot be taken now. Only what needs the lock waits for a
`publish` to end: consumers go on between two of its `try_send`s. -/
def step (s : Broadcaster) : BroadcastStep → Option Broadcaster
  | .subscribe =>
    match s.publishing with
    | some _ => none
    | none => some { s with
        subs := s.subs ++ [s.subscriptions.length]
        subscriptions := s.subscriptions ++ [.new] }
  | .publish line =>
    match s.publishing with
    | some _ => none
    | none => some { s with publishing := some ⟨line, [], s.subs⟩ }
  | .offer i =>
    match s.publishing, s.subscriptions[i]? with
    | some ⟨line, kept, j :: rest⟩, some sub =>
      if j = i then
        let (keep, sub') := sub.offer line
        some { s with
          publishing := some ⟨line, if keep then kept ++ [i] else kept, rest⟩
          subscriptions := s.subscriptions.set i sub' }
      else none
    | _, _ => none
  | .unlock =>
    match s.publishing with
    | some ⟨_, kept, []⟩ => some { s with subs := kept, publishing := none }
    | _ => none
  | .closeAll =>
    match s.publishing with
    | some _ => none
    | none => some { s with
        subs := []
        subscriptions := s.subscriptions.mapIdx fun i sub => if i ∈ s.subs then sub.close else sub }
  | .recv i => s.consume i Subscription.recv
  | .timeout i => s.consume i Subscription.timeout
  | .drop i => s.consume i Subscription.drop

def run (s : Broadcaster) : List BroadcastStep → Option Broadcaster
  | [] => some s
  | a :: steps => (s.step a).bind fun s' => s'.run steps

/-- Everyone registered, also while a `retain` is under way. -/
def registered (s : Broadcaster) : List Nat :=
  match s.publishing with
  | none => s.subs
  | some r => r.kept ++ r.rest

/-- Whoever is registered is registered once, and it is they whose sender is still held. -/
structure Inv (s : Broadcaster) : Prop where
  nodup : s.registered.Nodup
  mem : ∀ i, i ∈ s.registered ↔
    ∃ sub, s.subscriptions[i]? = some sub ∧ sub.channel.sender = true

theorem new_inv : new.Inv := by
  constructor
  · exact List.nodup_nil
  · intro i
    simp [new, registered]

end Broadcaster

/-- What one subscriber sees of the whole: how many there have been, the line being published,
whether that line is still to come to it, and its own channel. -/
structure Seat where
  taken : Nat
  line : Option String
  due : Bool
  sub : Option Subscription

namespace Seat

def consume (t : Seat) (mine : Bool) (f : Subscription → Option Subscription) : Option Seat :=
  if mine then
    match t.sub with
    | none => none
    | some sub => (f sub).map fun sub' => { t with sub := some sub' }
  else some t

/-- One step as subscriber `i` sees it; the steps of the others leave its seat as it is. -/
def step (i : Nat) (t : Seat) : BroadcastStep → Option Seat
  | .subscribe => if t.line.isSome then none else
      some { t with taken := t.taken + 1, sub := if t.taken = i then some .new else t.sub }
  | .publish line => if t.line.isSome then none else
      some { t with line := some line, due := t.sub.any fun sub => sub.channel.sender }
  | .offer j => if j = i then
      match t.line, t.sub, t.due with
      | some line, some sub, true => some { t with due := false, sub := some (sub.offer line).2 }
      | _, _, _ => none
    else some t
  | .unlock => if t.due then none else some { t with line := none }
  | .closeAll => if t.line.isSome then none else some { t with sub := t.sub.map .close }
  | .recv j => t.consume (j = i) Subscription.recv
  | .timeout j => t.consume (j = i) Subscription.timeout
  | .drop j => t.consume (j = i) Subscription.drop

def run (i : Nat) (t : Seat) : List BroadcastStep → Option Seat
  | [] => some t
  | a :: steps => (t.step i a).bind fun t' => t'.run i steps

end Seat

/-- The step is another subscriber's than `i`. -/
def BroadcastStep.foreign (i : Nat) : BroadcastStep → Bool
  | .offer j | .recv j | .timeout j | .drop j => j ≠ i
  | _ => false

theorem Seat.step_foreign {t : Seat} (h : a.foreign i = true) : t.step i a = some t := by
  cases a with
  | offer j | recv j | timeout j | drop j =>
    have hne : j ≠ i := by simpa [BroadcastStep.foreign] using h
    simp [Seat.step, Seat.consume, hne]
  | subscribe | publish | unlock | closeAll => cases h

/-- What the others do can be left out of a subscriber's run. -/
theorem Seat.run_filter (i : Nat) (t : Seat) (steps : List BroadcastStep) :
    t.run i (steps.filter fun a => !a.foreign i) = t.run i steps := by
  induction steps generalizing t with
  | nil => rfl
  | cons a steps ih =>
    cases hforeign : a.foreign i with
    | true =>
      rw [List.filter_cons_of_neg (by simp [hforeign]), Seat.run, Seat.step_foreign hforeign]
      exact ih t
    | false =>
      rw [List.filter_cons_of_pos (by simp [hforeign]), Seat.run, Seat.run]
      cases t.step i a with
      | none => rfl
      | some t' => exact ih t'

namespace Broadcaster

/-- The seat of subscriber `i`. -/
def seat (s : Broadcaster) (i : Nat) : Seat where
  taken := s.subscriptions.length
  line := s.publishing.map (·.line)
  due := s.publishing.any fun r => decide (i ∈ r.rest)
  sub := s.subscriptions[i]?

theorem Inv.lt {s : Broadcaster} (h : s.Inv) (hi : i ∈ s.registered) :
    i < s.subscriptions.length := by
  obtain ⟨sub, hsub, _⟩ := (h.mem i).mp hi
  exact (List.getElem?_eq_some_iff.mp hsub).1

theorem Inv.held {s : Broadcaster} (h : s.Inv) (hsub : s.subscriptions[i]? = some sub) :
    i ∈ s.registered ↔ sub.channel.sender = true := by
  rw [h.mem i, hsub]
  simp

theorem getElem?_set_of_some {l : List α} (h : l[i]? = some x) (y : α) (j : Nat) :
    (l.set i y)[j]? = if i = j then some y else l[j]? := by
  have hlt : i < l.length := (List.getElem?_eq_some_iff.mp h).1
  rw [List.getElem?_set]
  by_cases hij : i = j
  · subst hij
    simp [hlt]
  · simp [hij]

/-- Registration follows the sender alone. -/
theorem Inv.set {s s' : Broadcaster} (hs : s.Inv) (hsub : s.subscriptions[i]? = some sub)
    (hsubs : s'.subscriptions = s.subscriptions.set i sub')
    (hnodup : s'.registered.Nodup)
    (hothers : ∀ j, j ≠ i → (j ∈ s'.registered ↔ j ∈ s.registered))
    (hmem : i ∈ s'.registered ↔ sub'.channel.sender = true) : s'.Inv := by
  constructor
  · exact hnodup
  · intro j
    rw [hsubs, getElem?_set_of_some hsub]
    by_cases hij : i = j
    · subst hij
      rw [hmem, if_pos rfl]
      simp
    · rw [if_neg hij, hothers j (Ne.symm hij)]
      exact hs.mem j

theorem Inv.consume {s s' : Broadcaster} {f : Subscription → Option Subscription} (hs : s.Inv)
    (hf : ∀ {sub sub'}, f sub = some sub' → sub'.channel.sender = sub.channel.sender)
    (h : s.consume j f = some s') :
    s'.Inv ∧ ∀ i, (s.seat i).consume (j = i) f = some (s'.seat i) := by
  rw [Broadcaster.consume] at h
  split at h
  · cases h
  next sub hsub =>
    obtain ⟨sub', hfsub, heq⟩ := Option.map_eq_some_iff.mp h
    subst heq
    have hmem : j ∈ s.registered ↔ sub'.channel.sender = true := by
      rw [hf hfsub]
      exact hs.held hsub
    constructor
    · exact hs.set hsub rfl hs.nodup (fun k _ => Iff.rfl) hmem
    · intro i
      by_cases hji : j = i
      · subst hji
        simp [Seat.consume, seat, hsub, hfsub, getElem?_set_of_some hsub]
      · simp [Seat.consume, seat, hji, getElem?_set_of_some hsub]

theorem Inv.subscribe {s s' : Broadcaster} (hs : s.Inv) (h : s.step .subscribe = some s') :
    s'.Inv ∧ ∀ i, (s.seat i).step i .subscribe = some (s'.seat i) := by
  simp only [step] at h
  split at h
  · cases h
  next hidle =>
    cases h
    have hregistered : s.registered = s.subs := by rw [registered, hidle]
    constructor
    · constructor
      · have hfresh : s.subscriptions.length ∉ s.subs := by
          rw [← hregistered]
          intro hmem
          exact Nat.lt_irrefl _ (hs.lt hmem)
        have hnodup := hs.nodup
        rw [hregistered] at hnodup
        simpa [registered, hidle, List.nodup_append, hnodup] using
          fun i hi => (ne_of_mem_of_not_mem hi hfresh)
      · intro i
        have hmem := hs.mem i
        rw [hregistered] at hmem
        simp only [registered, hidle, List.mem_append, List.mem_singleton, hmem]
        by_cases hi : i = s.subscriptions.length
        · subst hi
          simp [Subscription.new, Channel.new]
        · rw [List.getElem?_append]
          split
          · simp [hi]
          next hlt =>
            have hnone : s.subscriptions[i]? = none := List.getElem?_eq_none (by omega)
            have hpast : i - s.subscriptions.length ≠ 0 := by omega
            simp [hnone, hi, hpast]
    · intro i
      simp only [Seat.step, seat, hidle, Option.map_none, Option.isSome_none, Option.any_none,
        List.length_append, List.length_singleton, Bool.false_eq_true, if_false]
      by_cases hi : s.subscriptions.length = i
      · subst hi
        simp
      · rw [if_neg hi, List.getElem?_append]
        split
        · rfl
        next hlt =>
          have hpast : i - s.subscriptions.length ≠ 0 := by omega
          rw [List.getElem?_eq_none (by omega), List.getElem?_singleton, if_neg hpast]

theorem Inv.publish {s s' : Broadcaster} (hs : s.Inv) (h : s.step (.publish line) = some s') :
    s'.Inv ∧ ∀ i, (s.seat i).step i (.publish line) = some (s'.seat i) := by
  simp only [step] at h
  split at h
  · cases h
  next hidle =>
    cases h
    have hregistered : s.registered = s.subs := by rw [registered, hidle]
    constructor
    · constructor
      · simpa [registered, hidle] using hs.nodup
      · intro i
        simpa [registered, hidle] using hs.mem i
    · intro i
      have hdue : decide (i ∈ s.subs) = s.subscriptions[i]?.any fun sub => sub.channel.sender := by
        have hmem := hs.mem i
        rw [hregistered] at hmem
        rw [Bool.eq_iff_iff, decide_eq_true_iff, hmem, Option.any_eq_true]
      simp [Seat.step, seat, hidle, hdue]

theorem Inv.offer {s s' : Broadcaster} (hs : s.Inv) (h : s.step (.offer j) = some s') :
    s'.Inv ∧ ∀ i, (s.seat i).step i (.offer j) = some (s'.seat i) := by
  simp only [step] at h
  split at h
  next line kept k rest sub hpublishing hsub =>
    split at h
    next hk =>
      subst hk
      cases h
      have hregistered : s.registered = kept ++ k :: rest := by rw [registered, hpublishing]
      have hnodup := hs.nodup
      rw [hregistered, List.perm_middle.nodup_iff, List.nodup_cons, List.mem_append, not_or]
        at hnodup
      obtain ⟨⟨hkept, hrest⟩, hnodup⟩ := hnodup
      have hheld : sub.channel.sender = true := by
        rw [← hs.held hsub, hregistered]
        simp
      have hsender := sub.offer_sender line
      rw [hheld, Bool.true_and] at hsender
      constructor
      · cases hkeep : (sub.offer line).1 with
        | true =>
          have hsame : registered { s with
              publishing := some ⟨line, kept ++ [k], rest⟩
              subscriptions := s.subscriptions.set k (sub.offer line).2 } = s.registered := by
            rw [hregistered]
            exact List.append_assoc kept [k] rest
          apply hs.set hsub rfl
          · simpa only [if_true, hsame] using hs.nodup
          · intro i _
            simp only [if_true, hsame]
          · simp only [if_true, hsame]
            rw [hs.held hsub, hsender, hkeep, hheld]
        | false =>
          apply hs.set hsub rfl
          · simpa [registered] using hnodup
          · intro i hi
            simp [registered, hpublishing, hi]
          · rw [hsender, hkeep]
            simp [registered, hkept, hrest]
      · intro i
        by_cases hki : k = i
        · subst hki
          simp [Seat.step, seat, hpublishing, hsub, hrest, getElem?_set_of_some hsub]
        · have hne : i ≠ k := Ne.symm hki
          simp [Seat.step, seat, hpublishing, hki, hne, getElem?_set_of_some hsub]
    · cases h
  · cases h

theorem Inv.unlock {s s' : Broadcaster} (hs : s.Inv) (h : s.step .unlock = some s') :
    s'.Inv ∧ ∀ i, (s.seat i).step i .unlock = some (s'.seat i) := by
  simp only [step] at h
  split at h
  next line kept hpublishing =>
    cases h
    constructor
    · constructor
      · simpa [registered, hpublishing] using hs.nodup
      · intro i
        simpa [registered, hpublishing] using hs.mem i
    · intro i
      simp [Seat.step, seat, hpublishing]
  · cases h

theorem Inv.closeAll {s s' : Broadcaster} (hs : s.Inv) (h : s.step .closeAll = some s') :
    s'.Inv ∧ ∀ i, (s.seat i).step i .closeAll = some (s'.seat i) := by
  simp only [step] at h
  split at h
  · cases h
  next hidle =>
    cases h
    have hregistered : s.registered = s.subs := by rw [registered, hidle]
    have hclosed : ∀ i : Nat, (s.subscriptions.mapIdx fun i sub =>
        if i ∈ s.subs then sub.close else sub)[i]? = s.subscriptions[i]?.map Subscription.close := by
      intro i
      rw [List.getElem?_mapIdx]
      cases hsub : s.subscriptions[i]? with
      | none => rfl
      | some sub =>
        by_cases hi : i ∈ s.subs
        · simp [hi]
        · have hgone : sub.channel.sender = false := by
            rw [← hregistered, hs.held hsub] at hi
            simpa using hi
          simp [hi, Subscription.close, Channel.dropSender_of_gone hgone]
    constructor
    · constructor
      · simp [registered, hidle]
      · intro i
        rw [hclosed]
        simp [registered, hidle, Subscription.close]
    · intro i
      simp [Seat.step, seat, hidle, hclosed]

/-- Every subscriber's seat follows its own machine. -/
theorem Inv.step {s s' : Broadcaster} (hs : s.Inv) (h : s.step a = some s') :
    s'.Inv ∧ ∀ i, (s.seat i).step i a = some (s'.seat i) := by
  cases a with
  | subscribe => exact hs.subscribe h
  | publish line => exact hs.publish h
  | offer j => exact hs.offer h
  | unlock => exact hs.unlock h
  | closeAll => exact hs.closeAll h
  | recv j => exact hs.consume (fun hf => (Subscription.recv_eq hf).2.1) h
  | timeout j => exact hs.consume (fun hf => by rw [Subscription.timeout_eq hf]) h
  | drop j => exact hs.consume (fun hf => by rw [Subscription.drop_eq hf]; rfl) h

theorem Inv.run {s s' : Broadcaster} (hs : s.Inv) (h : s.run steps = some s') :
    s'.Inv ∧ ∀ i, (s.seat i).run i steps = some (s'.seat i) := by
  induction steps generalizing s with
  | nil =>
    cases h
    exact ⟨hs, fun i => rfl⟩
  | cons a steps ih =>
    obtain ⟨s₁, hstep, hrun⟩ := Option.bind_eq_some_iff.mp h
    obtain ⟨hs₁, hseat⟩ := hs.step hstep
    obtain ⟨hs', hseats⟩ := ih hs₁ hrun
    constructor
    · exact hs'
    · intro i
      rw [Seat.run, hseat i]
      exact hseats i

/-- The lines published after subscriber `i` came and before it lagged or everything closed. -/
def publishedTo (i : Nat) : Broadcaster → List BroadcastStep → List String
  | _, [] => []
  | s, a :: steps =>
    match s.step a with
    | none => []
    | some s' =>
      match s.subscriptions[i]?, a with
      | some _, .publish line => line :: publishedTo i s' steps
      | some _, .closeAll => []
      | some sub, .offer j => if j = i ∧ sub.Full then [] else publishedTo i s' steps
      | _, _ => publishedTo i s' steps

end Broadcaster

namespace Seat

/-- What the subscriber has got, read or not. -/
def heard (t : Seat) : List String :=
  match t.sub with
  | none => []
  | some sub => sub.received ++ sub.channel.queue

/-- What the publish under way still has for it. -/
def owes (t : Seat) : List String :=
  match t.line, t.sub with
  | some line, some sub => if t.due ∧ sub.channel.receiver then [line] else []
  | _, _ => []

/-- Both ends of its channel are held, or it has yet to come. -/
def Live (t : Seat) : Prop :=
  ∀ sub, t.sub = some sub → sub.channel.sender = true ∧ sub.channel.receiver = true

/-- A line still to come is to come to someone registered. -/
def Sound (t : Seat) : Prop := t.due = true → ∀ sub, t.sub = some sub → sub.channel.sender = true

def adds (t : Seat) : BroadcastStep → List String
  | .publish line => if t.sub.isSome then [line] else []
  | _ => []

/-- The steps after which nothing more comes: a close, or the line that finds the queue full. -/
def Ends (i : Nat) (t : Seat) : BroadcastStep → Prop
  | .closeAll => t.sub.isSome = true
  | .offer j => j = i ∧ ∃ sub, t.sub = some sub ∧ sub.Full
  | _ => False

theorem owes_of_dead {t : Seat} (ht : t.Sound) (hdead : ¬t.Live) : t.owes = [] := by
  rw [owes]
  split
  next line sub hline hsub =>
    rw [if_neg]
    intro hdue
    apply hdead
    intro sub' hsub'
    rw [hsub] at hsub'
    cases hsub'
    exact ⟨ht hdue.1 sub hsub, hdue.2⟩
  · rfl

/-- Nothing more comes, and what has been got is less than before. -/
def Stopped (t t' : Seat) : Prop := ¬t'.Live ∧ t'.heard <+: t.heard ++ t.owes

/-- The step goes on: all that was there is there, and what was published is to come. -/
def Carried (i : Nat) (t t' : Seat) (a : BroadcastStep) : Prop :=
  t.Live ∧ t'.Live ∧ ¬t.Ends i a ∧ t'.heard ++ t'.owes = t.heard ++ t.owes ++ t.adds a

theorem carried_of_eq {t t' : Seat} (hlive : t'.Live ↔ t.Live) (hends : ¬t.Ends i a)
    (hheard : t'.heard = t.heard) (howes : t'.owes = t.owes) (hadds : t.adds a = []) :
    t.Carried i t' a ∨ t.Stopped t' := by
  by_cases h : t.Live
  · left
    exact ⟨h, hlive.mpr h, hends, by rw [hheard, howes, hadds, List.append_nil]⟩
  · right
    refine ⟨fun h' => h (hlive.mp h'), ?_⟩
    rw [hheard]
    exact List.prefix_append _ _

theorem offer_step {t t' : Seat} (ht : t.Sound) (h : t.step i (.offer i) = some t') :
    t.Carried i t' (.offer i) ∨ t.Stopped t' := by
  simp only [step, if_true] at h
  split at h
  next line sub hline hsub hdue =>
    cases h
    have hsender : sub.channel.sender = true := ht hdue sub hsub
    obtain ⟨hreceiver, hfull, hreceived, hqueue, hsender', hreceiver', _⟩ |
      ⟨hfull, heq⟩ | ⟨hreceiver, heq⟩ := sub.offer_cases line
    · left
      refine ⟨?_, ?_, ?_, ?_⟩
      · simp [Live, hsub, hsender, hreceiver]
      · simp [Live, hsender', hreceiver', hsender]
      · simp [Ends, hsub, hfull]
      · simp [heard, owes, adds, hsub, hline, hdue, hreceiver, hreceived, hqueue]
    · right
      constructor
      · simp [Live, heq, Subscription.close]
      · simp [heard, heq, hsub, Subscription.close]
    · right
      constructor
      · simp [Live, heq, Subscription.close]
      · simp [heard, heq, hsub, Subscription.close]
  · cases h

theorem consume_eq {t t' : Seat} {f : Subscription → Option Subscription}
    (h : t.consume true f = some t') :
    ∃ sub sub', t.sub = some sub ∧ f sub = some sub' ∧ t' = { t with sub := some sub' } := by
  rw [consume, if_pos rfl] at h
  split at h
  · cases h
  next sub hsub =>
    obtain ⟨sub', hf, heq⟩ := Option.map_eq_some_iff.mp h
    exact ⟨sub, sub', hsub, hf, heq.symm⟩

theorem recv_step {t t' : Seat} (h : t.step i (.recv i) = some t') :
    t.Carried i t' (.recv i) ∨ t.Stopped t' := by
  simp only [step, decide_true] at h
  obtain ⟨sub, sub', hsub, hf, heq⟩ := consume_eq h
  obtain ⟨hgot, hsender, hreceiver, _⟩ := Subscription.recv_eq hf
  subst heq
  apply carried_of_eq
  · simp [Live, hsub, hsender, hreceiver]
  · simp [Ends]
  · simp [heard, hsub, hgot]
  · cases hline : t.line with
    | none => simp [owes, hline]
    | some line => simp [owes, hsub, hline, hreceiver]
  · rfl

theorem timeout_step {t t' : Seat} (h : t.step i (.timeout i) = some t') : t' = t := by
  simp only [step, decide_true] at h
  obtain ⟨sub, sub', hsub, hf, heq⟩ := consume_eq h
  rw [heq, Subscription.timeout_eq hf, ← hsub]

theorem drop_step {t t' : Seat} (h : t.step i (.drop i) = some t') : t.Stopped t' := by
  simp only [step, decide_true] at h
  obtain ⟨sub, sub', hsub, hf, heq⟩ := consume_eq h
  rw [Subscription.drop_eq hf] at heq
  subst heq
  constructor
  · simp [Live, Channel.dropReceiver]
  · simp [heard, hsub, Channel.dropReceiver]

theorem closeAll_step {t t' : Seat} (h : t.step i .closeAll = some t') :
    t.Carried i t' .closeAll ∨ t.Stopped t' := by
  simp only [step] at h
  split at h
  · cases h
  · cases h
    cases hsub : t.sub with
    | none =>
      apply carried_of_eq
      · simp [Live, hsub]
      · simp [Ends, hsub]
      · simp [heard, hsub]
      · simp [owes, hsub]
      · rfl
    | some sub =>
      right
      constructor
      · simp [Live, Subscription.close]
      · simp [heard, hsub, Subscription.close]

theorem subscribe_step {t t' : Seat} (htaken : t.taken = i → t.sub = none)
    (h : t.step i .subscribe = some t') : t.Carried i t' .subscribe ∨ t.Stopped t' := by
  simp only [step] at h
  split at h
  · cases h
  next hline =>
    cases h
    have hnone : t.line = none := by simpa using hline
    by_cases hi : t.taken = i
    · have hsub := htaken hi
      left
      refine ⟨?_, ?_, ?_, ?_⟩
      · simp [Live, hsub]
      · simp [Live, hi, Subscription.new, Channel.new]
      · simp [Ends]
      · simp [heard, owes, adds, hi, hsub, hnone, Subscription.new, Channel.new]
    · apply carried_of_eq
      · simp [Live, hi]
      · simp [Ends]
      · simp [heard, hi]
      · simp [owes, hnone]
      · rfl

theorem publish_step {t t' : Seat} {line : String} (h : t.step i (.publish line) = some t') :
    t.Carried i t' (.publish line) ∨ t.Stopped t' := by
  simp only [step] at h
  split at h
  · cases h
  next hline =>
    cases h
    have hnone : t.line = none := by simpa using hline
    have howes : t.owes = [] := by rw [owes, hnone]
    by_cases hlive : t.Live
    · left
      refine ⟨hlive, hlive, by simp [Ends], ?_⟩
      cases hsub : t.sub with
      | none => simp [heard, owes, adds, hsub]
      | some sub =>
        obtain ⟨hsender, hreceiver⟩ := hlive sub hsub
        simp [heard, owes, adds, hsub, hsender, hreceiver, hnone]
    · right
      exact ⟨hlive, List.prefix_append _ _⟩

theorem unlock_step {t t' : Seat} (h : t.step i .unlock = some t') :
    t.Carried i t' .unlock ∨ t.Stopped t' := by
  simp only [step] at h
  split at h
  · cases h
  next hdue =>
    cases h
    apply carried_of_eq
    · simp [Live]
    · simp [Ends]
    · simp [heard]
    · have howes : t.owes = [] := by
        rw [owes]
        split
        · simp [hdue]
        · rfl
      rw [howes]
      rfl
    · rfl

theorem step_carried {t t' : Seat} (ht : t.Sound) (htaken : t.taken = i → t.sub = none)
    (h : t.step i a = some t') : t.Carried i t' a ∨ t.Stopped t' := by
  cases hforeign : a.foreign i with
  | true =>
    rw [step_foreign hforeign] at h
    cases h
    apply carried_of_eq Iff.rfl _ rfl rfl
    · cases a with
      | publish => cases hforeign
      | subscribe | offer | unlock | closeAll | recv | timeout | drop => rfl
    · cases a with
      | offer j =>
        have hne : j ≠ i := by simpa [BroadcastStep.foreign] using hforeign
        simp [Ends, hne]
      | closeAll => cases hforeign
      | subscribe | publish | unlock | recv | timeout | drop => exact id
  | false =>
    cases a with
    | subscribe => exact subscribe_step htaken h
    | publish line => exact publish_step h
    | unlock => exact unlock_step h
    | closeAll => exact closeAll_step h
    | offer j =>
      obtain rfl : j = i := by simpa [BroadcastStep.foreign] using hforeign
      exact offer_step ht h
    | recv j =>
      obtain rfl : j = i := by simpa [BroadcastStep.foreign] using hforeign
      exact recv_step h
    | timeout j =>
      obtain rfl : j = i := by simpa [BroadcastStep.foreign] using hforeign
      rw [timeout_step h]
      exact carried_of_eq Iff.rfl id rfl rfl rfl
    | drop j =>
      obtain rfl : j = i := by simpa [BroadcastStep.foreign] using hforeign
      exact .inr (drop_step h)

end Seat

namespace Seat

def Lagged (t : Seat) : Prop := ∃ sub, t.sub = some sub ∧ sub.lagged = true

/-- The line offered now finds the queue full. -/
def Overflows (i : Nat) (t : Seat) (a : BroadcastStep) : Prop :=
  a = .offer i ∧ ∃ sub, t.sub = some sub ∧ sub.Full

theorem offer_lagged {t t' : Seat} (h : t.step i (.offer i) = some t') :
    t'.Lagged ↔ t.Lagged ∨ t.Overflows i (.offer i) := by
  simp only [step, if_true] at h
  split at h
  next line sub hline hsub hdue =>
    cases h
    obtain ⟨_, hfull, _, _, _, _, hlagged⟩ | ⟨hfull, heq⟩ | ⟨hreceiver, heq⟩ :=
      sub.offer_cases line
    · simp [Lagged, Overflows, hsub, hfull, hlagged]
    · simp [Lagged, Overflows, hsub, hfull, heq]
    · have hfull : ¬sub.Full := fun hfull => by simp [hfull.1] at hreceiver
      simp [Lagged, Overflows, hsub, hfull, heq, Subscription.close]
  · cases h

theorem consume_lagged {t t' : Seat} {f : Subscription → Option Subscription}
    (hf : ∀ {sub sub'}, f sub = some sub' → sub'.lagged = sub.lagged)
    (h : t.consume true f = some t') : t'.Lagged ↔ t.Lagged := by
  obtain ⟨sub, sub', hsub, hfsub, heq⟩ := consume_eq h
  subst heq
  simp [Lagged, hsub, hf hfsub]

theorem step_lagged {t t' : Seat} (htaken : t.taken = i → t.sub = none)
    (h : t.step i a = some t') : t'.Lagged ↔ t.Lagged ∨ t.Overflows i a := by
  by_cases hoffer : a = .offer i
  · subst hoffer
    exact offer_lagged h
  · have hcalm : ¬t.Overflows i a := fun h => hoffer h.1
    rw [or_iff_left hcalm]
    cases hforeign : a.foreign i with
    | true =>
      rw [step_foreign hforeign] at h
      cases h
      rfl
    | false =>
      cases a with
      | subscribe =>
        simp only [step] at h
        split at h
        · cases h
        · cases h
          by_cases hi : t.taken = i
          · simp [Lagged, hi, htaken hi, Subscription.new]
          · simp [Lagged, hi]
      | publish line =>
        simp only [step] at h
        split at h
        · cases h
        · cases h
          rfl
      | unlock =>
        simp only [step] at h
        split at h
        · cases h
        · cases h
          rfl
      | closeAll =>
        simp only [step] at h
        split at h
        · cases h
        · cases h
          cases hsub : t.sub with
          | none => simp [Lagged, hsub]
          | some sub => simp [Lagged, hsub, Subscription.close]
      | offer j =>
        obtain rfl : j = i := by simpa [BroadcastStep.foreign] using hforeign
        exact absurd rfl hoffer
      | recv j =>
        obtain rfl : j = i := by simpa [BroadcastStep.foreign] using hforeign
        simp only [step, decide_true] at h
        exact consume_lagged (fun hf => (Subscription.recv_eq hf).2.2.2) h
      | timeout j =>
        obtain rfl : j = i := by simpa [BroadcastStep.foreign] using hforeign
        rw [timeout_step h]
      | drop j =>
        obtain rfl : j = i := by simpa [BroadcastStep.foreign] using hforeign
        simp only [step, decide_true] at h
        exact consume_lagged (fun hf => by rw [Subscription.drop_eq hf]) h

end Seat

namespace Broadcaster

theorem Inv.sound {s : Broadcaster} (hs : s.Inv) (i : Nat) : (s.seat i).Sound := by
  intro hdue sub hsub
  rw [← hs.held hsub]
  cases hpublishing : s.publishing with
  | none => simp [seat, hpublishing] at hdue
  | some r =>
    have hmem : i ∈ r.rest := by simpa [seat, hpublishing] using hdue
    simp [registered, hpublishing, hmem]

theorem seat_taken (s : Broadcaster) (i : Nat) (h : (s.seat i).taken = i) :
    (s.seat i).sub = none :=
  List.getElem?_eq_none (Nat.le_of_eq h)

theorem Inv.step_carried {s s' : Broadcaster} (hs : s.Inv) (h : s.step a = some s') (i : Nat) :
    (s.seat i).Carried i (s'.seat i) a ∨ (s.seat i).Stopped (s'.seat i) :=
  Seat.step_carried (hs.sound i) (seat_taken s i) ((hs.step h).2 i)

theorem publishedTo_cons {s s' : Broadcaster} (h : s.step a = some s')
    (hends : ¬(s.seat i).Ends i a) (steps : List BroadcastStep) :
    s.publishedTo i (a :: steps) = (s.seat i).adds a ++ s'.publishedTo i steps := by
  rw [publishedTo, h]
  cases hsub : s.subscriptions[i]? with
  | none => cases a <;> simp [Seat.adds, seat, hsub]
  | some sub =>
    cases a with
    | publish line => simp [Seat.adds, seat, hsub]
    | closeAll => simp [Seat.Ends, seat, hsub] at hends
    | offer j =>
      have hfull : ¬(j = i ∧ sub.Full) := by simpa [Seat.Ends, seat, hsub] using hends
      simp [Seat.adds, hfull]
    | subscribe | unlock | recv | timeout | drop => rfl

/-- A subscriber that is gone only reads what it still has. -/
theorem Inv.run_stopped {s s' : Broadcaster} (hs : s.Inv) (hdead : ¬(s.seat i).Live)
    (h : s.run steps = some s') :
    ¬(s'.seat i).Live ∧ (s'.seat i).heard <+: (s.seat i).heard := by
  induction steps generalizing s with
  | nil =>
    cases h
    exact ⟨hdead, List.prefix_rfl⟩
  | cons a steps ih =>
    obtain ⟨s₁, hstep, hrun⟩ := Option.bind_eq_some_iff.mp h
    rcases hs.step_carried hstep i with hcarried | ⟨hdead₁, hheard⟩
    · exact absurd hcarried.1 hdead
    · obtain ⟨hdead', hheard'⟩ := ih (hs.step hstep).1 hdead₁ hrun
      rw [Seat.owes_of_dead (hs.sound i) hdead, List.append_nil] at hheard
      exact ⟨hdead', hheard'.trans hheard⟩

/-- What a subscriber has got is what was published to it, in order and from the start. -/
theorem Inv.run_heard {s s' : Broadcaster} (hs : s.Inv) (h : s.run steps = some s') (i : Nat) :
    (s'.seat i).heard <+: (s.seat i).heard ++ (s.seat i).owes ++ s.publishedTo i steps ∧
      ((s'.seat i).Live → (s'.seat i).heard ++ (s'.seat i).owes =
        (s.seat i).heard ++ (s.seat i).owes ++ s.publishedTo i steps) := by
  induction steps generalizing s with
  | nil =>
    cases h
    rw [publishedTo, List.append_nil]
    exact ⟨List.prefix_append _ _, fun _ => rfl⟩
  | cons a steps ih =>
    obtain ⟨s₁, hstep, hrun⟩ := Option.bind_eq_some_iff.mp h
    rcases hs.step_carried hstep i with ⟨_, _, hends, hheard⟩ | ⟨hdead, hheard⟩
    · have hih := ih (hs.step hstep).1 hrun
      rw [hheard, List.append_assoc _ (Seat.adds _ a), ← publishedTo_cons hstep hends] at hih
      exact hih
    · obtain ⟨hdead', hheard'⟩ := (hs.step hstep).1.run_stopped hdead hrun
      exact ⟨(hheard'.trans hheard).trans (List.prefix_append _ _),
        fun hlive => absurd hlive hdead'⟩

/-- A publish in the run found the queue of subscriber `i` full. -/
def FoundFull (s : Broadcaster) (i : Nat) (steps : List BroadcastStep) : Prop :=
  ∃ before after, steps = before ++ .offer i :: after ∧
    ∃ s₀ sub, s.run before = some s₀ ∧ s₀.subscriptions[i]? = some sub ∧ sub.Full

theorem foundFull_nil (s : Broadcaster) (i : Nat) : ¬s.FoundFull i [] := by
  rintro ⟨before, after, heq, _⟩
  simp at heq

theorem foundFull_cons {s s' : Broadcaster} (h : s.step a = some s') (i : Nat)
    (steps : List BroadcastStep) :
    s.FoundFull i (a :: steps) ↔ (s.seat i).Overflows i a ∨ s'.FoundFull i steps := by
  constructor
  · rintro ⟨before, after, heq, s₀, sub, hrun, hsub, hfull⟩
    cases before with
    | nil =>
      cases heq
      cases hrun
      exact .inl ⟨rfl, sub, hsub, hfull⟩
    | cons b before =>
      cases heq
      rw [run, h] at hrun
      exact .inr ⟨before, after, rfl, s₀, sub, hrun, hsub, hfull⟩
  · rintro (⟨heq, sub, hsub, hfull⟩ | ⟨before, after, heq, s₀, sub, hrun, hsub, hfull⟩)
    · exact ⟨[], steps, by rw [heq]; rfl, s, sub, rfl, hsub, hfull⟩
    · exact ⟨a :: before, after, by rw [heq]; rfl, s₀, sub, by rw [run, h]; exact hrun, hsub, hfull⟩

theorem Inv.run_lagged {s s' : Broadcaster} (hs : s.Inv) (h : s.run steps = some s') (i : Nat) :
    (s'.seat i).Lagged ↔ (s.seat i).Lagged ∨ s.FoundFull i steps := by
  induction steps generalizing s with
  | nil =>
    cases h
    rw [or_iff_left (foundFull_nil _ i)]
  | cons a steps ih =>
    obtain ⟨s₁, hstep, hrun⟩ := Option.bind_eq_some_iff.mp h
    obtain ⟨hs₁, hseat⟩ := hs.step hstep
    rw [ih hs₁ hrun, Seat.step_lagged (seat_taken s i) (hseat i), foundFull_cons hstep, or_assoc]

/-- A publish under way comes to its end whatever the queues hold. -/
theorem Inv.publish_ends {s : Broadcaster} (hs : s.Inv) {r : Retain}
    (h : s.publishing = some r) :
    ∃ s', s.run (r.rest.map .offer ++ [.unlock]) = some s' ∧ s'.publishing = none := by
  obtain ⟨line, kept, rest⟩ := r
  induction rest generalizing s kept with
  | nil =>
    refine ⟨{ s with subs := kept, publishing := none }, ?_, rfl⟩
    simp [Broadcaster.run, Broadcaster.step, h]
  | cons i rest ih =>
    have hi : i ∈ s.registered := by simp [registered, h]
    obtain ⟨sub, hsub, _⟩ := (hs.mem i).mp hi
    have hstep : s.step (.offer i) = some { s with
        publishing := some ⟨line, if (sub.offer line).1 then kept ++ [i] else kept, rest⟩
        subscriptions := s.subscriptions.set i (sub.offer line).2 } := by
      simp only [Broadcaster.step, h, hsub, if_true]
    obtain ⟨s', hrun, hidle⟩ := ih (hs.step hstep).1 _ rfl
    refine ⟨s', ?_, hidle⟩
    rw [List.map_cons, List.cons_append, Broadcaster.run, hstep]
    exact hrun

/-- Every subscriber reads a gap-free prefix of what is published to it, its queue bounded, marked
lagged just when a line found the queue full, and none of it depends on the other subscribers. -/
theorem gap_free_prefix (h : new.run steps = some s) :
    (∀ i sub, s.subscriptions[i]? = some sub →
      sub.received <+: new.publishedTo i steps ∧
      (sub.channel.sender = true → sub.channel.receiver = true → s.publishing = none →
        sub.received ++ sub.channel.queue = new.publishedTo i steps) ∧
      sub.channel.queue.length ≤ subscriberCap ∧
      (sub.lagged = true ↔ new.FoundFull i steps)) ∧
    (∀ i steps' s', new.run steps' = some s' →
      (steps.filter fun a => !a.foreign i) = (steps'.filter fun a => !a.foreign i) →
      s.subscriptions[i]? = s'.subscriptions[i]?) ∧
    (∀ r, s.publishing = some r →
      ∃ s', s.run (r.rest.map .offer ++ [.unlock]) = some s' ∧ s'.publishing = none) := by
  obtain ⟨hs, hseat⟩ := new_inv.run h
  have hnew : ∀ i, (new.seat i).heard ++ (new.seat i).owes = [] := fun i => rfl
  refine ⟨?_, ?_, fun r => hs.publish_ends⟩
  · intro i sub hsub
    obtain ⟨hinitial, hall⟩ := new_inv.run_heard h i
    have hheard : (s.seat i).heard = sub.received ++ sub.channel.queue := by
      simp [Seat.heard, seat, hsub]
    rw [hnew, List.nil_append] at hinitial hall
    refine ⟨?_, ?_, sub.channel.bounded, ?_⟩
    · rw [hheard] at hinitial
      exact (List.prefix_append _ _).trans hinitial
    · intro hsender hreceiver hidle
      have hlive : (s.seat i).Live := by
        intro sub' hsub'
        have heq : sub = sub' := Option.some.inj (hsub.symm.trans hsub')
        rw [← heq]
        exact ⟨hsender, hreceiver⟩
      have howes : (s.seat i).owes = [] := by simp [Seat.owes, seat, hidle]
      rw [← hall hlive, howes, List.append_nil, hheard]
    · have hlagged : (s.seat i).Lagged ↔ sub.lagged = true := by
        simp [Seat.Lagged, seat, hsub]
      have hfresh : ¬(new.seat i).Lagged := by
        rintro ⟨sub, hsub, _⟩
        cases hsub
      rw [← hlagged, new_inv.run_lagged h i, or_iff_right hfresh]
  · intro i steps' s' h' hsame
    have hseat' := (new_inv.run h').2 i
    rw [← Seat.run_filter, ← hsame, Seat.run_filter, hseat i] at hseat'
    exact congrArg Seat.sub (Option.some.inj hseat')

/-- Two subscribers, the second of which reads nothing; in the other order of steps it leaves. -/
def twoReaders : List BroadcastStep :=
  [.subscribe, .subscribe, .publish "a", .offer 0, .recv 0, .offer 1, .unlock, .publish "b",
    .offer 0, .offer 1, .unlock]

def oneLeaves : List BroadcastStep :=
  [.subscribe, .subscribe, .drop 1, .publish "a", .offer 0, .recv 0, .offer 1, .unlock,
    .publish "b", .offer 0, .unlock]

def afterTwo : Broadcaster := (new.run twoReaders).getD new

def afterOne : Broadcaster := (new.run oneLeaves).getD new

theorem two_readers_prefix :
    afterTwo.subscriptions[0]?.map (·.received) = some ["a"] ∧
      (∀ sub, afterTwo.subscriptions[0]? = some sub →
        sub.received <+: new.publishedTo 0 twoReaders) ∧
      afterTwo.subscriptions[0]? = afterOne.subscriptions[0]? := by
  have h : new.run twoReaders = some afterTwo := rfl
  obtain ⟨hall, hsame, _⟩ := gap_free_prefix h
  exact ⟨rfl, fun sub hsub => (hall 0 sub hsub).1, hsame 0 oneLeaves afterOne rfl rfl⟩

end Broadcaster
end Tomo
