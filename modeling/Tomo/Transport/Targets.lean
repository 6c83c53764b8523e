import Tomo.Lib.Outcome
import Tomo.Transport.SshConfig

namespace Tomo
set_option autoImplicit true

namespace Text

/-- What stands before the first such character, and what stands after it. -/
def splitOnce (c : Char) : Text → Option (Text × Text)
  | [] => none
  | d :: s => if d = c then some ([], s) else (splitOnce c s).map fun (a, b) => (d :: a, b)

/-- The same for the last such character. -/
def rsplitOnce (c : Char) (s : Text) : Option (Text × Text) :=
  (splitOnce c s.reverse).map fun (b, a) => (a.reverse, b.reverse)

end Text

def defaultSshPort : Nat := 22

structure HostSpec where
  user : Option Text
  host : Text
  port : Nat
deriving DecidableEq

/-- What is wrong with a target. -/
structure TransportError where
  target : Text
  reason : Text
deriving DecidableEq

namespace HostSpec

def parsePort (bad : Text → TransportError) (text : Text) : Except TransportError Nat :=
  match parseU16 text with
  | some 0 => .error (bad "port 0 is not valid".toList)
  | some p => .ok p
  | none => .error (bad "port is not a valid number in 1..=65535".toList)

/-- The host and the port; the colons of an address stand in brackets. -/
def splitHostPort (bad : Text → TransportError) (hostport : Text) :
    Except TransportError (Text × Nat) :=
  match Text.stripChar '[' hostport with
  | some rest =>
    match Text.splitOnce ']' rest with
    | none => .error (bad "unterminated '[' in IPv6 literal".toList)
    | some (addr, after) =>
      if after = [] then .ok (addr, defaultSshPort)
      else match Text.stripChar ':' after with
        | some p => (addr, ·) <$> parsePort bad p
        | none => .error (bad "trailing characters after ']'".toList)
  | none =>
    match Text.rsplitOnce ':' hostport with
    | some (h, p) => if ':' ∈ h then .ok (hostport, defaultSshPort) else (h, ·) <$> parsePort bad p
    | none => .ok (hostport, defaultSshPort)

/-- The user, if there is one, and the rest. -/
def splitUser (bad : Text → TransportError) (trimmed : Text) :
    Except TransportError (Option Text × Text) :=
  match Text.splitOnce '@' trimmed with
  | some (u, rest) =>
    if u = [] then .error (bad "empty user before '@'".toList)
    else if '@' ∈ rest then .error (bad "more than one '@'".toList)
    else .ok (some u, rest)
  | none => .ok (none, trimmed)

def parse (target : Text) : Except TransportError HostSpec :=
  let bad reason : TransportError := ⟨target, reason⟩
  let trimmed := Text.trim target
  if trimmed = [] then .error (bad "empty target".toList)
  else do
    let (user, hostport) ← splitUser bad trimmed
    let (host, port) ← splitHostPort bad hostport
    if host = [] then .error (bad "empty host".toList) else .ok ⟨user, host, port⟩

end HostSpec

inductive RouteError where
  | cycle («alias» : Text)
  | depthExceeded (max : Nat)
  | emptyHost (spec : Text)
deriving DecidableEq

/-- The user and the port only where they are given. -/
structure HopSpec where
  user : Option Text
  host : Text
  port : Option Nat
deriving DecidableEq

namespace HopSpec

def splitUser (spec : Text) : Option Text × Text :=
  match Text.splitOnce '@' spec with
  | some (u, r) => if u = [] then (none, spec) else (some u, r)
  | none => (none, spec)

def splitHostPort (rest : Text) : Text × Option Nat :=
  match Text.stripChar '[' rest with
  | some inner =>
    match Text.splitOnce ']' inner with
    | some (addr, after) => (addr, (Text.stripChar ':' after).bind parseU16)
    | none => (rest, none)
  | none =>
    match Text.rsplitOnce ':' rest with
    | some (h, p) => if ':' ∉ h ∧ (parseU16 p).isSome then (h, parseU16 p) else (rest, none)
    | none => (rest, none)

def parse (spec : Text) : Except RouteError HopSpec :=
  let spec := Text.trim spec
  let (user, rest) := splitUser spec
  let (host, port) := splitHostPort rest
  if host = [] then .error (.emptyHost spec) else .ok ⟨user, host, port⟩

end HopSpec

/-- Whether a host comes with a port: a colon stands after the bracket, or is the only one. -/
def CarriesPort (hostport : Text) : Prop :=
  if hostport.head? = some '[' then ':' ∈ hostport.dropWhile (· ≠ ']')
  else hostport.count ':' = 1

instance (hostport : Text) : Decidable (CarriesPort hostport) :=
  inferInstanceAs (Decidable (if hostport.head? = some '[' then
    ':' ∈ hostport.dropWhile (fun c => decide (c ≠ ']')) else hostport.count ':' = 1))

namespace Text
variable {c : Char} {a b s : Text}

theorem splitOnce_none : splitOnce c s = none ↔ c ∉ s := by
  induction s with
  | nil => simp [splitOnce]
  | cons d s ih =>
    rw [splitOnce, List.mem_cons, not_or]
    split
    next h => simp [h]
    next h =>
      rw [Option.map_eq_none_iff, ih]
      exact ⟨fun hs => ⟨fun he => h he.symm, hs⟩, And.right⟩

theorem splitOnce_some (h : splitOnce c s = some (a, b)) : s = a ++ c :: b ∧ c ∉ a := by
  induction s generalizing a with
  | nil => cases h
  | cons d s ih =>
    rw [splitOnce] at h
    split at h
    next hd =>
      cases h
      exact ⟨by rw [hd, List.nil_append], List.not_mem_nil⟩
    next hd =>
      obtain ⟨⟨x, y⟩, hs, he⟩ := Option.map_eq_some_iff.1 h
      cases he
      obtain ⟨rfl, hx⟩ := ih hs
      refine ⟨rfl, fun hm => ?_⟩
      rcases List.mem_cons.1 hm with he | hm
      · exact hd he.symm
      · exact hx hm

theorem rsplitOnce_none : rsplitOnce c s = none ↔ c ∉ s := by
  rw [rsplitOnce, Option.map_eq_none_iff, splitOnce_none, List.mem_reverse]

theorem rsplitOnce_some (h : rsplitOnce c s = some (a, b)) : s = a ++ c :: b ∧ c ∉ b := by
  obtain ⟨⟨x, y⟩, hs, he⟩ := Option.map_eq_some_iff.1 h
  cases he
  obtain ⟨hr, hx⟩ := splitOnce_some hs
  constructor
  · rw [← List.reverse_reverse s, hr, List.reverse_append, List.reverse_cons, List.append_assoc]
    rfl
  · rw [List.mem_reverse]
    exact hx

theorem stripChar_some (h : stripChar c s = some b) : s = c :: b := by
  cases s with
  | nil => cases h
  | cons d s =>
    rw [stripChar] at h
    split at h
    next hd =>
      cases h
      rw [hd]
    next => cases h

theorem stripChar_none : stripChar c s = none ↔ s.head? ≠ some c := by
  cases s with
  | nil => simp [stripChar]
  | cons d s => simp [stripChar]

end Text

variable {bad : Text → TransportError} {s target host : Text} {user : Option Text} {port : Nat}

theorem splitUser_agrees (h : HostSpec.splitUser bad s = .ok (user, hostport)) :
    HopSpec.splitUser s = (user, hostport) := by
  rw [HostSpec.splitUser] at h
  rw [HopSpec.splitUser]
  split at h
  next u rest hs =>
    split at h
    · cases h
    next hu =>
      split at h
      · cases h
      · cases h
        exact if_neg hu
  next =>
    cases h
    rfl

theorem parsePort_ok (h : HostSpec.parsePort bad s = .ok port) : parseU16 s = some port := by
  rw [HostSpec.parsePort] at h
  split at h
  · cases h
  next p _ hp =>
    cases h
    exact hp
  · cases h

theorem carriesPort_bracket {addr after : Text} (ha : ']' ∉ addr) :
    CarriesPort ('[' :: (addr ++ ']' :: after)) ↔ ':' ∈ after := by
  have hdrop : ('[' :: (addr ++ ']' :: after)).dropWhile (fun c => decide (c ≠ ']')) =
      ']' :: after := by
    rw [List.dropWhile_cons_of_pos (by decide), List.dropWhile_append_of_pos,
      List.dropWhile_cons_of_neg (by decide)]
    intro c hc
    apply decide_eq_true
    rintro rfl
    exact ha hc
  rw [CarriesPort, List.head?_cons, if_pos rfl, hdrop, List.mem_cons]
  exact ⟨fun h => h.resolve_left (by decide), .inr⟩

theorem splitHostPort_agrees (h : HostSpec.splitHostPort bad s = .ok (host, port)) :
    ∃ q, HopSpec.splitHostPort s = (host, q) ∧ (CarriesPort s → q = some port) ∧
      (¬CarriesPort s → q = none ∧ port = defaultSshPort) := by
  rw [HostSpec.splitHostPort] at h
  rw [HopSpec.splitHostPort]
  cases hb : Text.stripChar '[' s with
  | some rest =>
    rw [hb] at h
    obtain rfl := Text.stripChar_some hb
    dsimp only at h ⊢
    cases hc : Text.splitOnce ']' rest with
    | none =>
      rw [hc] at h
      cases h
    | some x =>
      obtain ⟨addr, after⟩ := x
      obtain ⟨rfl, haddr⟩ := Text.splitOnce_some hc
      rw [hc] at h
      dsimp only at h ⊢
      rw [carriesPort_bracket haddr]
      cases after with
      | nil =>
        cases h
        exact ⟨none, rfl, fun hm => (by cases hm), fun _ => ⟨rfl, rfl⟩⟩
      | cons c p =>
        rw [if_neg (List.cons_ne_nil c p)] at h
        cases hp : Text.stripChar ':' (c :: p) with
        | none =>
          rw [hp] at h
          cases h
        | some p' =>
          rw [hp] at h
          obtain ⟨n, hn, he⟩ := Outcome.map_ok.1 h
          cases he
          refine ⟨_, rfl, fun _ => parsePort_ok hn, fun hm => (hm ?_).elim⟩
          rw [Text.stripChar_some hp]
          exact List.mem_cons_self
  | none =>
    rw [hb] at h
    dsimp only at h ⊢
    rw [CarriesPort, if_neg (Text.stripChar_none.1 hb)]
    cases hc : Text.rsplitOnce ':' s with
    | none =>
      rw [hc] at h
      cases h
      rw [List.count_eq_zero_of_not_mem (Text.rsplitOnce_none.1 hc)]
      exact ⟨none, rfl, fun hz => (by cases hz), fun _ => ⟨rfl, rfl⟩⟩
    | some x =>
      obtain ⟨h', p⟩ := x
      obtain ⟨hs, hp⟩ := Text.rsplitOnce_some hc
      have hcount : s.count ':' = h'.count ':' + 1 := by
        rw [hs, List.count_append, List.count_cons_self, List.count_eq_zero_of_not_mem hp]
      rw [hc] at h
      dsimp only at h ⊢
      rw [hcount]
      by_cases hm : ':' ∈ h'
      · rw [if_pos hm] at h
        cases h
        rw [if_neg fun hn => hn.1 hm]
        have hpos := List.count_pos_iff.2 hm
        exact ⟨none, rfl, fun hz => (by omega), fun _ => ⟨rfl, rfl⟩⟩
      · rw [if_neg hm] at h
        obtain ⟨n, hn, he⟩ := Outcome.map_ok.1 h
        cases he
        have hport := parsePort_ok hn
        rw [if_pos ⟨hm, by rw [hport]; rfl⟩, hport, List.count_eq_zero_of_not_mem hm]
        exact ⟨some port, rfl, fun _ => rfl, fun hz => (hz rfl).elim⟩

/-- What one parser accepts, the other accepts as well, and both mean the same host. -/
theorem parsers_agree (h : HostSpec.parse target = .ok spec) :
    ∃ hop, HopSpec.parse target = .ok hop ∧ hop.user = spec.user ∧ hop.host = spec.host ∧
      (CarriesPort (HopSpec.splitUser (Text.trim target)).2 → hop.port = some spec.port) ∧
      (¬CarriesPort (HopSpec.splitUser (Text.trim target)).2 →
        hop.port = none ∧ spec.port = defaultSshPort) := by
  rw [HostSpec.parse] at h
  split at h
  · cases h
  · obtain ⟨⟨user, hostport⟩, hu, h⟩ := Outcome.bind_ok.1 h
    obtain ⟨⟨host, port⟩, hp, h⟩ := Outcome.bind_ok.1 h
    dsimp only at h
    split at h
    · cases h
    next hhost =>
      cases h
      have hsplit := splitUser_agrees hu
      obtain ⟨q, hq, hsome, hnone⟩ := splitHostPort_agrees hp
      refine ⟨⟨user, host, q⟩, ?_, rfl, rfl, ?_, ?_⟩
      · simp only [HopSpec.parse, hsplit, hq, if_neg hhost]
      · rw [hsplit]
        exact hsome
      · rw [hsplit]
        exact hnone

/-- An address in brackets, with a user, a port and blanks around it. -/
theorem parsers_agree_bracketed :
    ∃ hop, HopSpec.parse " me@[::1]:2222 ".toList = .ok hop ∧ hop.user = some "me".toList ∧
      hop.host = "::1".toList ∧ hop.port = some 2222 := by
  have h : HostSpec.parse " me@[::1]:2222 ".toList =
      .ok ⟨some "me".toList, "::1".toList, 2222⟩ := by decide
  obtain ⟨hop, hparse, huser, hhost, hport, _⟩ := parsers_agree h
  exact ⟨hop, hparse, huser, hhost, hport (by decide)⟩

end Tomo
