import Mathlib.Data.List.Nodup
import Mathlib.Logic.Relation
import Tomo.Transport.Targets

namespace Tomo
set_option autoImplicit true

/-- One hop of a route, with everything that applies to it decided. -/
structure ResolvedEndpoint where
  «alias» : Text
  hostName : Text
  port : Nat
  user : Option Text
  identityFiles : List FilePath
  identitiesOnly : Bool
  strict : StrictHostKey
  knownHostsFiles : List FilePath
  globalKnownHostsFiles : List FilePath
deriving DecidableEq

structure ResolvedRoute where
  jumps : List ResolvedEndpoint
  target : ResolvedEndpoint
  unknownOptions : List Text
deriving DecidableEq

/-- `~` and `%d` stand for the home directory, and other relative paths are below `~/.ssh`. -/
def expandPath (arg : Text) (home : FilePath) : FilePath :=
  if "~/".toList <+: arg then home.join (.of (arg.drop 2))
  else if "%d/".toList <+: arg then home.join (.of (arg.drop 3))
  else if arg = "~".toList ∨ arg = "%d".toList then home
  else if (FilePath.of arg).absolute then .of arg
  else (home.join (.of ".ssh".toList)).join (.of arg)

def expandAll (home : FilePath) (args : List Text) : List FilePath :=
  args.map fun arg => expandPath (unquote arg) home

/-- Without the paths that stand there already. -/
def distinctPaths (paths : List FilePath) : List FilePath :=
  paths.foldl (fun l p => if p ∈ l then l else l ++ [p]) []

namespace RawHostConfig

/-- What the hop names itself comes before what the config says. -/
def intoEndpoint (raw : RawHostConfig) (hop : HopSpec) (home : FilePath) (defaultPort : Nat) :
    ResolvedEndpoint where
  «alias» := hop.host
  hostName := raw.hostName.getD hop.host
  port := (hop.port <|> raw.port).getD defaultPort
  user := hop.user <|> raw.user
  identityFiles := distinctPaths (expandAll home raw.identityFiles)
  identitiesOnly := raw.identitiesOnly.getD false
  strict := raw.strict.getD .yes
  knownHostsFiles := match raw.knownHosts with
    | some files => expandAll home files
    | none => expandAll home ["~/.ssh/known_hosts".toList, "~/.ssh/known_hosts2".toList]
  globalKnownHostsFiles := match raw.globalKnownHosts with
    | some files => expandAll home files
    | none => expandAll home
        ["/etc/ssh/ssh_known_hosts".toList, "/etc/ssh/ssh_known_hosts2".toList]

/-- The hops of the `ProxyJump` value, as they are spelled. -/
def jumpSpecs (raw : RawHostConfig) : List Text :=
  match raw.proxyJump with
  | none => []
  | some pj =>
    if Text.toAsciiLowercase pj = "none".toList then []
    else ((pj.splitOn ',').map Text.trim).filter (· ≠ [])

end RawHostConfig

/-- What the hops of a route gather. -/
structure Chain where
  jumps : List ResolvedEndpoint
  visited : List Text
  unknown : List Text

/-- A host that is visited, with the options of its that are not known. -/
def Chain.visit (s : Chain) (host : Text) (names : List Text) : Chain :=
  { s with
    visited := s.visited ++ [host]
    unknown := names.foldl (fun l name => if name ∈ l then l else l ++ [name]) s.unknown }

namespace SshConfig
variable (c : SshConfig) (home : FilePath) (defaultPort : Nat)

def specsOf (host : Text) : List Text := (c.resolveRaw host).jumpSpecs

def endpoint (hop : HopSpec) : ResolvedEndpoint :=
  (c.resolveRaw hop.host).intoEndpoint hop home defaultPort

/-- The levels that are left are `maxDepth` minus the depth. -/
def buildChain : (left : Nat) → Text → Chain → Except RouteError (ResolvedEndpoint × Chain)
  | 0, _, _ => .error (.depthExceeded maxDepth)
  | left + 1, spec, s => do
    let hop ← HopSpec.parse spec
    if hop.host ∈ s.visited then .error (.cycle hop.host)
    else do
      let s ← (c.specsOf hop.host).foldlM (fun s part => do
        let (jump, s) ← buildChain left part s
        pure { s with jumps := s.jumps ++ [jump] })
          (s.visit hop.host (c.resolveRaw hop.host).unknown)
      pure (c.endpoint home defaultPort hop, s)

def resolveRoute (target : Text) : Except RouteError ResolvedRoute := do
  let (endpoint, s) ← c.buildChain home defaultPort maxDepth target ⟨[], [], []⟩
  pure ⟨s.jumps, endpoint, s.unknown⟩

/-- The keyword lines that count for the host, where the flag says whether the first ones do. -/
def givenFrom (host : Text) (active : Bool) : List Line → List (Text × Text)
  | [] => []
  | .host patterns :: lines => givenFrom host (hostMatches patterns host) lines
  | .match :: lines => givenFrom host false lines
  | .keyword name args :: lines =>
    if active then (name, args) :: givenFrom host active lines
    else givenFrom host active lines

/-- The keyword lines above the first block and in the blocks of the host. -/
def given (host : Text) : List (Text × Text) := givenFrom host true c.lines

/-- The first such directive that has a value. -/
def firstValue (name : Text) (f : Text → Option β) (ds : List (Text × Text)) : Option β :=
  ds.findSome? fun d => if d.1 = name then f d.2 else none

/-- Every option has the first value that a directive gives; the identity files are all of them. -/
structure FirstObtained (ds : List (Text × Text)) (raw : RawHostConfig) : Prop where
  hostName : raw.hostName = firstValue "hostname".toList (fun a => some (unquote (Text.trim a))) ds
  user : raw.user = firstValue "user".toList (fun a => some (unquote (Text.trim a))) ds
  port : raw.port =
    firstValue "port".toList (fun a => (parseU16 (Text.trim a)).filter (· ≠ 0)) ds
  identityFiles : raw.identityFiles =
    ds.flatMap fun d => if d.1 = "identityfile".toList then splitArgs d.2 else []
  identitiesOnly : raw.identitiesOnly =
    firstValue "identitiesonly".toList (fun a => some (parseYes a)) ds
  strict : raw.strict = firstValue "stricthostkeychecking".toList StrictHostKey.parse ds
  knownHosts : raw.knownHosts =
    firstValue "userknownhostsfile".toList (fun a => some (splitArgs a)) ds
  globalKnownHosts : raw.globalKnownHosts =
    firstValue "globalknownhostsfile".toList (fun a => some (splitArgs a)) ds
  proxyJump : raw.proxyJump = firstValue "proxyjump".toList (fun a => some (Text.trim a)) ds

/-- The one spec is in the `ProxyJump` value of the other's host. -/
def Next (spec part : Text) : Prop :=
  ∃ hop, HopSpec.parse spec = .ok hop ∧ part ∈ c.specsOf hop.host

/-- Some hop of the target's route has a jump chain that comes back to the hop's own host. -/
def LeadsBack (target : Text) : Prop :=
  ∃ spec hop spec' hop', Relation.ReflTransGen c.Next target spec ∧ HopSpec.parse spec = .ok hop ∧
    Relation.TransGen c.Next spec spec' ∧ HopSpec.parse spec' = .ok hop' ∧ hop'.host = hop.host

/-- No chain of jumps from the spec has more hops than this. -/
def Within : Nat → Text → Prop
  | 0, _ => False
  | levels + 1, spec => ∀ part, c.Next spec part → Within levels part

/-- Every spec of the target's route has a host. -/
def Named (target : Text) : Prop :=
  ∀ spec, Relation.ReflTransGen c.Next target spec → ∃ hop, HopSpec.parse spec = .ok hop

/-- All hops of the hop's own `ProxyJump` value are in the list, in order. -/
def OwnHopsIn (hop : HopSpec) (l : List HopSpec) : Prop :=
  ∃ own, (c.specsOf hop.host).mapM HopSpec.parse = .ok own ∧ own.Sublist l

/-- The endpoint has what the hop names itself and the first-obtained values for its alias. -/
def Resolved (hop : HopSpec) (e : ResolvedEndpoint) : Prop :=
  ∃ raw, FirstObtained (c.given hop.host) raw ∧ e = raw.intoEndpoint hop home defaultPort

/-- A route that can be dialed from its first jump on. -/
structure Dialable (target : Text) (route : ResolvedRoute) : Prop where
  jumps : ∃ hops, List.Forall₂ (c.Resolved home defaultPort) hops route.jumps ∧
    (∀ first ∈ hops.head?, c.specsOf first.host = []) ∧
    (∀ before hop after, hops = before ++ hop :: after → c.OwnHopsIn hop before) ∧
    ∃ hop, HopSpec.parse target = .ok hop ∧ c.OwnHopsIn hop hops ∧
      c.Resolved home defaultPort hop route.target

/-- What the routes of a config promise. -/
def RoutesWell (target : Text) : Prop :=
  (∀ a, c.resolveRoute home defaultPort target = .error (.cycle a) → c.LeadsBack target) ∧
    (¬ c.LeadsBack target → c.Within maxDepth target →
      ∃ route, c.resolveRoute home defaultPort target = .ok route ∧
        c.Dialable home defaultPort target route)

/-- The hosts in the order of a depth-first walk, up to a spec that has no host or is too deep; and
whether there is no such spec. -/
def walkAll (walk : Text → List Text × Bool) : List Text → List Text × Bool
  | [] => ([], true)
  | spec :: specs =>
    let first := walk spec
    if first.2 then
      let rest := walkAll walk specs
      (first.1 ++ rest.1, rest.2)
    else first

def walk : Nat → Text → List Text × Bool
  | 0, _ => ([], false)
  | levels + 1, spec =>
    match HopSpec.parse spec with
    | .error _ => ([], false)
    | .ok hop =>
      let below := walkAll (walk levels) (c.specsOf hop.host)
      (hop.host :: below.1, below.2)

theorem field_ite {field : RawHostConfig → β} [Decidable b] {x y : RawHostConfig}
    (hx : b → field x = v) (hy : field y = v) : field (if b then x else y) = v := by
  split
  next h => exact hx h
  next => exact hy

section FirstObtained
variable {β : Type} {name : Text} {f : Text → Option β} {field : RawHostConfig → Option β}

theorem resolveRaw_eq (host : Text) :
    c.resolveRaw host = (c.given host).foldl (fun raw d => raw.apply d.1 d.2) .empty := by
  have hfold : ∀ lines active raw, (lines.foldl (step host) (active, raw)).2 =
      (givenFrom host active lines).foldl (fun raw d => raw.apply d.1 d.2) raw := by
    intro lines
    induction lines with
    | nil =>
      intro _ _
      rfl
    | cons line lines ih =>
      intro active raw
      rw [List.foldl_cons]
      cases line with
      | host patterns => exact ih _ raw
      | «match» => exact ih false raw
      | keyword name args =>
        rw [givenFrom]
        cases active with
        | true => exact ih true _
        | false => exact ih false raw
  exact hfold c.lines true .empty

/-- A field that the directives of one name fill, and only while it is empty. -/
theorem field_resolveRaw (hempty : field .empty = none)
    (hown : ∀ raw a, field (RawHostConfig.apply raw name a) = (field raw <|> f a))
    (hother : ∀ raw n a, n ≠ name → field (RawHostConfig.apply raw n a) = field raw)
    (host : Text) : field (c.resolveRaw host) = firstValue name f (c.given host) := by
  have hfold : ∀ ds raw, field (List.foldl (fun raw d => RawHostConfig.apply raw d.1 d.2) raw ds) =
      (field raw <|> firstValue name f ds) := by
    intro ds
    induction ds with
    | nil =>
      intro raw
      rw [List.foldl_nil, firstValue, List.findSome?_nil]
      cases field raw <;> rfl
    | cons d ds ih =>
      intro raw
      simp only [List.foldl_cons, ih, firstValue, List.findSome?_cons]
      by_cases hd : d.1 = name
      · rw [if_pos hd, hd, hown]
        cases field raw with
        | some v => rfl
        | none => cases f d.2 <;> rfl
      · rw [if_neg hd, hother raw _ _ hd]
  rw [resolveRaw_eq, hfold, hempty]
  rfl

theorem foldl_identityFiles (ds : List (Text × Text)) (raw : RawHostConfig) :
    (ds.foldl (fun raw d => raw.apply d.1 d.2) raw).identityFiles = raw.identityFiles ++
      ds.flatMap fun d => if d.1 = "identityfile".toList then splitArgs d.2 else [] := by
  induction ds generalizing raw with
  | nil => rw [List.foldl_nil, List.flatMap_nil, List.append_nil]
  | cons d ds ih =>
    have happly : (raw.apply d.1 d.2).identityFiles = raw.identityFiles ++
        if d.1 = "identityfile".toList then splitArgs d.2 else [] := by
      by_cases hd : d.1 = "identityfile".toList
      · rw [hd, if_pos rfl]
        rfl
      · rw [if_neg hd, List.append_nil, RawHostConfig.apply, if_neg hd]
        repeat' apply field_ite
        all_goals first
          | rfl
          | exact fun _ => rfl
    rw [List.foldl_cons, ih, happly, List.flatMap_cons, List.append_assoc]

theorem resolveRaw_first (host : Text) : FirstObtained (c.given host) (c.resolveRaw host) := by
  constructor
  case identityFiles =>
    rw [resolveRaw_eq, foldl_identityFiles]
    exact List.nil_append _
  all_goals
    apply field_resolveRaw c rfl (fun _ _ => rfl)
    intro raw n a hn
    rw [RawHostConfig.apply]
    repeat' apply field_ite
    all_goals first
      | rfl
      | exact fun _ => rfl
      | exact fun h => absurd h hn

end FirstObtained

/-- What a walk from a state comes to: the hosts that it meets, whether it meets no bad spec, and
the hops that it puts out. -/
structure Walked (s : Chain) (met : List Text × Bool) (hops : List HopSpec)
    (result : Except RouteError Chain) : Prop where
  ok : ∀ s', result = .ok s' → met.2 = true ∧ (s.visited ++ met.1).Nodup ∧
    s'.visited = s.visited ++ met.1 ∧ s'.jumps = s.jumps ++ hops.map (c.endpoint home defaultPort)
  cycle : ∀ a, result = .error (.cycle a) → ¬ (s.visited ++ met.1).Nodup
  other : ∀ e, result = .error e → (∀ a, e ≠ .cycle a) →
    met.2 = false ∧ (s.visited ++ met.1).Nodup

theorem parse_error (h : HopSpec.parse spec = .error e) : ∃ s, e = .emptyHost s := by
  rw [HopSpec.parse] at h
  simp only at h
  split_ifs at h
  cases h
  exact ⟨_, rfl⟩

theorem Walked.stop (hs : s.visited.Nodup) (he : ∀ a, e ≠ .cycle a) :
    c.Walked home defaultPort s ([], false) hops (.error e) := by
  constructor
  case ok =>
    intro _ h
    cases h
  case cycle =>
    intro a h
    exact absurd (Except.error.inj h) (he a)
  case other =>
    intro _ _ _
    rw [List.append_nil]
    exact ⟨rfl, hs⟩

/-- The walk of one spec after that of another. -/
theorem Walked.then {met : List Text × Bool} {next : Chain → Except RouteError Chain}
    (h : c.Walked home defaultPort s met hops result)
    (hnext : ∀ s', s'.visited.Nodup → c.Walked home defaultPort s' rest hops' (next s')) :
    c.Walked home defaultPort s (if met.2 then (met.1 ++ rest.1, rest.2) else met) (hops ++ hops')
      (result >>= next) := by
  cases result with
  | error e =>
    constructor
    case ok =>
      intro _ he
      cases he
    case cycle =>
      intro a he
      cases he
      split
      · rw [← List.append_assoc]
        exact fun hd => h.cycle a rfl (List.nodup_append.1 hd).1
      · exact h.cycle a rfl
    case other =>
      intro _ he hne
      cases he
      obtain ⟨hdone, hd⟩ := h.other e rfl hne
      rw [if_neg (Bool.eq_false_iff.1 hdone)]
      exact ⟨hdone, hd⟩
  | ok s' =>
    obtain ⟨hdone, hd, hvis, hjumps⟩ := h.ok s' rfl
    have hrest := hnext s' (hvis ▸ hd)
    rw [if_pos hdone]
    constructor
    case ok =>
      intro s'' hs''
      obtain ⟨hdone', hd', hvis', hjumps'⟩ := hrest.ok s'' hs''
      rw [← List.append_assoc, ← hvis, List.map_append, ← List.append_assoc, ← hjumps]
      exact ⟨hdone', hd', hvis', hjumps'⟩
    case cycle =>
      intro a ha
      rw [← List.append_assoc, ← hvis]
      exact hrest.cycle a ha
    case other =>
      intro e he hne
      rw [← List.append_assoc, ← hvis]
      exact hrest.other e he hne

/-- The hops that are dialed before the spec's own. -/
def hopsBefore : Nat → Text → List HopSpec
  | 0, _ => []
  | levels + 1, spec =>
    match HopSpec.parse spec with
    | .error _ => []
    | .ok hop => (c.specsOf hop.host).flatMap fun part =>
        hopsBefore levels part ++ (HopSpec.parse part).toOption.toList

theorem foldlM_walked {f : Chain → Text → Except RouteError Chain}
    {met : Text → List Text × Bool} {out : Text → List HopSpec}
    (hf : ∀ spec s, s.visited.Nodup → c.Walked home defaultPort s (met spec) (out spec) (f s spec))
    (specs : List Text) (s : Chain) (hs : s.visited.Nodup) :
    c.Walked home defaultPort s (walkAll met specs) (specs.flatMap out) (specs.foldlM f s) := by
  induction specs generalizing s with
  | nil =>
    constructor
    case ok =>
      intro s' h
      cases h
      rw [walkAll, List.flatMap_nil, List.map_nil, List.append_nil, List.append_nil]
      exact ⟨rfl, hs, rfl, rfl⟩
    case cycle =>
      intro _ h
      cases h
    case other =>
      intro _ h
      cases h
  | cons spec specs ih =>
    rw [List.foldlM_cons, List.flatMap_cons]
    exact (hf spec s hs).then c home defaultPort ih

/-- The hop itself comes out last. -/
theorem Walked.snoc {met : List Text × Bool} {build : Except RouteError (ResolvedEndpoint × Chain)}
    (h : c.Walked home defaultPort s met hops (Prod.snd <$> build))
    (hlast : ∀ r, build = .ok r →
      ∃ hop, HopSpec.parse spec = .ok hop ∧ r.1 = c.endpoint home defaultPort hop) :
    c.Walked home defaultPort s met (hops ++ (HopSpec.parse spec).toOption.toList) (do
      let (jump, s) ← build
      pure { s with jumps := s.jumps ++ [jump] }) := by
  cases build with
  | error e =>
    constructor
    case ok =>
      intro _ he
      cases he
    case cycle =>
      intro a he
      cases he
      exact h.cycle a rfl
    case other =>
      intro _ he hne
      cases he
      exact h.other e rfl hne
  | ok r =>
    constructor
    case ok =>
      intro s' hs'
      cases hs'
      obtain ⟨hdone, hd, hvis, hjumps⟩ := h.ok r.2 rfl
      obtain ⟨hop, hparse, he⟩ := hlast r rfl
      refine ⟨hdone, hd, hvis, ?_⟩
      show r.2.jumps ++ [r.1] = _
      rw [hjumps, he, hparse, List.map_append, List.append_assoc]
      rfl
    case cycle =>
      intro _ he
      cases he
    case other =>
      intro _ he
      cases he

theorem buildChain_endpoint {left : Nat}
    (h : c.buildChain home defaultPort left spec s = .ok r) :
    ∃ hop, HopSpec.parse spec = .ok hop ∧ r.1 = c.endpoint home defaultPort hop := by
  cases left with
  | zero => cases h
  | succ left =>
    rw [buildChain] at h
    obtain ⟨hop, hparse, h⟩ := Outcome.bind_ok.1 h
    refine ⟨hop, hparse, ?_⟩
    split at h
    · cases h
    · obtain ⟨_, _, h⟩ := Outcome.bind_ok.1 h
      cases h
      rfl

/-- The host is met before the hosts of its own jumps. -/
theorem Walked.visit {met : List Text × Bool}
    (h : c.Walked home defaultPort (s.visit host names) met hops result) :
    c.Walked home defaultPort s (host :: met.1, met.2) hops result := by
  have hmet : s.visited ++ host :: met.1 = (s.visit host names).visited ++ met.1 := by
    rw [Chain.visit, List.append_assoc]
    rfl
  constructor
  case ok =>
    rw [hmet]
    exact h.ok
  case cycle =>
    rw [hmet]
    exact h.cycle
  case other =>
    rw [hmet]
    exact h.other

theorem buildChain_succ (hparse : HopSpec.parse spec = .ok hop) (left : Nat) (s : Chain) :
    Prod.snd <$> c.buildChain home defaultPort (left + 1) spec s =
      if hop.host ∈ s.visited then .error (.cycle hop.host)
      else (c.specsOf hop.host).foldlM (fun s part => do
        let (jump, s) ← c.buildChain home defaultPort left part s
        pure { s with jumps := s.jumps ++ [jump] })
          (s.visit hop.host (c.resolveRaw hop.host).unknown) := by
  rw [buildChain, hparse]
  show Prod.snd <$> (if _ then _ else _) = _
  split
  · rfl
  · rw [map_bind]
    exact bind_pure _

theorem buildChain_walked (left : Nat) (spec : Text) (s : Chain) (hs : s.visited.Nodup) :
    c.Walked home defaultPort s (c.walk left spec) (c.hopsBefore left spec)
      (Prod.snd <$> c.buildChain home defaultPort left spec s) := by
  induction left generalizing spec s with
  | zero =>
    apply Walked.stop c home defaultPort hs
    intro _ he
    cases he
  | succ left ih =>
    cases hparse : HopSpec.parse spec with
    | error e =>
      obtain ⟨text, rfl⟩ := parse_error hparse
      simp only [walk, hopsBefore, buildChain, hparse]
      apply Walked.stop c home defaultPort hs
      intro _ he
      cases he
    | ok hop =>
      simp only [walk, hopsBefore, hparse]
      rw [c.buildChain_succ home defaultPort hparse]
      split
      next hmem =>
        constructor
        case ok =>
          intro _ h
          cases h
        case cycle =>
          intro _ _ hd
          exact (List.nodup_append.1 hd).2.2 _ hmem _ List.mem_cons_self rfl
        case other =>
          intro _ h hne
          cases h
          exact absurd rfl (hne _)
      next hmem =>
        apply Walked.visit
        apply c.foldlM_walked home defaultPort
        · intro part s hs
          exact (ih part s hs).snoc c home defaultPort fun _ =>
            c.buildChain_endpoint home defaultPort
        · rw [Chain.visit, ← List.concat_eq_append]
          exact hs.concat hmem

theorem next_iff (hparse : HopSpec.parse spec = .ok hop) :
    c.Next spec part ↔ part ∈ c.specsOf hop.host := by
  constructor
  · rintro ⟨hop', hparse', hpart⟩
    cases hparse.symm.trans hparse'
    exact hpart
  · intro hpart
    exact ⟨hop, hparse, hpart⟩

theorem named_iff (hparse : HopSpec.parse spec = .ok hop) :
    c.Named spec ↔ ∀ part ∈ c.specsOf hop.host, c.Named part := by
  constructor
  · intro h part hpart text hreach
    exact h text (.head ⟨hop, hparse, hpart⟩ hreach)
  · intro h text hreach
    rcases hreach.cases_head with rfl | ⟨part, hnext, hrest⟩
    · exact ⟨hop, hparse⟩
    · exact h part ((c.next_iff hparse).1 hnext) text hrest

theorem walkAll_done (met : Text → List Text × Bool) (specs : List Text) :
    (walkAll met specs).2 = true ↔ ∀ spec ∈ specs, (met spec).2 = true := by
  induction specs with
  | nil => simp only [walkAll, List.not_mem_nil, false_implies, implies_true]
  | cons spec specs ih =>
    rw [List.forall_mem_cons, ← ih, walkAll]
    by_cases hspec : (met spec).2 = true
    · simp only [hspec, if_true, true_and]
    · simp only [hspec, false_and, if_false, Bool.false_eq_true]

/-- The walk comes to its end where no spec is too deep and every one has a host. -/
theorem walk_done (levels : Nat) (spec : Text) :
    (c.walk levels spec).2 = true ↔ c.Within levels spec ∧ c.Named spec := by
  induction levels generalizing spec with
  | zero => simp only [walk, Within, Bool.false_eq_true, false_and]
  | succ levels ih =>
    cases hparse : HopSpec.parse spec with
    | error e =>
      simp only [walk, hparse, Bool.false_eq_true, false_iff]
      rintro ⟨_, hnamed⟩
      obtain ⟨hop, hok⟩ := hnamed spec .refl
      cases hparse.symm.trans hok
    | ok hop =>
      simp only [walk, hparse, walkAll_done, ih, Within, c.named_iff hparse, c.next_iff hparse]
      exact forall₂_and

theorem OwnHopsIn.mono (h : c.OwnHopsIn hop l) (hl : l.Sublist l') : c.OwnHopsIn hop l' := by
  obtain ⟨own, hown, hsub⟩ := h
  exact ⟨own, hown, hsub.trans hl⟩

/-- Every hop comes after its own hops. -/
def Ordered (hops : List HopSpec) : Prop :=
  ∀ before hop after, hops = before ++ hop :: after → c.OwnHopsIn hop before

theorem Ordered.append (ha : c.Ordered a) (hb : c.Ordered b) : c.Ordered (a ++ b) := by
  intro before hop after he
  rcases List.append_eq_append_iff.1 he with ⟨mid, rfl, hmid⟩ | ⟨mid, hmid, he⟩
  · exact (hb mid hop after hmid).mono c (List.sublist_append_right a mid)
  · cases mid with
    | nil => exact (hb [] hop after he.symm).mono c (List.nil_sublist before)
    | cons _ mid =>
      cases he
      exact ha before _ mid hmid

theorem Ordered.concat (hl : c.Ordered l) (hhop : c.OwnHopsIn hop l) : c.Ordered (l ++ [hop]) := by
  intro before hop' after he
  rcases List.append_eq_append_iff.1 he with ⟨mid, rfl, hmid⟩ | ⟨mid, hmid, he⟩
  · cases mid with
    | nil =>
      cases hmid
      rw [List.append_nil]
      exact hhop
    | cons _ mid =>
      rw [List.cons_append] at hmid
      cases mid <;> cases hmid
  · cases mid with
    | nil =>
      cases he
      rw [List.append_nil] at hmid
      rw [← hmid]
      exact hhop
    | cons _ mid =>
      cases he
      exact hl before _ mid hmid

/-- What the hops of several specs are, one after the other. -/
theorem ordered_flatMap {specs : List Text} {f : Text → List HopSpec} (hf : ∀ spec ∈ specs, ∃ hop l,
      HopSpec.parse spec = .ok hop ∧ f spec = l ++ [hop] ∧ c.Ordered l ∧ c.OwnHopsIn hop l) :
    c.Ordered (specs.flatMap f) ∧
      ∃ own, specs.mapM HopSpec.parse = .ok own ∧ own.Sublist (specs.flatMap f) := by
  induction specs with
  | nil =>
    refine ⟨?_, [], rfl, .refl []⟩
    intro before hop after he
    cases before <;> cases he
  | cons spec specs ih =>
    obtain ⟨⟨hop, l, hparse, he, hl, hown⟩, hrest⟩ := List.forall_mem_cons.1 hf
    obtain ⟨hordered, own, hmap, hsub⟩ := ih hrest
    rw [List.flatMap_cons, he]
    refine ⟨(hl.concat c hown).append c hordered, hop :: own, ?_, ?_⟩
    · exact Outcome.mapM_ok.2 (.cons hparse (Outcome.mapM_ok.1 hmap))
    · exact (List.sublist_append_right l [hop]).append hsub

theorem hopsBefore_ordered (levels : Nat) (spec : Text) (h : (c.walk levels spec).2 = true) :
    ∃ hop, HopSpec.parse spec = .ok hop ∧ c.Ordered (c.hopsBefore levels spec) ∧
      c.OwnHopsIn hop (c.hopsBefore levels spec) := by
  induction levels generalizing spec with
  | zero => cases h
  | succ levels ih =>
    cases hparse : HopSpec.parse spec with
    | error e =>
      rw [walk, hparse] at h
      cases h
    | ok hop =>
      simp only [walk, hparse, walkAll_done] at h
      simp only [hopsBefore, hparse]
      refine ⟨hop, rfl, c.ordered_flatMap ?_⟩
      intro part hpart
      obtain ⟨hop', hparse', hordered, hown⟩ := ih part (h part hpart)
      refine ⟨hop', _, hparse', ?_, hordered, hown⟩
      rw [hparse']
      rfl

theorem resolved_endpoint (hop : HopSpec) :
    c.Resolved home defaultPort hop (c.endpoint home defaultPort hop) :=
  ⟨c.resolveRaw hop.host, c.resolveRaw_first hop.host, rfl⟩

theorem resolveRoute_ok (h : c.resolveRoute home defaultPort target = .ok route) :
    (c.walk maxDepth target).2 = true ∧ (c.walk maxDepth target).1.Nodup ∧
      c.Dialable home defaultPort target route := by
  obtain ⟨r, hr, h⟩ := Outcome.bind_ok.1 h
  cases h
  have hwalked := c.buildChain_walked home defaultPort maxDepth target ⟨[], [], []⟩ .nil
  rw [hr] at hwalked
  obtain ⟨hdone, hd, _, hjumps⟩ := hwalked.ok r.2 rfl
  obtain ⟨hop, hparse, hordered, hown⟩ := c.hopsBefore_ordered maxDepth target hdone
  obtain ⟨hop', hparse', he⟩ := c.buildChain_endpoint home defaultPort hr
  cases hparse.symm.trans hparse'
  refine ⟨hdone, hd, ⟨c.hopsBefore maxDepth target, ?_, ?_, hordered, hop, hparse, hown, ?_⟩⟩
  · show List.Forall₂ _ _ r.2.jumps
    rw [hjumps, List.nil_append, List.forall₂_map_right_iff]
    exact List.forall₂_same.2 fun hop _ => c.resolved_endpoint home defaultPort hop
  · intro first hfirst
    cases hhops : c.hopsBefore maxDepth target with
    | nil =>
      rw [hhops] at hfirst
      cases hfirst
    | cons hop' hops =>
      rw [hhops] at hfirst
      cases hfirst
      obtain ⟨own, hmap, hsub⟩ := hordered [] _ hops hhops
      rw [List.sublist_nil.1 hsub] at hmap
      exact List.forall₂_nil_right_iff.1 (Outcome.mapM_ok.1 hmap)
  · show c.Resolved _ _ _ r.1
    rw [he]
    exact c.resolved_endpoint home defaultPort hop

theorem resolveRoute_error (h : c.resolveRoute home defaultPort target = .error e) :
    (∀ a, e = .cycle a → ¬ (c.walk maxDepth target).1.Nodup) ∧
      ((∀ a, e ≠ .cycle a) → (c.walk maxDepth target).2 = false ∧
        (c.walk maxDepth target).1.Nodup) := by
  have hwalked := c.buildChain_walked home defaultPort maxDepth target ⟨[], [], []⟩ .nil
  rw [resolveRoute] at h
  cases hr : c.buildChain home defaultPort maxDepth target ⟨[], [], []⟩ with
  | ok r =>
    rw [hr] at h
    cases h
  | error e' =>
    rw [hr] at h hwalked
    cases h
    constructor
    · rintro a rfl
      exact hwalked.cycle a rfl
    · exact hwalked.other e rfl

/-- A config routes well to a target exactly where a jump chain leads back, or where the walk meets
no host twice and every spec of a route below the cap has a host. -/
theorem routesWell_iff (target : Text) : c.RoutesWell home defaultPort target ↔
    c.LeadsBack target ∨ (c.walk maxDepth target).1.Nodup ∧
      (c.Within maxDepth target → c.Named target) := by
  have hdone := c.walk_done maxDepth target
  cases hr : c.resolveRoute home defaultPort target with
  | ok route =>
    obtain ⟨hend, hd, hdial⟩ := c.resolveRoute_ok home defaultPort hr
    constructor
    · intro _
      exact .inr ⟨hd, fun _ => (hdone.1 hend).2⟩
    · intro _
      refine ⟨fun a ha => ?_, fun _ _ => ⟨route, hr, hdial⟩⟩
      cases hr.symm.trans ha
  | error e =>
    obtain ⟨hcycle, hother⟩ := c.resolveRoute_error home defaultPort hr
    have hnone : ¬ ∃ route, c.resolveRoute home defaultPort target = .ok route ∧
        c.Dialable home defaultPort target route := by
      rintro ⟨route, hok, _⟩
      cases hr.symm.trans hok
    constructor
    · rintro ⟨hback, hroute⟩
      by_cases hlead : c.LeadsBack target
      · exact .inl hlead
      · have hne : ∀ a, e ≠ .cycle a := by
          rintro a rfl
          exact hlead (hback a hr)
        refine .inr ⟨(hother hne).2, fun hwithin => ?_⟩
        exact absurd (hroute hlead hwithin) hnone
    · rintro (hlead | ⟨hd, hnamed⟩)
      · exact ⟨fun _ _ => hlead, fun h => absurd hlead h⟩
      · have hne : ∀ a, e ≠ .cycle a := fun a ha => hcycle a ha hd
        have hfalse := (hother hne).1
        constructor
        · intro a ha
          rw [hr] at ha
          exact absurd (Except.error.inj ha) (hne a)
        · intro _ hwithin
          rw [hdone.2 ⟨hwithin, hnamed hwithin⟩] at hfalse
          cases hfalse

end SshConfig

/-- Two ways to the target have their first hop in common. -/
def sharedGate : SshConfig := SshConfig.parse
  "Host t\n ProxyJump a,b\nHost a\n ProxyJump g\nHost b\n ProxyJump g\n".toList

/-- How many hops are below a hop of it, for each of its hops. -/
def sharedGateHeights : List (Text × Nat) :=
  [("t".toList, 2), ("a".toList, 1), ("b".toList, 1), ("g".toList, 0)]

theorem sharedGate_descends : ∀ e ∈ sharedGateHeights,
    (HopSpec.parse e.1).toOption = some ⟨none, e.1, none⟩ ∧
      ∀ part ∈ sharedGate.specsOf e.1, ∃ e' ∈ sharedGateHeights, e'.1 = part ∧ e'.2 < e.2 := by
  decide +kernel

theorem sharedGate_next {e : Text × Nat} (he : e ∈ sharedGateHeights)
    (h : sharedGate.Next e.1 part) : ∃ e' ∈ sharedGateHeights, e'.1 = part ∧ e'.2 < e.2 := by
  obtain ⟨hop, hparse, hpart⟩ := h
  obtain ⟨hhop, hbelow⟩ := sharedGate_descends e he
  rw [hparse] at hhop
  cases Option.some.inj hhop
  exact hbelow part hpart

theorem sharedGate_reach {e : Text × Nat} (he : e ∈ sharedGateHeights)
    (h : Relation.ReflTransGen sharedGate.Next e.1 part) :
    ∃ e' ∈ sharedGateHeights, e'.1 = part ∧ e'.2 ≤ e.2 := by
  induction h with
  | refl => exact ⟨e, he, rfl, Nat.le_refl _⟩
  | tail _ hnext ih =>
    obtain ⟨e', he', rfl, hle⟩ := ih
    obtain ⟨e'', he'', heq, hlt⟩ := sharedGate_next he' hnext
    exact ⟨e'', he'', heq, Nat.le_of_lt (Nat.lt_of_lt_of_le hlt hle)⟩

theorem shared_gate_refused : ¬ sharedGate.RoutesWell ⟨true, []⟩ 22 "t".toList := by
  rintro ⟨hback, _⟩
  have hroute : sharedGate.resolveRoute ⟨true, []⟩ 22 "t".toList = .error (.cycle "g".toList) := by
    decide +kernel
  obtain ⟨spec, hop, spec', hop', hreach, hhop, hchain, hhop', hhost⟩ := hback _ hroute
  obtain ⟨e, he, rfl, _⟩ := sharedGate_reach (e := ("t".toList, 2)) List.mem_cons_self hreach
  obtain ⟨part, hnext, hrest⟩ := Relation.TransGen.head'_iff.1 hchain
  obtain ⟨e₁, he₁, rfl, hlt⟩ := sharedGate_next he hnext
  obtain ⟨e₂, he₂, rfl, hle⟩ := sharedGate_reach he₁ hrest
  have hparse := (sharedGate_descends e he).1
  have hparse₂ := (sharedGate_descends e₂ he₂).1
  rw [hhop] at hparse
  rw [hhop'] at hparse₂
  cases Option.some.inj hparse
  cases Option.some.inj hparse₂
  have hheight : ∀ a ∈ sharedGateHeights, ∀ b ∈ sharedGateHeights, a.1 = b.1 → a.2 = b.2 := by
    decide +kernel
  have heq := hheight e₂ he₂ e he hhost
  omega

end Tomo
