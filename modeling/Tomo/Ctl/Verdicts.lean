import Tomo.Ctl.Keeping
import Tomo.History.Fidelity

namespace Tomo
set_option autoImplicit true

namespace Desktop
variable [Platform] {d : Desktop} {m : DesktopMove} {moves : List DesktopMove} {id : Nat}
open Project

/-- Others leave the root where it is and add to the conflicts. -/
def Allows (d : Desktop) : DesktopMove → Prop
  | .outside tree history _ => tree.get d.project.root = some .dir ∧
      ∀ r ∈ d.project.history.conflicts, r ∈ history.conflicts
  | _ => True

def AllowsAll (d : Desktop) : List DesktopMove → Prop
  | [] => True
  | m :: moves => d.Allows m ∧ AllowsAll (d.step m) moves

/-- The conflict a move resolves, and how. -/
inductive Asks (d : Desktop) : DesktopMove → ConflictRow → ResolveKind → Prop where
  | resolve {f : Faults} {target : Selector} {r : ConflictRow} {kind : ResolveKind} :
      Selects d.project r target → Asks d (.command f (.resolve target kind)) r kind
  | resolveCtl {f : Faults} {r : ConflictRow} {kind : ResolveKind} :
      Asks d (.command f (.resolveCtl r.id kind)) r kind
  | keepAll {f : Faults} {r : ConflictRow} : Asks d (.command f .keepAll) r .keep
  | keep {f : Faults} {line : Text} {r : ConflictRow} {rest : List ConflictRow} :
      d.prompt = some ⟨some r, rest⟩ → parseChoice line = some .keep →
      Asks d (.answers f (some line)) r .keep
  | take {f : Faults} {line : Text} {r : ConflictRow} {rest : List ConflictRow} :
      d.prompt = some ⟨some r, rest⟩ → parseChoice line = some .take →
      Asks d (.answers f (some line)) r .take
  | both {f : Faults} {line : Text} {r : ConflictRow} {rest : List ConflictRow} :
      d.prompt = some ⟨some r, rest⟩ → parseChoice line = some .both →
      Asks d (.answers f (some line)) r .both

/-- A resolution has been carried out. -/
def Carried (s : Project) (r : ConflictRow) (s' : Project) : ResolveKind → Prop
  | .keep => s' = { s with resolved := s'.resolved }
  | .take => ∃ m c, IsLoser s r m ∧ Brings s m c ∧
      Puts s r.path c { s' with resolved := s.resolved }
  | .both => ∃ m x sidecar, IsLoser s r m ∧ Brings s m (some x) ∧ Free s sidecar ∧
      Puts s sidecar (some x) { s' with resolved := s.resolved }

/-- What stays, and how a conflict can have come to be acknowledged. -/
structure Leads (s : Project) (asks : ConflictRow → ResolveKind → Prop) (s' : Project) : Prop where
  root : s'.root = s.root
  history : s'.history = s.history
  dir : s.tree.get s.root = some .dir → s'.tree.get s'.root = some .dir
  resolved : ∀ id ∈ s'.resolved, id ∈ s.resolved ∨ ∃ r ∈ s.history.conflicts, ∃ kind,
    r.id = id ∧ asks r kind ∧ Carried s r s' kind

variable {s s' u : Project} {asks : ConflictRow → ResolveKind → Prop} {r : ConflictRow}
  {kind : ResolveKind} {res : Except CommandError Report}

theorem Leads.refl (s : Project) (asks : ConflictRow → ResolveKind → Prop) : Leads s asks s :=
  ⟨rfl, rfl, id, fun _ => .inl⟩

/-- A change of the tree alone. -/
theorem Leads.of_tree (hrest : s' = { s with tree := s'.tree })
    (hdir : s.tree.get s.root = some .dir → s'.tree.get s.root = some .dir) : Leads s asks s' := by
  have hroot : s'.root = s.root := by rw [hrest]
  refine ⟨hroot, by rw [hrest], ?_, ?_⟩
  · rw [hroot]
    exact hdir
  · intro id hid
    rw [hrest] at hid
    exact .inl hid

/-- An acknowledgement after a change of the tree. -/
theorem Leads.acknowledge (hrest : u = { s with tree := u.tree })
    (hdir : s.tree.get s.root = some .dir → u.tree.get s.root = some .dir)
    (hr : r ∈ s.history.conflicts) (hask : asks r kind)
    (hc : Carried s r (u.acknowledge r.id) kind) : Leads s asks (u.acknowledge r.id) := by
  have htree : Leads s asks u := .of_tree hrest hdir
  obtain ⟨hroot, hhistory, hd, -⟩ := htree
  refine ⟨hroot, hhistory, hd, ?_⟩
  intro id hid
  rcases mem_acknowledge.1 hid with rfl | hid
  · exact .inr ⟨r, hr, kind, rfl, hask, hc⟩
  · rw [hrest] at hid
    exact .inl hid

theorem leads_of_settles (h : Settles s r kind res s') (hr : r ∈ s.history.conflicts)
    (hask : asks r kind) : Leads s asks s' := by
  have hput {rel : RelPath} {c : Content} {u : Project} (hp : Puts s rel c u) :
      Puts s rel c { u.acknowledge r.id with resolved := s.resolved } := by
    have hu : ({ u.acknowledge r.id with resolved := s.resolved } : Project) = u := by
      rw [hp.rest]
      rfl
    rwa [hu]
  cases h with
  | failed h => exact .of_tree h.rest h.root
  | kept => exact .acknowledge rfl id hr hask rfl
  | wrote hl hb hp => exact .acknowledge hp.rest hp.root hr hask ⟨_, _, hl, hb, hput hp⟩
  | deleted hl hb hp => exact .acknowledge hp.rest hp.root hr hask ⟨_, _, hl, hb, hput hp⟩
  | keptBoth hl hb hf hp =>
    exact .acknowledge hp.rest hp.root hr hask ⟨_, _, _, hl, hb, hf, hput hp⟩
  | unmarked _ _ hp => exact .of_tree hp.rest hp.root
  | unmarkedBoth _ _ _ hp => exact .of_tree hp.rest hp.root

theorem leads_of_deed {f : Faults} {c : Command} (hs : d.project = s) (h : Deed s c res s') :
    Leads s (Asks d (.command f c)) s' := by
  cases h with
  | failed h => exact .of_tree h.rest h.root
  | printed => exact .refl s _
  | restored _ _ hp => exact .of_tree hp.rest hp.root
  | restoredCtl _ _ hp => exact .of_tree hp.rest hp.root
  | resolved hr _ hsel h =>
    apply leads_of_settles h hr
    apply Asks.resolve
    rw [hs]
    exact hsel
  | resolvedCtl hr hid h =>
    subst hid
    exact leads_of_settles h hr .resolveCtl
  | keptAll h =>
    refine ⟨by rw [h.rest], by rw [h.rest], ?_, ?_⟩
    · intro hdir
      rw [h.rest]
      exact hdir
    · intro id hid
      rcases h.among id hid with hold | ⟨r, hr, he⟩
      · exact .inl hold
      · exact .inr ⟨r, (mem_conflicts.1 hr).1, .keep, he, .keepAll, h.rest⟩
  | unresolved hr hid =>
    refine ⟨rfl, rfl, id, ?_⟩
    intro i hi
    exact .inl (List.mem_filter.1 hi).1

/-- What holds of a desktop at any time. -/
structure Inv (d : Desktop) : Prop where
  root : d.project.tree.get d.project.root = some .dir
  prompt : ∀ p ∈ d.prompt, ∀ r ∈ p.asked.toList ++ p.rest, r ∈ d.project.history.conflicts

omit [Platform] in
theorem carryOn_project (x : CommandM α) (next : α → Option Prompt) :
    (d.carryOn x next).project = (x.exec d.project).2 := by
  rw [carryOn]
  rcases x.exec d.project with ⟨res, s⟩
  cases res <;> rfl

omit [Platform] in
theorem carryOn_prompt {x : CommandM α} {next : α → Option Prompt} {p : Prompt}
    (h : p ∈ (d.carryOn x next).prompt) :
    ∃ a s, x.exec d.project = (.ok a, s) ∧ next a = some p := by
  rw [carryOn] at h
  rcases hx : x.exec d.project with ⟨res, s⟩
  rw [hx] at h
  cases res with
  | ok a => exact ⟨a, s, rfl, h⟩
  | error e => cases h

/-- Showing a conflict changes nothing. -/
theorem shows_project (f : Faults) (r : ConflictRow) (s : Project) :
    (Eff.exec (do
      let (winner, loser) ← heads f r
      computeDiff f winner loser) s).2 = s := by
  apply Eff.Leaves.bind (g := id) (heads_spec r s).1
  rintro ⟨winner, loser⟩ _ rfl
  dsimp only [computeDiff]
  have hread (n : Nat) (s : Project) : Eff.Leaves id (getContent f n) s := by
    rw [Eff.Leaves, getContent, exec_query]
  split
  · apply Eff.Leaves.bind (hread _ _)
    intro old u hu
    apply Eff.Leaves.bind (hread _ _)
    intro new v hv
    exact Eff.Leaves.pure _ _ _
  · exact Eff.Leaves.pure _ _ _

/-- How the project can be after a step: as it was, as a command leaves it, or as a verdict given at
the prompt leaves it. -/
inductive Turn (d : Desktop) : DesktopMove → Project → Prop where
  | idle {m : DesktopMove} : Turn d m d.project
  | command (f : Faults) (c : Command) : Turn d (.command f c) ((Project.run f c).exec d.project).2
  | verdict {m : DesktopMove} {f : Faults} {r : ConflictRow} {kind : ResolveKind} :
      r ∈ d.project.history.conflicts → Asks d m r kind →
      Turn d m ((applyKind f r kind).exec d.project).2
  | outside {tree : Tree} {history : HistoryStore} {wallMs : Nat} :
      Turn d (.outside tree history wallMs) { d.project with tree, history, wallMs }

/-- The conflicts a prompt is about. -/
def Prompts (prompt : Option Prompt) (r : ConflictRow) : Prop :=
  ∃ p ∈ prompt, r ∈ p.asked.toList ++ p.rest

theorem answer_turn {f : Faults} {rest : List ConflictRow} (hi : Inv d)
    (hp : d.prompt = some ⟨some r, rest⟩) (hask : Asks d m r kind) :
    Turn d m (d.carryOn (applyKind f r kind) fun _ => some ⟨none, rest⟩).project ∧
      ∀ r', Prompts (d.carryOn (applyKind f r kind) fun _ => some ⟨none, rest⟩).prompt r' →
        r' ∈ d.project.history.conflicts := by
  have hmem := hi.prompt _ hp
  constructor
  · rw [carryOn_project]
    exact .verdict (hmem r List.mem_cons_self) hask
  · rintro r' ⟨p, hp', hr'⟩
    obtain ⟨a, s, _, heq⟩ := carryOn_prompt hp'
    cases heq
    exact hmem r' (List.mem_cons_of_mem r hr')

theorem step_turn (hi : Inv d) (m : DesktopMove) :
    Turn d m (d.step m).project ∧
      ∀ r, Prompts (d.step m).prompt r → r ∈ d.project.history.conflicts := by
  have hstay : ∀ r, Prompts d.prompt r → r ∈ d.project.history.conflicts := by
    rintro r ⟨p, hp, hr⟩
    exact hi.prompt p hp r hr
  have hnone : ∀ r, Prompts none r → r ∈ d.project.history.conflicts := by
    rintro r ⟨p, hp, -⟩
    exact (Option.not_mem_none _ hp).elim
  cases m with
  | command f c => exact ⟨.command f c, hstay⟩
  | interactive f =>
    have hsame : (Eff.exec (do
        openStore f
        query f .conflicts fun s => .ok (s.conflicts true)) d.project).2 = d.project := by
      apply Eff.Leaves.bind (g := id)
      · rw [Eff.Leaves, openStore, exec_query]
      · intro _ s _
        rw [Eff.Leaves, exec_query]
    constructor
    · rw [step, carryOn_project, hsame]
      exact .idle
    · rintro r ⟨p, hp, hr⟩
      obtain ⟨records, s, hx, heq⟩ := carryOn_prompt hp
      cases heq
      obtain ⟨_, u, hopen, hquery⟩ := Eff.ok_of_bind hx
      have hu : u = d.project := by
        have h := congrArg Prod.snd hopen
        rw [openStore, exec_query] at h
        exact h.symm
      rw [exec_query, hu] at hquery
      have hrec := congrArg Prod.fst hquery
      dsimp only at hrec
      split at hrec
      · cases hrec
      · cases hrec
        have hrow : r ∈ d.project.conflicts true := hr
        exact (mem_conflicts.1 hrow).1
  | shows f =>
    rw [step]
    split
    next r rest hp =>
      constructor
      · rw [carryOn_project, shows_project]
        exact .idle
      · rintro r' ⟨p, hp', hr'⟩
        obtain ⟨a, s, _, heq⟩ := carryOn_prompt hp'
        cases heq
        exact hi.prompt _ hp r' hr'
    next => exact ⟨.idle, hnone⟩
    next => exact ⟨.idle, hstay⟩
    next => exact ⟨.idle, hstay⟩
  | answers f line =>
    rw [step]
    split
    next r rest hp =>
      split
      next => exact ⟨.idle, hnone⟩
      next line =>
        split
        next => exact ⟨.idle, hstay⟩
        next => exact ⟨.idle, hnone⟩
        next =>
          refine ⟨.idle, ?_⟩
          rintro r' ⟨p, hp', hr'⟩
          cases hp'
          exact hi.prompt _ hp r' (List.mem_cons_of_mem r hr')
        next hc => exact answer_turn hi hp (.keep hp hc)
        next hc => exact answer_turn hi hp (.take hp hc)
        next hc => exact answer_turn hi hp (.both hp hc)
    next => exact ⟨.idle, hstay⟩
    next => exact ⟨.idle, hstay⟩
  | outside tree history wallMs => exact ⟨.outside, hstay⟩

theorem Turn.leads (h : Turn d m s') (hi : Inv d)
    (hm : ∀ tree history wallMs, m ≠ .outside tree history wallMs) :
    Leads d.project (Asks d m) s' := by
  cases h with
  | idle => exact .refl _ _
  | command f c => exact leads_of_deed rfl (run_deed hi.root c)
  | verdict hr hask => exact leads_of_settles (applyKind_settles hi.root hr _) hr hask
  | outside => exact (hm _ _ _ rfl).elim

/-- A step keeps the invariant, and acknowledges only what it was asked to and has carried out. -/
theorem Inv.step (hi : Inv d) (ha : d.Allows m) :
    Inv (d.step m) ∧ ∀ id ∈ (d.step m).project.resolved, id ∈ d.project.resolved ∨
      ∃ r ∈ d.project.history.conflicts, ∃ kind, r.id = id ∧ Asks d m r kind ∧
        Carried d.project r (d.step m).project kind := by
  obtain ⟨hturn, hp⟩ := step_turn hi m
  by_cases hm : ∀ tree history wallMs, m ≠ .outside tree history wallMs
  · have hl := hturn.leads hi hm
    refine ⟨⟨hl.dir hi.root, ?_⟩, hl.resolved⟩
    intro p hp' r hr
    rw [hl.history]
    exact hp r ⟨p, hp', hr⟩
  · obtain ⟨tree, history, wallMs, rfl⟩ : ∃ tree history wallMs, m = .outside tree history wallMs := by
      by_contra hn
      exact hm fun tree history wallMs h => hn ⟨tree, history, wallMs, h⟩
    obtain ⟨hroot, hconf⟩ := ha
    refine ⟨⟨hroot, ?_⟩, fun id => .inl⟩
    intro p hp' r hr
    exact hconf r (hp r ⟨p, hp', hr⟩)

theorem run_cons (d : Desktop) (m : DesktopMove) (moves : List DesktopMove) :
    d.run (m :: moves) = (d.step m).run moves := rfl

/-- In every run of commands and prompts, with whatever fails in them and whatever others do in
between, a conflict comes to be acknowledged only by a move that asked for it and has carried out
its resolution by then. -/
theorem resolved_carried (hi : Inv d) (ha : d.AllowsAll moves)
    (hid : id ∈ (d.run moves).project.resolved) (hno : id ∉ d.project.resolved) :
    ∃ pre m post, moves = pre ++ m :: post ∧
      ∃ r ∈ (d.run pre).project.history.conflicts, ∃ kind, r.id = id ∧ Asks (d.run pre) m r kind ∧
        Carried (d.run pre).project r ((d.run pre).step m).project kind := by
  induction moves generalizing d with
  | nil => exact (hno hid).elim
  | cons m moves ih =>
    obtain ⟨hm, hrest⟩ := ha
    obtain ⟨hi', hstep⟩ := hi.step hm
    by_cases h : id ∈ (d.step m).project.resolved
    · obtain ⟨r, hr, kind, heq, hask, hc⟩ := (hstep id h).resolve_left hno
      exact ⟨[], m, moves, rfl, r, hr, kind, heq, hask, hc⟩
    · obtain ⟨pre, m', post, rfl, hlater⟩ := ih hi' hrest hid h
      exact ⟨m :: pre, m', post, rfl, hlater⟩

/-- Neither a restore nor a loser taken over the file it lost to. -/
def Mild (d : Desktop) (m : DesktopMove) : Prop :=
  (∀ r, ¬Asks d m r .take) ∧
    match m with
    | .command _ (.restore _ _ stdout) => stdout = true
    | .command _ (.restoreCtl ..) | .outside .. => False
    | _ => True

def MildAll (d : Desktop) : List DesktopMove → Prop
  | [] => True
  | m :: moves => d.Mild m ∧ MildAll (d.step m) moves

/-- Every file is still there, as it was. -/
def KeepsFiles (s s' : Project) : Prop :=
  ∀ q x, s.tree.fileAt q = some x → s'.tree.fileAt q = some x

omit [Platform] in
theorem KeepsFiles.same (h : SameFiles s s') : KeepsFiles s s' := by
  intro q x hx
  rw [h.files, hx]

omit [Platform] in
/-- What is written where no file stands replaces none. -/
theorem KeepsFiles.beside {rel : RelPath} {c : Content} (hfree : Free s rel)
    (h : Puts s rel c s') : KeepsFiles s s' := by
  intro q x hx
  rw [h.others, hx]
  rintro rfl
  rw [hfree] at hx
  cases hx

theorem keeps_of_settles (h : Settles s r kind res s') (hk : kind ≠ .take) : KeepsFiles s s' := by
  cases h with
  | failed h => exact .same h
  | kept => exact fun _ _ h => h
  | wrote => exact (hk rfl).elim
  | deleted => exact (hk rfl).elim
  | keptBoth _ _ hf hp =>
    have hb := KeepsFiles.beside hf hp
    exact hb
  | unmarked => exact (hk rfl).elim
  | unmarkedBoth _ _ hf hp => exact .beside hf hp

theorem keeps_of_deed {f : Faults} {c : Command} (hm : d.Mild (.command f c))
    (hs : d.project = s) (h : Deed s c res s') : KeepsFiles s s' := by
  cases h with
  | failed h => exact .same h
  | printed => exact fun _ _ h => h
  | restored => cases hm.2
  | restoredCtl => exact hm.2.elim
  | @resolved target kind r _ _ _ _ hsel h =>
    apply keeps_of_settles h
    rintro rfl
    apply hm.1 r
    apply Asks.resolve
    rw [hs]
    exact hsel
  | resolvedCtl _ hid h =>
    apply keeps_of_settles h
    rintro rfl
    subst hid
    exact hm.1 _ .resolveCtl
  | keptAll h =>
    intro q x hx
    rw [h.rest]
    exact hx
  | unresolved => exact fun _ _ h => h

theorem Mild.keeps (hm : d.Mild m) (hi : Inv d) : KeepsFiles d.project (d.step m).project := by
  obtain ⟨hturn, -⟩ := step_turn hi m
  revert hturn
  generalize (d.step m).project = s'
  intro hturn
  cases hturn with
  | idle => exact fun _ _ h => h
  | command f c => exact keeps_of_deed hm rfl (run_deed hi.root c)
  | verdict hr hask =>
    apply keeps_of_settles (applyKind_settles hi.root hr _)
    rintro rfl
    exact hm.1 _ hask
  | outside => exact hm.2.elim

/-- Without restores and taken losers no run of commands and prompts changes or removes a file,
whatever fails in it. -/
theorem files_kept (hi : Inv d) (hm : d.MildAll moves) :
    KeepsFiles d.project (d.run moves).project := by
  induction moves generalizing d with
  | nil => exact fun _ _ h => h
  | cons m moves ih =>
    obtain ⟨hmild, hrest⟩ := hm
    have hallows : d.Allows m := by
      cases m with
      | outside => exact hmild.2.elim
      | _ => trivial
    intro q x hx
    exact ih (hi.step hallows).1 hrest q x (hmild.keeps hi q x hx)

def calm : Faults := ⟨fun _ => none, 0, fun _ => false, fun _ => false⟩

/-- Two contents of `a`, of which the second one won. -/
def disputed : Desktop :=
  letI := tabulated shortHashes
  let later := { HistoryStore.twoRecord with clock := VectorClock.new.tick ⟨2⟩ }
  let versions := (HistoryStore.performAll [.single HistoryStore.oneRecord, .single later] .new).2
  { project := {
      root := rootDir
      tree := ((FileTree.empty : Tree).put rootDir .dir).put (join rootDir later.path)
        (.file [0x32] 0o644 7)
      history := (versions.recordConflict later.path 2 1 8).1
      resolved := []
      wallMs := 9 }
    prompt := none }

omit [Platform] in
theorem disputed_inv : Inv disputed where
  root := by decide +kernel
  prompt _ h := (Option.not_mem_none _ h).elim

omit [Platform] in
theorem disputed_deed :
    letI := tabulated shortHashes
    Eff.wp (Project.run calm (.resolveCtl 1 .both)) (Deed disputed.project (.resolveCtl 1 .both))
      disputed.project := by
  let platform := tabulated shortHashes
  exact run_deed disputed_inv.root (.resolveCtl 1 .both)

omit [Platform] in
theorem disputed_carried :
    letI := tabulated shortHashes
    ∃ pre m post, [.command calm (.resolveCtl 1 .both)] = pre ++ m :: post ∧
      ∃ r ∈ (disputed.run pre).project.history.conflicts, ∃ kind, r.id = 1 ∧
        Asks (disputed.run pre) m r kind ∧
        Carried (disputed.run pre).project r ((disputed.run pre).step m).project kind := by
  let platform := tabulated shortHashes
  exact resolved_carried disputed_inv ⟨trivial, trivial⟩ (by decide +kernel) (by decide +kernel)

omit [Platform] in
theorem disputed_kept :
    letI := tabulated shortHashes
    KeepsFiles disputed.project (disputed.run [.command calm (.resolveCtl 1 .both)]).project := by
  let platform := tabulated shortHashes
  refine files_kept disputed_inv ⟨⟨?_, trivial⟩, trivial⟩
  intro r h
  generalize hm : DesktopMove.command calm (.resolveCtl 1 .both) = m at h
  cases h <;> simp at hm

end Desktop

end Tomo
