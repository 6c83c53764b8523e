import Tomo.Transport.SshConfig

namespace Tomo
set_option autoImplicit true

namespace SshConfig

/-- The flag that `resolveRaw` carries, after these lines. -/
def blockActive (host : Text) (lines : List Line) : Bool :=
  (lines.foldl (step host) (true, .empty)).1

def Line.isBlock : Line → Bool
  | .host _ | .match => true
  | .keyword _ _ => false

/-- Whether the block that a line begins is the host's. -/
def Line.opens (host : Text) : Line → Bool
  | .host patterns => hostMatches patterns host
  | .match => false
  | .keyword _ _ => true

/-- The last `Host` or `Match` line. -/
def nearest (lines : List Line) : Option Line := lines.reverse.find? Line.isBlock

/-- Whether the last `Host` or `Match` line is the host's; without one every host is in. -/
def heads (host : Text) (lines : List Line) : Bool :=
  match nearest lines with
  | some line => line.opens host
  | none => true

theorem nearest_append (a b : List Line) : nearest (a ++ b) = (nearest b).or (nearest a) := by
  simp only [nearest, List.reverse_append, List.find?_append]

theorem nearest_line (lines : List Line) (line : Line) :
    nearest (lines ++ [line]) = if line.isBlock then some line else nearest lines := by
  rw [nearest_append]
  cases line <;> rfl

theorem step_active (host : Text) (active : Bool) (raw : RawHostConfig) (line : Line) :
    (step host (active, raw) line).1 = if line.isBlock then line.opens host else active := by
  cases line <;> rfl

theorem blockActive_line (host : Text) (lines : List Line) (line : Line) :
    blockActive host (lines ++ [line]) =
      if line.isBlock then line.opens host else blockActive host lines := by
  simp only [blockActive, List.foldl_append, List.foldl_cons, List.foldl_nil]
  exact step_active host _ _ line

theorem blockActive_eq (host : Text) (lines : List Line) :
    blockActive host lines = heads host lines := by
  induction lines using List.reverseRecOn with
  | nil => rfl
  | append_singleton lines line ih =>
    rw [blockActive_line, ih]
    simp only [heads, nearest_line]
    split <;> rfl

/-- A file that is being read: the text above its beginning, its own lines so far, and the lines
that its includes brought in since its last `Host` or `Match` line. -/
structure OpenFile where
  entry : List Line
  own : List Line
  brought : List Line
deriving DecidableEq

/-- The whole text above a line, the file the line is in, and the files that include it. -/
structure Place where
  above : List Line
  file : OpenFile
  callers : List OpenFile
deriving DecidableEq

namespace Place

def start : Place := ⟨[], ⟨[], [], []⟩, []⟩

def next (p : Place) : Mark → Place
  | .line line =>
    let brought := if line.isBlock then [] else p.file.brought
    ⟨p.above ++ [line], ⟨p.file.entry, p.file.own ++ [line], brought⟩, p.callers⟩
  | .enter => ⟨p.above, ⟨p.above, [], []⟩, p.file :: p.callers⟩
  | .leave =>
    match p.callers with
    | [] => p
    | caller :: callers =>
      let text := p.above.drop p.file.entry.length
      ⟨p.above, { caller with brought := caller.brought ++ text }, callers⟩

end Place

/-- A directive with its place. -/
structure Directive where
  place : Place
  name : Text
  args : Text
deriving DecidableEq

def directivesFrom (p : Place) : List Mark → List Directive
  | [] => []
  | .line (.keyword name args) :: ms =>
    ⟨p, name, args⟩ :: directivesFrom (p.next (.line (.keyword name args))) ms
  | m :: ms => directivesFrom (p.next m) ms

def directives (marks : List Mark) : List Directive := directivesFrom .start marks

namespace Directive

def applied (host : Text) (d : Directive) : Bool := blockActive host d.place.above

/-- What an `Include` owes to its surroundings, at one directive: it is applied as if the `Include`
lines of its file were absent, and only where they lead to it through active blocks. -/
def Contained (host : Text) (d : Directive) : Prop :=
  d.applied host = blockActive host (d.place.file.entry ++ d.place.file.own) ∧
    (d.applied host = true → blockActive host d.place.file.own = true ∧
      ∀ caller ∈ d.place.callers, blockActive host caller.own = true)

/-- No line that was brought in stands nearest above with another answer than the file's own, and
a block of the host's is not reached through a block that is not. -/
def Sound (host : Text) (d : Directive) : Prop :=
  (∀ line, nearest d.place.file.brought = some line →
    line.opens host = heads host (d.place.file.entry ++ d.place.file.own)) ∧
  ∀ caller ∈ d.place.callers, heads host caller.own = false →
    heads host (d.place.file.entry ++ d.place.file.own) = false

instance (host : Text) (d : Directive) : Decidable (d.Contained host) :=
  inferInstanceAs (Decidable (_ ∧ _))

end Directive

/-- Each file's nearest block line is one that was brought in, or its own. -/
inductive Traced : List Line → List OpenFile → Prop where
  | nil (above : List Line) : Traced above []
  | cons (hentry : f.entry <+: above)
      (hnear : nearest above = (nearest f.brought).or (nearest (f.entry ++ f.own)))
      (hrest : Traced f.entry fs) : Traced above (f :: fs)

theorem Traced.next {p : Place} (h : Traced p.above (p.file :: p.callers)) (m : Mark) :
    Traced (p.next m).above ((p.next m).file :: (p.next m).callers) := by
  cases h with
  | cons hentry hnear hrest =>
    cases m with
    | line line =>
      refine .cons (hentry.trans (List.prefix_append _ _)) ?_ hrest
      simp only [Place.next, ← List.append_assoc, nearest_line]
      cases hblock : line.isBlock
      · simpa only [Bool.false_eq_true, ↓reduceIte] using hnear
      · rfl
    | enter =>
      refine .cons (List.prefix_refl _) ?_ (.cons hentry hnear hrest)
      rw [Place.next, List.append_nil]
      rfl
    | leave =>
      cases hc : p.callers with
      | nil =>
        rw [hc] at hrest
        simp only [Place.next, hc]
        exact .cons hentry hnear hrest
      | cons caller callers =>
        rw [hc] at hrest
        simp only [Place.next, hc]
        cases hrest with
        | cons hentry' hnear' hrest' =>
          refine .cons (hentry'.trans hentry) ?_ hrest'
          obtain ⟨text, htext⟩ := hentry
          rw [← htext, List.drop_left, nearest_append, nearest_append, hnear']
          cases nearest text <;> rfl

theorem mem_directives_traced {p : Place} (h : Traced p.above (p.file :: p.callers))
    (hd : d ∈ directivesFrom p ms) : Traced d.place.above (d.place.file :: d.place.callers) := by
  induction ms generalizing p with
  | nil => cases hd
  | cons m ms ih =>
    have hnext := h.next m
    unfold directivesFrom at hd
    split at hd
    · rename_i heq
      cases heq
    · rename_i heq
      obtain ⟨rfl, rfl⟩ := List.cons.inj heq
      rcases List.mem_cons.mp hd with rfl | hd
      · exact h
      · exact ih hnext hd
    · rename_i heq
      obtain ⟨rfl, rfl⟩ := List.cons.inj heq
      exact ih hnext hd

theorem heads_own {entry own : List Line} (h : heads host (entry ++ own) = true) :
    heads host own = true := by
  simp only [heads, nearest_append] at h ⊢
  cases hown : nearest own with
  | none => rfl
  | some line => simpa only [hown, Option.some_or] using h

theorem Traced.heads_above {above : List Line} {f : OpenFile} (h : Traced above (f :: fs))
    (host : Text) :
    heads host above = match nearest f.brought with
      | some line => line.opens host
      | none => heads host (f.entry ++ f.own) := by
  cases h with
  | cons _ hnear _ =>
    simp only [heads, hnear]
    cases nearest f.brought <;> rfl

theorem Directive.contained_iff {d : Directive}
    (h : Traced d.place.above (d.place.file :: d.place.callers)) :
    d.Contained host ↔ d.Sound host := by
  have habove := h.heads_above host
  simp only [Contained, Sound, applied, blockActive_eq]
  constructor
  · intro ⟨hsame, hlead⟩
    constructor
    · intro line hline
      simp only [hline] at habove
      rw [← habove, hsame]
    · intro caller hcaller hoff
      by_contra hon
      rw [Bool.not_eq_false, ← hsame] at hon
      rw [(hlead hon).2 caller hcaller] at hoff
      cases hoff
  · intro ⟨hbrought, hlead⟩
    have hsame : heads host d.place.above =
        heads host (d.place.file.entry ++ d.place.file.own) := by
      cases hn : nearest d.place.file.brought with
      | none => simpa only [hn] using habove
      | some line =>
        simp only [hn] at habove
        exact habove.trans (hbrought line hn)
    refine ⟨hsame, fun hon => ⟨heads_own (hsame ▸ hon), fun caller hcaller => ?_⟩⟩
    by_contra hoff
    rw [Bool.not_eq_true] at hoff
    rw [hsame, hlead caller hcaller hoff] at hon
    cases hon

theorem directivesFrom_cons (p : Place) (m : Mark) (ms : List Mark) :
    directivesFrom p (m :: ms) = directivesFrom p [m] ++ directivesFrom (p.next m) ms := by
  cases m with
  | line line => cases line <;> rfl
  | enter => rfl
  | leave => rfl

theorem directivesFrom_append (p : Place) (ms ms' : List Mark) :
    directivesFrom p (ms ++ ms') =
      directivesFrom p ms ++ directivesFrom (ms.foldl Place.next p) ms' := by
  induction ms generalizing p with
  | nil => rfl
  | cons m ms ih =>
    rw [List.cons_append, directivesFrom_cons, ih, directivesFrom_cons p m ms, List.append_assoc]
    rfl

/-- What has been given to the host is what the applied directives say. -/
theorem resolve_directives (host : Text) (p : Place) (raw : RawHostConfig) (ms : List Mark) :
    ((ms.filterMap Mark.line?).foldl (step host) (blockActive host p.above, raw)).2 =
      ((directivesFrom p ms).filter (Directive.applied host)).foldl
        (fun raw d => raw.apply d.name d.args) raw := by
  induction ms generalizing p raw with
  | nil => rfl
  | cons m ms ih =>
    have hnext (line : Line) : (step host (blockActive host p.above, raw) line).1 =
        blockActive host (p.next (.line line)).above := by
      rw [step_active]
      exact (blockActive_line host p.above line).symm
    rw [directivesFrom_cons, List.filter_append, List.foldl_append, ← ih]
    cases m with
    | line line =>
      rw [← hnext line]
      cases line with
      | host patterns => rfl
      | «match» => rfl
      | keyword name args =>
        cases hactive : blockActive host p.above <;>
          simp [directivesFrom, Mark.line?, step, Directive.applied, hactive]
    | enter => rfl
    | leave =>
      have habove : (p.next .leave).above = p.above := by
        cases hc : p.callers <;> simp only [Place.next, hc]
      rw [habove]
      rfl

/-- The marks of a file, or of part of one, whose own lines are these: they leave the place in its
file, with these lines added to the file's own. -/
structure Spliced (host : Text) (ms : List Mark) (ls : List Line) : Prop where
  callers : ∀ p, (ms.foldl Place.next p).callers = p.callers
  own : ∀ p, (ms.foldl Place.next p).file.own = p.file.own ++ ls
  inside : ∀ p, ∀ d ∈ directivesFrom p ms, p.callers.length ≤ d.place.callers.length
  gives : ∀ p raw, ((directivesFrom p ms).filter fun d =>
      d.place.callers.length = p.callers.length ∧ blockActive host d.place.file.own).foldl
        (fun raw d => raw.apply d.name d.args) raw =
    (ls.foldl (step host) (blockActive host p.file.own, raw)).2

namespace Spliced

theorem nil : Spliced host [] [] where
  callers _ := rfl
  own _ := (List.append_nil _).symm
  inside _ _ hd := by cases hd
  gives _ _ := rfl

theorem foldl_step_fst (host : Text) (own ls : List Line) (raw : RawHostConfig) :
    (ls.foldl (step host) (blockActive host own, raw)).1 = blockActive host (own ++ ls) := by
  induction ls generalizing own raw with
  | nil => rw [List.append_nil, List.foldl_nil]
  | cons line ls ih =>
    rw [List.foldl_cons, List.append_cons]
    have hstep : step host (blockActive host own, raw) line =
        (blockActive host (own ++ [line]), (step host (blockActive host own, raw) line).2) := by
      rw [blockActive_line, ← step_active host _ raw]
    rw [hstep, ih]

theorem append (h : Spliced host ms ls) (h' : Spliced host ms' ls') :
    Spliced host (ms ++ ms') (ls ++ ls') where
  callers p := by rw [List.foldl_append, h'.callers, h.callers]
  own p := by rw [List.foldl_append, h'.own, h.own, List.append_assoc]
  inside p d hd := by
    rw [directivesFrom_append] at hd
    rcases List.mem_append.mp hd with hd | hd
    · exact h.inside p d hd
    · rw [← h.callers p]
      exact h'.inside _ d hd
  gives p raw := by
    rw [directivesFrom_append, List.filter_append, List.foldl_append, h.gives]
    have hlast := h'.gives (ms.foldl Place.next p) (ls.foldl (step host)
      (blockActive host p.file.own, raw)).2
    rw [h.callers, h.own, ← foldl_step_fst host p.file.own ls raw] at hlast
    rw [hlast, List.foldl_append]

theorem line (l : Line) : Spliced host [.line l] [l] where
  callers _ := rfl
  own _ := rfl
  inside p d hd := by
    cases l with
    | host patterns => cases hd
    | «match» => cases hd
    | keyword name args =>
      obtain rfl := List.mem_singleton.mp hd
      exact Nat.le_refl _
  gives p raw := by
    cases l with
    | host patterns => rfl
    | «match» => rfl
    | keyword name args =>
      cases hactive : blockActive host p.file.own <;>
        simp [directivesFrom, step, hactive]

/-- An included file adds nothing of its own to the file that includes it. -/
theorem group (h : Spliced host ms ls) : Spliced host (.enter :: (ms ++ [.leave])) [] where
  callers p := by
    rw [List.foldl_cons, List.foldl_append, List.foldl_cons, List.foldl_nil]
    simp only [Place.next, h.callers]
  own p := by
    rw [List.foldl_cons, List.foldl_append, List.foldl_cons, List.foldl_nil]
    simp only [Place.next, h.callers, List.append_nil]
  inside p d hd := by
    rw [directivesFrom_cons, directivesFrom_append] at hd
    simp only [directivesFrom, List.append_nil, List.nil_append] at hd
    exact Nat.le_of_succ_le (h.inside _ d hd)
  gives p raw := by
    rw [directivesFrom_cons, directivesFrom_append]
    simp only [directivesFrom, List.append_nil, List.nil_append, List.foldl_nil]
    rw [List.filter_eq_nil_iff.mpr, List.foldl_nil]
    intro d hd
    have hdeep : p.callers.length + 1 ≤ d.place.callers.length := h.inside _ d hd
    simp only [decide_eq_true_eq, not_and]
    omega

end Spliced

theorem foldl_spliced {α : Type} (host : Text) (f : LoadState → α → LoadState) (lines : α → List Line)
    (xs : List α) (hf : ∀ s x, ∃ ms, (f s x).out = s.out ++ ms ∧ Spliced host ms (lines x)) (s : LoadState) :
    ∃ ms, (xs.foldl f s).out = s.out ++ ms ∧ Spliced host ms (xs.flatMap lines) := by
  induction xs generalizing s with
  | nil => exact ⟨[], (List.append_nil _).symm, .nil⟩
  | cons x xs ih =>
    obtain ⟨ms, hout, hms⟩ := hf s x
    obtain ⟨ms', hout', hms'⟩ := ih (f s x)
    refine ⟨ms ++ ms', ?_, hms.append hms'⟩
    rw [List.foldl_cons, hout', hout, List.append_assoc]

theorem loadLine_spliced {loadIncluded : FilePath → LoadState → LoadState}
    (hload : ∀ path s, ∃ ms ls, (loadIncluded path s).out = s.out ++ ms ∧ Spliced host ms ls)
    (files : ConfigFiles) (home : FilePath) (s : LoadState) (raw : Text) :
    ∃ ms, (loadLine files home loadIncluded s raw).out = s.out ++ ms ∧
      Spliced host ms (parseLine raw).toList := by
  simp only [loadLine, parseLine]
  split
  · exact ⟨[], (List.append_nil _).symm, .nil⟩
  next kw arg _ =>
    split
    · exact ⟨_, rfl, .line _⟩
    · split
      · exact ⟨_, rfl, .line _⟩
      · split
        · have hnone : (expandIncludes files arg home).flatMap (fun _ => ([] : List Line)) = [] :=
            List.flatMap_eq_nil_iff.mpr fun _ _ => rfl
          rw [Option.toList_none, ← hnone]
          apply foldl_spliced
          intro s inc
          obtain ⟨ms, ls, hout, hms⟩ := hload inc (s.push .enter)
          refine ⟨_, ?_, hms.group⟩
          rw [LoadState.push, hout]
          simp only [LoadState.push, List.append_assoc, List.cons_append, List.nil_append]
        · exact ⟨_, rfl, .line _⟩

theorem flatMap_toList {α β : Type} (f : α → Option β) (xs : List α) :
    xs.flatMap (fun x => (f x).toList) = xs.filterMap f := by
  induction xs with
  | nil => rfl
  | cons x xs ih => cases hx : f x <;> simp [hx, ih]

theorem loadInto_spliced (host : Text) (files : ConfigFiles) (home : FilePath) (left : Nat)
    (path : FilePath) (s : LoadState) :
    ∃ ms ls, (loadInto files home left path s).out = s.out ++ ms ∧ Spliced host ms ls ∧
      (0 < left → s.visited = [] → ∀ content, files.readToString path = some content →
        ls = (parse content).lines) := by
  induction left generalizing path s with
  | zero => exact ⟨[], [], (List.append_nil _).symm, .nil, fun h => absurd h (Nat.lt_irrefl 0)⟩
  | succ left ih =>
    simp only [loadInto]
    split
    next hseen =>
      refine ⟨[], [], (List.append_nil _).symm, .nil, fun _ hfresh => ?_⟩
      rw [hfresh] at hseen
      cases hseen
    · cases hread : files.readToString path with
      | none => exact ⟨[], [], (List.append_nil _).symm, .nil, fun _ _ _ h => by cases h⟩
      | some content =>
        obtain ⟨ms, hout, hms⟩ := foldl_spliced host _ _ (Text.lines content)
          (loadLine_spliced (fun path s => (ih path s).imp fun ms h => h.imp fun ls h => ⟨h.1, h.2.1⟩)
            files home) { s with visited := ((files.canonicalize path).getD path) :: s.visited }
        refine ⟨ms, _, hout, hms, fun _ _ content' h => ?_⟩
        cases h
        exact flatMap_toList _ _

/-- What `load` gives a host is what the applied directives say, and those of the top file alone
say what `parse` gives it. No `Include` changes the context of another directive exactly where
every directive is sound. -/
theorem include_contained_iff (files : ConfigFiles) (path home : FilePath) (host : Text) :
    (load files path home).resolveRaw host =
      ((directives (loadMarks files path home)).filter (Directive.applied host)).foldl
        (fun raw d => raw.apply d.name d.args) .empty ∧
    (∀ content, files.readToString path = some content →
      (parse content).resolveRaw host =
        ((directives (loadMarks files path home)).filter fun d =>
          d.place.callers.length = 0 ∧ blockActive host d.place.file.own).foldl
            (fun raw d => raw.apply d.name d.args) .empty) ∧
    ((∀ d ∈ directives (loadMarks files path home), d.Contained host) ↔
      ∀ d ∈ directives (loadMarks files path home), d.Sound host) := by
  refine ⟨resolve_directives host .start .empty _, ?_, ?_⟩
  · intro content hread
    obtain ⟨ms, ls, hout, hms, hls⟩ := loadInto_spliced host files home (maxDepth + 1)
      path ⟨[], []⟩
    rw [List.nil_append] at hout
    rw [resolveRaw, ← hls (Nat.succ_pos _) rfl content hread, loadMarks, hout]
    exact (hms.gives .start .empty).symm
  · have hstart : Traced Place.start.above (Place.start.file :: Place.start.callers) :=
      .cons (List.prefix_refl _) rfl (.nil _)
    exact forall₂_congr fun d hd => Directive.contained_iff (mem_directives_traced hstart hd)

def homeDir : FilePath := .of "/home/u".toList

def configPath : FilePath := .of "/home/u/.ssh/config".toList

/-- The config includes a file that ends in another host's block. -/
def leakingFiles : ConfigFiles where
  readToString path :=
    if path = configPath then some "Include work\nUser me\nHost web\nInclude jump\n".toList
    else if path = .of "/home/u/.ssh/work".toList then some "Host db\nPort 2222\n".toList
    else if path = .of "/home/u/.ssh/jump".toList then some "Host db\nProxyJump web\n".toList
    else none
  canonicalize path := some path
  readDir _ := none

/-- The directive after the first `Include` is lost to one host, and another gets the directive of
a file whose `Include` stands in a block that is not its own. -/
theorem leaking_not_contained :
    ((load leakingFiles configPath homeDir).resolveRaw "web".toList).user = none ∧
      ((load leakingFiles configPath homeDir).resolveRaw "db".toList).proxyJump =
        some "web".toList ∧
      ¬ (∀ d ∈ directives (loadMarks leakingFiles configPath homeDir),
        d.Contained "web".toList) ∧
      ¬ ∀ d ∈ directives (loadMarks leakingFiles configPath homeDir),
        d.Contained "db".toList := by
  decide +kernel

end SshConfig

end Tomo
