import Tomo.Session.Escape

namespace Tomo
set_option autoImplicit true

namespace Session
open Eff

/-- An invariant of the records of a session that every permitted row keeps. -/
structure Filer [Platform] (ok : RelPath → EntryState → VectorClock → Prop)
    (I : Session → Prop) : Prop where
  indifferent : ∀ {s s' : Session}, I s → s'.history = s.history → s'.pressure = s.pressure → I s'
  store : ∀ {p state version}, ok p state version → ∀ l bytes s,
    Upholds I (storeVersion p state version l bytes) s

/-- An invariant of the records of a session that every permitted record keeps. -/
structure Recorder [Platform] (ok : RelPath → EntryState → VectorClock → Prop)
    (I : Session → Prop) : Prop extends Filer ok I where
  stage : ∀ {p state version}, ok p state version → ∀ l hint nowMs {s : Session}, I s →
    I { s with pressure := (s.pressure.note p ⟨state, version, l, hint⟩ nowMs).1 }
  conflict : ∀ {p state version}, ok p state version → ∀ winner loser {s : Session}, I s →
    I { s with history := (s.history.recordConflict p winner loser s.wallMs).1 }

section
variable [Platform] {ok : RelPath → EntryState → VectorClock → Prop} {I : Session → Prop}
  {s : Session} {p : RelPath}

omit [Platform] in
theorem liftHistory_upholds (r : Except HistoryError α) (s : Session) :
    Upholds I (liftHistory r) s := by
  cases r with
  | ok a => exact .pure a s
  | error e => exact .throw _ s

theorem Filer.recordVersion (hr : Filer ok I) (hp : ok p state version) (l : Bool)
    (s : Session) : Upholds I (recordVersion p state version l) s := by
  apply Upholds.get
  split
  · split
    · exact (hr.store hp ..).map
    · exact .pure _ s
  · exact (hr.store hp ..).map

theorem Recorder.noteVersion (hr : Recorder ok I) (hp : ok p state version) (l : Bool)
    (nowMs : Nat) (s : Session) : Upholds I (noteVersion p state version l nowMs) s := by
  refine .get <| Upholds.bind (.set fun h => hr.stage hp _ _ _ h) fun _ s' => ?_
  split
  · exact hr.recordVersion hp l s'
  · exact .pure _ s'
  · exact .pure _ s'

theorem Filer.findOrRecord (hr : Filer ok I) (hp : ok p state version)
    (captured : Captured) (l : Bool) (s : Session) :
    Upholds I (findOrRecord p state version captured l) s := by
  apply Upholds.get
  split
  · exact .pure _ s
  · split
    · exact (hr.store hp ..).map
    · exact (hr.store hp ..).map
    · exact .pure _ s

theorem Recorder.recordConflictCapture (hr : Recorder ok I) {c : ConflictCapture}
    (hl : ok c.path c.loser c.loserVersion) (hw : ok c.path c.winner c.winnerVersion)
    (s : Session) : Upholds I (recordConflictCapture c) s := by
  refine (hr.findOrRecord hl ..).bind fun loserId s' => ?_
  refine (hr.findOrRecord hw ..).bind fun winnerId s' => ?_
  split
  · exact .get <| Upholds.bind (.set fun h => hr.conflict hl _ _ h) fun _ s' => .pure _ s'
  · exact .pure _ s'

theorem Filer.recordPresentIfAbsent (hr : Filer ok I) (hp : ok p (.present sig) clock)
    (bytes : Bytes) (l : Bool) (s : Session) :
    Upholds I (recordPresentIfAbsent p sig clock bytes l) s :=
  .get <| .ite (.pure _ s) (hr.store hp ..).map

theorem incomingBytes_upholds (sig : ContentSig) (bytes : Option Bytes) (s : Session) :
    Upholds I (incomingBytes sig bytes) s := by
  apply Upholds.get
  split
  · exact .pure _ s
  · exact liftHistory_upholds _ s

theorem Filer.preserveIncomingFile (hr : Filer ok I)
    (hp : ∀ clock, s.headClockFor p sig = some clock → ok p (.present sig) clock)
    (bytes : Option Bytes) : Upholds I (preserveIncomingFile p sig bytes) s := by
  refine .get <| (incomingBytes_upholds ..).bind fun _ s' => ?_
  split
  next hc => exact hr.recordPresentIfAbsent (hp _ hc) ..
  next => exact .pure _ s'

theorem Filer.preserveAndClearObstructingFile (hr : Filer ok I) {a : List Name}
    (ha : ∀ rel, s.relUnderRoot a = some rel → ∀ state version, ok rel state version) :
    Upholds I (preserveAndClearObstructingFile a) s := by
  apply Upholds.get
  split
  · exact .pure _ s
  next rel hrel =>
    split
    · exact .pure _ s
    · exact .pure _ s
    · split
      · exact .pure _ s
      · split
        · exact .pure _ s
        · refine (hr.recordPresentIfAbsent (ha rel hrel _ _) ..).bind fun _ s' => ?_
          split
          · exact Upholds.bind (.modify fun h => hr.indifferent h rfl rfl) fun _ s' => .pure _ s'
          · exact .throw _ s'

omit [Platform] in
/-- The path of a file that stands above another path is the path of one of its directories. -/
theorem relUnderRoot_above (hc : typeCollision s.tree s.root p.components = some (.parentIsFile a))
    (hrel : s.relUnderRoot a = some rel) : rel.components <+: p.components.dropLast := by
  rw [typeCollision] at hc
  split at hc
  · cases hc
  · rw [Option.map_eq_some_iff] at hc
    obtain ⟨_, hf, he⟩ := hc
    cases he
    obtain ⟨r, rest, hr, rfl, _⟩ := fileParent_blocks hf
    have hpre : r <+: p.components.dropLast := ⟨rest, hr.symm⟩
    rw [List.nil_append, relUnderRoot, if_pos (List.prefix_append _ _), List.drop_left] at hrel
    split at hrel
    next rel' hn =>
      cases hrel
      rw [RelPath.new_eq_ok] at hn
      have hplain (c : Name) (hc : c ∈ r) : '/' ∉ c :=
        RelPath.mem_splitOn (List.mem_of_mem_dropLast (hpre.subset hc))
      rwa [rel.components_of_raw hn hplain]
    next => cases hrel

theorem Filer.flushInstalls (hr : Filer ok I) (s : Session) :
    Upholds I flushInstalls s := by
  apply Upholds.get
  split
  · exact Upholds.bind (.set fun h => hr.indifferent h rfl rfl) fun _ s' => .throw _ s'
  · exact .set fun h => hr.indifferent h rfl rfl

theorem Filer.flushPendingInstallFor (hr : Filer ok I) (q : RelPath) (s : Session) :
    Upholds I (flushPendingInstallFor q) s :=
  .get <| .ite (hr.flushInstalls s) (.pure _ s)

theorem Filer.applyAbsentGuarded (hr : Filer ok I) (q : RelPath) (s : Session) :
    Upholds I (applyAbsentGuarded q) s := by
  refine (hr.flushPendingInstallFor q s).bind fun _ s' => ?_
  refine Upholds.bind (.modify fun h => hr.indifferent h rfl rfl) fun _ s' => .get ?_
  refine .ite (.set fun h => hr.indifferent h rfl rfl) ?_
  split
  · exact .set fun h => hr.indifferent h rfl rfl
  · exact .modify fun h => hr.indifferent h rfl rfl
  · exact .throw _ s'

theorem Filer.writePresent (hr : Filer ok I) (q : RelPath) (sig : ContentSig)
    (bytes : Bytes) (s : Session) : Upholds I (writePresent q sig bytes) s := by
  refine (hr.flushPendingInstallFor q s).bind fun _ s' => .get ?_
  refine Upholds.bind (.set fun h => hr.indifferent h rfl rfl) fun _ s' => ?_
  split
  · exact .modify fun h => hr.indifferent h rfl rfl
  · exact .modify fun h => hr.indifferent h rfl rfl
  · exact .modify fun h => hr.indifferent h rfl rfl
  · exact .throw _ s'

theorem Filer.preparePresentTarget (hr : Filer ok I)
    (hp : ∀ clock, s.headClockFor p sig = some clock → ok p (.present sig) clock)
    (ha : ∀ rel : RelPath, rel.components <+: p.components.dropLast →
      ∀ state version, ok rel state version) (bytes : Option Bytes) :
    Upholds I (preparePresentTarget p sig bytes) s := by
  apply Upholds.get
  split
  · exact .pure _ s
  · refine (hr.preserveIncomingFile hp bytes).bind fun _ s' => ?_
    exact Upholds.bind (.modify fun h => hr.indifferent h rfl rfl) fun _ s' => .pure _ s'
  next a hc =>
    refine (hr.preserveAndClearObstructingFile fun rel hrel => ?_).bind fun _ s' => ?_
    · exact ha rel (relUnderRoot_above hc hrel)
    · exact Upholds.bind (.modify fun h => hr.indifferent h rfl rfl) fun _ s' => .pure _ s'

theorem Filer.materialize (hr : Filer ok I) (q : RelPath) (sig : ContentSig)
    (bytes : Option Bytes) (s : Session) : Upholds I (materialize q sig bytes) s := by
  refine .get <| (liftHistory_upholds ..).bind fun cas s' => ?_
  split
  · exact hr.writePresent ..
  · split
    · exact .modify fun h => hr.indifferent h rfl rfl
    · exact .throw _ s'
  · exact hr.writePresent ..
  · exact .modify fun h => hr.indifferent h rfl rfl

/-- An apply records what it finds in its way, and nothing else. -/
theorem Filer.doApply (hr : Filer ok I)
    (hp : ∀ sig clock, s.headClockFor p sig = some clock → ok p (.present sig) clock)
    (ha : ∀ rel : RelPath, rel.components <+: p.components.dropLast →
      ∀ state version, ok rel state version) (target : Expectation) (bytes : Option Bytes) :
    Upholds I (doApply p target bytes) s := by
  cases target with
  | absent => exact hr.applyAbsentGuarded p s
  | present sig =>
    refine (hr.preparePresentTarget (hp sig) ha bytes).bind fun ready s' => ?_
    cases ready with
    | true => exact hr.materialize p sig bytes s'
    | false => exact .pure _ s'

end

end Session

end Tomo
