import Tomo.Lib.Replacing

namespace Tomo
set_option autoImplicit true

def modeOf (exec : Bool) : Nat := if exec then 0o755 else 0o644

def setMode (temp : String) : Option Nat → Prog String → Prog String
  | some mode, ok => .call (.chmod temp mode) ok
  | none, ok => ok

def removeFile (temp : String) : Prog String := .op (.remove temp) (.done false) (.done false)

def writeAndRename (temp final : String) (bytes : List UInt8) (mode : Option Nat) : Prog String :=
  .call (.create temp)
    (.call (.write temp bytes)
      (setMode temp mode (.call (.sync temp) (.call (.rename temp final) (.done true)))))

def writeStaged (temp final : String) (bytes : List UInt8) (mode : Option Nat) : Prog String :=
  (writeAndRename temp final bytes mode).bind fun ok =>
    if ok then .done true else removeFile temp

def atomicWrite (temp final : String) (bytes : List UInt8) : Prog String :=
  writeStaged temp final bytes none

def atomicWriteMode (temp final : String) (bytes : List UInt8) (exec : Bool) : Prog String :=
  writeStaged temp final bytes (some (modeOf exec))

def writeStagedNoSync (temp : String) (bytes : List UInt8) (mode : Option Nat) : Prog String :=
  .call (.create temp) (.call (.write temp bytes) (setMode temp mode (.done true)))

def stageWriteMode (temp : String) (bytes : List UInt8) (exec : Bool) : Prog String :=
  (writeStagedNoSync temp bytes (some (modeOf exec))).bind fun ok =>
    if ok then .done true else removeFile temp

def fsyncFiles : List (String × String) → Prog String → Prog String
  | [], ok => ok
  | (temp, _) :: installs, ok => .call (.sync temp) (fsyncFiles installs ok)

def renameInto : List (String × String) → Prog String
  | [] => .op .barrier (.done true) (.done true)
  | (temp, final) :: installs => .call (.rename temp final) (renameInto installs)

def installBatch (installs : List (String × String)) : Prog String :=
  if installs.isEmpty then .done true
  else .op .barrier (renameInto installs) (fsyncFiles installs (renameInto installs))

/-- A file to be staged: its temporary name, its path, its bytes and whether it is executable. -/
structure StagedWrite where
  temp : String
  final : String
  bytes : List UInt8
  exec : Bool

/-- Files staged one after another; a failure stops the staging, and what is staged is installed all
the same. -/
def stageAndFlush : List StagedWrite → List (String × String) → Prog String
  | [], staged => installBatch staged
  | a :: rest, staged => (stageWriteMode a.temp a.bytes a.exec).bind fun ok =>
    if ok then stageAndFlush rest (staged ++ [(a.temp, a.final)])
    else (installBatch staged).bind fun _ => .done false

def eqIgnoreAsciiCase (a b : String) : Bool :=
  a.toList.map Char.toLower == b.toList.map Char.toLower

def streamToFile (temp : String) : List (List UInt8) → Bool → Prog String
  | [], ended => .done ended
  | piece :: pieces, ended => .call (.write temp piece) (streamToFile temp pieces ended)

def downloadVerifySwap (sha256 : List UInt8 → String) (expected exe temp : String)
    (pieces : List (List UInt8)) (ended : Bool) : Prog String :=
  .call (.create temp)
    ((streamToFile temp pieces ended).bind fun ok =>
      if ok && eqIgnoreAsciiCase (sha256 pieces.flatten) expected then
        .call (.chmod temp 0o755) (.call (.sync temp) (.call (.rename temp exe) (.done true)))
      else .done false)

def replaceSelf (sha256 : List UInt8 → String) (expected exe temp : String)
    (pieces : List (List UInt8)) (ended : Bool) : Prog String :=
  (downloadVerifySwap sha256 expected exe temp pieces ended).bind fun ok =>
    if ok then .done true else removeFile temp

/-- What the program replaces files by: one durable write, a flushed batch, or an update. -/
inductive Replacement where
  | write (temp final : String) (bytes : List UInt8) (mode : Option Nat)
  | flush (files : List StagedWrite)
  | update (expected exe temp : String) (pieces : List (List UInt8)) (ended : Bool)

namespace Replacement

def temps : Replacement → List String
  | .write temp .. | .update _ _ temp .. => [temp]
  | .flush files => files.map StagedWrite.temp

def targets : Replacement → List String
  | .write _ final .. => [final]
  | .flush files => files.map StagedWrite.final
  | .update _ exe .. => [exe]

def prog (sha256 : List UInt8 → String) : Replacement → Prog String
  | .write temp final bytes mode => writeStaged temp final bytes mode
  | .flush files => stageAndFlush files []
  | .update expected exe temp pieces ended => replaceSelf sha256 expected exe temp pieces ended

/-- What it may put at a path, whole. -/
def Puts (sha256 : List UInt8 → String) : Replacement → String → Stored → Prop
  | .write _ final bytes mode, p, c => p = final ∧ c = ⟨bytes, mode⟩
  | .flush files, p, c => ∃ a ∈ files, p = a.final ∧ c = ⟨a.bytes, some (modeOf a.exec)⟩
  | .update expected exe .., p, c =>
    p = exe ∧ eqIgnoreAsciiCase (sha256 c.bytes) expected = true ∧ c.mode = some 0o755

def task (sha256 : List UInt8 → String) (r : Replacement) : Task String := ⟨r.temps, r.prog sha256⟩

end Replacement

/-- What may be found at a path that is replaced: what was there at the start, or what one of the
replacements puts there. -/
def replacing (sha256 : List UInt8 → String) (made : Replacement → Prop) (v : Volume String) :
    Rules String where
  isPublic p := ∃ r, made r ∧ p ∈ r.targets
  fits p o := o = (v.names p).map v.files ∨ ∃ r c, made r ∧ r.Puts sha256 p c ∧ o = some c
  lossy := True

section
variable {R : Rules String} {K : String → Option Own} {t : String}

theorem removeFile_meets (hK : (K t).isSome) :
    Meets R K (removeFile t) fun r K' => r = false ∧ ∀ n, n ≠ t → K' n = K n :=
  ⟨hK, ⟨rfl, fun _ hn => Function.update_of_ne hn _ _⟩, ⟨rfl, fun _ _ => rfl⟩⟩

theorem setMode_meets {bytes : List UInt8} {s : Prop} {mode : Option Nat} {ok : Prog String}
    {Q : Bool → (String → Option Own) → Prop} (hK : K t = some (.holds ⟨bytes, none⟩ s))
    (hf : Q false K) (hok : ∀ K' s', K' t = some (.holds ⟨bytes, mode⟩ s') →
      (∀ n, n ≠ t → K' n = K n) → Meets R K' ok Q) : Meets R K (setMode t mode ok) Q := by
  cases mode with
  | none => exact hok K s hK fun _ _ => rfl
  | some m =>
    refine ⟨⟨_, s, hK⟩, ?_, hf⟩
    apply hok _ False
    · exact onSuccess_chmod m hK
    · intro n hn
      exact Function.update_of_ne hn _ _

/-- A fresh file is written, up to the point where its mode is set. -/
theorem create_meets {bytes : List UInt8} {mode : Option Nat} {ok : Prog String}
    {Q : Bool → (String → Option Own) → Prop} (hK : K t = some .blank)
    (hf : ∀ K', (K' t).isSome → (∀ n, n ≠ t → K' n = K n) → Q false K')
    (hok : ∀ K' s, K' t = some (.holds ⟨bytes, mode⟩ s) → (∀ n, n ≠ t → K' n = K n) →
      Meets R K' ok Q) :
    Meets R K (.call (.create t) (.call (.write t bytes) (setMode t mode ok))) Q := by
  have hC : onSuccess K (.create t) t = some (.holds ⟨[], none⟩ False) := Function.update_self _ _ _
  have hCn (n : String) (hn : n ≠ t) : onSuccess K (.create t) n = K n :=
    Function.update_of_ne hn _ _
  have hW : onSuccess (onSuccess K (.create t)) (.write t bytes) t =
      some (.holds ⟨bytes, none⟩ False) :=
    onSuccess_write bytes hC
  have hWn (n : String) (hn : n ≠ t) :
      onSuccess (onSuccess K (.create t)) (.write t bytes) n = K n :=
    (Function.update_of_ne hn _ _).trans (hCn n hn)
  refine ⟨hK, ⟨⟨_, _, hC⟩, ?_, ?_⟩, ?_⟩
  · apply setMode_meets hW
    · apply hf
      · rw [hW]
        rfl
      · exact hWn
    · intro K' s hs hn
      apply hok K' s hs
      intro n hnt
      rw [hn n hnt, hWn n hnt]
  · apply hf
    · rw [onFailure, Function.update_self]
      rfl
    · intro n hn
      exact (Function.update_of_ne hn _ _).trans (hCn n hn)
  · apply hf
    · change (K t).isSome
      rw [hK]
      rfl
    · exact fun _ _ => rfl

theorem writeAndRename_meets {p : String} {bytes : List UInt8} {mode : Option Nat}
    (hK : K t = some .blank) (hp : R.isPublic p) (hf : R.fits p (some ⟨bytes, mode⟩)) :
    Meets R K (writeAndRename t p bytes mode) fun r K' => r = false → (K' t).isSome := by
  apply create_meets hK
  · exact fun _ h _ _ => h
  · intro K' s hs _
    have hS : onSuccess K' (.sync t) t = some (.holds ⟨bytes, mode⟩ True) :=
      onSuccess_sync hs
    refine ⟨⟨_, s, hs⟩, ⟨⟨_, True, hS, fun _ => trivial, hp, hf⟩, ?_, ?_⟩, ?_⟩
    · intro h
      cases h
    · intro _
      change (onSuccess K' (.sync t) t).isSome
      rw [hS]
      rfl
    · intro _
      change (K' t).isSome
      rw [hs]
      rfl

theorem cleanup_meets {p : Prog String} (h : Meets R K p fun r K' => r = false → (K' t).isSome) :
    Careful R K (p.bind fun ok => if ok then .done true else removeFile t) := by
  apply h.bind
  intro r K' hr
  cases r with
  | true => trivial
  | false => exact (removeFile_meets (hr rfl)).careful

theorem stageWriteMode_meets {bytes : List UInt8} {exec : Bool} (hK : K t = some .blank) :
    Meets R K (stageWriteMode t bytes exec) fun r K' => (∀ n, n ≠ t → K' n = K n) ∧
      (r = true → ∃ s, K' t = some (.holds ⟨bytes, some (modeOf exec)⟩ s)) := by
  have h : Meets R K (writeStagedNoSync t bytes (some (modeOf exec))) fun r K' =>
      (∀ n, n ≠ t → K' n = K n) ∧ (K' t).isSome ∧
      (r = true → ∃ s, K' t = some (.holds ⟨bytes, some (modeOf exec)⟩ s)) := by
    apply create_meets hK
    · intro K' ht hn
      refine ⟨hn, ht, fun h => ?_⟩
      cases h
    · intro K' s hs hn
      exact ⟨hn, by rw [hs]; rfl, fun _ => ⟨s, hs⟩⟩
  apply h.bind
  intro r K' hr
  obtain ⟨hn, ht, hs⟩ := hr
  cases r with
  | true => exact ⟨hn, hs⟩
  | false =>
    apply (removeFile_meets ht).mono
    intro r K'' hr
    obtain ⟨rfl, hn'⟩ := hr
    refine ⟨fun n hnt => (hn' n hnt).trans (hn n hnt), fun h => ?_⟩
    cases h

/-- A staged file that may go to its path. -/
def Ready (R : Rules String) (K : String → Option Own) (x : String × String) (req : Prop) : Prop :=
  ∃ c s, K x.1 = some (.holds c s) ∧ (req → s) ∧ R.isPublic x.2 ∧ R.fits x.2 (some c)

theorem renameInto_meets {installs : List (String × String)} (hn : (installs.map Prod.fst).Nodup)
    (h : ∀ x ∈ installs, Ready R K x True) : Careful R K (renameInto installs) := by
  induction installs generalizing K with
  | nil => exact ⟨trivial, trivial, trivial⟩
  | cons x installs ih =>
    obtain ⟨hx, hn⟩ := List.nodup_cons.1 hn
    obtain ⟨c, s, hK, hs, hp, hf⟩ := h x List.mem_cons_self
    refine ⟨⟨c, s, hK, fun _ => hs trivial, hp, hf⟩, ?_, trivial⟩
    apply ih hn
    intro y hy
    obtain ⟨c', s', hK', hs'⟩ := h y (List.mem_cons_of_mem _ hy)
    have hne : y.1 ≠ x.1 := by
      intro heq
      apply hx
      rw [← heq]
      exact List.mem_map_of_mem hy
    exact ⟨c', s', (Function.update_of_ne hne _ _).trans hK', hs'⟩

theorem fsyncFiles_meets {all installs : List (String × String)}
    (hn : (all.map Prod.fst).Nodup) (hsub : ∀ x ∈ installs, x ∈ all)
    (h : ∀ x ∈ all, Ready R K x (x ∉ installs)) :
    Careful R K (fsyncFiles installs (renameInto all)) := by
  induction installs generalizing K with
  | nil =>
    apply renameInto_meets hn
    intro x hx
    obtain ⟨c, s, hK, hs, hrest⟩ := h x hx
    exact ⟨c, s, hK, fun _ => hs List.not_mem_nil, hrest⟩
  | cons x installs ih =>
    obtain ⟨c, s, hK, -⟩ := h x (hsub x List.mem_cons_self)
    refine ⟨⟨c, s, hK⟩, ?_, trivial⟩
    apply ih fun y hy => hsub y (List.mem_cons_of_mem _ hy)
    intro y hy
    obtain ⟨c', s', hK', hs', hrest⟩ := h y hy
    by_cases hxy : y.1 = x.1
    · refine ⟨c', True, ?_, fun _ => trivial, hrest⟩
      rw [onSuccess, hxy, Function.update_self, ← hxy, hK']
      rfl
    · refine ⟨c', s', (Function.update_of_ne hxy _ _).trans hK', fun hny => hs' ?_, hrest⟩
      intro hmem
      rcases List.mem_cons.1 hmem with rfl | hmem
      · exact hxy rfl
      · exact hny hmem

theorem installBatch_meets {installs : List (String × String)} (hn : (installs.map Prod.fst).Nodup)
    (h : ∀ x ∈ installs, Ready R K x False) : Careful R K (installBatch installs) := by
  unfold installBatch
  split
  next => trivial
  next =>
    refine ⟨trivial, ?_, ?_⟩
    · apply renameInto_meets hn
      intro x hx
      obtain ⟨c, s, hK, -, hrest⟩ := h x hx
      exact ⟨c, True, onSuccess_barrier hK, fun _ => trivial, hrest⟩
    · apply fsyncFiles_meets hn (fun _ hx => hx)
      intro x hx
      obtain ⟨c, s, hK, -, hrest⟩ := h x hx
      exact ⟨c, s, hK, fun hnx => absurd hx hnx, hrest⟩

theorem stageAndFlush_meets {files : List StagedWrite} {staged : List (String × String)}
    (hn : (staged.map Prod.fst ++ files.map StagedWrite.temp).Nodup)
    (hstaged : ∀ x ∈ staged, Ready R K x False)
    (hfiles : ∀ a ∈ files, K a.temp = some .blank ∧ R.isPublic a.final ∧
      R.fits a.final (some ⟨a.bytes, some (modeOf a.exec)⟩)) :
    Careful R K (stageAndFlush files staged) := by
  induction files generalizing K staged with
  | nil =>
    rw [List.map_nil, List.append_nil] at hn
    exact installBatch_meets hn hstaged
  | cons a rest ih =>
    obtain ⟨hK, hp, hf⟩ := hfiles a List.mem_cons_self
    apply (stageWriteMode_meets hK).bind
    intro r K' hr
    obtain ⟨hframe, hs⟩ := hr
    rw [List.map_cons, List.nodup_append] at hn
    obtain ⟨hnstaged, hnrest, hdisj⟩ := hn
    obtain ⟨ha, hnrest⟩ := List.nodup_cons.1 hnrest
    have hkeep (x : String × String) (hx : x ∈ staged) : Ready R K' x False := by
      obtain ⟨c, s, hKx, hrest⟩ := hstaged x hx
      have hne : x.1 ≠ a.temp := hdisj _ (List.mem_map_of_mem hx) _ List.mem_cons_self
      exact ⟨c, s, (hframe _ hne).trans hKx, hrest⟩
    cases r with
    | false =>
      apply (installBatch_meets hnstaged hkeep).bind
      exact fun _ _ _ => trivial
    | true =>
      obtain ⟨s, hs⟩ := hs rfl
      apply ih
      · rw [List.map_append, List.append_assoc, List.nodup_append]
        exact ⟨hnstaged, List.nodup_cons.2 ⟨ha, hnrest⟩, hdisj⟩
      · intro x hx
        rcases List.mem_append.1 hx with hx | hx
        · exact hkeep x hx
        · rw [List.mem_singleton.1 hx]
          exact ⟨_, s, hs, False.elim, hp, hf⟩
      · intro b hb
        obtain ⟨hKb, hrest⟩ := hfiles b (List.mem_cons_of_mem _ hb)
        have hne : b.temp ≠ a.temp := by
          intro heq
          apply ha
          rw [← heq]
          exact List.mem_map_of_mem hb
        exact ⟨(hframe _ hne).trans hKb, hrest⟩

theorem streamToFile_meets {pieces : List (List UInt8)} {ended : Bool} {c : Stored} {s : Prop}
    (hK : K t = some (.holds c s)) :
    Meets R K (streamToFile t pieces ended) fun r K' => (K' t).isSome ∧
      (r = true → ∃ s, K' t = some (.holds ⟨c.bytes ++ pieces.flatten, c.mode⟩ s)) := by
  induction pieces generalizing K c s with
  | nil =>
    refine ⟨by rw [hK]; rfl, fun _ => ⟨s, ?_⟩⟩
    rw [hK, List.flatten_nil, List.append_nil]
  | cons piece pieces ih =>
    have hW := onSuccess_write piece hK
    refine ⟨⟨c, s, hK⟩, ?_, ?_, ?_⟩
    · apply (ih hW).mono
      intro r K' hr
      rwa [List.append_assoc] at hr
    · rw [onFailure, Function.update_self]
      rfl
    · intro h
      cases h

theorem downloadVerifySwap_meets {sha256 : List UInt8 → String} {expected exe : String}
    {pieces : List (List UInt8)} {ended : Bool} (hK : K t = some .blank) (hp : R.isPublic exe)
    (hf : ∀ c : Stored, eqIgnoreAsciiCase (sha256 c.bytes) expected = true →
      c.mode = some 0o755 → R.fits exe (some c)) :
    Meets R K (downloadVerifySwap sha256 expected exe t pieces ended) fun r K' =>
      r = false → (K' t).isSome := by
  have hC : onSuccess K (.create t) t = some (.holds ⟨[], none⟩ False) := Function.update_self _ _ _
  refine ⟨hK, ?_, fun _ => by change (K t).isSome; rw [hK]; rfl⟩
  apply (streamToFile_meets hC).bind
  intro r K' hr
  obtain ⟨hsome, hheld⟩ := hr
  split
  next hcheck =>
    rw [Bool.and_eq_true] at hcheck
    obtain ⟨hr, hhash⟩ := hcheck
    obtain ⟨s, hs⟩ := hheld hr
    rw [List.nil_append] at hs
    have hM := onSuccess_chmod 0o755 hs
    have hS := onSuccess_sync hM
    refine ⟨⟨_, s, hs⟩, ⟨⟨_, _, hM⟩, ⟨⟨_, True, hS, fun _ => trivial, hp, hf _ hhash rfl⟩, ?_, ?_⟩,
      ?_⟩, fun _ => hsome⟩
    · intro h
      cases h
    · intro _
      change (onSuccess _ (.sync t) t).isSome
      rw [hS]
      rfl
    · intro _
      change (onSuccess K' (.chmod t 0o755) t).isSome
      rw [hM]
      rfl
  next => exact fun _ => hsome

end

/-- Every binding and every file has reached the disk. -/
structure Volume.AtRest {N : Type} (v : Volume N) : Prop where
  bound : ∀ n j, v.names n = some j → j < v.next
  past : ∀ n, v.past n = [v.names n]
  settled : ∀ j, v.settled j = true

section
variable {sha256 : List UInt8 → String} {made : Replacement → Prop} {v : Volume String}

theorem Replacement.careful {r : Replacement} (hr : made r) (hn : r.temps.Nodup) :
    Careful (replacing sha256 made v) (r.task sha256).initial (r.task sha256).prog := by
  have hK (t : String) (ht : t ∈ r.temps) : (r.task sha256).initial t = some .blank := if_pos ht
  have hp (p : String) (h : p ∈ r.targets) : (replacing sha256 made v).isPublic p := ⟨r, hr, h⟩
  have hf (p : String) (c : Stored) (h : r.Puts sha256 p c) :
      (replacing sha256 made v).fits p (some c) := .inr ⟨r, c, hr, h, rfl⟩
  cases r with
  | write temp final bytes mode =>
    apply cleanup_meets
    exact writeAndRename_meets (hK temp List.mem_cons_self) (hp final List.mem_cons_self)
      (hf final _ ⟨rfl, rfl⟩)
  | flush files =>
    have hn' :
        (([] : List (String × String)).map Prod.fst ++ files.map StagedWrite.temp).Nodup := hn
    apply stageAndFlush_meets hn'
    · intro x hx
      cases hx
    · intro a ha
      exact ⟨hK _ (List.mem_map_of_mem ha), hp _ (List.mem_map_of_mem ha), hf _ _ ⟨a, ha, rfl, rfl⟩⟩
  | update expected exe temp pieces ended =>
    apply cleanup_meets
    apply downloadVerifySwap_meets (hK temp List.mem_cons_self) (hp exe List.mem_cons_self)
    exact fun c hc hm => hf exe c ⟨rfl, hc, hm⟩

theorem Volume.AtRest.sound (h : v.AtRest) : v.Sound (replacing sha256 made v) where
  bound n j hj := by
    rw [h.past, List.mem_singleton] at hj
    exact h.bound n j hj.symm
  current n := by
    rw [h.past]
    exact List.mem_singleton_self _
  fits p _ o ho := by
    rw [h.past, List.mem_singleton] at ho
    rw [ho]
    exact .inl rfl
  settled _ _ _ j _ := h.settled j

/-- However the replacements are interleaved, fail, are killed or lose power, a path that is
replaced shows what it showed at the start, or the whole of what one of them puts there. -/
theorem replaced_whole {m : Machine String} (hv : v.AtRest)
    (hm : Relation.ReflTransGen
      (Machine.Step (replacing sha256 made v)
        fun T => ∃ r, made r ∧ r.temps.Nodup ∧ T = r.task sha256)
      ⟨v, fun _ => .none⟩ m)
    {p : String} (hp : ∃ r, made r ∧ p ∈ r.targets) :
    (m.volume.names p).map m.volume.files = (v.names p).map v.files ∨
      ∃ r c, made r ∧ r.Puts sha256 p c ∧ (m.volume.names p).map m.volume.files = some c := by
  have hstart : (⟨v, fun _ => .none⟩ : Machine String).Runs (replacing sha256 made v) _ :=
    hv.sound.runs
  obtain ⟨K, hK⟩ := hstart.run (by
    intro T hT
    obtain ⟨r, hr, hn, rfl⟩ := hT
    exact r.careful hr hn) hm
  exact hK.sound.fits p hp _ (hK.sound.current p)

/-- A volume with nothing on it. -/
def Volume.empty : Volume String :=
  ⟨fun _ => none, fun _ => [none], fun _ => ⟨[], none⟩, fun _ => true, 0⟩

def oneWrite : Replacement := .write "staging/a.tmp" "index.bin" [1, 2] none

/-- Power is lost while a first file is being written. -/
def interrupted : Machine String :=
  ⟨(Volume.empty.fresh "staging/a.tmp").recover (fun _ => 0) fun _ => ⟨[7], none⟩, fun _ => .none⟩

theorem interrupted_whole :
    (interrupted.volume.names "index.bin").map interrupted.volume.files = none ∨
      ∃ r c, r = oneWrite ∧ r.Puts (fun _ => "") "index.bin" c ∧
        (interrupted.volume.names "index.bin").map interrupted.volume.files = some c := by
  have hrun := Relation.ReflTransGen.refl
    (r := Machine.Step (replacing (fun _ => "") (· = oneWrite) Volume.empty) fun T =>
      ∃ r, r = oneWrite ∧ r.temps.Nodup ∧ T = r.task fun _ => "")
    (a := ⟨Volume.empty, fun _ => .none⟩)
  have hrun := hrun.tail (.started (i := 0) ⟨_, rfl, List.pairwise_singleton _ _, rfl⟩ (by
    intro t ht
    obtain rfl := List.mem_singleton.1 ht
    refine ⟨rfl, ?_, fun _ => List.not_mem_nil⟩
    intro hp
    obtain ⟨r, rfl, hp⟩ := hp
    exact absurd (List.mem_singleton.1 hp) (by decide)))
  have hrun := hrun.tail (.called (i := 0) rfl rfl)
  have hrun := hrun.tail (.lost (fun _ => 0) (fun _ => ⟨[7], none⟩) trivial)
  have hrest : Volume.empty.AtRest :=
    ⟨fun _ _ h => absurd h (Option.some_ne_none _).symm, fun _ => rfl, fun _ => rfl⟩
  exact replaced_whole hrest hrun ⟨_, rfl, List.mem_singleton_self _⟩

end

end Tomo
