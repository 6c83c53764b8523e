import Tomo.Lib.Ownership
import Tomo.Transport.Bootstrap

namespace Tomo
set_option autoImplicit true

variable {sha256 : List UInt8 → Fin 32 → UInt8} {tools : HashTool → Bool} {d d' : BinDir}

theorem serve_bind {p : RemoteProg α} {f : α → RemoteProg β} {a : α}
    (h : serve sha256 tools d p = (.ok a, d')) :
    serve sha256 tools d (p >>= f) = serve sha256 tools d' (f a) := by
  change serve sha256 tools d (p.bind f) = _
  induction p generalizing d with
  | done res =>
    cases h
    rfl
  | readDir k ih => exact ih _ h
  | attempt c k ih => exact ih _ h
  | chmod n k ih =>
    rw [serve] at h
    rw [RemoteProg.bind, serve]
    split
    next f hf =>
      rw [hf] at h
      exact ih _ h
    next hf =>
      rw [hf] at h
      exact ih _ h
  | hash tool n k ih =>
    rw [serve] at h
    rw [RemoteProg.bind, serve]
    split
    next f hf ht =>
      rw [hf, ht] at h
      exact ih _ h
    next hnone =>
      apply ih
      rw [← h]
      split
      next f hf ht => exact (hnone f hf ht).elim
      next => rfl
  | read n k ih => exact ih _ h

theorem perform_effect (d : BinDir) (c : SftpCall) :
    Effect d c (perform d c).1 (perform d c).2 := by
  cases c with
  | start => exact .started
  | mkdir => exact .made
  | mkdirBin => exact .madeBin
  | create n => exact .created
  | write n bytes =>
    rw [perform]
    cases hf : d[n]? with
    | some f => exact .wrote hf
    | none => exact .unlinked hf
  | close n => exact .closed
  | remove n => exact .removed
  | rename old new =>
    rw [perform]
    cases hf : d[old]? with
    | some f => exact .renamed hf
    | none => exact .refused

theorem serve_call {c : SftpCall} {op path : Text} (h : (perform d c).1 = true) :
    serve sha256 tools d (RemoteProg.call c op path) = (.ok (), (perform d c).2) := by
  rw [RemoteProg.call, serve, h]
  rfl

theorem serve_bestEffort {c : SftpCall} :
    serve sha256 tools d (RemoteProg.bestEffort c) = (.ok (), (perform d c).2) := rfl

variable (sha256 tools d) in
theorem serve_writeFile (dir n : Text) (bytes : List UInt8) :
    ∃ d', serve sha256 tools d (writeFile dir n bytes) = (.ok (), d') ∧
      ∀ m, d'[m]? = if n = m then some ⟨bytes, 0o755⟩ else d[m]? := by
  have hwrite : perform (d.insert n ⟨[], 0o755⟩) (.write n bytes) =
      (true, (d.insert n ⟨[], 0o755⟩).insert n ⟨bytes, 0o755⟩) := by
    rw [perform, getElem?_stored, if_pos rfl]
    rfl
  refine ⟨(d.insert n ⟨[], 0o755⟩).insert n ⟨bytes, 0o755⟩, ?_, ?_⟩
  · rw [writeFile, serve_bind (serve_call rfl)]
    change serve sha256 tools (d.insert n ⟨[], 0o755⟩) _ = _
    rw [serve_bind (serve_call (by rw [hwrite])), hwrite, serve_call rfl]
    rfl
  · intro m
    rw [getElem?_stored, getElem?_stored]
    split <;> rfl

theorem hexDigits_plain : ∀ d < 16, isHexDigit (Nat.digitChar d) = true ∧
    isWhitespace (Nat.digitChar d) = false ∧ (Nat.digitChar d).toLower = Nat.digitChar d := by
  decide

theorem mem_hexSha256 {bytes : List UInt8} {c : Char} (h : c ∈ hexSha256 sha256 bytes) :
    ∃ d < 16, c = Nat.digitChar d := by
  obtain ⟨b, -, hc⟩ := List.mem_flatMap.1 h
  have hb := b.toNat_lt
  obtain rfl | hc := List.mem_cons.1 hc
  · exact ⟨b.toNat / 16, by omega, rfl⟩
  · exact ⟨b.toNat % 16, Nat.mod_lt _ (by decide), List.mem_singleton.1 hc⟩

theorem length_hexSha256 (bytes : List UInt8) : (hexSha256 sha256 bytes).length = 64 := by
  rw [hexSha256, List.length_flatMap]
  simp

/-- A hash that a tool prints is read back. -/
theorem parseHash_hashLine (bytes : List UInt8) (n : Text) :
    parseHash (some (0, hashLine (hexSha256 sha256 bytes) n)) =
      some (hexSha256 sha256 bytes) := by
  have hplain (c : Char) (hc : c ∈ hexSha256 sha256 bytes) : isHexDigit c = true ∧
      isWhitespace c = false ∧ c.toLower = c := by
    obtain ⟨d, hd, rfl⟩ := mem_hexSha256 hc
    exact hexDigits_plain d hd
  have hwords : ∃ rest, Text.splitWhitespace (hashLine (hexSha256 sha256 bytes) n) =
      hexSha256 sha256 bytes :: rest := by
    rw [Text.splitWhitespace, hashLine, List.append_assoc, List.append_assoc]
    change ∃ rest, List.filter _ (List.splitOnP isWhitespace
      (hexSha256 sha256 bytes ++ ' ' :: (' ' :: (n ++ ['\n'])))) = _
    rw [List.splitOnP_append_cons_of_forall_mem (fun c hc => (hplain c hc).2.1) _ (by decide),
      List.filter_cons, if_pos (decide_eq_true (hexSha256_ne_nil bytes))]
    exact ⟨_, rfl⟩
  obtain ⟨rest, hrest⟩ := hwords
  have hlower : Text.toAsciiLowercase (hexSha256 sha256 bytes) = hexSha256 sha256 bytes := by
    rw [Text.toAsciiLowercase, List.map_congr_left fun c hc => (hplain c hc).2.2]
    exact List.map_id' _
  rw [parseHash, if_pos rfl, hrest, firstHash,
    if_pos ⟨length_hexSha256 bytes, List.all_eq_true.2 fun c hc => (hplain c hc).1⟩, hlower]

/-- A bootstrap makes one request. -/
def Requests (sha256 : List UInt8 → Fin 32 → UInt8) (_ : ι) (p : RemoteProg BootstrapReport)
    (d : BinDir) (p' : RemoteProg BootstrapReport) (d' : BinDir) : Prop := Serves sha256 d p d' p'

/-- One bootstrap is served to its end. -/
def served (sha256 : List UInt8 → Fin 32 → UInt8) (tools : HashTool → Bool) [DecidableEq ι] (i : ι)
    (x : Shared BinDir ι (RemoteProg BootstrapReport)) :
    Shared BinDir ι (RemoteProg BootstrapReport) where
  store := (serve sha256 tools x.store (x.parties i)).2
  parties := Function.update x.parties i (.done (serve sha256 tools x.store (x.parties i)).1)

section
variable [DecidableEq ι] {i : ι} {x : Shared BinDir ι (RemoteProg BootstrapReport)}

theorem served_head {p q : RemoteProg BootstrapReport} (hq : x.parties i = q)
    (hserves : Serves sha256 x.store q d p)
    (heq : serve sha256 tools x.store q = serve sha256 tools d p)
    (ih : ∀ y : Shared BinDir ι (RemoteProg BootstrapReport), y.parties i = p →
      Relation.ReflTransGen (Shared.Step (Requests sha256)) y
        (served sha256 tools i y)) :
    Relation.ReflTransGen (Shared.Step (Requests sha256)) x
      (served sha256 tools i x) := by
  subst hq
  have hrest := ih ⟨d, Function.update x.parties i p⟩ (Function.update_self _ _ _)
  have hsame : served sha256 tools i ⟨d, Function.update x.parties i p⟩ =
      served sha256 tools i x := by
    simp only [served, Function.update_self, Function.update_idem, heq]
  rw [hsame] at hrest
  exact .head (.moved hserves) hrest

/-- What happens where nothing fails can happen. -/
theorem served_reached (tools : HashTool → Bool) (i : ι)
    (x : Shared BinDir ι (RemoteProg BootstrapReport)) :
    Relation.ReflTransGen (Shared.Step (Requests sha256)) x
      (served sha256 tools i x) := by
  generalize hp : x.parties i = p
  induction p generalizing x with
  | done res =>
    have hx : served sha256 tools i x = x := by
      rw [served, hp, serve, ← hp, Function.update_eq_self]
    rw [hx]
  | readDir k ih => exact served_head hp (.listed (.inr rfl)) rfl fun y hy => ih _ y hy
  | attempt c k ih =>
    exact served_head hp (.attempted (perform_effect _ c)) rfl fun y hy => ih _ y hy
  | chmod n k ih =>
    cases hf : x.store[n]? with
    | some f =>
      exact served_head hp (.chmodded hf) (by rw [serve, hf]) fun y hy => ih _ y hy
    | none =>
      exact served_head hp (.unchanged (by decide)) (by rw [serve, hf]) fun y hy => ih (some 1) y hy
  | hash tool n k ih =>
    have hanswer : ∃ out, serve sha256 tools x.store (.hash tool n k) =
        serve sha256 tools x.store (k out) ∧ ∀ hex, parseHash out = some hex →
          ∃ f, x.store[n]? = some f ∧ hex = hexSha256 sha256 f.bytes := by
      rw [serve]
      split
      next f hf _ =>
        refine ⟨_, rfl, ?_⟩
        intro hex hhex
        rw [parseHash_hashLine] at hhex
        exact ⟨f, hf, (Option.some.inj hhex).symm⟩
      next =>
        refine ⟨_, rfl, ?_⟩
        intro hex hhex
        cases hhex
    obtain ⟨out, heq, hout⟩ := hanswer
    exact served_head hp (.hashed hout) heq fun y hy => ih _ y hy
  | read n k ih =>
    have hanswer (b : List UInt8) (hb : x.store[n]?.map RemoteFile.bytes = some b) :
        ∃ f, x.store[n]? = some f ∧ b = f.bytes := by
      obtain ⟨f, hf, rfl⟩ := Option.map_eq_some_iff.1 hb
      exact ⟨f, hf, rfl⟩
    exact served_head hp (.readBack hanswer) rfl fun y hy => ih _ y hy

end

/-- A tool prints the hash of the file, or nothing that could be one. -/
theorem serve_hash {tool : HashTool} {n : Text} {f : RemoteFile} {k : ExecOutput → RemoteProg α}
    {r : Except BootstrapError α × BinDir} (hf : d[n]? = some f)
    (h : ∀ out, (∀ hex, parseHash out = some hex → hex = hexSha256 sha256 f.bytes) →
      serve sha256 tools d (k out) = r) : serve sha256 tools d (.hash tool n k) = r := by
  rw [serve, hf]
  cases tools tool with
  | true =>
    apply h
    intro hex hhex
    rw [parseHash_hashLine] at hhex
    exact (Option.some.inj hhex).symm
  | false =>
    apply h
    intro hex hhex
    cases hhex

theorem serve_actualSha256 {n : Text} {f : RemoteFile} (hf : d[n]? = some f) :
    serve sha256 tools d (actualSha256 sha256 n) = (.ok (hexSha256 sha256 f.bytes), d) := by
  apply serve_hash hf
  intro out hout
  cases hp : parseHash out with
  | some hex =>
    obtain rfl := hout hex hp
    dsimp only
    rw [hp]
    rfl
  | none =>
    dsimp only
    rw [hp]
    apply serve_hash hf
    intro out' hout'
    cases hp' : parseHash out' with
    | some hex =>
      obtain rfl := hout' hex hp'
      dsimp only [RemoteProg.bind, pure]
      rw [hp']
      rfl
    | none =>
      dsimp only [RemoteProg.bind, pure]
      rw [hp']
      change serve sha256 tools d (.read n _) = _
      rw [serve, hf]
      rfl

variable (sha256 tools d) in
theorem serve_rename (dir : Text) {old new : Text} {f : RemoteFile} (hf : d[old]? = some f)
    (hne : new ≠ old) : ∃ d', serve sha256 tools d (rename dir old new) = (.ok (), d') ∧
      ∀ n, d'[n]? = if n = old then none else if n = new then some f else d[n]? := by
  have hold : (d.erase new)[old]? = some f := by rw [getElem?_removed, if_neg hne, hf]
  have hrename : perform (d.erase new) (.rename old new) =
      (true, ((d.erase new).insert new f).erase old) := by rw [perform, hold]
  refine ⟨((d.erase new).insert new f).erase old, ?_, ?_⟩
  · rw [rename, serve_bind serve_bestEffort]
    change serve sha256 tools (d.erase new) _ = _
    rw [serve_call (by rw [hrename]), hrename]
  · intro n
    rw [getElem?_removed, getElem?_stored, getElem?_removed]
    by_cases ho : n = old
    · rw [if_pos ho.symm, if_pos ho]
    · rw [if_neg (Ne.symm ho), if_neg ho]
      by_cases hn : n = new
      · rw [if_pos hn.symm, if_pos hn]
      · rw [if_neg (Ne.symm hn), if_neg (Ne.symm hn), if_neg hn]

variable (sha256 tools d) in
theorem serve_prune (names : List Text) : ∃ d', serve sha256 tools d (prune names) = (.ok (), d') ∧
    ∀ n, d'[n]? = if n ∈ names then none else d[n]? := by
  induction names generalizing d with
  | nil => exact ⟨d, rfl, fun _ => rfl⟩
  | cons name names ih =>
    obtain ⟨d', hserve, hget⟩ := ih (d.erase name)
    refine ⟨d', ?_, ?_⟩
    · rw [prune, serve_bind serve_bestEffort]
      exact hserve
    · intro n
      rw [hget, getElem?_removed]
      by_cases hn : n ∈ names
      · rw [if_pos hn, if_pos (List.mem_cons_of_mem name hn)]
      · rw [if_neg hn]
        by_cases heq : name = n
        · rw [if_pos heq, if_pos (heq ▸ List.mem_cons_self)]
        · rw [if_neg heq, if_neg]
          intro hmem
          obtain h | h := List.mem_cons.1 hmem
          · exact heq h.symm
          · exact hn h

variable (sha256 tools d) in
theorem serve_pushBinary (dir : Text) {tmp name : Text} (bytes : List UInt8) (hne : name ≠ tmp) :
    ∃ d', serve sha256 tools d (pushBinary sha256 dir tmp name bytes) = (.ok (), d') ∧
      ∀ n, d'[n]? =
        if n = tmp then none else if n = name then some ⟨bytes, 0o755⟩ else d[n]? := by
  obtain ⟨d₁, hwrite, hget₁⟩ := serve_writeFile sha256 tools d dir tmp bytes
  have htmp : d₁[tmp]? = some ⟨bytes, 0o755⟩ := by rw [hget₁, if_pos rfl]
  have htmp' : (d₁.insert tmp ⟨bytes, 0o755⟩)[tmp]? = some ⟨bytes, 0o755⟩ := by
    rw [getElem?_stored, if_pos rfl]
  obtain ⟨d₂, hrename, hget₂⟩ := serve_rename sha256 tools _ dir htmp' hne
  refine ⟨d₂, ?_, ?_⟩
  · rw [pushBinary, serve_bind hwrite, serve, htmp]
    dsimp only
    rw [if_pos rfl, serve_bind (serve_actualSha256 htmp'), if_pos rfl]
    exact hrename
  · intro n
    rw [hget₂]
    by_cases hn : n = tmp
    · rw [if_pos hn, if_pos hn]
    · rw [if_neg hn, if_neg hn, getElem?_stored, if_neg (Ne.symm hn), hget₁, if_neg (Ne.symm hn)]

theorem mem_stale_keys {n version triple : Text} : n ∈ stale d.keys version triple ↔
    n ∈ d ∧ ofFamily triple n = true ∧ n ≠ binaryName version triple := by
  rw [stale, List.mem_filter, Bool.and_eq_true, decide_eq_true_eq, Std.ExtTreeMap.mem_keys]

/-- Removing the stale binaries leaves none of the family but the wanted one. -/
theorem stale_removed (d : BinDir) (n version triple : Text) :
    (if n ∈ stale d.keys version triple then none else d[n]?) =
      if ofFamily triple n = true ∧ n ≠ binaryName version triple then none else d[n]? := by
  by_cases h : ofFamily triple n = true ∧ n ≠ binaryName version triple
  · rw [if_pos h]
    split
    · rfl
    next hn =>
      rw [mem_stale_keys, not_and] at hn
      exact Std.ExtTreeMap.getElem?_eq_none fun hmem => hn hmem h
  · rw [if_neg h, if_neg fun hn => h (mem_stale_keys.1 hn).2]

namespace Bootstrap
variable {b b' : Bootstrap} {triple : Text}

/-- How a bootstrap ends where nothing fails: without a binary for the host nothing changes, a
binary that is there is taken, and else the local one is pushed; in both cases no other binary for
the triple stays. -/
inductive Settles (b : Bootstrap) (d : BinDir) :
    Except BootstrapError BootstrapReport → BinDir → Prop where
  | undetected {e : BootstrapError} : detectTriple b.uname = .error e → Settles b d (.error e) d
  | unavailable {triple : Text} {e : BootstrapError} : detectTriple b.uname = .ok triple →
      binaryName b.version triple ∉ d ∨ b.forcePush = true → b.binaryForTriple triple = .error e →
      Settles b d (.error e) d
  | reused {triple : Text} {d' : BinDir} : detectTriple b.uname = .ok triple →
      binaryName b.version triple ∈ d → b.forcePush = false →
      (∀ n, d'[n]? =
        if ofFamily triple n = true ∧ n ≠ binaryName b.version triple then none else d[n]?) →
      Settles b d (.ok (.reused triple b.version (binaryRelPath b.version triple))) d'
  | pushed {triple : Text} {source : BinarySource} {d' : BinDir} :
      detectTriple b.uname = .ok triple →
      binaryName b.version triple ∉ d ∨ b.forcePush = true →
      b.binaryForTriple triple = .ok source →
      d'[binaryName b.version triple]? = some ⟨source.bytes, 0o755⟩ →
      (∀ n, n ≠ binaryName b.version triple → d'[n]? =
        if ofFamily triple n = true ∨ n = b.tmpName (binaryName b.version triple) then none
        else d[n]?) →
      Settles b d (.ok (.pushed triple b.version (binaryRelPath b.version triple)
        source.bytes.length source.embedded source.devSubstitution)) d'

theorem serve_run (ht : detectTriple b.uname = .ok triple) : serve sha256 tools d (b.run sha256) =
    serve sha256 tools d
      (if binaryName b.version triple ∈ d.keys ∧ b.forcePush = false then do
        prune (stale d.keys b.version triple)
        pure (.reused triple b.version (binaryRelPath b.version triple))
      else do
        let source ← RemoteProg.ofExcept (b.binaryForTriple triple)
        pushBinary sha256 b.binDir (b.tmpName (binaryName b.version triple))
          (binaryName b.version triple) source.bytes
        prune (stale d.keys b.version triple)
        pure (.pushed triple b.version (binaryRelPath b.version triple) source.bytes.length
          source.embedded source.devSubstitution)) := by
  rw [run, ht]
  rfl

variable (sha256 tools d) in
theorem serve_reused (ht : detectTriple b.uname = .ok triple)
    (hmem : binaryName b.version triple ∈ d) (hforce : b.forcePush = false) :
    ∃ d', serve sha256 tools d (b.run sha256) =
      (.ok (.reused triple b.version (binaryRelPath b.version triple)), d') ∧
        ∀ n, d'[n]? =
          if ofFamily triple n = true ∧ n ≠ binaryName b.version triple then none else d[n]? := by
  obtain ⟨d', hserve, hget⟩ := serve_prune sha256 tools d
    (stale d.keys b.version triple)
  refine ⟨d', ?_, ?_⟩
  · rw [serve_run ht, if_pos ⟨Std.ExtTreeMap.mem_keys.2 hmem, hforce⟩, serve_bind hserve]
    rfl
  · intro n
    rw [hget, stale_removed]

variable (sha256 tools d) in
theorem serve_pushed {source : BinarySource} (ht : detectTriple b.uname = .ok triple)
    (hpush : binaryName b.version triple ∉ d ∨ b.forcePush = true)
    (hs : b.binaryForTriple triple = .ok source) :
    ∃ d', serve sha256 tools d (b.run sha256) =
      (.ok (.pushed triple b.version (binaryRelPath b.version triple) source.bytes.length
        source.embedded source.devSubstitution), d') ∧
      d'[binaryName b.version triple]? = some ⟨source.bytes, 0o755⟩ ∧
      ∀ n, n ≠ binaryName b.version triple → d'[n]? =
        if ofFamily triple n = true ∨ n = b.tmpName (binaryName b.version triple) then none
        else d[n]? := by
  have hne : binaryName b.version triple ≠ b.tmpName (binaryName b.version triple) := by
    intro heq
    have hfamily := ofFamily_binaryName b.version triple
    exact not_temporary (b := b) hfamily ⟨triple, ht, heq⟩
  have hif : ¬(binaryName b.version triple ∈ d.keys ∧ b.forcePush = false) := by
    rintro ⟨hmem, hforce⟩
    obtain hnot | htrue := hpush
    · exact hnot (Std.ExtTreeMap.mem_keys.1 hmem)
    · rw [hforce] at htrue
      cases htrue
  obtain ⟨d₁, hserve₁, hget₁⟩ := serve_pushBinary sha256 tools d
    b.binDir source.bytes hne
  obtain ⟨d₂, hserve₂, hget₂⟩ := serve_prune sha256 tools d₁
    (stale d.keys b.version triple)
  refine ⟨d₂, ?_, ?_, ?_⟩
  · rw [serve_run ht, if_neg hif, hs]
    change serve sha256 tools d (pushBinary sha256 _ _ _ _ >>= _) = _
    rw [serve_bind hserve₁, serve_bind hserve₂]
    rfl
  · rw [hget₂, if_neg fun h => (mem_stale_keys.1 h).2.2 rfl, hget₁, if_neg hne, if_pos rfl]
  · intro n hn
    rw [hget₂, hget₁, if_neg hn]
    have hstale := stale_removed d n b.version triple
    by_cases htmp : n = b.tmpName (binaryName b.version triple)
    · rw [if_pos htmp, if_pos (Or.inr htmp)]
      split <;> rfl
    · rw [if_neg htmp, hstale]
      by_cases hf : ofFamily triple n = true
      · rw [if_pos ⟨hf, hn⟩, if_pos (.inl hf)]
      · rw [if_neg fun h => hf h.1, if_neg (not_or.2 ⟨hf, htmp⟩)]

/-- A whole bootstrap where nothing fails; another one of the same version then has nothing to do. -/
theorem serve_settles (b : Bootstrap) (d : BinDir) (tools : HashTool → Bool) :
    b.Settles d (serve sha256 tools d (b.run sha256)).1 (serve sha256 tools d (b.run sha256)).2 ∧
      ∀ report, (serve sha256 tools d (b.run sha256)).1 = .ok report →
        ∀ (b' : Bootstrap) (tools' : HashTool → Bool),
          detectTriple b'.uname = detectTriple b.uname → b'.version = b.version →
          b'.forcePush = false → ∃ triple, detectTriple b.uname = .ok triple ∧
            serve sha256 tools' (serve sha256 tools d (b.run sha256)).2 (b'.run sha256) =
              (.ok (.reused triple b.version (binaryRelPath b.version triple)),
                (serve sha256 tools d (b.run sha256)).2) := by
  have hagain {triple : Text} {d' : BinDir} (ht : detectTriple b.uname = .ok triple)
      (hmem : binaryName b.version triple ∈ d')
      (hclean : ∀ n, ofFamily triple n = true → n ≠ binaryName b.version triple → d'[n]? = none)
      (b' : Bootstrap) (tools' : HashTool → Bool)
      (ht' : detectTriple b'.uname = detectTriple b.uname) (hv : b'.version = b.version)
      (hforce : b'.forcePush = false) : ∃ triple, detectTriple b.uname = .ok triple ∧
        serve sha256 tools' d' (b'.run sha256) =
          (.ok (.reused triple b.version (binaryRelPath b.version triple)), d') := by
    obtain ⟨d'', hserve, hget⟩ := serve_reused sha256 tools' d' (ht'.trans ht)
      (by rw [hv]; exact hmem) hforce
    rw [hv] at hserve hget
    have heq : d'' = d' := by
      apply Std.ExtTreeMap.ext_getElem?
      intro n
      rw [hget]
      split
      next hn => exact (hclean n hn.1 hn.2).symm
      next => rfl
    exact ⟨triple, ht, heq ▸ hserve⟩
  cases ht : detectTriple b.uname with
  | error e =>
    have hserve : serve sha256 tools d (b.run sha256) = (.error e, d) := by
      rw [run, ht]
      rfl
    rw [hserve]
    refine ⟨.undetected ht, ?_⟩
    intro _ h
    cases h
  | ok triple =>
    rw [← ht]
    by_cases hreuse : binaryName b.version triple ∈ d ∧ b.forcePush = false
    · obtain ⟨hmem, hforce⟩ := hreuse
      obtain ⟨d', hserve, hget⟩ := serve_reused sha256 tools d ht hmem hforce
      rw [hserve]
      refine ⟨.reused ht hmem hforce hget, fun _ _ => hagain ht ?_ ?_⟩
      · rw [Std.ExtTreeMap.mem_iff_isSome_getElem?, hget, if_neg fun h => h.2 rfl,
          ← Std.ExtTreeMap.mem_iff_isSome_getElem?]
        exact hmem
      · intro n hf hn
        rw [hget, if_pos ⟨hf, hn⟩]
    · have hpush : binaryName b.version triple ∉ d ∨ b.forcePush = true := by
        rwa [not_and_or, Bool.not_eq_false] at hreuse
      cases hs : b.binaryForTriple triple with
      | error e =>
        have hserve : serve sha256 tools d (b.run sha256) = (.error e, d) := by
          rw [serve_run ht, if_neg, hs]
          · rfl
          · rwa [Std.ExtTreeMap.mem_keys]
        rw [hserve]
        refine ⟨.unavailable ht hpush hs, ?_⟩
        intro _ h
        cases h
      | ok source =>
        obtain ⟨d', hserve, hname, hget⟩ := serve_pushed sha256 tools d ht hpush hs
        rw [hserve]
        refine ⟨.pushed ht hpush hs hname hget, fun _ _ => hagain ht ?_ ?_⟩
        · rw [Std.ExtTreeMap.mem_iff_isSome_getElem?, hname]
          rfl
        · intro n hf hn
          rw [hget n hn, if_pos (Or.inl hf)]

end Bootstrap

end Tomo
