import Tomo.Transport.Serving

namespace Tomo
set_option autoImplicit true

/-- The temporary name of a program, the names that are nobody's, and what may stand under these. -/
structure Terms where
  tmp : Text
  isPublic : Text → Prop
  fits : Text → Option RemoteFile → Prop

/-- What is known of the temporary file, if it is there. -/
abbrev Known := RemoteFile → Prop

namespace Terms

def Allows (T : Terms) (K : Known) : SftpCall → Prop
  | .start | .mkdir | .mkdirBin | .close _ => True
  | .create n | .write n _ => n = T.tmp
  | .remove n => n = T.tmp ∨ T.isPublic n ∧ T.fits n none
  | .rename old new => old = T.tmp ∧ T.isPublic new ∧ ∀ f, K f → T.fits new (some f)

def after (K : Known) : SftpCall → Known
  | .create _ | .write .. => fun _ => True
  | _ => K

end Terms

section
variable (sha256 : List UInt8 → Fin 32 → UInt8)

/-- A program that keeps to its terms whatever is answered, and what it comes to when it succeeds. -/
def Abides (T : Terms) : Known → RemoteProg α → (Known → α → Prop) → Prop
  | K, .done (.ok a), Q => Q K a
  | _, .done (.error _), _ => True
  | K, .readDir k, Q => ∀ names, Abides T K (k names) Q
  | K, .attempt c k, Q => T.Allows K c ∧ ∀ ok, Abides T (Terms.after K c) (k ok) Q
  | _, .chmod n k, Q => n = T.tmp ∧ ∀ code,
      Abides T (fun f => code = some 0 → f.mode = 0o755) (k code) Q
  | K, .hash _ n k, Q => n = T.tmp ∧ ∀ out,
      Abides T (fun f => K f ∧ ∀ hex, parseHash out = some hex → hex = hexSha256 sha256 f.bytes)
        (k out) Q
  | K, .read n k, Q => n = T.tmp ∧ ∀ bytes,
      Abides T (fun f => K f ∧ ∀ b, bytes = some b → b = f.bytes) (k bytes) Q

end

section
variable {sha256 : List UInt8 → Fin 32 → UInt8} {T : Terms} {K : Known}

theorem Abides.bind {p : RemoteProg α} {f : α → RemoteProg β} {Q : Known → α → Prop}
    {R : Known → β → Prop} (h : Abides sha256 T K p Q)
    (hf : ∀ K a, Q K a → Abides sha256 T K (f a) R) : Abides sha256 T K (p >>= f) R := by
  change Abides sha256 T K (p.bind f) R
  induction p generalizing K with
  | done res =>
    cases res with
    | ok a => exact hf K a h
    | error e => trivial
  | readDir k ih => exact fun names => ih names (h names)
  | attempt c k ih => exact ⟨h.1, fun ok => ih ok (h.2 ok)⟩
  | chmod n k ih => exact ⟨h.1, fun code => ih code (h.2 code)⟩
  | hash tool n k ih => exact ⟨h.1, fun out => ih out (h.2 out)⟩
  | read n k ih => exact ⟨h.1, fun bytes => ih bytes (h.2 bytes)⟩

theorem call_abides {c : SftpCall} {op path : Text} (h : T.Allows K c) :
    Abides sha256 T K (RemoteProg.call c op path) fun K' _ => K' = Terms.after K c := by
  apply And.intro h
  intro ok
  cases ok with
  | true => rfl
  | false => trivial

theorem bestEffort_abides {c : SftpCall} (h : T.Allows K c) :
    Abides sha256 T K (RemoteProg.bestEffort c) fun K' _ => K' = Terms.after K c :=
  ⟨h, fun _ => rfl⟩

theorem listNames_abides : Abides sha256 T K listNames fun K' _ => K' = K := fun _ => rfl

theorem writeFile_abides {dir : Text} {bytes : List UInt8} :
    Abides sha256 T K (writeFile dir T.tmp bytes) fun _ _ => True := by
  apply (call_abides (by exact rfl)).bind
  intro _ _ _
  apply (call_abides (by exact rfl)).bind
  intro _ _ _
  apply And.intro trivial
  intro ok
  cases ok <;> trivial

theorem remoteSha256_abides : Abides sha256 T K (remoteSha256 T.tmp) fun K' o =>
    ∀ f, K' f → K f ∧ ∀ hex, o = some hex → hex = hexSha256 sha256 f.bytes := by
  apply And.intro rfl
  intro out
  dsimp only
  cases hout : parseHash out with
  | some hex =>
    intro f hf
    exact ⟨hf.1, hf.2⟩
  | none =>
    apply And.intro rfl
    intro out' f hf
    exact ⟨hf.1.1, hf.2⟩

theorem actualSha256_abides : Abides sha256 T K (actualSha256 sha256 T.tmp) fun K' actual =>
    ∀ f, K' f → K f ∧ (actual = hexSha256 sha256 f.bytes ∨ actual = []) := by
  apply remoteSha256_abides.bind
  intro K' o ho
  cases o with
  | some hex =>
    intro f hf
    exact ⟨(ho f hf).1, .inl ((ho f hf).2 hex rfl)⟩
  | none =>
    apply And.intro rfl
    intro bytes
    cases bytes with
    | some b =>
      intro f hf
      exact ⟨(ho f hf.1).1, .inl (congrArg _ (hf.2 b rfl))⟩
    | none => exact fun f hf => ⟨(ho f hf.1).1, .inr rfl⟩

theorem rename_abides {dir name : Text} (hp : T.isPublic name) (hnone : T.fits name none)
    (hfits : ∀ f, K f → T.fits name (some f)) :
    Abides sha256 T K (rename dir T.tmp name) fun _ _ => True := by
  apply (bestEffort_abides (by exact .inr ⟨hp, hnone⟩)).bind
  rintro _ _ rfl
  apply And.intro ⟨rfl, hp, hfits⟩
  intro ok
  cases ok <;> trivial

/-- Only a file that has the hash and the mode gets its final name. -/
theorem pushBinary_abides {dir name : Text} {bytes : List UInt8} (hp : T.isPublic name)
    (hnone : T.fits name none)
    (hfits : ∀ f : RemoteFile, f.mode = 0o755 →
      hexSha256 sha256 f.bytes = hexSha256 sha256 bytes → T.fits name (some f)) :
    Abides sha256 T K (pushBinary sha256 dir T.tmp name bytes) fun _ _ => True := by
  apply writeFile_abides.bind
  intro _ _ _
  apply And.intro rfl
  intro code
  cases code with
  | none => trivial
  | some code =>
    dsimp only
    split
    next hcode =>
      apply actualSha256_abides.bind
      intro K' actual hactual
      split
      next heq =>
        apply rename_abides hp hnone
        intro f hf
        obtain ⟨hmode, hhash⟩ := hactual f hf
        apply hfits f (hmode (congrArg some hcode))
        obtain hhash | hhash := hhash
        · exact hhash.symm.trans heq
        · exact (hexSha256_ne_nil bytes (heq.symm.trans hhash)).elim
      · exact ⟨.inl rfl, fun _ => trivial⟩
    · exact ⟨.inl rfl, fun _ => trivial⟩

theorem prune_abides {names : List Text} (h : ∀ n ∈ names, T.isPublic n ∧ T.fits n none) :
    Abides sha256 T K (prune names) fun _ _ => True := by
  induction names generalizing K with
  | nil => trivial
  | cons n names ih =>
    obtain ⟨hn, hrest⟩ := List.forall_mem_cons.1 h
    apply (bestEffort_abides (by exact .inr hn)).bind
    intro _ _ _
    exact ih hrest

theorem run_abides {b : Bootstrap}
    (htmp : ∀ triple, detectTriple b.uname = .ok triple →
      b.tmpName (binaryName b.version triple) = T.tmp)
    (hfamily : ∀ triple n, detectTriple b.uname = .ok triple → ofFamily triple n = true →
      T.isPublic n ∧ T.fits n none)
    (hfits : ∀ triple source (f : RemoteFile), detectTriple b.uname = .ok triple →
      b.binaryForTriple triple = .ok source → f.mode = 0o755 →
      hexSha256 sha256 f.bytes = hexSha256 sha256 source.bytes →
      T.fits (binaryName b.version triple) (some f)) :
    Abides sha256 T K (b.run sha256) fun _ _ => True := by
  rw [Bootstrap.run]
  cases htriple : detectTriple b.uname with
  | error e => trivial
  | ok triple =>
    have hstale (entries : List Text) :
        ∀ n ∈ stale entries b.version triple, T.isPublic n ∧ T.fits n none := by
      intro n hn
      exact hfamily triple n htriple (mem_stale hn)
    apply (call_abides (by trivial)).bind
    intro _ _ _
    apply (call_abides (by trivial)).bind
    intro _ _ _
    apply (call_abides (by trivial)).bind
    intro _ _ _
    apply listNames_abides.bind
    rintro _ entries -
    dsimp only
    split
    · apply (prune_abides (hstale entries)).bind
      intro _ _ _
      trivial
    · cases hsource : b.binaryForTriple triple with
      | error e => trivial
      | ok source =>
        obtain ⟨hpublic, hnone⟩ := hfamily triple _ htriple (ofFamily_binaryName b.version triple)
        change Abides sha256 T _ (pushBinary sha256 b.binDir _ _ _ >>= _) _
        rw [htmp triple htriple]
        apply (pushBinary_abides hpublic hnone fun f => hfits triple source f htriple hsource).bind
        intro _ _ _
        apply (prune_abides (hstale entries)).bind
        intro _ _ _
        trivial

/-- Apart from the temporary file, a name shows what it did, or is public and shows what fits. -/
def Terms.Minds (T : Terms) (d d' : BinDir) : Prop :=
  ∀ n, n ≠ T.tmp → d'[n]? = d[n]? ∨ T.isPublic n ∧ T.fits n d'[n]?

variable {d d' : BinDir}

theorem Terms.Minds.refl (T : Terms) (d : BinDir) : T.Minds d d := fun _ _ => .inl rfl

theorem Terms.Minds.stored (f : RemoteFile) : T.Minds d (d.insert T.tmp f) := by
  intro n hn
  rw [getElem?_stored, if_neg (Ne.symm hn)]
  exact .inl rfl

/-- What one request does, on the terms of the program that makes it. -/
theorem Effect.minds {c : SftpCall} {ok : Bool} (h : Effect d c ok d') (ha : T.Allows K c)
    (hk : ∀ f, d[T.tmp]? = some f → K f) :
    T.Minds d d' ∧ ∀ f, d'[T.tmp]? = some f → Terms.after K c f := by
  have hkept (c : SftpCall) (f : RemoteFile) (hf : d[T.tmp]? = some f) : Terms.after K c f := by
    cases c with
    | create | write => trivial
    | _ => exact hk f hf
  cases h with
  | refused => exact ⟨.refl T d, hkept _⟩
  | started => exact ⟨.refl T d, hk⟩
  | made => exact ⟨.refl T d, hk⟩
  | madeBin => exact ⟨.refl T d, hk⟩
  | closed => exact ⟨.refl T d, hk⟩
  | unlinked => exact ⟨.refl T d, hkept _⟩
  | created =>
    cases ha
    exact ⟨.stored _, fun _ _ => trivial⟩
  | wrote =>
    cases ha
    exact ⟨.stored _, fun _ _ => trivial⟩
  | @removed n =>
    constructor
    · intro m hm
      rw [getElem?_removed]
      split
      next heq =>
        subst heq
        obtain hn | hn := ha
        · exact (hm hn).elim
        · exact .inr hn
      next => exact .inl rfl
    · intro f hf
      rw [getElem?_removed] at hf
      split at hf
      · cases hf
      · exact hk f hf
  | @renamed old new g _ hg =>
    obtain ⟨rfl, hpublic, hfits⟩ := ha
    constructor
    · intro m hm
      rw [getElem?_removed, if_neg (Ne.symm hm), getElem?_stored]
      split
      next heq =>
        subst heq
        exact .inr ⟨hpublic, hfits g (hk g hg)⟩
      next => exact .inl rfl
    · intro f hf
      rw [getElem?_removed, if_pos rfl] at hf
      cases hf

theorem Serves.minds {p p' : RemoteProg α} {Q : Known → α → Prop} (h : Serves sha256 d p d' p')
    (hm : Abides sha256 T K p Q) (hk : ∀ f, d[T.tmp]? = some f → K f) :
    T.Minds d d' ∧ ∃ K', (∀ f, d'[T.tmp]? = some f → K' f) ∧ Abides sha256 T K' p' Q := by
  cases h with
  | listed => exact ⟨.refl T d, K, hk, hm _⟩
  | attempted he =>
    obtain ⟨ha, hnext⟩ := hm
    obtain ⟨hminds, hknown⟩ := he.minds ha hk
    exact ⟨hminds, _, hknown, hnext _⟩
  | chmodded hf =>
    obtain ⟨rfl, hnext⟩ := hm
    refine ⟨.stored _, _, ?_, hnext _⟩
    intro f hf' _
    rw [getElem?_stored, if_pos rfl] at hf'
    cases hf'
    rfl
  | unchanged hcode =>
    obtain ⟨rfl, hnext⟩ := hm
    exact ⟨.refl T d, _, fun _ _ heq => (hcode heq).elim, hnext _⟩
  | hashed hout =>
    obtain ⟨rfl, hnext⟩ := hm
    refine ⟨.refl T d, _, ?_, hnext _⟩
    intro f hf
    apply And.intro (hk f hf)
    intro hex hhex
    obtain ⟨g, hg, heq⟩ := hout hex hhex
    obtain rfl := Option.some.inj (hf.symm.trans hg)
    exact heq
  | readBack hbytes =>
    obtain ⟨rfl, hnext⟩ := hm
    refine ⟨.refl T d, _, ?_, hnext _⟩
    intro f hf
    apply And.intro (hk f hf)
    intro b hb
    obtain ⟨g, hg, heq⟩ := hbytes b hb
    obtain rfl := Option.some.inj (hf.symm.trans hg)
    exact heq

end

namespace Bootstrap

/-- Two bootstraps of one process, or of two processes with different ids. -/
def Apart (b b' : Bootstrap) : Prop := b.pid ≠ b'.pid ∨ b.counter ≠ b'.counter

theorem toDigits_noDot (n : Nat) : '.' ∉ Nat.toDigits 10 n := by
  intro h
  have hd := Nat.isDigit_of_mem_toDigits (by decide) (by decide) h
  exact absurd hd (by decide)

theorem toDigits_inj {m n : Nat} (h : Nat.toDigits 10 m = Nat.toDigits 10 n) : m = n := by
  rw [← Nat.ofDigitChars_ten_toDigits (n := m), h, Nat.ofDigitChars_ten_toDigits]

theorem lastDot_inj {s s' u u' : Text} (h : s ++ '.' :: u = s' ++ '.' :: u') (hu : '.' ∉ u)
    (hu' : '.' ∉ u') : s = s' ∧ u = u' := by
  obtain ⟨m, rfl, hm⟩ | ⟨m, rfl, hm⟩ := List.append_eq_append_iff.1 h
  · cases m with
    | nil => exact ⟨(List.append_nil s).symm, (List.cons.inj hm).2⟩
    | cons c m =>
      apply absurd _ hu
      rw [(List.cons.inj hm).2]
      exact List.mem_append_right m List.mem_cons_self
  · cases m with
    | nil => exact ⟨List.append_nil s', (List.cons.inj hm).2.symm⟩
    | cons c m =>
      apply absurd _ hu'
      rw [(List.cons.inj hm).2]
      exact List.mem_append_right m List.mem_cons_self

theorem tmpName_stamp {b b' : Bootstrap} {n n' : Text} (h : b.tmpName n = b'.tmpName n') :
    b.pid = b'.pid ∧ b.counter = b'.counter := by
  have hname (b : Bootstrap) (n : Text) : b.tmpName n =
      ('.' :: n ++ ".tmp".toList) ++ '.' :: Nat.toDigits 10 b.pid ++
        '.' :: Nat.toDigits 10 b.counter := by
    simp [tmpName]
  rw [hname, hname] at h
  obtain ⟨hpid, hcounter⟩ := lastDot_inj h (toDigits_noDot _) (toDigits_noDot _)
  obtain ⟨-, hpid⟩ := lastDot_inj hpid (toDigits_noDot _) (toDigits_noDot _)
  exact ⟨toDigits_inj hpid, toDigits_inj hcounter⟩

theorem Temporary.apart {b b' : Bootstrap} {n : Text} (h : b.Temporary n) (h' : b'.Temporary n) :
    ¬b.Apart b' := by
  obtain ⟨_, _, rfl⟩ := h
  obtain ⟨_, _, heq⟩ := h'
  obtain ⟨hpid, hcounter⟩ := tmpName_stamp heq
  rintro (hne | hne)
  · exact hne hpid
  · exact hne hcounter

section
variable {ι : Type} (sha256 : List UInt8 → Fin 32 → UInt8) (bs : ι → Bootstrap) (d₀ : BinDir)

/-- What may be under a name after bootstraps have been at work: what was there, or nothing if it is
the name of a binary for a triple that one of them is for, or a whole binary that one of them is to
push under that name. -/
inductive Leaves (n : Text) : Option RemoteFile → Prop where
  | before : Leaves n d₀[n]?
  | removed {i : ι} {triple : Text} : detectTriple (bs i).uname = .ok triple →
      ofFamily triple n = true → Leaves n none
  | whole {i : ι} {triple : Text} {source : BinarySource} {f : RemoteFile} :
      detectTriple (bs i).uname = .ok triple → (bs i).binaryForTriple triple = .ok source →
      n = binaryName (bs i).version triple → f.mode = 0o755 →
      hexSha256 sha256 f.bytes = hexSha256 sha256 source.bytes → Leaves n (some f)

/-- The terms of a bootstrap that is for `triple`. -/
def terms (i : ι) (triple : Text) : Terms where
  tmp := (bs i).tmpName (binaryName (bs i).version triple)
  isPublic n := ∀ j, ¬(bs j).Temporary n
  fits := Leaves sha256 bs d₀

/-- Each bootstrap owns its temporary file. -/
def pushes : Ownership BinDir Text RemoteFile ι (RemoteProg BootstrapReport) where
  get d n := d[n]?
  owns i n := (bs i).Temporary n
  fits := Leaves sha256 bs d₀
  knows i p d := match detectTriple (bs i).uname with
    | .error e => p = .done (.error e)
    | .ok triple => ∃ K : Known,
      (∀ f, d[(terms sha256 bs d₀ i triple).tmp]? = some f → K f) ∧
        Abides sha256 (terms sha256 bs d₀ i triple) K p fun _ _ => True

end

section
variable {ι : Type} {sha256 : List UInt8 → Fin 32 → UInt8} {bs : ι → Bootstrap} {d₀ d d' : BinDir}
  {p p' : RemoteProg BootstrapReport} {i : ι}

theorem pushes_moves (h : (pushes sha256 bs d₀).knows i p d) (hs : Serves sha256 d p d' p') :
    (pushes sha256 bs d₀).knows i p' d' ∧ ∀ n, ¬(bs i).Temporary n → d'[n]? = d[n]? ∨
      (pushes sha256 bs d₀).Public n ∧ Leaves sha256 bs d₀ n d'[n]? := by
  dsimp only [pushes] at h ⊢
  split at h
  next =>
    subst h
    cases hs
  next triple htriple =>
    obtain ⟨K, hk, hm⟩ := h
    obtain ⟨hminds, hnext⟩ := hs.minds hm hk
    apply And.intro hnext
    intro n hn
    apply hminds n
    rintro rfl
    exact hn ⟨triple, htriple, rfl⟩

theorem pushes_respected (hbs : ∀ i j, i ≠ j → (bs i).Apart (bs j)) :
    (pushes sha256 bs d₀).Respected (Requests sha256) where
  apart := by
    intro i j n hi hj
    by_contra hne
    exact hi.apart hj (hbs i j hne)
  stable := by
    intro i p d d' h hsame
    dsimp only [pushes] at h hsame ⊢
    split at h
    next => exact h
    next triple htriple =>
      obtain ⟨K, hk, hm⟩ := h
      refine ⟨K, ?_, hm⟩
      intro f hf
      apply hk f
      exact (hsame _ ⟨triple, htriple, rfl⟩).symm.trans hf
  knows h hs := (pushes_moves h hs).1
  frame h hs hn := (pushes_moves h hs).2 _ hn

theorem pushes_start : (pushes sha256 bs d₀).Holds ⟨d₀, fun i => (bs i).run sha256⟩ where
  knows i := by
    dsimp only [pushes]
    cases htriple : detectTriple (bs i).uname with
    | error e =>
      rw [run, htriple]
      rfl
    | ok triple =>
      refine ⟨fun _ => True, fun _ _ => trivial, ?_⟩
      apply run_abides
      · intro triple' h
        cases htriple.symm.trans h
        rfl
      · intro triple' n h hn
        exact ⟨fun j => not_temporary hn, .removed h hn⟩
      · intro triple' source f h hsource hmode hhash
        exact .whole h hsource rfl hmode hhash
  fits _ _ := .before

variable [DecidableEq ι]

theorem pushes_run {x : Shared BinDir ι (RemoteProg BootstrapReport)}
    (hbs : ∀ i j, i ≠ j → (bs i).Apart (bs j))
    (h : Relation.ReflTransGen (Shared.Step (Requests sha256))
      ⟨d₀, fun i => (bs i).run sha256⟩ x) : (pushes sha256 bs d₀).Holds x :=
  pushes_start.run (pushes_respected hbs) h

end

/-- Two versions that are pushed to one host, for any hash. -/
def upgrade (new : Bool) : Bootstrap where
  remotePath := "/srv".toList
  builtFor := x8664LinuxMusl
  version := if new then "0.2.0".toList else "0.1.0".toList
  forcePush := false
  devBuild := false
  fat := true
  table := [⟨x8664LinuxMusl, "0.1.0".toList, [1]⟩, ⟨x8664LinuxMusl, "0.2.0".toList, [2]⟩]
  currentExe := none
  uname := some (0, "Linux x86_64\n".toList)
  pid := if new then 2 else 1
  counter := 0

def firstBytes (bytes : List UInt8) (i : Fin 32) : UInt8 := bytes.getD i 0

/-- The older version is pushed, and then the newer one. -/
def upgraded (d : BinDir) : Shared BinDir Bool (RemoteProg BootstrapReport) :=
  served firstBytes (fun _ => true) true
    (served firstBytes (fun _ => false) false ⟨d, fun i => (upgrade i).run firstBytes⟩)

theorem upgrade_apart (i j : Bool) (h : i ≠ j) : (upgrade i).Apart (upgrade j) := by
  apply Or.inl
  revert i j
  decide

theorem upgraded_reached (d : BinDir) :
    Relation.ReflTransGen (Shared.Step (Requests firstBytes))
      ⟨d, fun i => (upgrade i).run firstBytes⟩ (upgraded d) :=
  (served_reached _ _ _).trans (served_reached _ _ _)

section
variable {ι : Type} {sha256 : List UInt8 → Fin 32 → UInt8} {bs : ι → Bootstrap} {d₀ : BinDir}
  [DecidableEq ι]

/-- Whatever is answered to whom, in whatever order, and wherever a bootstrap stops: nobody finds
part of a binary. -/
theorem pushed_whole {x : Shared BinDir ι (RemoteProg BootstrapReport)} {n : Text}
    (hbs : ∀ i j, i ≠ j → (bs i).Apart (bs j))
    (h : Relation.ReflTransGen (Shared.Step (Requests sha256))
      ⟨d₀, fun i => (bs i).run sha256⟩ x) (hn : ∀ i, ¬(bs i).Temporary n) :
    Leaves sha256 bs d₀ n x.store[n]? := by
  have hholds := pushes_run hbs h
  exact hholds.fits n hn

end

theorem upgraded_whole :
    Leaves firstBytes upgrade ∅ (binaryName "0.2.0".toList x8664LinuxMusl)
      (upgraded ∅).store[binaryName "0.2.0".toList x8664LinuxMusl]? :=
  pushed_whole upgrade_apart (upgraded_reached ∅) fun _ => not_temporary (ofFamily_binaryName _ _)

theorem unameToTriple_supported {os arch triple : Text} (h : unameToTriple os arch = .ok triple) :
    triple ∈ supported := by
  unfold unameToTriple at h
  dsimp only at h
  split_ifs at h <;> cases h <;> decide

theorem detectTriple_supported {uname : ExecOutput} {triple : Text}
    (h : detectTriple uname = .ok triple) : triple ∈ supported := by
  unfold detectTriple at h
  split at h
  · cases h
  next code stdout =>
    split at h
    · cases hu : parseUname stdout with
      | error e =>
        rw [hu] at h
        cases h
      | ok u =>
        rw [hu] at h
        exact unameToTriple_supported h
    · cases h

/-- No supported triple ends in another. -/
theorem ofFamily_supported {triple triple' version : Text} (ht : triple ∈ supported)
    (ht' : triple' ∈ supported) (h : ofFamily triple' (binaryName version triple) = true) :
    triple' = triple := by
  rw [ofFamily, Bool.and_eq_true, List.isSuffixOf_iff_suffix] at h
  have hends : '-' :: triple <:+ binaryName version triple := List.suffix_append _ _
  have hapart : ∀ t ∈ supported, ∀ t' ∈ supported, '-' :: t' <:+ '-' :: t → t' = t := by decide
  obtain hs | hs := List.suffix_or_suffix_of_suffix h.2 hends
  · exact hapart triple ht triple' ht' hs
  · exact (hapart triple' ht' triple ht hs).symm

section
variable {ι : Type} {sha256 : List UInt8 → Fin 32 → UInt8} {bs : ι → Bootstrap} {d₀ : BinDir}
  [DecidableEq ι]

/-- The binaries for a triple that none of the bootstraps is for are left alone. -/
theorem other_triples_kept {x : Shared BinDir ι (RemoteProg BootstrapReport)} {triple : Text}
    (hbs : ∀ i j, i ≠ j → (bs i).Apart (bs j))
    (h : Relation.ReflTransGen (Shared.Step (Requests sha256))
      ⟨d₀, fun i => (bs i).run sha256⟩ x) (ht : triple ∈ supported)
    (hother : ∀ i, detectTriple (bs i).uname ≠ .ok triple) (version : Text) :
    x.store[binaryName version triple]? = d₀[binaryName version triple]? := by
  have hnone {i : ι} {triple' : Text} (hi : detectTriple (bs i).uname = .ok triple')
      (hf : ofFamily triple' (binaryName version triple) = true) : False := by
    have heq := ofFamily_supported ht (detectTriple_supported hi) hf
    exact hother i (heq ▸ hi)
  have hn (i : ι) : ¬(bs i).Temporary (binaryName version triple) :=
    not_temporary (ofFamily_binaryName version triple)
  have hleaves := (pushes_run hbs h).fits _ hn
  generalize hv : (pushes sha256 bs d₀).get x.store (binaryName version triple) = v at hleaves
  change x.store[binaryName version triple]? = v at hv
  rw [hv]
  cases hleaves with
  | before => rfl
  | removed hi hf => exact (hnone hi hf).elim
  | whole hi _ heq =>
    apply (hnone hi _).elim
    rw [heq]
    exact ofFamily_binaryName _ _

end

theorem upgraded_kept :
    let d := (∅ : BinDir).insert (binaryName "0.1.0".toList aarch64Darwin) ⟨[3], 0o755⟩
    (upgraded d).store[binaryName "0.1.0".toList aarch64Darwin]? =
      d[binaryName "0.1.0".toList aarch64Darwin]? := by
  intro d
  apply other_triples_kept upgrade_apart (upgraded_reached d) (by decide)
  intro i h
  have hmusl : detectTriple (upgrade i).uname = .ok x8664LinuxMusl := by cases i <;> rfl
  cases hmusl.symm.trans h

end Bootstrap

end Tomo
