import Tomo.Transport.SshConfig
import Mathlib.Data.List.Sort

namespace Tomo
set_option autoImplicit true

def x8664LinuxMusl : Text := "x86_64-unknown-linux-musl".toList

def aarch64LinuxMusl : Text := "aarch64-unknown-linux-musl".toList

def x8664Darwin : Text := "x86_64-apple-darwin".toList

def aarch64Darwin : Text := "aarch64-apple-darwin".toList

def supported : List Text := [x8664LinuxMusl, aarch64LinuxMusl, x8664Darwin, aarch64Darwin]

def supportedList : Text := (", ".toList).intercalate supported

inductive BootstrapError where
  | unsupportedTarget (detected supported : Text)
  /-- The exit code, if the command ran. -/
  | remoteCommand (cmd : Text) (code : Option Int)
  | sftp (op path : Text)
  | localBinary
  | integrity (expected actual : Text)
deriving DecidableEq

/-- What a remote command yields: its exit code and its standard output, if it ran. -/
abbrev ExecOutput := Option (Int × Text)

def unameToTriple (os arch : Text) : Except BootstrapError Text :=
  let osL := Text.toAsciiLowercase (Text.trim os)
  let archL := Text.toAsciiLowercase (Text.trim arch)
  if osL = "linux".toList ∧ (archL = "x86_64".toList ∨ archL = "amd64".toList) then
    .ok x8664LinuxMusl
  else if osL = "linux".toList ∧ (archL = "aarch64".toList ∨ archL = "arm64".toList) then
    .ok aarch64LinuxMusl
  else if osL = "darwin".toList ∧ (archL = "x86_64".toList ∨ archL = "amd64".toList) then
    .ok x8664Darwin
  else if osL = "darwin".toList ∧ (archL = "aarch64".toList ∨ archL = "arm64".toList) then
    .ok aarch64Darwin
  else .error (.unsupportedTarget (Text.trim os ++ ' ' :: Text.trim arch) supportedList)

def parseUname (stdout : Text) : Except BootstrapError (Text × Text) :=
  match Text.splitWhitespace stdout with
  | os :: arch :: _ => .ok (os, arch)
  | _ => .error (.unsupportedTarget (Text.trim stdout) supportedList)

def detectTriple (uname : ExecOutput) : Except BootstrapError Text :=
  match uname with
  | none => .error (.remoteCommand "uname -s -m".toList none)
  | some (code, stdout) =>
    if code = 0 then do
      let (os, arch) ← parseUname stdout
      unameToTriple os arch
    else .error (.remoteCommand "uname -s -m".toList (some code))

def archOs (triple : Text) : Option (Text × Text) :=
  match triple.splitOn '-' with
  | arch :: _vendor :: os :: _ => some (arch, os)
  | _ => none

structure EmbeddedBinary where
  triple : Text
  version : Text
  bytes : List UInt8

structure BinarySource where
  triple : Text
  bytes : List UInt8
  embedded : Bool
  devSubstitution : Bool

def selectEmbedded (table : List EmbeddedBinary) (requested version : Text) :
    Option EmbeddedBinary :=
  table.find? fun e => decide (e.triple = requested ∧ e.version = version)

def embeddedTriples (table : List EmbeddedBinary) : Text :=
  if table = [] then "(none embedded)".toList
  else (", ".toList).intercalate
    ((table.map EmbeddedBinary.triple).mergeSort fun a b => decide (a ≤ b)).dedup

/-- Whether the running executable serves for the triple, and only as a substitution. -/
def planBinary (requested builtFor : Text) (devBuild : Bool) : Except BootstrapError Bool :=
  if requested = builtFor then .ok false
  else if devBuild ∧ archOs requested = archOs builtFor then .ok true
  else .error (.unsupportedTarget requested supportedList)

/-- One call of `bootstrap`: its arguments, the build it runs in (`fat` with embedded binaries), the
bytes of the executable if they can be read, what `uname` answers, and the numbers in the name of
its temporary file. -/
structure Bootstrap where
  remotePath : Text
  builtFor : Text
  version : Text
  forcePush : Bool
  devBuild : Bool
  fat : Bool
  table : List EmbeddedBinary
  currentExe : Option (List UInt8)
  uname : ExecOutput
  pid : Nat
  counter : Nat

def Bootstrap.binaryForTriple (b : Bootstrap) (requested : Text) :
    Except BootstrapError BinarySource :=
  match selectEmbedded b.table requested b.version with
  | some e => .ok ⟨requested, e.bytes, true, false⟩
  | none =>
    if b.fat then .error (.unsupportedTarget requested (embeddedTriples b.table))
    else do
      let devSubstitution ← planBinary requested b.builtFor b.devBuild
      match b.currentExe with
      | none => .error .localBinary
      | some bytes => .ok ⟨requested, bytes, false, devSubstitution⟩

def remoteBinDir : Text := ".tomo/bin".toList

def Bootstrap.binDir (b : Bootstrap) : Text := b.remotePath ++ '/' :: remoteBinDir

def binaryName (version triple : Text) : Text :=
  "tomo-".toList ++ version ++ '-' :: triple

def binaryRelPath (version triple : Text) : Text := remoteBinDir ++ '/' :: binaryName version triple

/-- The binaries of any version for a triple. -/
def ofFamily (triple name : Text) : Bool :=
  "tomo-".toList.isPrefixOf name && ('-' :: triple).isSuffixOf name

/-- The older binaries, which are removed in the end. -/
def stale (entries : List Text) (version triple : Text) : List Text :=
  entries.filter fun e => ofFamily triple e && decide (e ≠ binaryName version triple)

def Bootstrap.tmpName (b : Bootstrap) (name : Text) : Text :=
  '.' :: name ++ ".tmp.".toList ++ Nat.toDigits 10 b.pid ++ '.' :: Nat.toDigits 10 b.counter

structure RemoteFile where
  bytes : List UInt8
  mode : Nat
deriving DecidableEq

/-- The remote `.tomo/bin`, by file name. -/
abbrev BinDir := Std.ExtTreeMap Text RemoteFile

/-- An SFTP request that can fail. -/
inductive SftpCall where
  | start
  | mkdir
  | mkdirBin
  | create (name : Text)
  | write (name : Text) (bytes : List UInt8)
  | close (name : Text)
  | remove (name : Text)
  | rename (old new : Text)

inductive HashTool where
  | sha256sum
  | shasum
deriving DecidableEq

/-- What is done on the remote host up to an outcome; each request is followed by how it goes on
after its answer. -/
inductive RemoteProg (α : Type) where
  | done (res : Except BootstrapError α)
  | readDir (k : List Text → RemoteProg α)
  | attempt (c : SftpCall) (k : Bool → RemoteProg α)
  | chmod (name : Text) (k : Option Int → RemoteProg α)
  | hash (tool : HashTool) (name : Text) (k : ExecOutput → RemoteProg α)
  | read (name : Text) (k : Option (List UInt8) → RemoteProg α)

namespace RemoteProg

def bind : RemoteProg α → (α → RemoteProg β) → RemoteProg β
  | .done (.ok a), f => f a
  | .done (.error e), _ => .done (.error e)
  | .readDir k, f => .readDir fun names => (k names).bind f
  | .attempt c k, f => .attempt c fun ok => (k ok).bind f
  | .chmod n k, f => .chmod n fun code => (k code).bind f
  | .hash tool n k, f => .hash tool n fun out => (k out).bind f
  | .read n k, f => .read n fun bytes => (k bytes).bind f

instance monad : Monad RemoteProg where
  pure a := .done (.ok a)
  bind := bind

def throw (e : BootstrapError) : RemoteProg α := .done (.error e)

def ofExcept : Except BootstrapError α → RemoteProg α := .done

/-- A request whose failure is an error. -/
def call (c : SftpCall) (op path : Text) : RemoteProg Unit :=
  .attempt c fun ok => if ok then .done (.ok ()) else .done (.error (.sftp op path))

/-- A request whose failure does not matter. -/
def bestEffort (c : SftpCall) : RemoteProg Unit := .attempt c fun _ => pure ()

end RemoteProg

open RemoteProg

/-- A missing directory has no names, and neither has one that cannot be read. -/
def listNames : RemoteProg (List Text) := .readDir pure

def writeFile (dir name : Text) (bytes : List UInt8) : RemoteProg Unit := do
  call (.create name) "open".toList (dir ++ '/' :: name)
  call (.write name bytes) "write".toList (dir ++ '/' :: name)
  call (.close name) "close".toList (dir ++ '/' :: name)

def rename (dir old new : Text) : RemoteProg Unit := do
  bestEffort (.remove new)
  call (.rename old new) "rename".toList (dir ++ '/' :: new)

def prune : List Text → RemoteProg Unit
  | [] => pure ()
  | name :: names => do
    bestEffort (.remove name)
    prune names

def isHexDigit (c : Char) : Bool := c.isDigit || ('a' ≤ c && c ≤ 'f') || ('A' ≤ c && c ≤ 'F')

def firstHash : List Text → Option Text
  | hex :: _ =>
    if hex.length = 64 ∧ hex.all isHexDigit then some (Text.toAsciiLowercase hex) else none
  | [] => none

/-- The hash in the output of a tool. -/
def parseHash : ExecOutput → Option Text
  | some (code, stdout) => if code = 0 then firstHash (Text.splitWhitespace stdout) else none
  | none => none

def remoteSha256 (name : Text) : RemoteProg (Option Text) :=
  .hash .sha256sum name fun out =>
    match parseHash out with
    | some hex => pure (some hex)
    | none => .hash .shasum name fun out => pure (parseHash out)

/-- The lowercase hexadecimal form of a digest. -/
def hexSha256 (sha256 : List UInt8 → Fin 32 → UInt8) (bytes : List UInt8) : Text :=
  (List.ofFn (sha256 bytes)).flatMap fun b =>
    [Nat.digitChar (b.toNat / 16), Nat.digitChar (b.toNat % 16)]

section
variable (sha256 : List UInt8 → Fin 32 → UInt8)

/-- The hash of the pushed file: as a remote tool has it, or of the bytes as they read back. -/
def actualSha256 (name : Text) : RemoteProg Text := do
  match ← remoteSha256 name with
  | some hex => pure hex
  | none => .read name fun
    | some bytes => pure (hexSha256 sha256 bytes)
    | none => pure []

def pushBinary (dir tmp name : Text) (bytes : List UInt8) : RemoteProg Unit := do
  writeFile dir tmp bytes
  .chmod tmp fun
    | some code =>
      if code = 0 then do
        let actual ← actualSha256 sha256 tmp
        if actual = hexSha256 sha256 bytes then rename dir tmp name
        else do
          bestEffort (.remove tmp)
          throw (.integrity (hexSha256 sha256 bytes) actual)
      else do
        bestEffort (.remove tmp)
        throw (.remoteCommand "chmod 755".toList (some code))
    | none => throw (.remoteCommand "chmod 755".toList none)

inductive BootstrapReport where
  | reused (triple version binaryRel : Text)
  | pushed (triple version binaryRel : Text) (bytes : Nat) (embedded devSubstitution : Bool)
deriving DecidableEq

def Bootstrap.run (b : Bootstrap) : RemoteProg BootstrapReport := do
  let triple ← ofExcept (detectTriple b.uname)
  call .start "start session".toList []
  call .mkdir "mkdir".toList b.remotePath
  call .mkdirBin "mkdir".toList b.binDir
  let entries ← listNames
  let name := binaryName b.version triple
  let old := stale entries b.version triple
  if name ∈ entries ∧ b.forcePush = false then do
    prune old
    pure (.reused triple b.version (binaryRelPath b.version triple))
  else do
    let source ← ofExcept (b.binaryForTriple triple)
    pushBinary sha256 b.binDir (b.tmpName name) name source.bytes
    prune old
    pure (.pushed triple b.version (binaryRelPath b.version triple) source.bytes.length
      source.embedded source.devSubstitution)

/-- What a request can do to the directory. Any request can be refused, or carried out without its
answer coming back; what is stored may differ from what was written. -/
inductive Effect (d : BinDir) : SftpCall → Bool → BinDir → Prop where
  | refused {c : SftpCall} : Effect d c false d
  | started : Effect d .start true d
  | made : Effect d .mkdir true d
  | madeBin : Effect d .mkdirBin true d
  | created {n : Text} {mode : Nat} {ok : Bool} : Effect d (.create n) ok (d.insert n ⟨[], mode⟩)
  | wrote {n : Text} {bytes stored : List UInt8} {f : RemoteFile} {ok : Bool} : d[n]? = some f →
      Effect d (.write n bytes) ok (d.insert n ⟨stored, f.mode⟩)
  | unlinked {n : Text} {bytes : List UInt8} : d[n]? = none → Effect d (.write n bytes) true d
  | closed {n : Text} : Effect d (.close n) true d
  | removed {n : Text} {ok : Bool} : Effect d (.remove n) ok (d.erase n)
  | renamed {old new : Text} {f : RemoteFile} {ok : Bool} : d[old]? = some f →
      Effect d (.rename old new) ok ((d.insert new f).erase old)

/-- One request and its answer. A tool that yields a hash yields that of the file. -/
inductive Serves (d : BinDir) : RemoteProg α → BinDir → RemoteProg α → Prop where
  | listed {names : List Text} {k : List Text → RemoteProg α} : names = [] ∨ names = d.keys →
      Serves d (.readDir k) d (k names)
  | attempted {c : SftpCall} {ok : Bool} {d' : BinDir} {k : Bool → RemoteProg α} :
      Effect d c ok d' → Serves d (.attempt c k) d' (k ok)
  | chmodded {n : Text} {f : RemoteFile} {code : Option Int} {k : Option Int → RemoteProg α} :
      d[n]? = some f → Serves d (.chmod n k) (d.insert n ⟨f.bytes, 0o755⟩) (k code)
  | unchanged {n : Text} {code : Option Int} {k : Option Int → RemoteProg α} : code ≠ some 0 →
      Serves d (.chmod n k) d (k code)
  | hashed {tool : HashTool} {n : Text} {out : ExecOutput} {k : ExecOutput → RemoteProg α} :
      (∀ hex, parseHash out = some hex → ∃ f, d[n]? = some f ∧ hex = hexSha256 sha256 f.bytes) →
      Serves d (.hash tool n k) d (k out)
  | readBack {n : Text} {k : Option (List UInt8) → RemoteProg α} {bytes : Option (List UInt8)} :
      (∀ b, bytes = some b → ∃ f, d[n]? = some f ∧ b = f.bytes) →
      Serves d (.read n k) d (k bytes)

/-- A request that goes well, if it can. -/
def perform (d : BinDir) : SftpCall → Bool × BinDir
  | .start | .mkdir | .mkdirBin | .close _ => (true, d)
  | .create n => (true, d.insert n ⟨[], 0o755⟩)
  | .write n bytes => match d[n]? with
    | some f => (true, d.insert n ⟨f.bytes ++ bytes, f.mode⟩)
    | none => (true, d)
  | .remove n => (d.contains n, d.erase n)
  | .rename old new => match d[old]? with
    | some f => (true, (d.insert new f).erase old)
    | none => (false, d)

/-- What a hash tool prints. -/
def hashLine (hex name : Text) : Text := hex ++ "  ".toList ++ name ++ ['\n']

/-- A program on a host where nothing fails and no one else is at work, with such tools. -/
def serve (tools : HashTool → Bool) : BinDir → RemoteProg α → Except BootstrapError α × BinDir
  | d, .done res => (res, d)
  | d, .readDir k => serve tools d (k d.keys)
  | d, .attempt c k => serve tools (perform d c).2 (k (perform d c).1)
  | d, .chmod n k => match d[n]? with
    | some f => serve tools (d.insert n ⟨f.bytes, 0o755⟩) (k (some 0))
    | none => serve tools d (k (some 1))
  | d, .hash tool n k => match d[n]?, tools tool with
    | some f, true => serve tools d (k (some (0, hashLine (hexSha256 sha256 f.bytes) n)))
    | _, _ => serve tools d (k (some (127, [])))
  | d, .read n k => serve tools d (k (d[n]?.map RemoteFile.bytes))

end

theorem getElem?_stored (d : BinDir) (n m : Text) (f : RemoteFile) :
    (d.insert n f)[m]? = if n = m then some f else d[m]? := by
  simp only [Std.ExtTreeMap.getElem?_insert, Std.compare_eq_iff_eq]

theorem getElem?_removed (d : BinDir) (n m : Text) :
    (d.erase n)[m]? = if n = m then none else d[m]? := by
  simp only [Std.ExtTreeMap.getElem?_erase, Std.compare_eq_iff_eq]

theorem hexSha256_ne_nil {sha256 : List UInt8 → Fin 32 → UInt8} (bytes : List UInt8) :
    hexSha256 sha256 bytes ≠ [] := by
  rw [hexSha256, List.ofFn_succ, List.flatMap_cons]
  exact List.append_ne_nil_of_left_ne_nil (List.cons_ne_nil _ _) _

theorem mem_stale {entries : List Text} {n version triple : Text}
    (h : n ∈ stale entries version triple) : ofFamily triple n = true := by
  have hn := (List.mem_filter.1 h).2
  rw [Bool.and_eq_true] at hn
  exact hn.1

theorem ofFamily_binaryName (version triple : Text) :
    ofFamily triple (binaryName version triple) = true := by
  rw [ofFamily, binaryName, Bool.and_eq_true, List.isPrefixOf_iff_prefix, List.isSuffixOf_iff_suffix,
    List.append_assoc]
  exact ⟨List.prefix_append _ _, List.suffix_append_of_suffix (List.suffix_append _ _)⟩

namespace Bootstrap

/-- The file a bootstrap writes before it renames it. -/
def Temporary (b : Bootstrap) (n : Text) : Prop :=
  ∃ triple, detectTriple b.uname = .ok triple ∧ n = b.tmpName (binaryName b.version triple)

theorem not_temporary {b : Bootstrap} {triple n : Text} (h : ofFamily triple n = true) :
    ¬b.Temporary n := by
  rintro ⟨_, _, rfl⟩
  rw [ofFamily, Bool.and_eq_true, List.isPrefixOf_iff_prefix] at h
  have hhead := (List.cons_prefix_cons.1 h.1).1
  exact absurd hhead (by decide)

end Bootstrap

end Tomo
