import Tomo.Engine.Pressure
import Tomo.Lib.Toml
import Tomo.Session.Rules
import Tomo.Transport.SshConfig

namespace Tomo
set_option autoImplicit true

namespace Connect

structure Remote where
  host : Text
  path : Text
  identity : Option Text
deriving DecidableEq

structure History where
  mode : HistoryMode
deriving DecidableEq

structure Sync where
  defaultIgnores : Bool
deriving DecidableEq

/-- The sections of the configuration, as they appear on disk. -/
structure RawConfig where
  history : History
  sync : Sync
  remote : Option Remote
  rules : List Rule
deriving DecidableEq

inductive ConnectAction where
  | writeAndValidate
  | revalidateExisting
deriving DecidableEq

inductive ConnectError where
  | message (text : Text)
  | io (op : Text)
  | parse
  | config (e : ConfigError)
deriving DecidableEq

/-- The third-party code: the reader of documents, the decoders of the single sections, from nothing
where the section is missing, and the compiler of patterns. -/
structure Crates where
  toml : Text → Option Toml.Table
  history : Option Toml.Value → Option History
  sync : Option Toml.Value → Option Sync
  remote : Option Toml.Value → Option (Option Remote)
  rules : Option Toml.Value → Option (List Rule)
  globs : Globs

def historyKey : Text := "history".toList

def syncKey : Text := "sync".toList

def remoteKey : Text := "remote".toList

def rulesKey : Text := "rules".toList

namespace Crates
variable (k : Crates)

/-- Each section is decoded from its own entry, and no other entry may be there. -/
def decode (doc : Toml.Table) : Option RawConfig := do
  if doc.all fun e => e.1 ∈ [historyKey, syncKey, remoteKey, rulesKey] then
    pure {
      history := ← k.history (doc.lookup historyKey)
      sync := ← k.sync (doc.lookup syncKey)
      remote := ← k.remote (doc.lookup remoteKey)
      rules := ← k.rules (doc.lookup rulesKey) }
  else none

/-- The sections, and the function that the compiled rules compute. -/
def fromTomlStr (text : Text) : Except ConnectError (RawConfig × Config) :=
  match (k.toml text).bind k.decode with
  | none => .error .parse
  | some raw =>
    match Config.fromRaw k.globs raw.sync.defaultIgnores raw.rules with
    | .ok config => .ok (raw, config)
    | .error e => .error (.config e)

end Crates

def decideConnect (existing : Option Remote) (target remotePath : Text) (force : Bool) :
    Except ConnectError ConnectAction :=
  match existing with
  | none => .ok .writeAndValidate
  | some remote =>
    if remote.host = target ∧ remote.path = remotePath then .ok .revalidateExisting
    else if force then .ok .writeAndValidate
    else .error (.message ("a different [remote] is already configured (".toList ++ remote.host ++
      ":".toList ++ remote.path ++ ("); re-run with --force to overwrite it, or use the same " ++
        "target to revalidate").toList))

/-- A carriage return before the newline is part of the line's end. -/
def lineEnd (line : Text) : Text := if line.getLast? = some '\r' then line.dropLast else line

def linesFrom (line : Text) : Text → List Text
  | [] => if line = [] then [] else [line]
  | c :: s => if c = '\n' then lineEnd line :: linesFrom [] s else linesFrom (line ++ [c]) s

/-- The lines without their ends; nothing follows a last newline. -/
def strLines (s : Text) : List Text := linesFrom [] s

def unlines (ls : List Text) : Text := ls.flatMap (· ++ ['\n'])

def tomlEscape (s : Text) : Text :=
  (s.flatMap fun c => if c = '\\' then ['\\', '\\'] else [c]).flatMap
    fun c => if c = '"' then ['\\', '"'] else [c]

def remoteHeader : Text := "[remote]".toList

/-- A line that is taken for a table header. -/
def Bracketed (line : Text) : Prop := (Text.trim line).head? = some '['

instance (line : Text) : Decidable (Bracketed line) := inferInstanceAs (Decidable (_ = _))

/-- The lines that are kept; those of the section go with its header. -/
def keptLines (inRemote : Bool) : List Text → List Text
  | [] => []
  | line :: ls =>
    if Text.trim line = remoteHeader then keptLines true ls
    else if inRemote then
      if Bracketed line then line :: keptLines false ls else keptLines true ls
    else line :: keptLines false ls

def stripRemoteSection (text : Text) : Text := unlines (keptLines false (strLines text))

/-- An entry with its value between quotes, as it is. -/
def entryLine (key body : Text) : Text := key ++ " = \"".toList ++ body ++ "\"\n".toList

def sectionHeader : Text := "\n[remote]\n".toList

/-- What is written for a host, a path and what is to stand for an identity. -/
def sectionBody (host path : Text) (identity : Option Text) : Text :=
  entryLine "host".toList host ++ entryLine "path".toList path ++
    match identity with
    | some id => entryLine "identity".toList id
    | none => []

def remoteSection (host path : Text) (identity : Option Text) : Text :=
  sectionHeader ++ sectionBody host path identity

/-- What becomes of a write: an error may leave the file as it was, or with some of the text. -/
inductive Written where
  | done
  | refused
  | torn (n : Nat)
deriving DecidableEq

/-- The project directory: whether it is initialized and its configuration can be read, the text of
the configuration, and how the write will go. -/
structure Layout where
  initialized : Bool
  readable : Bool
  config : Option Text
  write : Written

namespace Layout

/-- The file after a write. -/
def written (layout : Layout) (text : Text) : Layout :=
  match layout.write with
  | .done => { layout with config := some text }
  | .refused => layout
  | .torn n => { layout with config := some (text.take n) }

/-- The text with the new section in place of the old one. -/
def updatedConfig (existing target remotePath : Text) (identity : Option Text) : Text :=
  let stripped := stripRemoteSection existing
  let ended :=
    if stripped ≠ [] ∧ stripped.getLast? ≠ some '\n' then stripped ++ ['\n'] else stripped
  ended ++ remoteSection target remotePath (identity.map tomlEscape)

def applyRemoteConfig (k : Crates) (layout : Layout) (target remotePath : Text) (force : Bool)
    (identity : Option Text) : Except ConnectError (Remote × ConnectAction) × Layout :=
  if layout.initialized = false then
    (.error (.message "not a Tomo project (no .tomo/ here) — run `tomo init` first".toList), layout)
  else if layout.readable = false then (.error (.io "read config".toList), layout)
  else
    let existing := layout.config.getD []
    match k.fromTomlStr existing with
    | .error e => (.error e, layout)
    | .ok (raw, _) =>
      match decideConnect raw.remote target remotePath force with
      | .error e => (.error e, layout)
      | .ok .revalidateExisting =>
        (.ok (⟨target, remotePath, raw.remote.bind Remote.identity⟩, .revalidateExisting), layout)
      | .ok .writeAndValidate =>
        let updated := updatedConfig existing target remotePath identity
        match k.fromTomlStr updated with
        | .error e => (.error e, layout)
        | .ok _ =>
          (if layout.write = .done then .ok (⟨target, remotePath, identity⟩, .writeAndValidate)
            else .error (.io "write config".toList), layout.written updated)

end Layout

end Connect

end Tomo
