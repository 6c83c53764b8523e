import Tomo.Engine.Pressure
import Tomo.Engine.Transition
import Tomo.History.Store
import Tomo.Lib.Effect
import Tomo.Lib.FileTree

namespace Tomo
set_option autoImplicit true

/-- The user's files, as the kernel shows them. -/
abbrev Tree := FileTree Name

def protocolVersion : Nat := 4

def inlineThreshold : Nat := 1024 * 1024

def requestBatch : Nat := 32

def sendBatchFrames : Nat := 24

def installBatchBytes : Nat := 4 * 1024 * 1024

def installBatchFiles : Nat := 1024

def installBatchMaxMs : Nat := 100

def stallRetryMs : Nat := 3000

def rescanQuiescentMs : Nat := 500

inductive PathClass where
  | syncedVersioned
  | syncedUnversioned
  | ignored
deriving DecidableEq

inductive Direction where
  | both
  | push
  | pull
deriving DecidableEq

structure Classification where
  cls : PathClass
  direction : Direction
deriving DecidableEq

/-- The effective rules of the project, as the function they compute. -/
structure Config where
  classify : RelPath → Classification

/-- The naming semantics of the local file system, probed at startup. -/
structure FsSemantics where
  caseInsensitive : Bool
  normalizesUnicode : Bool
deriving DecidableEq

/-- Why a write or a deletion was refused. -/
inductive ApplyRefused where
  | symlinkParent (component : List Name) (dest : Link Name) (escapes : Bool)
  | escapesRoot (component : List Name) (resolved : List Name)
deriving DecidableEq

inductive IoOp where
  | renameIntoPlace
  | createParent
  | writeStaging
  | setFileMode
  | removeFile
  | removeObstructing
  | writeChunk
deriving DecidableEq

inductive CliError where
  | refused (path : RelPath) (why : ApplyRefused)
  | io (op : IoOp) (path : List Name) (errno : Errno)
  | integrity (path : RelPath)
  | snapshot (path : RelPath) (errno : Errno)
  | scan (path : List Name) (errno : Errno)
  | history (e : HistoryError)
  | protocolMismatch (peer : Nat)
  | versionMismatch (peer : List Char)
  | transport
deriving DecidableEq

inductive Message where
  | hello (protocol : Nat) (binaryVersion : List Char) (replica : ReplicaId)
  | indexExchange (index : Index)
  | change (change : RemoteChange) (bytes : Option Bytes)
  | changeManifest (change : RemoteChange) (totalSize : Nat) (manifest : List ContentHash)
  | chunkRequest (hashes : List ContentHash)
  | chunkData (hash : ContentHash) (bytes : Bytes)
  | ping (nonce : Nat)
  | pong (nonce : Nat)
  | pause
  | resume
deriving DecidableEq

inductive PendingKind where
  | dirty
  | gone
deriving DecidableEq

inductive WatchSignal where
  | pending (rel : RelPath) (kind : PendingKind)
  | needsRescan
deriving DecidableEq

inductive Incoming where
  | watch (signal : WatchSignal)
  | message (msg : Message)
  | peerEof
  | protoError
  | shutdown
  | pause
  | resume
deriving DecidableEq

inductive ReconnectPlan where
  | none
  | localPeer
  | ssh
deriving DecidableEq

/-- The writable half of the link. Once broken, every send over it fails. -/
structure Transport where
  broken : Bool
deriving DecidableEq

/-- One inbound large-file assembly; its change is absorbed only when it completes. -/
structure Assembly where
  change : RemoteChange
  sig : ContentSig
  manifest : List ContentHash
  received : List ContentHash
  requested : List ContentHash
  totalSize : Nat
deriving DecidableEq

/-- The content of a staged file, written and not yet renamed into place. -/
structure StagedFile where
  bytes : Bytes
  mode : Nat
  mtime : Nat
deriving DecidableEq

def StagedFile.node (f : StagedFile) : Node Name := .file f.bytes f.mode f.mtime

/-- A file staged for the next barrier. `temp` is the staged file until it is renamed away. -/
structure PendingInstall where
  temp : Option StagedFile
  finalPath : List Name
  path : RelPath
  sig : ContentSig
deriving DecidableEq

/-- The state of one running session, with the tree, the history and the chunk files it owns. -/
structure Session where
  root : List Name
  config : Config
  fs : FsSemantics
  engine : Engine
  binaryVersion : List Char
  transport : Option Transport
  /-- Every frame written to the peer, oldest first. -/
  sent : List Message
  history : HistoryStore
  pressure : PressureController
  peerReplica : Option ReplicaId
  nowMs : Nat
  wallMs : Nat
  overSsh : Bool
  repushRequested : Bool
  connected : Bool
  helloReceived : Bool
  indexDirty : Bool
  rescanPending : Bool
  diskStalled : Bool
  lastStallRetry : Nat
  lastActivity : Nat
  paused : Bool
  pausedActed : Bool
  peerPaused : Bool
  reconnectPlan : ReconnectPlan
  assemblies : Std.ExtTreeMap RelPath Assembly
  outboundManifests : Std.ExtTreeMap RelPath (List (ContentHash × (Nat × Nat)))
  pendingChunks : List Message
  pendingSends : List RemoteChange
  pendingInstalls : List PendingInstall
  pendingRelease : Nat
  createdDirs : List (List Name)
  tree : Tree
  diskFull : Bool
  chunkFiles : Std.ExtTreeMap ContentHash Bytes

/-- A session as it starts, before it connects. -/
def Session.start (root : List Name) (config : Config) (engine : Engine) (history : HistoryStore)
    (tree : Tree) : Session where
  root
  config
  fs := ⟨false, false⟩
  engine
  binaryVersion := []
  transport := none
  sent := []
  history
  pressure := .new .adaptive {}
  peerReplica := none
  nowMs := 0
  wallMs := 0
  overSsh := false
  repushRequested := false
  connected := false
  helloReceived := false
  indexDirty := false
  rescanPending := false
  diskStalled := false
  lastStallRetry := 0
  lastActivity := 0
  paused := false
  pausedActed := false
  peerPaused := false
  reconnectPlan := .none
  assemblies := ∅
  outboundManifests := ∅
  pendingChunks := []
  pendingSends := []
  pendingInstalls := []
  pendingRelease := 0
  createdDirs := []
  tree
  diskFull := false
  chunkFiles := ∅

abbrev SessionM := Eff Session CliError

/-- The absolute path of a repo-relative one. -/
def join (root : List Name) (rel : RelPath) : List Name := root ++ rel.components

def fooPath : RelPath := ⟨['f', 'o', 'o'], by decide⟩

def firstPath : RelPath := ⟨['a'], RelPath.valid_single⟩

def secondPath : RelPath := ⟨['b'], by decide⟩

def rootDir : List Name := [['r']]

/-- A root with one file `foo` of one byte. -/
def fooTree (b : UInt8) : Tree :=
  ((FileTree.empty : Tree).put rootDir .dir).put (join rootDir fooPath) (.file [b] 0o644 7)

/-- The signature of the content `1`. -/
def oneSig : ContentSig :=
  ⟨digest 0xd63bd9a826af91c1fea371965a64e11ee20f13e46b5f52c59901136605b3a487, 1, false, 5⟩

/-- The signature of the content `2`. -/
def twoSig : ContentSig :=
  ⟨digest 0x813e9b729141e7f385afa0a2d0df3e6c3789e427ffe4aeef566a565bc8f2fe3d, 1, false, 5⟩

/-- Everything is synced, both ways, and nothing is ignored. -/
def syncAll : Config := ⟨fun _ => ⟨.syncedVersioned, .both⟩⟩

/-- An engine that has minted one version of `foo`. -/
def fooEngine : Engine :=
  .new ⟨1⟩ (Index.new.upsert fooPath (.single (VectorClock.new.tick ⟨1⟩) (.present oneSig)))

/-- A session that tracks the file `foo` on disk. -/
def fooSession : Session := .start rootDir syncAll fooEngine .new (fooTree 0x31)

/-- A change of another replica, which writes the content `1`. -/
def modifiedAt (p : RelPath) : RemoteChange := ⟨p, .modified oneSig, VectorClock.new.tick ⟨2⟩⟩

end Tomo
