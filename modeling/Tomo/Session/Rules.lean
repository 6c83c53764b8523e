import Tomo.Session.State

namespace Tomo
set_option autoImplicit true

/-- A glob pattern, and what it assigns to the paths it matches. -/
structure Rule where
  pattern : List Char
  cls : PathClass
  direction : Direction
deriving DecidableEq

def defaultIgnorePatterns : List String :=
  [
    "**/*.swp", "**/*.swx", "**/.*.sw?", "**/*~", "**/.#*", "**/#*#", "**/4913", "**/.DS_Store",
    "**/Thumbs.db", "**/*.sqlite-wal", "**/*.sqlite-shm", "**/*.sqlite-journal", "**/*.db-wal",
    "**/*.db-shm", "**/*.db-journal", "**/.git", "**/.git/**", "**/node_modules",
    "**/node_modules/**", "**/.venv", "**/.venv/**", "**/venv", "**/venv/**", "**/__pycache__",
    "**/__pycache__/**", "**/.pytest_cache", "**/.pytest_cache/**", "**/.mypy_cache",
    "**/.mypy_cache/**", "**/.ruff_cache", "**/.ruff_cache/**", "**/.terraform",
    "**/.terraform/**", "**/.idea", "**/.idea/**", "**/.vscode", "**/.vscode/**", "**/.vs",
    "**/.vs/**", "**/.fleet", "**/.fleet/**", "**/.zed", "**/.zed/**", "**/*.sublime-workspace"
  ]

def defaultIgnoreRules : List Rule :=
  defaultIgnorePatterns.map fun pattern => ⟨pattern.toList, .ignored, .both⟩

/-- A trailing slash means everything below. -/
def expandPattern (pattern : List Char) : List Char :=
  if pattern.getLast? = some '/' then pattern ++ ['*', '*'] else pattern

def isTomoInternal (path : List Char) : Bool :=
  decide (path = tomoDir) || decide (tomoDir ++ ['/'] <+: path)

/-- The third-party compiler of glob patterns, with `*` kept inside one component. -/
abbrev Globs := List Char → Option (List Char → Bool)

inductive ConfigError where
  | glob (pattern : List Char)
deriving DecidableEq

/-- The last matching rule decides; a path that none matches is synced and versioned. -/
def classifyBy (effective : List (Rule × (List Char → Bool))) (path : List Char) :
    Classification :=
  if isTomoInternal path then ⟨.ignored, .both⟩
  else
    match (effective.filter fun r => r.2 path).getLast? with
    | some (rule, _) => ⟨rule.cls, rule.direction⟩
    | none => ⟨.syncedVersioned, .both⟩

/-- The defaults, when they are on, stand before the rules of the user. -/
def Config.fromRaw (globs : Globs) (defaultIgnores : Bool) (rules : List Rule) :
    Except ConfigError Config := do
  let effective := (if defaultIgnores then defaultIgnoreRules else []) ++ rules
  let compiled ← effective.mapM fun rule =>
    match globs (expandPattern rule.pattern) with
    | some m => .ok (rule, m)
    | none => .error (.glob rule.pattern)
  pure ⟨fun p => classifyBy compiled p.raw⟩

end Tomo
