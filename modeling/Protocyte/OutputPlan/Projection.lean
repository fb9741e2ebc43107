import Protocyte.OutputPlan.Paths

/-! Absolute paths and what an unchanged file system says about them: their projection, and whether
two directories overlap. -/
namespace Protocyte.OutputPlan

open Foundation

inductive FileKind
  | directory
  | regular
  | symlink
  | other
deriving DecidableEq, Repr

/-- What `os.stat_result` tells about an entry. -/
structure Observed where
  kind : FileKind
  mountPoint : Bool
  device : ℕ
  inode : ℕ
deriving DecidableEq, Repr

inductive ObservationError
  | notFound
  | other
deriving DecidableEq, Repr

/-- `pathlib`, `os.path` and the answers of the file system. A path is what its text says, a
normalised one stays as it is, and a parent has fewer parts. -/
structure Host (P : Type) where
  windows : Bool
  path : Text → P
  text : P → Text
  path_text : ∀ p, path (text p) = p
  parts : P → List Text
  isAbsolute : P → Bool
  normpath : Text → Text
  normpath_again : ∀ t, path (normpath (text (path (normpath t)))) = path (normpath t)
  parent : P → P
  parent_shorter : ∀ p, parent p ≠ p → (parts (parent p)).length < (parts p).length
  name : P → Text
  child : P → Text → P
  lexists : P → Bool
  lstat : P → Except ObservationError Observed
  stat : P → Except ObservationError Observed
  resolve : P → Except ObservationError P
  samefile : P → P → Except ObservationError Bool

variable {P : Type} [DecidableEq P] (host : Host P) (casefolding : Casefolding)

section Projecting

def hasControlCharacter (text : Text) : Bool :=
  text.any ['\x00', '\r', '\n'].contains

def requireAbsolute (path : P) (description : String) : Result P :=
  if !host.isAbsolute path || hasControlCharacter (host.text path) then
    failed (description ++ " must be an absolute path without control characters") (host.text path)
  else .ok (host.path (host.normpath (host.text path)))

def statIsLink (observed : Observed) : Bool :=
  decide (observed.kind = .symlink) || host.windows && observed.mountPoint

def isLink (path : P) : Bool :=
  match host.lstat path with
  | .ok observed => statIsLink host observed
  | .error .notFound => false
  | .error .other => true

/-- The loop to the nearest component that exists, with the names passed on the way. -/
def nearestExisting (path existing : P) (suffix : List Text) : Result (P × List Text) :=
  if host.lexists existing then .ok (existing, suffix)
  else if _h : host.parent existing = existing then
    failed "could not project filesystem path" (host.text path)
  else nearestExisting path (host.parent existing) (host.name existing :: suffix)
termination_by (host.parts existing).length
decreasing_by exact host.parent_shorter existing _h

/-- A path and those above it. -/
def ancestors (cursor : P) : List P :=
  if _h : host.parent cursor = cursor then [cursor] else cursor :: ancestors (host.parent cursor)
termination_by (host.parts cursor).length
decreasing_by exact host.parent_shorter cursor _h

/-- `_existing_chain` of a path that exists. -/
def existingChain (path : P) : List P := (ancestors host path).reverse

/-- The last of eight attempts fails like the first one while the file system does not change. -/
def changedRepeatedly {α : Type} (path : P) : Result α :=
  failed "filesystem path changed repeatedly while it was being projected" (host.text path)

def projectPath (path : P) (leafMayBeFile : Bool) : Result P := do
  let path ← requireAbsolute host path "filesystem path"
  let (existing, suffix) ← nearestExisting host path path []
  if (existingChain host existing).any (isLink host) then
    failed "filesystem path contains a symbolic link or junction" (host.text path)
  else
    match host.stat existing with
    | .error .notFound => changedRepeatedly host path
    | .error .other => failed "could not inspect filesystem path" (host.text existing)
    | .ok observed =>
      if observed.kind ≠ .directory ∧
          ¬(leafMayBeFile = true ∧ existing = path ∧ observed.kind = .regular) then
        failed "filesystem path has a non-directory ancestor" (host.text existing)
      else
        match host.resolve existing with
        | .error .notFound => changedRepeatedly host path
        | .error .other => failed "could not resolve filesystem path" (host.text existing)
        | .ok projected =>
          if suffix.any [[], ['.'], ['.', '.']].contains then
            failed "filesystem path contains an unsafe component" (host.text path)
          else .ok (host.path (host.normpath (host.text (suffix.foldl host.child projected))))

/-- `os.fspath(path).replace("\\", "/").casefold()` -/
def portableText (path : P) : Text := casefolding.text (replaceBackslashes (host.text path))

def pathKey (sha256 : Sha256) (path : P) : Result Text := do
  let projected ← projectPath host path false
  return hexdigest (sha256.digest (Utf8.encode (portableText host casefolding projected)))

end Projecting

section Overlapping

/-- `text.rstrip("/")` -/
def stripSlashes (text : Text) : Text := (text.reverse.dropWhile (· = '/')).reverse

def projectedContains (parent child : P) : Bool :=
  let parentIdentity := stripSlashes (portableText host casefolding parent)
  let childIdentity := stripSlashes (portableText host casefolding child)
  decide (childIdentity = parentIdentity) || (parentIdentity ++ ['/']).isPrefixOf childIdentity

/-- The loop of `_physical_location_key` up to a directory that exists. -/
def physicalLocationKeyFrom (path current : P) (suffix : List Text) :
    Result (ℕ × ℕ × List Text) :=
  match host.lstat current with
  | .ok observed =>
    if statIsLink host observed then
      failed "filesystem path contains a symbolic link or junction" (host.text path)
    else if observed.kind ≠ .directory then
      failed "filesystem path has a non-directory ancestor" (host.text current)
    else .ok (observed.device, observed.inode, suffix)
  | .error .notFound =>
    if _h : host.parent current = current then
      failed "could not identify physical filesystem location" (host.text path)
    else
      physicalLocationKeyFrom path (host.parent current)
        (casefolding.text (host.name current) :: suffix)
  | .error .other => failed "could not identify physical filesystem location" (host.text path)
termination_by (host.parts current).length
decreasing_by exact host.parent_shorter current _h

def physicalLocationKey (path : P) : Result (ℕ × ℕ × List Text) :=
  physicalLocationKeyFrom host casefolding path path []

def samePhysicalPath (first second : P) : Bool :=
  decide (first = second) ||
    match host.samefile first second with
    | .ok same => same
    | .error _ => false

/-- The loop over the parents of the child. -/
def physicallyContainsFrom (parent : P) (parentKey : ℕ × ℕ × List Text) (current : P) :
    Result Bool := do
  if samePhysicalPath host parent current then return true
  else
    let key ← physicalLocationKey host casefolding current
    if parentKey = key then return true
    else if _h : host.parent current = current then return false
    else physicallyContainsFrom parent parentKey (host.parent current)
termination_by (host.parts current).length
decreasing_by exact host.parent_shorter current _h

def projectedPhysicallyContains (parent child : P) : Result Bool := do
  let parentKey ← physicalLocationKey host casefolding parent
  physicallyContainsFrom host casefolding parent parentKey child

def pathsOverlap (first second : P) : Result Bool := do
  let first ← projectPath host first false
  let second ← projectPath host second false
  if projectedContains host casefolding first second ||
      projectedContains host casefolding second first then
    return true
  else if ← projectedPhysicallyContains host casefolding first second then return true
  else projectedPhysicallyContains host casefolding second first

end Overlapping

section Stability

variable {host}

/-- The file system does not change: a projected path is projected to itself. -/
def Stable (host : Host P) : Prop :=
  ∀ p q, projectPath host p false = .ok q → projectPath host q false = .ok q

end Stability

end Protocyte.OutputPlan
