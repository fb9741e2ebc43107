import Protocyte.OutputPlan.Projection
import Mathlib.Data.Char
import Mathlib.Data.List.Lex
import Mathlib.Data.List.Sort
import Mathlib.Data.Prod.Lex

/-! Output plans: how they are read from the file that CMake writes, the payload they are stored as,
and how they are loaded from it. -/
namespace Protocyte.OutputPlan

open Foundation

structure PlanOutput where
  target : Text
  relative : Text
deriving DecidableEq, Repr

structure PlanTarget (P : Type) where
  identity : Text
  staging : P
deriving DecidableEq, Repr

structure Plan (P : Type) where
  root : P
  buildRoot : P
  buildId : Text
  targets : List (PlanTarget P)
  outputs : List PlanOutput
deriving DecidableEq, Repr

/-- The values of the JSON documents stored here. -/
inductive Value
  | text (value : Text)
  | number (value : ℕ)
  | list (values : List Value)
  | object (items : List (Text × Value))

abbrev Mapping := List (Text × Value)

/-- What the reader takes from its surroundings. -/
structure Setting (P : Type) where
  host : Host P
  casefolding : Casefolding
  sha256 : Sha256
  /-- `str(value)` of a value that is no text -/
  render : Value → Text

variable {P : Type} [DecidableEq P] (setting : Setting P)

section Payload

def protocolVersion : ℕ := 1

def hexDigits (n : ℕ) : Text := [n / 4096 % 16, n / 256 % 16, n / 16 % 16, n % 16].map hexDigit

/-- A character as `json.dumps` writes it. -/
def jsonCharacter (c : Char) : Text :=
  if c = '"' then ['\\', '"']
  else if c = '\\' then ['\\', '\\']
  else if c = '\n' then ['\\', 'n']
  else if c = '\r' then ['\\', 'r']
  else if c = '\t' then ['\\', 't']
  else if c = '\x0c' then ['\\', 'f']
  else if c = '\x08' then ['\\', 'b']
  else if 32 ≤ c.toNat ∧ c.toNat < 127 then [c]
  else if c.toNat < 0x10000 then '\\' :: 'u' :: hexDigits c.toNat
  else '\\' :: 'u' :: hexDigits (0xD800 + (c.toNat - 0x10000) / 1024) ++
    '\\' :: 'u' :: hexDigits (0xDC00 + (c.toNat - 0x10000) % 1024)

def jsonText (text : Text) : Text := '"' :: text.flatMap jsonCharacter ++ ['"']

mutual

def Value.dump : Value → Text
  | .text value => jsonText value
  | .number value => Nat.toDigits 10 value
  | .list values => '[' :: [','].intercalate (dumpValues values) ++ [']']
  | .object items => '{' :: [','].intercalate (((dumpItems items).insertionSort fun a b =>
      a.1 ≤ b.1).map fun item => jsonText item.1 ++ ':' :: item.2) ++ ['}']

def dumpValues : List Value → List Text
  | [] => []
  | value :: values => value.dump :: dumpValues values

def dumpItems : List (Text × Value) → List (Text × Text)
  | [] => []
  | (key, value) :: items => (key, value.dump) :: dumpItems items

end

def canonicalJson (mapping : Mapping) : List UInt8 :=
  Utf8.encode ((Value.object mapping).dump ++ ['\n'])

def outputPayload (output : PlanOutput) : Value :=
  .object [("path".toList, .text output.relative), ("target".toList, .text output.target)]

def targetPayload (host : Host P) (target : PlanTarget P) : Value :=
  .object [("id".toList, .text target.identity),
    ("staging".toList, .text (host.text target.staging))]

def Plan.payload (host : Host P) (plan : Plan P) : Mapping :=
  [("build_id".toList, .text plan.buildId),
    ("build_root".toList, .text (host.text plan.buildRoot)),
    ("outputs".toList, .list (plan.outputs.map outputPayload)),
    ("root".toList, .text (host.text plan.root)),
    ("targets".toList, .list (plan.targets.map (targetPayload host))),
    ("version".toList, .number protocolVersion)]

def Plan.digest (plan : Plan P) : Text :=
  hexdigest (setting.sha256.digest (canonicalJson (plan.payload setting.host)))

/-- `{**plan.payload, "sha256": plan.digest}` -/
def Plan.stored (plan : Plan P) : Mapping :=
  plan.payload setting.host ++ [("sha256".toList, .text (plan.digest setting))]

end Payload

section Checks

def isSha256 (value : Text) : Bool :=
  decide (value.length = 64) && value.all "0123456789abcdef".toList.contains

def validateStagingPath (root : Option P) (identity : Text) (path : P) : Result P := do
  let path ← requireAbsolute setting.host path "generation staging directory"
  let path ← projectPath setting.host path false
  match root with
  | none => return path
  | some root =>
    let expected ← projectPath setting.host (setting.host.child (setting.host.parent root)
      (".protocyte-generation-staging-".toList ++ identity)) false
    if path ≠ expected then
      failed "output plan target metadata contains an unexpected staging directory"
        (setting.host.text path)
    else if ← pathsOverlap setting.host setting.casefolding root path then
      failed "output plan generation staging overlaps its own output root" (setting.host.text path)
    else return path

def validatePlanTargets (targets : List (PlanTarget P)) (outputs : List PlanOutput) (source : Text) :
    Result Unit :=
  let identities := targets.map PlanTarget.identity
  let stagingPaths := targets.map fun target =>
    setting.casefolding.text (setting.host.text target.staging)
  if ¬identities.Nodup ∨ ¬stagingPaths.Nodup then
    failed "output plan repeats target metadata" source
  else if !(identities.all (outputs.map PlanOutput.target).contains &&
      (outputs.map PlanOutput.target).all identities.contains) then
    failed "output plan target metadata does not match its outputs" source
  else .ok ()

def sortTargets (targets : List (PlanTarget P)) : List (PlanTarget P) :=
  targets.insertionSort fun a b => a.identity ≤ b.identity

def sortOutputs (outputs : List PlanOutput) : List PlanOutput :=
  outputs.insertionSort fun a b => toLex (a.relative, a.target) ≤ toLex (b.relative, b.target)

end Checks

section Reading

def planHeader : Text := "protocyte-output-plan-v1".toList

/-- The text of a file opened with universal newlines. -/
def universalNewlines : Text → Text
  | [] => []
  | '\r' :: '\n' :: rest => '\n' :: universalNewlines rest
  | '\r' :: rest => '\n' :: universalNewlines rest
  | c :: rest => c :: universalNewlines rest

/-- Where `str.splitlines` splits an ASCII text. -/
def isLineBreak (c : Char) : Bool :=
  ['\n', '\r', '\x0b', '\x0c', '\x1c', '\x1d', '\x1e'].contains c

/-- `text.splitlines()` behind the reversed start of a line -/
def splitlinesFrom (line : Text) : Text → List Text
  | [] => if line = [] then [] else [line.reverse]
  | c :: rest =>
    if isLineBreak c then line.reverse :: splitlinesFrom [] rest else splitlinesFrom (c :: line) rest

def planLines (bytes : List UInt8) : List Text :=
  splitlinesFrom [] (universalNewlines (bytes.map fun byte => Char.ofNat byte.toNat))

/-- `text.partition(separator)`, or nothing where the separator is empty. -/
def partitionAt (separator : Char) (text : Text) : Option (Text × Text) :=
  match text.dropWhile (· ≠ separator) with
  | [] => none
  | _ :: rest => some (text.takeWhile (· ≠ separator), rest)

def isSpace (c : Char) : Bool := [' ', '\t', '\n', '\x0b', '\x0c', '\r'].contains c

def hexValue (c : Char) : Option ℕ :=
  if '0' ≤ c ∧ c ≤ '9' then some (c.toNat - 48)
  else if 'a' ≤ c ∧ c ≤ 'f' then some (c.toNat - 87)
  else if 'A' ≤ c ∧ c ≤ 'F' then some (c.toNat - 55)
  else none

/-- `bytes.fromhex(value)` -/
def fromHex : Text → Option (List UInt8)
  | [] => some []
  | [c] => if isSpace c then some [] else none
  | c :: d :: rest =>
    if isSpace c then fromHex (d :: rest)
    else
      match hexValue c, hexValue d with
      | some high, some low => (fromHex rest).map (UInt8.ofNat (high * 16 + low) :: ·)
      | _, _ => none

def decodeHex (value : Text) : Result Text :=
  match (fromHex value).bind Utf8.decode with
  | none => failed "output plan contains invalid UTF-8 hex data" value
  | some decoded =>
    if hasControlCharacter decoded then
      failed "output plan contains a path with forbidden control characters" decoded
    else .ok decoded

structure Reading (P : Type) where
  scalar : List (Text × Text)
  targets : List (PlanTarget P)
  outputs : List PlanOutput

def readTarget (source value : Text) : Result (PlanTarget P) :=
  match partitionAt '|' value with
  | none => failed "output plan contains invalid target metadata" source
  | some (identity, encodedStaging) =>
    if !isSha256 identity then failed "output plan contains invalid target metadata" source
    else do
      let decoded ← decodeHex encodedStaging
      let staging ← validateStagingPath setting none identity (setting.host.path decoded)
      return ⟨identity, staging⟩

def readOutput (source value : Text) : Result PlanOutput :=
  match partitionAt '|' value with
  | none => failed "output plan contains an invalid target identity" source
  | some (target, encodedRelative) =>
    if !isSha256 target then failed "output plan contains an invalid target identity" source
    else do
      let decoded ← decodeHex encodedRelative
      let relative ← validateRelativePath setting.casefolding decoded
      return ⟨target, relative⟩

def readLine (source : Text) (reading : Reading P) (line : Text) : Result (Reading P) :=
  match partitionAt '=' line with
  | none => failed "output plan contains a malformed line" source
  | some (key, value) =>
    if key = "target".toList then do
      let target ← readTarget setting source value
      return { reading with targets := reading.targets ++ [target] }
    else if key = "output".toList then do
      let output ← readOutput setting source value
      return { reading with outputs := reading.outputs ++ [output] }
    else if (reading.scalar.map Prod.fst).contains key then
      failed "output plan repeats an identity field" source
    else .ok { reading with scalar := reading.scalar ++ [(key, value)] }

/-- Keys are those expected, in whatever order. -/
def sameKeys {α : Type} (items : List (Text × α)) (expected : List Text) : Bool :=
  (items.map Prod.fst).all expected.contains && expected.all (items.map Prod.fst).contains

/-- The loop over the outputs that looks for equivalent paths, with those before them. -/
def checkUnique : List PlanOutput → List PlanOutput → Result Unit
  | _, [] => .ok ()
  | seen, output :: outputs =>
    if (seen.map PlanOutput.relative).contains output.relative then
      failed "output plan repeats generated path" output.relative
    else if (seen.map fun other => setting.casefolding.text other.relative).contains
        (setting.casefolding.text output.relative) then
      failed "output plan contains portable-equivalent generated paths" output.relative
    else checkUnique (output :: seen) outputs

/-- What is done with the lines once they are read. -/
def assemble (source : Text) (reading : Reading P) : Result (Plan P) := do
  if !sameKeys reading.scalar ["root-hex".toList, "build-root-hex".toList] then
    failed "output plan is missing required identity fields" source
  else
    -- the lookups succeed: the keys are checked
    let rootText ← decodeHex ((reading.scalar.lookup "root-hex".toList).getD [])
    let root ← projectPath setting.host (setting.host.path rootText) false
    let buildRootText ← decodeHex ((reading.scalar.lookup "build-root-hex".toList).getD [])
    let buildRoot ← projectPath setting.host (setting.host.path buildRootText) false
    let buildId ← pathKey setting.host setting.casefolding setting.sha256 buildRoot
    let validatedTargets ← reading.targets.mapM fun target => do
      let staging ← validateStagingPath setting (some root) target.identity target.staging
      return (⟨target.identity, staging⟩ : PlanTarget P)
    validatePlanTargets setting validatedTargets reading.outputs source
    checkUnique setting [] reading.outputs
    return ⟨root, buildRoot, buildId, sortTargets validatedTargets, sortOutputs reading.outputs⟩

/-- `Plan.read` of a file with the given content, if it can be read. -/
def read (source : Text) (content : Option (List UInt8)) : Result (Plan P) :=
  match content with
  | none => failed "could not read output plan" source
  | some bytes =>
    if bytes.any fun byte => 128 ≤ byte.toNat then failed "could not read output plan" source
    else
      match planLines bytes with
      | [] => failed "output plan has an unsupported header" source
      | header :: lines =>
        if header ≠ planHeader then failed "output plan has an unsupported header" source
        else do
          let reading ← lines.foldlM (readLine setting source) ⟨[], [], []⟩
          assemble setting source reading

end Reading

section Loading

def Value.str : Value → Text
  | .text value => value
  | value => setting.render value

def Value.isText (value : Value) (text : Text) : Bool :=
  match value with
  | .text other => decide (other = text)
  | _ => false

/-- `payload[key]` of a key that is there -/
def item (payload : Mapping) (key : String) : Value := (payload.lookup key.toList).getD (.list [])

def loadOutput (source : Text) : Value → Result PlanOutput
  | .object items =>
    if !sameKeys items ["path".toList, "target".toList] ||
        !isSha256 ((item items "target").str setting) then
      failed "configured output plan contains a malformed output" source
    else do
      let relative ← validateRelativePath setting.casefolding ((item items "path").str setting)
      return ⟨(item items "target").str setting, relative⟩
  | _ => failed "configured output plan contains a malformed output" source

def loadTarget (source : Text) (root : P) : Value → Result (PlanTarget P)
  | .object items =>
    if !sameKeys items ["id".toList, "staging".toList] ||
        !isSha256 ((item items "id").str setting) then
      failed "configured output plan contains malformed target metadata" source
    else do
      let identity := (item items "id").str setting
      let staging ← validateStagingPath setting (some root) identity
        (setting.host.path ((item items "staging").str setting))
      return ⟨identity, staging⟩
  | _ => failed "configured output plan contains malformed target metadata" source

def payloadKeys : List Text :=
  ["build_id".toList, "build_root".toList, "outputs".toList, "root".toList, "sha256".toList,
    "targets".toList, "version".toList]

def fromPayload (payload : Mapping) (source : Text) : Result (Plan P) :=
  match sameKeys payload payloadKeys, item payload "version", item payload "outputs",
      item payload "targets" with
  | true, .number 1, .list outputValues, .list targetValues => do
    let root ← projectPath setting.host (setting.host.path ((item payload "root").str setting)) false
    let buildRoot ← projectPath setting.host
      (setting.host.path ((item payload "build_root").str setting)) false
    let outputs ← outputValues.mapM (loadOutput setting source)
    let targets ← targetValues.mapM (loadTarget setting source root)
    validatePlanTargets setting targets outputs source
    let buildId ← pathKey setting.host setting.casefolding setting.sha256 buildRoot
    let plan : Plan P := ⟨root, buildRoot, buildId, sortTargets targets, sortOutputs outputs⟩
    if !(item payload "build_id").isText plan.buildId ||
        !(item payload "sha256").isText (plan.digest setting) then
      failed "configured output plan identity is malformed" source
    else return plan
  | _, _, _, _ => failed "configured output plan is malformed" source

end Loading

end Protocyte.OutputPlan
