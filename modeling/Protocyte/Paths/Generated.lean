import Protocyte.Foundation.Digest
import Protocyte.Foundation.Utf8
import Mathlib.Data.List.TakeWhile
import Mathlib.Data.Int.Notation

/-! The paths of generated files: the function the plugin names its files with, over text, and the
CMake functions that declare them, over the bytes of a CMake string. -/
namespace Protocyte.Paths

open Foundation

/-- The characters beyond ASCII whose upper case is made of ASCII letters. -/
def asciiUppercase (c : Char) : Option (List Char) :=
  match c.toNat with
  | 0xDF => some ['S', 'S']
  | 0x131 => some ['I']
  | 0x17F => some ['S']
  | 0xFB00 => some ['F', 'F']
  | 0xFB01 => some ['F', 'I']
  | 0xFB02 => some ['F', 'L']
  | 0xFB03 => some ['F', 'F', 'I']
  | 0xFB04 => some ['F', 'F', 'L']
  | 0xFB05 => some ['S', 'T']
  | 0xFB06 => some ['S', 'T']
  | _ => none

/-- The upper case of the other characters beyond ASCII. -/
structure Uppercase where
  table : Char → List Char
  foreign : ∀ c, 128 ≤ c.toNat → asciiUppercase c = none → ∃ d ∈ table c, 128 ≤ d.toNat

/-- `str.upper` -/
def Uppercase.upper (unicode : Uppercase) (text : List Char) : List Char :=
  text.flatMap fun c =>
    if c.toNat < 128 then [c.toUpper] else (asciiUppercase c).getD (unicode.table c)

/-- `str.removesuffix` -/
def removeSuffix {α : Type} [DecidableEq α] (suffix text : List α) : List α :=
  if suffix.isSuffixOf text then text.take (text.length - suffix.length) else text

section Plugin

variable (sha256 : Sha256) (unicode : Uppercase)

structure ValueError where
  message : String
deriving DecidableEq, Repr

def safeGeneratedPathBytes : List UInt8 :=
  Utf8.encode "ABCDEFGHIJKLMNOPQRSTUVWXYZabcdefghijklmnopqrstuvwxyz0123456789._-".toList

def maxGeneratedPathComponentBytes : ℕ := 255

def generatedFileSuffix : List Char := ".protocyte.hpp".toList

def maxGeneratedFileStemBytes : ℕ := maxGeneratedPathComponentBytes - generatedFileSuffix.length

def generatedPathDigestBytes : ℕ := 64

def generatedPathDigestSeparatorBytes : ℕ := 1

def minHashedGeneratedFilePathBytes : ℕ :=
  generatedPathDigestSeparatorBytes + generatedPathDigestBytes + generatedFileSuffix.length

def stableBudgetedGeneratedDirectoryBytes : ℕ := minHashedGeneratedFilePathBytes - 12

def windowsReservedPathNames : List (List Char) :=
  [['C', 'O', 'N'], ['P', 'R', 'N'], ['A', 'U', 'X'], ['N', 'U', 'L']] ++
    (List.range 9).map (fun index => ['C', 'O', 'M', Char.ofNat (49 + index)]) ++
    (List.range 9).map fun index => ['L', 'P', 'T', Char.ofNat (49 + index)]

/-- `text[:stop]`, which counts a negative `stop` from the end. -/
def sliceTo {α : Type} (text : List α) (stop : ℤ) : List α :=
  if 0 ≤ stop then text.take stop.toNat else text.take (text.length - (-stop).toNat)

def isSafe (escapeFirst escapeLastDot : Bool) (last index : ℕ) (byte : UInt8) : Bool :=
  let safe := decide (byte ∈ safeGeneratedPathBytes)
  let safe := if index = 0 ∧ escapeFirst then false else safe
  if index = last ∧ escapeLastDot then false else safe

/-- The text a byte contributes to a segment. -/
def segmentPart (escapeFirst escapeLastDot : Bool) (last index : ℕ) (byte : UInt8) : List Char :=
  if isSafe escapeFirst escapeLastDot last index byte then [Char.ofNat byte.toNat]
  else '~' :: (hexByte byte).map Char.toUpper

def normalizeGeneratedSegment (segment : List Char) (maxBytes : ℕ) : List Char :=
  let encoded := Utf8.encode segment
  let deviceStem := unicode.upper (segment.takeWhile (· ≠ '.'))
  let escapeFirst := windowsReservedPathNames.contains deviceStem
  let escapeLastDot := decide (segment.getLast? = some '.')
  let parts := encoded.mapIdx (segmentPart escapeFirst escapeLastDot (encoded.length - 1))
  let normalized := parts.flatten
  if normalized.length ≤ maxBytes then normalized
  else
    let digest := (hexdigest (sha256.digest encoded)).map Char.toUpper
    let prefixBytes : ℤ := maxBytes - digest.length - 1
    sliceTo normalized prefixBytes ++ '~' :: digest

def normalizeGeneratedPath (path : List Char) : List Char :=
  let segments := path.splitOn '/'
  ['/'].intercalate (segments.mapIdx fun index segment =>
    normalizeGeneratedSegment sha256 unicode segment
      (if index = segments.length - 1 then maxGeneratedFileStemBytes
        else maxGeneratedPathComponentBytes))

/-- `text.rpartition("/")[0]` -/
def directory (text : List Char) : List Char :=
  (text.reverse.dropWhile (· ≠ '/')).tail.reverse

def generatedFileBase (protoName : List Char)
    (maxOutputPathBytes maxOutputDirectoryBytes : Option ℕ) : Except ValueError (List Char) :=
  let normalized := normalizeGeneratedPath sha256 unicode (removeSuffix ".proto".toList protoName)
  let generatedBase := normalized ++ ".protocyte".toList
  let generatedDirectory := directory generatedBase
  let budgeted := maxOutputPathBytes.isSome || maxOutputDirectoryBytes.isSome
  if !budgeted then .ok generatedBase
  else
    let effectivePathBudget :=
      match maxOutputPathBytes with
      | some bytes => min minHashedGeneratedFilePathBytes bytes
      | none => minHashedGeneratedFilePathBytes
    let effectiveDirectoryBudget :=
      match maxOutputDirectoryBytes with
      | some bytes => min stableBudgetedGeneratedDirectoryBytes bytes
      | none => stableBudgetedGeneratedDirectoryBytes
    let pathFits := decide ((generatedBase ++ ".hpp".toList).length ≤ effectivePathBudget)
    let directoryFits := decide (generatedDirectory = [] ∨
      generatedDirectory.length ≤ effectiveDirectoryBudget)
    if pathFits && directoryFits then .ok generatedBase
    else if ∃ bytes ∈ maxOutputPathBytes, bytes < minHashedGeneratedFilePathBytes then
      .error ⟨"generated output path budget must be at least " ++
        toString minHashedGeneratedFilePathBytes ++ " bytes"⟩
    else
      let digest := (hexdigest (sha256.digest (Utf8.encode protoName))).map Char.toUpper
      let readable := normalized.map fun c => if c = '/' then '_' else c
      let prefixBytes : ℤ := effectivePathBudget - generatedFileSuffix.length -
        generatedPathDigestSeparatorBytes - digest.length
      .ok (sliceTo readable prefixBytes ++ '~' :: digest ++ ".protocyte".toList)

end Plugin

section CMake

variable (sha256 : Sha256)

inductive CMakeError
  | fatalError (message : String)
  | substring
deriving DecidableEq, Repr

/-- `string(TOUPPER)` -/
def toUpper (text : List UInt8) : List UInt8 :=
  text.map fun byte => if 97 ≤ byte.toNat ∧ byte.toNat ≤ 122 then byte - 32 else byte

/-- `string(HEX)` -/
def hex (text : List UInt8) : List UInt8 := text.flatMap fun byte => Utf8.encode (hexByte byte)

/-- `string(SUBSTRING)`: a length of -1 is the rest of the string, and a longer one is cut. -/
def substring (text : List UInt8) (start : ℕ) (length : ℤ) : Except CMakeError (List UInt8) :=
  if text.length < start ∨ length < -1 then .error .substring
  else if length = -1 then .ok (text.drop start)
  else .ok ((text.drop start).take length.toNat)

/-- The value of hexadecimal digits in `math(EXPR)`. -/
def hexValue (digits : List UInt8) : ℕ :=
  digits.foldl (fun value digit =>
    16 * value + if digit.toNat ≤ 57 then digit.toNat - 48 else digit.toNat - 87) 0

/-- The strings `^(CON|PRN|AUX|NUL|COM[1-9]|LPT[1-9])$` matches. -/
def deviceNames : List (List UInt8) :=
  [Utf8.encode ['C', 'O', 'N'], Utf8.encode ['P', 'R', 'N'], Utf8.encode ['A', 'U', 'X'],
    Utf8.encode ['N', 'U', 'L']] ++
  (List.range 9).map (fun index => Utf8.encode ['C', 'O', 'M'] ++ [UInt8.ofNat (49 + index)]) ++
  (List.range 9).map fun index => Utf8.encode ['L', 'P', 'T'] ++ [UInt8.ofNat (49 + index)]

def byteIsSafe (byteValue : ℕ) : Bool :=
  (48 ≤ byteValue && byteValue ≤ 57) || (65 ≤ byteValue && byteValue ≤ 90) ||
    (97 ≤ byteValue && byteValue ≤ 122) || byteValue == 45 || byteValue == 46 || byteValue == 95

/-- The body of the loop over the bytes of a segment. -/
def appendByte (segment segmentHex : List UInt8) (escapeFirst escapeLastDot : Bool)
    (segmentHexLast : ℕ) (normalized : List UInt8) (offset : ℕ) :
    Except CMakeError (List UInt8) := do
  let byteHex ← substring segmentHex offset 2
  let byteValue := hexValue byteHex
  let byteIndex := offset / 2
  let safe := byteIsSafe byteValue
  let safe := if byteIndex = 0 ∧ escapeFirst then false else safe
  let safe := if offset = segmentHexLast ∧ escapeLastDot then false else safe
  if safe then do
    let byteCharacter ← substring segment byteIndex 1
    return normalized ++ byteCharacter
  else return normalized ++ Utf8.byte '~' :: toUpper byteHex

/-- The loop over the bytes of a segment. -/
def normalizeBytes (segment : List UInt8) (escapeFirst escapeLastDot : Bool) :
    Except CMakeError (List UInt8) :=
  let segmentHex := hex segment
  let segmentHexLength := segmentHex.length
  if 0 < segmentHexLength then
    let segmentHexLast := segmentHexLength - 2
    ((List.range (segmentHexLast / 2 + 1)).map (2 * ·)).foldlM
      (appendByte segment segmentHex escapeFirst escapeLastDot segmentHexLast) []
  else .ok []

def protocyteNormalizeGeneratedSegment (segment : List UInt8) (maxLength : ℕ) :
    Except CMakeError (List UInt8) := do
  let deviceStem := toUpper (segment.takeWhile (· ≠ Utf8.byte '.'))
  let escapeFirst := decide (deviceStem ∈ deviceNames)
  let escapeLastDot := decide (segment.getLast? = some (Utf8.byte '.'))
  let normalized ← normalizeBytes segment escapeFirst escapeLastDot
  if maxLength < normalized.length then do
    let segmentDigest := toUpper (Utf8.encode (hexdigest (sha256.digest segment)))
    let normalizedPrefix ← substring normalized 0 (maxLength - segmentDigest.length - 1)
    return normalizedPrefix ++ Utf8.byte '~' :: segmentDigest
  else return normalized

theorem drop_length_lt {remaining : List UInt8} {separator : ℕ}
    (h : remaining.idxOf? (Utf8.byte '/') = some separator) :
    (remaining.drop (separator + 1)).length < remaining.length := by
  obtain ⟨hlt, -⟩ := List.idxOf?_eq_some_iff.mp h
  rw [List.length_drop]
  omega

/-- The loop over the segments of a path. -/
def normalizeSegments (remaining normalized : List UInt8) : Except CMakeError (List UInt8) :=
  match _ : remaining.idxOf? (Utf8.byte '/') with
  | none => do
    let segment ← protocyteNormalizeGeneratedSegment sha256 remaining (255 - 14)
    return normalized ++ segment
  | some separator => do
    let segment ← substring remaining 0 separator
    let rest := remaining.drop (separator + 1)
    let segment ← protocyteNormalizeGeneratedSegment sha256 segment 255
    normalizeSegments rest (normalized ++ segment ++ [Utf8.byte '/'])
termination_by remaining.length
decreasing_by exact drop_length_lt ‹_›

/-- `string(FIND ... REVERSE)` -/
def findReverse (text : List UInt8) (byte : UInt8) : Option ℕ :=
  (text.reverse.idxOf? byte).map fun index => text.length - 1 - index

def protocyteNormalizeGeneratedPath (protoName : List UInt8)
    (maxOutputPathLength maxOutputDirectoryLength : Option ℕ) :
    Except CMakeError (List UInt8) := do
  let generatedFileSuffixLength : ℕ := 14
  let normalized ← normalizeSegments sha256 (removeSuffix (Utf8.encode ".proto".toList) protoName) []
  let generatedBase := normalized ++ Utf8.encode ".protocyte".toList
  let generatedPathIsBudgeted := maxOutputPathLength.isSome || maxOutputDirectoryLength.isSome
  let minimumHashedGeneratedPathLength := generatedFileSuffixLength + 64 + 1
  let stableBudgetedGeneratedDirectoryLength := minimumHashedGeneratedPathLength - 12
  let pathLength : ℕ :=
    match maxOutputPathLength with
    | some length =>
      if minimumHashedGeneratedPathLength < length then minimumHashedGeneratedPathLength
      else length
    | none => minimumHashedGeneratedPathLength
  let directoryLength : ℕ :=
    match maxOutputDirectoryLength with
    | some length =>
      if stableBudgetedGeneratedDirectoryLength < length then stableBudgetedGeneratedDirectoryLength
      else length
    | none => stableBudgetedGeneratedDirectoryLength
  let pathExceeds := decide (pathLength < (generatedBase ++ Utf8.encode ".hpp".toList).length)
  let directoryExceeds :=
    match findReverse normalized (Utf8.byte '/') with
    | none => false
    | some separator => decide (directoryLength < (normalized.take separator).length)
  if generatedPathIsBudgeted && (pathExceeds || directoryExceeds) then
    let descriptorDigest := toUpper (Utf8.encode (hexdigest (sha256.digest protoName)))
    let readablePrefixLength : ℤ :=
      pathLength - generatedFileSuffixLength - descriptorDigest.length - 1
    if readablePrefixLength < 0 then
      .error (.fatalError
        "internal Protocyte generated-path budget is too small for a collision-resistant name")
    else do
      let flattenedReadable :=
        normalized.map fun byte => if byte = Utf8.byte '/' then Utf8.byte '_' else byte
      let readablePrefix ← substring flattenedReadable 0 readablePrefixLength
      return readablePrefix ++ Utf8.byte '~' :: descriptorDigest ++ Utf8.encode ".protocyte".toList
  else return generatedBase

end CMake

end Protocyte.Paths
