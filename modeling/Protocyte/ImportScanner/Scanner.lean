import Protocyte.ImportScanner.Strings
import Mathlib.Data.List.Infix

/-! The import scanner, and the imports of a sequence of tokens however it is written down. -/
namespace Protocyte.ImportScanner

open Foundation
open Foundation.Utf8 (byte)

section Model

def isIdentifierStart (value : UInt8) : Bool :=
  value == byte '_' || (byte 'A' ≤ value && value ≤ byte 'Z') ||
    (byte 'a' ≤ value && value ≤ byte 'z')

def isDigit (value : UInt8) : Bool := byte '0' ≤ value && value ≤ byte '9'

def isIdentifierContinue (value : UInt8) : Bool := isIdentifierStart value || isDigit value

def whitespace : List UInt8 :=
  [byte ' ', byte '\t', byte '\r', byte '\n', 11, 12]

def importWord : List UInt8 := "import".toList.map byte

def qualifierWords : List (List UInt8) :=
  ["option".toList.map byte, "public".toList.map byte, "weak".toList.map byte]

inductive Expectation
  | qualifierOrString | string | adjacentStringOrEnd
deriving DecidableEq, Repr

/-- The data behind the end of a block comment, if it has one. -/
def afterComment : List UInt8 → List UInt8
  | [] => []
  | [_] => []
  | first :: second :: rest =>
    if first = byte '*' ∧ second = byte '/' then rest else afterComment (second :: rest)

theorem length_afterComment (data : List UInt8) : (afterComment data).length ≤ data.length := by
  induction data using afterComment.induct with
  | case1 => exact le_rfl
  | case2 => exact Nat.zero_le _
  | case3 first second rest hend =>
    rw [afterComment, if_pos hend]
    exact Nat.le_add_right _ 2
  | case4 first second rest hne ih =>
    rw [afterComment, if_neg hne]
    exact ih.trans (Nat.le_succ _)

theorem length_dropWhile_le {p : UInt8 → Bool} (data : List UInt8) :
    (data.dropWhile p).length ≤ data.length := (List.dropWhile_suffix p).length_le

theorem length_decodeString (quote : UInt8) (capture : Bool) (data value : List UInt8) :
    (decodeString quote capture data value).1.length ≤ data.length := by
  fun_induction decodeString quote capture data value
  all_goals simp only [List.length_cons, List.length_nil, List.length_drop] at *
  case case7 hdecode ih =>
    have hle := length_decodeUnicodeEscape hdecode
    omega
  case case11 ih => exact Nat.le_succ_of_le ih
  all_goals omega

/-- The loop of the scanner. -/
def scan (data : List UInt8) (expectation : Option Expectation) (importName : List UInt8)
    (imports : List (List UInt8)) : List (List UInt8) :=
  match data with
  | [] => imports
  | current :: rest =>
    if current = byte '/' ∧ rest.head? = some (byte '/') then
      scan ((rest.drop 1).dropWhile (· ≠ byte '\n')) expectation importName imports
    else if current = byte '/' ∧ rest.head? = some (byte '*') then
      scan (afterComment (rest.drop 1)) expectation importName imports
    else if isIdentifierStart current then
      let identifier := current :: rest.takeWhile isIdentifierContinue
      let rest := rest.dropWhile isIdentifierContinue
      if expectation = none ∧ identifier = importWord then
        scan rest (some .qualifierOrString) [] imports
      else if expectation = some .qualifierOrString ∧ qualifierWords.contains identifier then
        scan rest (some .string) importName imports
      else scan rest none [] imports
    else if current = byte '"' ∨ current = byte '\'' then
      -- whatever is expected, a string is captured
      let capture := expectation.isSome
      let decoded := decodeString current capture rest []
      match capture, decoded.2 with
      | true, some value =>
        scan decoded.1 (some .adjacentStringOrEnd) (importName ++ value) imports
      | _, _ => scan decoded.1 none [] imports
    else if whitespace.contains current then scan rest expectation importName imports
    else if current = byte ';' then
      scan rest none []
        (if expectation = some .adjacentStringOrEnd then imports ++ [importName] else imports)
    else scan rest none [] imports
termination_by data.length
decreasing_by
  all_goals simp only [List.length_cons]
  · have hle := length_dropWhile_le (p := (· ≠ byte '\n')) (rest.drop 1)
    rw [List.length_drop] at hle
    omega
  · have hle := length_afterComment (rest.drop 1)
    rw [List.length_drop] at hle
    omega
  all_goals first
    | exact Nat.lt_succ_of_le (length_dropWhile_le _)
    | exact Nat.lt_succ_of_le (length_decodeString _ _ _ _)
    | exact Nat.lt_succ_self _

/-- `_import_names` -/
def importNames (data : List UInt8) : List (List UInt8) := scan data none [] []

end Model

end Protocyte.ImportScanner
