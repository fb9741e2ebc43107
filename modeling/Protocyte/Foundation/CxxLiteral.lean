import Mathlib.Data.List.Basic
import Mathlib.Data.Nat.Notation
import Mathlib.Tactic.Common

/-! Ordinary C++ string literals: the translation phases that decode the escapes of adjacent
literals and concatenate them, one character after the other. -/
namespace Foundation.CxxLiteral

inductive State where
  | outside
  | inside
  | escape
  | octal (digits value : ℕ)
  | hexadecimal (value : Option ℕ)
deriving DecidableEq, Repr

def hexDigit (c : Char) : Option ℕ :=
  if '0' ≤ c ∧ c ≤ '9' then some (c.toNat - '0'.toNat)
  else if 'a' ≤ c ∧ c ≤ 'f' then some (c.toNat - 'a'.toNat + 10)
  else if 'A' ≤ c ∧ c ≤ 'F' then some (c.toNat - 'A'.toNat + 10)
  else none

def octalDigit (c : Char) : Option ℕ :=
  if '0' ≤ c ∧ c ≤ '7' then some (c.toNat - '0'.toNat) else none

/-- The simple escape sequences. -/
def simpleEscape : Char → Option UInt8
  | '\'' => some 0x27
  | '"' => some 0x22
  | '?' => some 0x3F
  | '\\' => some 0x5C
  | 'a' => some 0x07
  | 'b' => some 0x08
  | 'f' => some 0x0C
  | 'n' => some 0x0A
  | 'r' => some 0x0D
  | 't' => some 0x09
  | 'v' => some 0x0B
  | _ => none

/-- The value of a numeric escape has to fit a character. -/
def charValue (value : ℕ) : Option UInt8 :=
  if value < 256 then some (UInt8.ofNat value) else none

/-- A character between the quotes that continues no escape. -/
def insideStep (c : Char) : Option (State × List UInt8) :=
  if c = '"' then some (.outside, [])
  else if c = '\\' then some (.escape, [])
  else if c = '\n' then none
  else some (.inside, String.utf8EncodeChar c)

/-- The character after a backslash. Universal character names are not read. -/
def escapeStep (c : Char) : Option (State × List UInt8) :=
  if c = 'x' then some (.hexadecimal none, [])
  else match octalDigit c with
    | some d => some (.octal 1 d, [])
    | none => (simpleEscape c).map fun byte => (.inside, [byte])

/-- The escape that ends before the character, then the character. -/
def endNumeric (value : ℕ) (c : Char) : Option (State × List UInt8) := do
  let byte ← charValue value
  let (state, bytes) ← insideStep c
  return (state, byte :: bytes)

/-- White space and nothing else may stand between adjacent literals. An octal escape has up to
three digits, a hexadecimal one takes every digit that follows. -/
def step : State → Char → Option (State × List UInt8)
  | .outside, c =>
    if c = '"' then some (.inside, [])
    else if c = ' ' ∨ c = '\t' ∨ c = '\n' then some (.outside, [])
    else none
  | .inside, c => insideStep c
  | .escape, c => escapeStep c
  | .octal digits value, c =>
    match octalDigit c with
    | some d => if digits < 3 then some (.octal (digits + 1) (8 * value + d), [])
      else endNumeric value c
    | none => endNumeric value c
  | .hexadecimal value, c =>
    match value, hexDigit c with
    | none, none => none
    | none, some d => some (.hexadecimal (some d), [])
    | some value, some d => some (.hexadecimal (some (16 * value + d)), [])
    | some value, none => endNumeric value c

def run : State → List Char → Option (State × List UInt8)
  | state, [] => some (state, [])
  | state, c :: text => do
    let (state, bytes) ← step state c
    let (state, rest) ← run state text
    return (state, bytes ++ rest)

/-- The bytes that a sequence of adjacent string literals denotes, without the terminator. -/
def denotes (text : List Char) : Option (List UInt8) :=
  match run .outside text with
  | some (.outside, bytes) => if text = [] then none else some bytes
  | _ => none

theorem run_append {s t u : State} {text rest : List Char} {a b : List UInt8}
    (h : run s text = some (t, a)) (h' : run t rest = some (u, b)) :
    run s (text ++ rest) = some (u, a ++ b) := by
  induction text generalizing s a with
  | nil =>
    obtain ⟨rfl, rfl⟩ := Prod.mk.inj (Option.some.inj h)
    exact h'
  | cons c text ih =>
    obtain ⟨⟨s', bytes⟩, hstep, hrest⟩ := Option.bind_eq_some_iff.mp h
    obtain ⟨⟨t', bytes'⟩, hrun, heq⟩ := Option.bind_eq_some_iff.mp hrest
    obtain ⟨rfl, rfl⟩ := Prod.mk.inj (Option.some.inj heq)
    show (step s c).bind _ = _
    rw [hstep]
    show (run s' (text ++ rest)).bind _ = _
    rw [ih hrun]
    show some (u, bytes ++ (bytes' ++ b)) = _
    rw [List.append_assoc]

end Foundation.CxxLiteral
