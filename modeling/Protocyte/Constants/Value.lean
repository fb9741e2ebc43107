import Mathlib.Data.Nat.Notation
import Mathlib.Tactic.Common
import Mathlib.Tactic.Ring

/-! The values constant expressions compute, with the conversions and operators of their
evaluator. The C++ text each value also carries is never read and is left out. -/
namespace Protocyte.Constants

structure ProtocyteError where
  message : String
deriving DecidableEq, Repr

abbrev Result := Except ProtocyteError

def reject {α : Type} (label message : String) : Result α := .error ⟨s!"{label}: {message}"⟩

inductive IntegerKind where
  | int32
  | uint32
  | int64
  | uint64
deriving DecidableEq, Repr

inductive FloatKind where
  | float
  | double
deriving DecidableEq, Repr

inductive NumericKind where
  | integer (kind : IntegerKind)
  | floating (kind : FloatKind)
deriving DecidableEq, Repr

inductive ConstantKind where
  | bool
  | numeric (kind : NumericKind)
  | string
deriving DecidableEq, Repr

namespace IntegerKind

def name : IntegerKind → String
  | int32 => "int32"
  | uint32 => "uint32"
  | int64 => "int64"
  | uint64 => "uint64"

def bits : IntegerKind → ℕ
  | int32 => 32
  | uint32 => 32
  | int64 => 64
  | uint64 => 64

def signed : IntegerKind → Bool
  | int32 => true
  | uint32 => false
  | int64 => true
  | uint64 => false

def lower (kind : IntegerKind) : Int := if kind.signed then -(2 ^ (kind.bits - 1)) else 0

def upper (kind : IntegerKind) : Int :=
  if kind.signed then 2 ^ (kind.bits - 1) - 1 else 2 ^ kind.bits - 1

end IntegerKind

def integerKind (bits : ℕ) (signed : Bool) : IntegerKind :=
  if bits = 32 then (if signed then .int32 else .uint32)
  else (if signed then .int64 else .uint64)

/-- The errors of the deterministic math backend. -/
inductive MathError where
  | domain
  | nonFinite

/-- What the evaluator takes from the Python runtime and from the math backend: floating
arithmetic, the Unicode tables beyond ASCII, and string literals. -/
structure Python (F : Type) where
  zero : F
  one : F
  half : F
  ofInt : Int → Option F
  parseFloat : String → Option F
  isFinite : F → Bool
  packF32 : F → Option F
  neg : F → F
  add : F → F → F
  sub : F → F → F
  mul : F → F → F
  div : F → F → F
  eq : F → F → Bool
  lt : F → F → Bool
  abs : F → F
  copysign : F → F → F
  trunc : F → Int
  ceil : F → Int
  floor : F → Int
  isInteger : F → Bool
  modf : F → F × F
  format : ℕ → F → String
  evaluateUnary : String → F → ℕ → Except MathError F
  evaluateDeterministicPow : F → F → Except MathError F
  isSpace : Char → Bool
  isDigit : Char → Bool
  isAlpha : Char → Bool
  isAlnum : Char → Bool
  decimal : Char → Option ℕ
  literalEval : String → Option (List ℕ)
  repr : String → String

inductive Number (F : Type) where
  | integer (kind : IntegerKind) (value : Int)
  | floating (kind : FloatKind) (value : F)

inductive TypedValue (F : Type) where
  | bool (value : Bool)
  | number (value : Number F)
  | string (value : String)

variable {F : Type} (py : Python F)

def Number.kind : Number F → NumericKind
  | .integer kind _ => .integer kind
  | .floating kind _ => .floating kind

def literalIntegerKind (value : Int) (hexadecimal : Bool) : Option IntegerKind :=
  if hexadecimal then
    if 0 ≤ value ∧ value ≤ 2 ^ 31 - 1 then some .int32
    else if value ≤ 2 ^ 32 - 1 then some .uint32
    else if value ≤ 2 ^ 63 - 1 then some .int64
    else if value ≤ 2 ^ 64 - 1 then some .uint64
    else none
  else if -(2 ^ 31) ≤ value ∧ value ≤ 2 ^ 31 - 1 then some .int32
  else if -(2 ^ 63) ≤ value ∧ value ≤ 2 ^ 63 - 1 then some .int64
  else none

def notFinite : String := "numeric expression must be finite"

def bitLength (value : ℕ) : ℕ := if value = 0 then 0 else value.log2 + 1

def roundIntegerToF32Input (value : Int) : Option F :=
  let magnitude := value.natAbs
  let shift := bitLength magnitude - 24
  if shift = 0 then py.ofInt value
  else
    let truncated := magnitude / 2 ^ shift
    let remainder := magnitude % 2 ^ shift
    let halfway := 2 ^ (shift - 1)
    let truncated :=
      if remainder > halfway ∨ (remainder = halfway ∧ truncated % 2 = 1) then truncated + 1
      else truncated
    -- a carry out of the 24 bits moves into the exponent
    let rounded := if truncated = 2 ^ 24 then (truncated / 2) * 2 ^ (shift + 1)
      else truncated * 2 ^ shift
    if value < 0 then (py.ofInt rounded).map py.neg else py.ofInt rounded

def packFinite (error : String) (numeric : Option F) : Result F :=
  match numeric with
  | none => .error ⟨error⟩
  | some numeric =>
    if !py.isFinite numeric then .error ⟨error⟩
    else
      match py.packF32 numeric with
      | none => .error ⟨error⟩
      | some rounded => if !py.isFinite rounded then .error ⟨error⟩ else .ok rounded

def roundF32 (value : F) (error : String) : Result F := packFinite py error (some value)

def roundIntegerF32 (value : Int) (error : String) : Result F :=
  packFinite py error (roundIntegerToF32Input py value)

def numericValue : Number F → Result (TypedValue F)
  | .integer kind value => .ok (.number (.integer kind value))
  | .floating .float value => do
    let value ← roundF32 py value notFinite
    if !py.isFinite value then .error ⟨notFinite⟩ else .ok (.number (.floating .float value))
  | .floating .double value =>
    if !py.isFinite value then .error ⟨notFinite⟩ else .ok (.number (.floating .double value))

def NumericKind.zero : NumericKind → Number F
  | .integer kind => .integer kind 0
  | .floating kind => .floating kind py.zero

/-- The value of a skipped operand: only its kind is kept. -/
def typeOnlyValue : TypedValue F → TypedValue F
  | .bool _ => .bool false
  | .string _ => .string ""
  | .number n => .number (n.kind.zero py)

/-- `value & (2**bits - 1)`. -/
def maskBits (value : Int) (bits : ℕ) : Int := value % 2 ^ bits

def inRange (label what : String) (value : Int) (kind : IntegerKind) : Result Int :=
  if value < kind.lower ∨ value > kind.upper then
    reject label s!"integer {what} {value} is out of range for {kind.name}"
  else .ok value

/-- The first half of `_convert_numeric_value`: the value as its source kind has it. -/
def sourceValue (label : String) : Number F → Result (Number F)
  | .integer kind value =>
    if kind.signed then do
      let value ← inRange label "operand" value kind
      return .integer kind value
    else .ok (.integer kind (maskBits value kind.bits))
  | .floating kind value => .ok (.floating kind value)

/-- `_convert_numeric_value` to an integer kind. -/
def convertToInteger (label : String) (n : Number F) (target : IntegerKind) : Result Int := do
  match ← sourceValue label n with
  | .floating _ _ => .error ⟨"numeric expression cannot be converted to an integer kind"⟩
  | .integer _ value =>
    if target.signed then inRange label "operand" value target
    else .ok (maskBits value target.bits)

/-- `_convert_numeric_value` to a floating kind. -/
def convertToFloating (label : String) (n : Number F) (target : FloatKind) : Result F := do
  match ← sourceValue label n, target with
  | .integer _ value, .double =>
    match py.ofInt value with
    | some x => .ok x
    | none => .error ⟨"int too large to convert to float"⟩
  | .integer _ value, .float => roundIntegerF32 py value notFinite
  | .floating _ value, .double => .ok value
  | .floating _ value, .float => roundF32 py value notFinite

def expectBool (label : String) : TypedValue F → Result Bool
  | .bool value => .ok value
  | .number (.integer kind value) => do
    let normalized ← convertToInteger label (.integer kind value : Number F) kind
    return normalized ≠ 0
  | .number (.floating kind value) => do
    let normalized ← convertToFloating py label (.floating kind value) kind
    return !py.eq normalized py.zero
  | .string _ => reject label "expected bool or numeric expression"

def expectNumeric (label : String) : TypedValue F → Result (Number F)
  | .bool value => .ok (.integer .int32 (if value then 1 else 0))
  | .number n => .ok n
  | .string _ => reject label "expected numeric expression"

def truncatingIntegerDivide (lhs rhs : Int) : Int :=
  let quotient : Int := (lhs.natAbs / rhs.natAbs : ℕ)
  if (lhs < 0) ≠ (rhs < 0) then -quotient else quotient

def signedDivisionOverflows (lhs rhs : Int) (kind : IntegerKind) : Bool :=
  lhs = kind.lower ∧ rhs = -1

def commonIntegerKind (lhs rhs : IntegerKind) : IntegerKind :=
  if lhs = rhs then lhs
  else if lhs.signed = rhs.signed then integerKind (max lhs.bits rhs.bits) lhs.signed
  else
    let unsignedKind := if !lhs.signed then lhs else rhs
    let signedKind := if !lhs.signed then rhs else lhs
    if unsignedKind.bits ≥ signedKind.bits then integerKind unsignedKind.bits false
    else integerKind signedKind.bits true

def commonNumericKind (first : NumericKind) (rest : List NumericKind) : NumericKind :=
  if .floating .double ∈ first :: rest then .floating .double
  else if .floating .float ∈ first :: rest then .floating .float
  else
    rest.foldl (fun result kind =>
      match result, kind with
      | .integer result, .integer kind => .integer (commonIntegerKind result kind)
      | result, _ => result) first

/-- Both operands of a binary operator, converted to their common kind. -/
inductive Operands (F : Type) where
  | integers (kind : IntegerKind) (left right : Int)
  | floats (kind : FloatKind) (left right : F)

def numericOperands (label : String) (lhs rhs : TypedValue F) : Result (Operands F) := do
  let left ← expectNumeric label lhs
  let right ← expectNumeric label rhs
  match commonNumericKind left.kind [right.kind] with
  | .integer kind =>
    let a ← convertToInteger label left kind
    let b ← convertToInteger label right kind
    return .integers kind a b
  | .floating kind =>
    let a ← convertToFloating py label left kind
    let b ← convertToFloating py label right kind
    return .floats kind a b

def normalizeNumericResult (label : String) (value : Int) (kind : IntegerKind) : Result Int :=
  if !kind.signed then .ok (maskBits value kind.bits) else inRange label "result" value kind

def numericBinary (label : String) (integerOp : Int → Int → Int) (floatOp : F → F → F)
    (lhs rhs : TypedValue F) : Result (TypedValue F) := do
  match ← numericOperands py label lhs rhs with
  | .integers kind left right =>
    let result ← normalizeNumericResult label (integerOp left right) kind
    numericValue py (.integer kind result)
  | .floats kind left right => numericValue py (.floating kind (floatOp left right))

def expectIntegral (label : String) : TypedValue F → Result (Int × IntegerKind)
  | .bool value => .ok (if value then 1 else 0, .int32)
  | .number (.integer kind value) => .ok (value, kind)
  | .number (.floating _ _) => reject label "bitwise operators require integer or bool operands"
  | .string _ => reject label "bitwise operators require integer or bool operands"

def integerBits (label : String) (value : Int) (kind : IntegerKind) : Result ℕ := do
  if kind.signed then
    let _ ← inRange label "operand" value kind
    return (maskBits value kind.bits).toNat
  else return (maskBits value kind.bits).toNat

def integerFromBits (value : Int) (kind : IntegerKind) : Int :=
  let value := maskBits value kind.bits
  if kind.signed ∧ value ≥ 2 ^ (kind.bits - 1) then value - 2 ^ kind.bits else value

def bitwiseBinary (label : String) (op : ℕ → ℕ → ℕ) (lhs rhs : TypedValue F) :
    Result (TypedValue F) := do
  let (lhsValue, lhsKind) ← expectIntegral label lhs
  let (rhsValue, rhsKind) ← expectIntegral label rhs
  let resultKind := commonIntegerKind lhsKind rhsKind
  let lhsValue ← convertToInteger label (.integer lhsKind lhsValue : Number F) resultKind
  let rhsValue ← convertToInteger label (.integer rhsKind rhsValue : Number F) resultKind
  let lhsBits ← integerBits label lhsValue resultKind
  let rhsBits ← integerBits label rhsValue resultKind
  let resultBits := maskBits (op lhsBits rhsBits) resultKind.bits
  numericValue py (.integer resultKind (integerFromBits resultBits resultKind))

def bitwiseComplement (label : String) (value : TypedValue F) : Result (TypedValue F) := do
  let (operand, kind) ← expectIntegral label value
  let operandBits ← integerBits label operand kind
  let resultBits := maskBits (-(operandBits : Int) - 1) kind.bits
  numericValue py (.integer kind (integerFromBits resultBits kind))

def shiftValue (label : String) (left : Bool) (lhs rhs : TypedValue F) :
    Result (TypedValue F) := do
  let (lhsValue, lhsKind) ← expectIntegral label lhs
  let (rhsValue, rhsKind) ← expectIntegral label rhs
  let lhsValue ← convertToInteger label (.integer lhsKind lhsValue : Number F) lhsKind
  let rhsValue ← convertToInteger label (.integer rhsKind rhsValue : Number F) rhsKind
  if rhsValue < 0 then reject label "shift count must not be negative"
  else if rhsValue ≥ lhsKind.bits then
    reject label s!"shift count {rhsValue} must be less than {lhsKind.bits}"
  else
    let count := rhsValue.toNat
    let result :=
      if left then integerFromBits (maskBits lhsValue lhsKind.bits * 2 ^ count) lhsKind
      else if lhsKind.signed then lhsValue / 2 ^ count
      else maskBits lhsValue lhsKind.bits / 2 ^ count
    numericValue py (.integer lhsKind result)

def numericCompare (label : String) (integerOp : Int → Int → Bool) (floatOp : F → F → Bool)
    (lhs rhs : TypedValue F) : Result Bool := do
  match ← numericOperands py label lhs rhs with
  | .integers _ left right => return integerOp left right
  | .floats _ left right => return floatOp left right

def compareEqual (label : String) (lhs rhs : TypedValue F) : Result Bool :=
  match lhs, rhs with
  | .string left, .string right => .ok (left = right)
  | .string _, _ => reject label "equality requires operands of the same type"
  | _, .string _ => reject label "equality requires operands of the same type"
  | lhs, rhs => numericCompare py label (fun a b => a = b) py.eq lhs rhs

/-- The integer branch of `/` in `_parse_mul`. -/
def divideIntegers (label : String) (kind : IntegerKind) (left right : Int) :
    Result (TypedValue F) := do
  if kind.signed ∧ signedDivisionOverflows left right kind then
    reject label s!"integer result is out of range for {kind.name}"
  else
    let result := if kind.signed then truncatingIntegerDivide left right else left / right
    let result ← normalizeNumericResult label result kind
    numericValue py (.integer kind result)

/-- The integer branch of `%` in `_parse_mul`. -/
def moduloIntegers (label : String) (kind : IntegerKind) (left right : Int) :
    Result (TypedValue F) := do
  if kind.signed ∧ signedDivisionOverflows left right kind then
    reject label s!"integer result is out of range for {kind.name}"
  else
    let result :=
      if kind.signed then left - truncatingIntegerDivide left right * right else left % right
    let result ← normalizeNumericResult label result kind
    numericValue py (.integer kind result)

def divide (label : String) (evaluate : Bool) (lhs rhs : TypedValue F) :
    Result (TypedValue F) := do
  match ← numericOperands py label lhs rhs with
  | .integers kind left right =>
    if !evaluate then numericValue py (.integer kind 0)
    else if right = 0 then reject label "division by zero"
    else divideIntegers py label kind left right
  | .floats kind left right =>
    if !evaluate then numericValue py (.floating kind py.zero)
    else if py.eq right py.zero then reject label "division by zero"
    else numericValue py (.floating kind (py.div left right))

def modulo (label : String) (evaluate : Bool) (lhs rhs : TypedValue F) :
    Result (TypedValue F) := do
  match ← numericOperands py label lhs rhs with
  | .floats _ _ _ => reject label "'%' only supports integer operands"
  | .integers kind left right =>
    if !evaluate then numericValue py (.integer kind 0)
    else if right = 0 then reject label "modulo by zero"
    else moduloIntegers py label kind left right

/-- `+` in `_parse_add`: text is joined, numbers are added. -/
def plus (label : String) (lhs rhs : TypedValue F) : Result (TypedValue F) :=
  match lhs, rhs with
  | .string left, .string right => .ok (.string (left ++ right))
  | .string _, _ => reject label "'+' requires both operands to be numeric or string"
  | _, .string _ => reject label "'+' requires both operands to be numeric or string"
  | lhs, rhs => numericBinary py label (· + ·) py.add lhs rhs

end Protocyte.Constants
