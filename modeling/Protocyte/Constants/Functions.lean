import Protocyte.Constants.Value

/-! The functions an expression may call, and the conversion of a literal or of an expression's
value to the declared kind of a constant. -/
namespace Protocyte.Constants

variable {F : Type} (py : Python F)

/-- `_SCALAR_CAST_KINDS`. -/
def scalarCastKind : String → Option ConstantKind
  | "bool" => some .bool
  | "i32" => some (.numeric (.integer .int32))
  | "u32" => some (.numeric (.integer .uint32))
  | "i64" => some (.numeric (.integer .int64))
  | "u64" => some (.numeric (.integer .uint64))
  | "f32" => some (.numeric (.floating .float))
  | "f64" => some (.numeric (.floating .double))
  | "str" => some .string
  | _ => none

def functionNumericArgument (label name : String) : TypedValue F → Result (Number F)
  | .bool value => .ok (.integer .int32 (if value then 1 else 0))
  | .string _ => reject label s!"{name}() expects numeric arguments"
  | .number (.floating kind value) => .ok (.floating kind value)
  | .number (.integer kind value) =>
    if kind.signed then
      if value < kind.lower ∨ value > kind.upper then
        reject label s!"{name}() argument is out of range for {kind.name}"
      else .ok (.integer kind value)
    else .ok (.integer kind (maskBits value kind.bits))

def functionNumericResult (label name : String) : Number F → Result (TypedValue F)
  | .integer kind value => numericValue py (.integer kind value)
  | .floating .float value => do
    let value ← roundF32 py value s!"{label}: {name}() result is not finite"
    numericValue py (.floating .float value)
  | .floating .double value =>
    if !py.isFinite value then reject label s!"{name}() result is not finite"
    else numericValue py (.floating .double value)

def realResultKind : NumericKind → FloatKind
  | .floating .float => .float
  | _ => .double

def evaluateRealFunction (label name : String) (n : Number F) : Result (TypedValue F) := do
  let kind := realResultKind n.kind
  let operand ← convertToFloating py "numeric expression" n kind
  match py.evaluateUnary name operand (if kind = .float then 32 else 64) with
  | .error .domain => reject label s!"{name}() domain error"
  | .error .nonFinite => reject label s!"{name}() result is not finite"
  | .ok result => functionNumericResult py label name (.floating kind result)

/-- `float(int)` of a value that a float produced. -/
def floatOfInteger (value : Int) : Result F :=
  match py.ofInt value with
  | some x => .ok x
  | none => .error ⟨"int too large to convert to float"⟩

/-- Rounding half away from zero. -/
def roundHalfAway (operand : F) : F :=
  if py.isInteger operand then operand
  else
    let (fractional, integral) := py.modf (py.abs operand)
    let magnitude := py.add integral (if !py.lt fractional py.half then py.one else py.zero)
    py.copysign magnitude operand

def evaluateRoundingFunction (label name : String) (n : Number F) : Result (TypedValue F) := do
  let kind := realResultKind n.kind
  let operand ← convertToFloating py "numeric expression" n kind
  let result ←
    if name = "ceil" then floatOfInteger py (py.ceil operand)
    else if name = "floor" then floatOfInteger py (py.floor operand)
    else if name = "trunc" then floatOfInteger py (py.trunc operand)
    else .ok (roundHalfAway py operand)
  let result := if py.eq result py.zero then py.copysign py.zero operand else result
  functionNumericResult py label name (.floating kind result)

def evaluatePow (label : String) : List (TypedValue F) → Result (TypedValue F)
  | [first, second] => do
    let base ← functionNumericArgument label "pow" first
    let exponent ← functionNumericArgument label "pow" second
    let floatBase ← convertToFloating py label base .double
    let floatExponent ← convertToFloating py label exponent .double
    match py.evaluateDeterministicPow floatBase floatExponent with
    | .error .domain => reject label "pow() domain error"
    | .error .nonFinite => reject label "pow() result is not finite"
    | .ok result => functionNumericResult py label "pow" (.floating .double result)
  | _ => reject label "pow() expects two numeric arguments"

def evaluateAbs (label : String) : List (TypedValue F) → Result (TypedValue F)
  | [arg] => do
    match ← functionNumericArgument label "abs" arg with
    | .integer kind value =>
      if kind.signed ∧ value = kind.lower then
        reject label s!"abs() result is out of range for {kind.name}"
      else functionNumericResult py label "abs" (.integer kind value.natAbs)
    | .floating kind value => functionNumericResult py label "abs" (.floating kind (py.abs value))
  | _ => reject label "abs() expects one numeric argument"

/-- The first operand wins ties. -/
def selectExtreme {α : Type} (lt : α → α → Bool) (name : String) : α → List α → α
  | result, [] => result
  | result, candidate :: rest =>
    if (name = "min" && lt candidate result) || (name = "max" && lt result candidate) then
      selectExtreme lt name candidate rest
    else selectExtreme lt name result rest

def evaluateMinMax (label name : String) : List (TypedValue F) → Result (TypedValue F)
  | first :: second :: rest => do
    let head ← functionNumericArgument label name first
    let values ← (second :: rest).mapM (functionNumericArgument label name)
    match commonNumericKind head.kind (values.map Number.kind) with
    | .integer kind =>
      let result ← convertToInteger "numeric expression" head kind
      let others ← values.mapM fun n => convertToInteger "numeric expression" n kind
      let result := selectExtreme (fun a b => decide (a < b)) name result others
      functionNumericResult py label name (.integer kind result)
    | .floating kind =>
      let result ← convertToFloating py "numeric expression" head kind
      let others ← values.mapM fun n => convertToFloating py "numeric expression" n kind
      let result := selectExtreme py.lt name result others
      functionNumericResult py label name (.floating kind result)
  | _ => reject label s!"{name}() expects at least two numeric arguments"

def castStringValue (label : String) : TypedValue F → Result String
  | .string value => .ok value
  | .bool value => .ok (if value then "true" else "false")
  | .number (.integer kind value) => do
    let numeric ← convertToInteger label (.integer kind value : Number F) kind
    return toString numeric
  | .number (.floating kind value) => do
    let numeric ← convertToFloating py label (.floating kind value) kind
    let text := py.format (if kind = .float then 9 else 17) numeric
    if !text.contains 'e' && !text.contains 'E' && !text.contains '.' then return text ++ ".0"
    else return text

/-- A cast of a bool or a number to an integer kind. -/
def castToInteger (label name : String) (n : Number F) (target : IntegerKind) :
    Result (TypedValue F) :=
  match n with
  | .integer kind value => do
    let normalized ← convertToInteger label (.integer kind value : Number F) kind
    functionNumericResult py label name (.integer target (integerFromBits normalized target))
  | .floating kind value => do
    let normalized ← convertToFloating py label (.floating kind value) kind
    let result := py.trunc normalized
    if result < target.lower ∨ result > target.upper then
      reject label s!"{name}() result is out of range for {target.name}"
    else functionNumericResult py label name (.integer target result)

def castToFloating (label name : String) (n : Number F) (target : FloatKind) :
    Result (TypedValue F) := do
  let result ←
    match n, target with
    | .integer kind value, .double => do
      let normalized ← convertToInteger label (.integer kind value : Number F) kind
      floatOfInteger py normalized
    | .integer kind value, .float => do
      let normalized ← convertToInteger label (.integer kind value : Number F) kind
      roundIntegerF32 py normalized s!"{label}: {name}() result is not finite"
    | .floating kind value, .double => convertToFloating py label (.floating kind value) kind
    | .floating kind value, .float => do
      let normalized ← convertToFloating py label (.floating kind value) kind
      roundF32 py normalized s!"{label}: {name}() result is not finite"
  functionNumericResult py label name (.floating target result)

def evaluateScalarCast (label name : String) (target : ConstantKind) :
    List (TypedValue F) → Result (TypedValue F)
  | [value] =>
    match target, value with
    | .string, value => do return .string (← castStringValue py label value)
    | _, .string _ => reject label s!"{name}() expects one bool or numeric argument"
    | .bool, value => do return .bool (← expectBool py label value)
    | .numeric (.integer kind), value => do
      let n ← expectNumeric label value
      castToInteger py label name n kind
    | .numeric (.floating kind), value => do
      let n ← expectNumeric label value
      castToFloating py label name n kind
  | _ => reject label s!"{name}() expects one scalar argument"

/-- `_coerce_integer`. -/
def coerceInteger (label : String) (kind : IntegerKind) (value : Int) : Result Int :=
  if value < kind.lower ∨ value > kind.upper then
    reject label s!"value {value} is out of range for {kind.name}"
  else .ok value

/-- A resolved value: the family and kind of a constant's type with its value. -/
def coerceExpressionValue (label : String) (kind : ConstantKind) (value : TypedValue F) :
    Result (TypedValue F) :=
  match kind, value with
  | .string, .string value => .ok (.string value)
  | .string, _ => reject label "expression must evaluate to string"
  | .bool, .bool value => .ok (.bool value)
  | .bool, .number (.integer source value) => do
    let normalized ← convertToInteger label (.integer source value : Number F) source
    return .bool (normalized ≠ 0)
  | .bool, _ => reject label "expression must evaluate to bool or integer"
  | .numeric (.floating kind), .number n => do
    let out ← convertToFloating py label n kind
    if !py.isFinite out then reject label "numeric expression must be finite"
    else return .number (.floating kind out)
  | .numeric (.integer kind), .number (.floating _ value) => do
    let value ← coerceInteger label kind (py.trunc value)
    return .number (.integer kind value)
  | .numeric (.integer kind), .number (.integer source value) => do
    let value ← convertToInteger label (.integer source value : Number F) source
    let value ← coerceInteger label kind value
    return .number (.integer kind value)
  | .numeric _, _ => reject label "expression must evaluate to numeric"

/-- The value a constant's option gives without an expression. -/
inductive Literal (F : Type) where
  | bool (value : Bool)
  | integer (value : Int)
  | floating (value : F)
  | string (value : String)

def Literal.repr : Literal F → String
  | .bool value => if value then "True" else "False"
  | .integer value => toString value
  | .floating value => py.format 17 value
  | .string value => py.repr value

def coerceLiteral (label : String) (kind : ConstantKind) (literal : Literal F) :
    Result (TypedValue F) :=
  match kind, literal with
  | .string, .string value => .ok (.string value)
  | .string, literal => reject label s!"invalid string literal {literal.repr py}"
  | .bool, .bool value => .ok (.bool value)
  | .bool, literal => reject label s!"invalid bool literal {literal.repr py}"
  | .numeric (.floating .float), .integer value => do
    let value ← roundIntegerF32 py value s!"{label}: numeric literal must be finite"
    return .number (.floating .float value)
  | .numeric (.floating .float), .floating value => do
    let value ← roundF32 py value s!"{label}: numeric literal must be finite"
    return .number (.floating .float value)
  | .numeric (.floating .double), .integer value =>
    match py.ofInt value with
    | none => reject label "numeric literal must be finite"
    | some value =>
      if !py.isFinite value then reject label "numeric literal must be finite"
      else .ok (.number (.floating .double value))
  | .numeric (.floating .double), .floating value =>
    if !py.isFinite value then reject label "numeric literal must be finite"
    else .ok (.number (.floating .double value))
  | .numeric (.integer kind), .integer value => do
    let value ← coerceInteger label kind value
    return .number (.integer kind value)
  | .numeric _, literal => reject label s!"invalid numeric literal {literal.repr py}"

def functionSubstr (label : String) (value : String) (start count : TypedValue F) :
    Result (TypedValue F) := do
  match ← coerceExpressionValue py label (.numeric (.integer .uint32)) start,
      ← coerceExpressionValue py label (.numeric (.integer .uint32)) count with
  | .number (.integer _ start), .number (.integer _ count) =>
    return .string (String.ofList ((value.toList.drop start.toNat).take count.toNat))
  | _, _ => reject label "substr() expects string, start, count"

def realFunctions : List String := ["sqrt", "exp", "log", "log2", "log10"]

def roundingFunctions : List String := ["ceil", "floor", "trunc", "round"]

/-- The checks a skipped call still makes; its result keeps only the kind. -/
def evaluateFunctionType (label name : String) (args : List (TypedValue F)) :
    Result (TypedValue F) :=
  match scalarCastKind name with
  | some kind => do return typeOnlyValue py (← evaluateScalarCast py label name kind args)
  | none =>
    if name = "len" then
      match args with
      | [.string _] => numericValue py (.integer .uint32 0)
      | _ => reject label "len() expects one string argument"
    else if name = "substr" then
      match args with
      | [.string value, start, count] => do
        let _ ← functionSubstr py label value start count
        return .string ""
      | _ => reject label "substr() expects string, start, count"
    else if name = "starts_with" then
      match args with
      | [.string _, .string _] => .ok (.bool false)
      | _ => reject label "starts_with() expects two string arguments"
    else if name = "pow" then
      match args with
      | [first, second] => do
        let _ ← functionNumericArgument label name first
        let _ ← functionNumericArgument label name second
        numericValue py (.floating .double py.zero)
      | _ => reject label "pow() expects two numeric arguments"
    else if name = "abs" then
      match args with
      | [arg] => do
        let n ← functionNumericArgument label name arg
        numericValue py (n.kind.zero py)
      | _ => reject label "abs() expects one numeric argument"
    else if name = "min" ∨ name = "max" then
      match args with
      | first :: second :: rest => do
        let head ← functionNumericArgument label name first
        let values ← (second :: rest).mapM (functionNumericArgument label name)
        numericValue py ((commonNumericKind head.kind (values.map Number.kind)).zero py)
      | _ => reject label s!"{name}() expects at least two numeric arguments"
    else if name ∈ realFunctions ∨ name ∈ roundingFunctions then
      match args with
      | [arg] => do
        let n ← functionNumericArgument label name arg
        numericValue py (.floating (realResultKind n.kind) py.zero)
      | _ => reject label s!"{name}() expects one numeric argument"
    else reject label s!"unsupported function {name}()"

def evaluateFunctionValue (label name : String) (args : List (TypedValue F)) :
    Result (TypedValue F) :=
  match scalarCastKind name with
  | some kind => evaluateScalarCast py label name kind args
  | none =>
    if name = "len" then
      match args with
      | [.string value] => numericValue py (.integer .uint32 value.length)
      | _ => reject label "len() expects one string argument"
    else if name = "substr" then
      match args with
      | [.string value, start, count] => functionSubstr py label value start count
      | _ => reject label "substr() expects string, start, count"
    else if name = "starts_with" then
      match args with
      | [.string value, .string start] => .ok (.bool (value.startsWith start))
      | _ => reject label "starts_with() expects two string arguments"
    else if name = "pow" then evaluatePow py label args
    else if name = "abs" then evaluateAbs py label args
    else if name = "min" ∨ name = "max" then evaluateMinMax py label name args
    else if name ∈ realFunctions then
      match args with
      | [arg] => do
        let n ← functionNumericArgument label name arg
        evaluateRealFunction py label name n
      | _ => reject label s!"{name}() expects one numeric argument"
    else if name ∈ roundingFunctions then
      match args with
      | [arg] => do
        let n ← functionNumericArgument label name arg
        evaluateRoundingFunction py label name n
      | _ => reject label s!"{name}() expects one numeric argument"
    else reject label s!"unsupported function {name}()"

def evaluateFunction (label name : String) (args : List (TypedValue F)) (evaluate : Bool) :
    Result (TypedValue F) :=
  if !evaluate then evaluateFunctionType py label name args
  else evaluateFunctionValue py label name args

end Protocyte.Constants
