import Protocyte.Constants.Functions
import Protocyte.Constants.Tokens
import Protocyte.Foundation.Query

/-! The recursive descent parser that evaluates an expression while it reads it. Names are looked
up through the caller, so a parse is a computation that asks for the values of names. -/
namespace Protocyte.Constants

open Foundation

variable {F : Type} (py : Python F) (label : String)

/-- The lookups of an expression. -/
abbrev Evaluation (F : Type) := Query ProtocyteError String (TypedValue F)

/-- A parser keeps the tokens from the current one on. -/
abbrev ParserM (F : Type) := StateT (List Token) (Evaluation F)

/-- A method of the parser. `_evaluate_values` is its argument: the source sets the flag for the
length of one call. -/
abbrev Parser (F : Type) := Bool → ParserM F (TypedValue F)

def maxExpressionNesting : ℕ := 32

def ofResult {α : Type} (x : Result α) : ParserM F α := fun tokens => do
  let a ← Query.lift x
  return (a, tokens)

def failure {α : Type} (message : String) : ParserM F α := ofResult (reject label message)

/-- `_peek`: the last token is the end mark and is never passed. -/
def peek : ParserM F Token := fun tokens => return (tokens.headD .eof, tokens)

def advance : ParserM F Unit := fun tokens => return ((), tokens.tail)

/-- `_match`: only an operator token has the text of an operator. -/
def matchToken (symbol : String) : ParserM F Bool := do
  let token ← peek
  if token = .op symbol then
    advance
    return true
  else return false

def expectToken (symbol : String) : ParserM F Unit := do
  if ← matchToken symbol then return ()
  else
    let token ← peek
    failure label s!"expected {py.repr symbol}, got {py.repr token.text}"

/-- What a binary operator does: whether its right operand is evaluated, once the left one is
known, and its value. -/
structure BinaryOperator (F : Type) where
  symbol : String
  rhsEvaluated : Bool → TypedValue F → Result Bool
  apply : Bool → TypedValue F → TypedValue F → Result (TypedValue F)

def eager (symbol : String) (apply : Bool → TypedValue F → TypedValue F → Result (TypedValue F)) :
    BinaryOperator F where
  symbol := symbol
  rhsEvaluated evaluate _ := .ok evaluate
  apply := apply

def bothBools (combine : Bool → Bool → Bool) (evaluate : Bool) (lhs rhs : TypedValue F) :
    Result (TypedValue F) := do
  let lhsBool ← expectBool py label lhs
  let rhsBool ← expectBool py label rhs
  return .bool (if !evaluate then false else combine lhsBool rhsBool)

def orOperator : BinaryOperator F where
  symbol := "||"
  rhsEvaluated evaluate lhs := do
    let lhsBool ← expectBool py label lhs
    return evaluate && !lhsBool
  apply := bothBools py label (· || ·)

def andOperator : BinaryOperator F where
  symbol := "&&"
  rhsEvaluated evaluate lhs := do
    let lhsBool ← expectBool py label lhs
    return evaluate && lhsBool
  apply := bothBools py label (· && ·)

def bitwiseOperator (symbol : String) (op : ℕ → ℕ → ℕ) : BinaryOperator F :=
  eager symbol fun _ lhs rhs => bitwiseBinary py label op lhs rhs

def compareOperator (symbol : String) (integerOp : Int → Int → Bool) (floatOp : F → F → Bool) :
    BinaryOperator F :=
  eager symbol fun _ lhs rhs => do return .bool (← numericCompare py label integerOp floatOp lhs rhs)

def bitwiseOrOperators : List (BinaryOperator F) := [bitwiseOperator py label "|" (· ||| ·)]

def bitwiseXorOperators : List (BinaryOperator F) := [bitwiseOperator py label "^" (· ^^^ ·)]

def bitwiseAndOperators : List (BinaryOperator F) := [bitwiseOperator py label "&" (· &&& ·)]

def equalityOperators : List (BinaryOperator F) :=
  [eager "==" fun _ lhs rhs => do return .bool (← compareEqual py label lhs rhs),
    eager "!=" fun _ lhs rhs => do return .bool (!(← compareEqual py label lhs rhs))]

def compareOperators : List (BinaryOperator F) :=
  [compareOperator py label "<" (fun a b => a < b) py.lt,
    compareOperator py label "<=" (fun a b => a ≤ b) (fun a b => py.lt a b || py.eq a b),
    compareOperator py label ">" (fun a b => b < a) (fun a b => py.lt b a),
    compareOperator py label ">=" (fun a b => b ≤ a) (fun a b => py.lt b a || py.eq b a)]

def shiftOperators : List (BinaryOperator F) :=
  [eager "<<" fun _ lhs rhs => shiftValue py label true lhs rhs,
    eager ">>" fun _ lhs rhs => shiftValue py label false lhs rhs]

def addOperators : List (BinaryOperator F) :=
  [eager "+" fun _ lhs rhs => plus py label lhs rhs,
    eager "-" fun _ lhs rhs => numericBinary py label (· - ·) py.sub lhs rhs]

def mulOperators : List (BinaryOperator F) :=
  [eager "*" fun _ lhs rhs => numericBinary py label (· * ·) py.mul lhs rhs,
    eager "/" (divide py label),
    eager "%" (modulo py label)]

def matchOperator (operators : List (BinaryOperator F)) : Token → Option (BinaryOperator F)
  | .op symbol => operators.find? fun op => op.symbol = symbol
  | _ => none

/-- The loop of a binary level. Every pass takes the operator's token, so a pass for each token
left is enough. -/
def operatorLoop (operators : List (BinaryOperator F)) (operand : Parser F) (evaluate : Bool) :
    ℕ → TypedValue F → ParserM F (TypedValue F)
  | 0, value => return value
  | passes + 1, value => do
    match matchOperator operators (← peek) with
    | none => return value
    | some op =>
      advance
      let rhsMode ← ofResult (op.rhsEvaluated evaluate value)
      let rhs ← operand rhsMode
      let value ← ofResult (op.apply evaluate value rhs)
      operatorLoop operators operand evaluate passes value

def leftAssociative (operators : List (BinaryOperator F)) (operand : Parser F) : Parser F :=
  fun evaluate => do
    let value ← operand evaluate
    let tokens ← get
    operatorLoop operators operand evaluate tokens.length value

section Levels

variable (unary : Parser F)

def parseMul : Parser F := leftAssociative (mulOperators py label) unary

def parseAdd : Parser F := leftAssociative (addOperators py label) (parseMul py label unary)

def parseShift : Parser F := leftAssociative (shiftOperators py label) (parseAdd py label unary)

def parseCompare : Parser F := leftAssociative (compareOperators py label) (parseShift py label unary)

def parseEquality : Parser F :=
  leftAssociative (equalityOperators py label) (parseCompare py label unary)

def parseBitwiseAnd : Parser F :=
  leftAssociative (bitwiseAndOperators py label) (parseEquality py label unary)

def parseBitwiseXor : Parser F :=
  leftAssociative (bitwiseXorOperators py label) (parseBitwiseAnd py label unary)

def parseBitwiseOr : Parser F :=
  leftAssociative (bitwiseOrOperators py label) (parseBitwiseXor py label unary)

def parseAnd : Parser F :=
  leftAssociative [andOperator py label] (parseBitwiseOr py label unary)

def parseOr : Parser F := leftAssociative [orOperator py label] (parseAnd py label unary)

end Levels

/-- The arguments of a call after its opening parenthesis, each a nested expression. -/
def parseArguments (nestedOr : Parser F) (evaluate : Bool) :
    ℕ → List (TypedValue F) → ParserM F (List (TypedValue F))
  | 0, args => return args
  | passes + 1, args => do
    let arg ← nestedOr evaluate
    if ← matchToken ")" then return args ++ [arg]
    else
      expectToken py label ","
      parseArguments nestedOr evaluate passes (args ++ [arg])

def parseCall (nestedOr : Parser F) (name : String) : Parser F := fun evaluate => do
  if ← matchToken ")" then ofResult (evaluateFunction py label name [] evaluate)
  else
    let tokens ← get
    let args ← parseArguments py label nestedOr evaluate tokens.length []
    ofResult (evaluateFunction py label name args evaluate)

/-- The value an operand has for the rest of the expression. -/
def operandValue (evaluate : Bool) (value : TypedValue F) : TypedValue F :=
  if evaluate then value else typeOnlyValue py value

def numberOperand (text : String) : Result (TypedValue F) := do
  match ← parseNumberToken py label text with
  | .inr value => numericValue py (.floating .double value)
  | .inl value =>
    match literalIntegerKind value (isHexPrefix text.toList) with
    | none =>
      reject label
        s!"integer literal {py.repr text} is outside the standard C++ 64-bit range"
    | some kind => numericValue py (.integer kind value)

def parseIdentifier (nestedOr : Parser F) (name : String) : Parser F := fun evaluate => do
  if name = "true" then return operandValue py evaluate (.bool true)
  else if name = "false" then return .bool false
  else if ← matchToken "(" then parseCall py label nestedOr name evaluate
  else
    let value ← StateT.lift (Query.lookup name)
    return operandValue py evaluate value

def parsePrimary (nestedOr : Parser F) : Parser F := fun evaluate => do
  match ← peek with
  | .number text =>
    advance
    let value ← ofResult (numberOperand py label text)
    return operandValue py evaluate value
  | .string text =>
    advance
    let value ← ofResult (parseStringToken py label text)
    return operandValue py evaluate (.string value)
  | .ident name =>
    advance
    parseIdentifier py label nestedOr name evaluate
  | token =>
    if ← matchToken "(" then
      let value ← nestedOr evaluate
      expectToken py label ")"
      return value
    else failure label s!"unexpected token {py.repr token.text}"

def logicalNot (value : TypedValue F) : Result (TypedValue F) := do
  return .bool (!(← expectBool py label value))

def unaryPlus (value : TypedValue F) : Result (TypedValue F) := do
  match ← expectNumeric label value with
  | .integer kind value =>
    let result ← normalizeNumericResult label value kind
    numericValue py (.integer kind result)
  | .floating kind value => numericValue py (.floating kind value)

def unaryMinus (value : TypedValue F) : Result (TypedValue F) := do
  match ← expectNumeric label value with
  | .integer kind value =>
    let result ← normalizeNumericResult label (-value) kind
    numericValue py (.integer kind result)
  | .floating kind value => numericValue py (.floating kind (py.neg value))

def unaryOperators : List (String × (TypedValue F → Result (TypedValue F))) :=
  [("!", logicalNot py label), ("~", bitwiseComplement py label), ("+", unaryPlus py label),
    ("-", unaryMinus py label)]

def matchUnary : Token → Option (String × (TypedValue F → Result (TypedValue F)))
  | .op symbol => (unaryOperators py label).find? fun op => op.1 = symbol
  | _ => none

/-- One level of `_parse_unary`, over the parsers of what is nested in it. -/
def unaryLevel (nestedUnary nestedOr : Parser F) : Parser F := fun evaluate => do
  match matchUnary py label (← peek) with
  | some (_, apply) =>
    advance
    let value ← nestedUnary evaluate
    ofResult (apply value)
  | none => parsePrimary py label nestedOr evaluate

/-- `_parse_nested` at the maximum depth. -/
def nestingExceeded : Parser F := fun _ =>
  failure label s!"expression nesting exceeds maximum depth of {maxExpressionNesting}"

/-- `_parse_unary` with the nesting depth still allowed. -/
def parseUnary : ℕ → Parser F
  | 0 => unaryLevel py label (nestingExceeded label) (nestingExceeded label)
  | depth + 1 => unaryLevel py label (parseUnary depth) (parseOr py label (parseUnary depth))

def parseTokens : ParserM F (TypedValue F) := do
  let value ← parseOr py label (parseUnary py label maxExpressionNesting) true
  let token ← peek
  if token ≠ .eof then failure label s!"unexpected token {py.repr token.text}"
  else return value

/-- `_ExprParser(text, resolve_name, label).parse()`. -/
def parseExpression (text : String) : Evaluation F (TypedValue F) := do
  let tokens ← Query.lift (tokenize py label text)
  let (value, _) ← parseTokens py label tokens
  return value

end Protocyte.Constants
