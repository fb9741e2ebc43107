import Protocyte.Constants.Expression

/-! The integer and boolean expressions as trees, the token sequences that spell a tree under the
C++ precedences, and the parser's value of such a sequence. -/
namespace Protocyte.Constants

open Foundation

inductive ScalarType where
  | bool
  | i32
  | u32
  | i64
  | u64
deriving DecidableEq, Repr

inductive UnaryOp where
  | not
  | complement
  | plus
  | minus
deriving DecidableEq, Repr

inductive BinaryOp where
  | mul | div | mod
  | add | sub
  | shiftLeft | shiftRight
  | less | lessEqual | greater | greaterEqual
  | equal | notEqual
  | bitAnd
  | bitXor
  | bitOr
  | and
  | or
deriving DecidableEq, Repr

inductive Expr where
  | literal (hexadecimal : Bool) (value : ℕ)
  | bool (value : Bool)
  | name (name : String)
  | paren (e : Expr)
  | cast (type : ScalarType) (e : Expr)
  | unary (op : UnaryOp) (e : Expr)
  | binary (op : BinaryOp) (lhs rhs : Expr)
deriving DecidableEq, Repr

def ScalarType.name : ScalarType → String
  | bool => "bool"
  | i32 => "i32"
  | u32 => "u32"
  | i64 => "i64"
  | u64 => "u64"

def UnaryOp.symbol : UnaryOp → String
  | not => "!"
  | complement => "~"
  | plus => "+"
  | minus => "-"

def BinaryOp.symbol : BinaryOp → String
  | mul => "*"
  | div => "/"
  | mod => "%"
  | add => "+"
  | sub => "-"
  | shiftLeft => "<<"
  | shiftRight => ">>"
  | less => "<"
  | lessEqual => "<="
  | greater => ">"
  | greaterEqual => ">="
  | equal => "=="
  | notEqual => "!="
  | bitAnd => "&"
  | bitXor => "^"
  | bitOr => "|"
  | and => "&&"
  | or => "||"

/-- The precedence levels of the binary operators, the tightest first. -/
def BinaryOp.level : BinaryOp → ℕ
  | mul | div | mod => 1
  | add | sub => 2
  | shiftLeft | shiftRight => 3
  | less | lessEqual | greater | greaterEqual => 4
  | equal | notEqual => 5
  | bitAnd => 6
  | bitXor => 7
  | bitOr => 8
  | and => 9
  | or => 10

namespace Expr

/-- How deep unary operators, parentheses and casts nest. -/
def nesting : Expr → ℕ
  | literal _ _ => 0
  | bool _ => 0
  | name _ => 0
  | paren e => e.nesting + 1
  | cast _ e => e.nesting + 1
  | unary _ e => e.nesting + 1
  | binary _ lhs rhs => max lhs.nesting rhs.nesting

end Expr

def decimalDigit (c : Char) : Option ℕ :=
  if '0' ≤ c ∧ c ≤ '9' then some (c.toNat - 48) else none

def hexadecimalDigit (c : Char) : Option ℕ :=
  if '0' ≤ c ∧ c ≤ '9' then some (c.toNat - 48)
  else if 'a' ≤ c ∧ c ≤ 'f' then some (c.toNat - 87)
  else if 'A' ≤ c ∧ c ≤ 'F' then some (c.toNat - 55)
  else none

/-- The spellings of an integer literal: decimal digits without a leading zero, or hexadecimal
digits after their prefix. -/
inductive SpellsLiteral : List Char → Bool → ℕ → Prop
  | zero : SpellsLiteral ['0'] false 0
  | decimal (digits : List Char) (first : ℕ) (rest : List ℕ) : first ≠ 0 →
      digits.mapM decimalDigit = some (first :: rest) →
      SpellsLiteral digits false ((first :: rest).foldl (fun n d => n * 10 + d) 0)
  | hexadecimal (x : Char) (digits : List Char) (values : List ℕ) : x = 'x' ∨ x = 'X' →
      values ≠ [] → digits.mapM hexadecimalDigit = some values →
      SpellsLiteral ('0' :: x :: digits) true (values.foldl (fun n d => n * 16 + d) 0)

/-- `Spells level tokens e`: the tokens derive `e` from the grammar's rule for the level, where
level `0` is a unary expression and level `10` any expression. A rule for a binary level is left
recursive. -/
inductive Spells : ℕ → List Token → Expr → Prop
  | literal (text : String) (hexadecimal : Bool) (value : ℕ) :
      SpellsLiteral text.toList hexadecimal value →
      Spells 0 [.number text] (.literal hexadecimal value)
  | true : Spells 0 [.ident "true"] (.bool Bool.true)
  | false : Spells 0 [.ident "false"] (.bool Bool.false)
  | name (x : String) : x ≠ "true" → x ≠ "false" → Spells 0 [.ident x] (.name x)
  | paren (tokens : List Token) (e : Expr) : Spells 10 tokens e →
      Spells 0 (.op "(" :: tokens ++ [.op ")"]) (.paren e)
  | cast (type : ScalarType) (tokens : List Token) (e : Expr) : Spells 10 tokens e →
      Spells 0 (.ident type.name :: .op "(" :: tokens ++ [.op ")"]) (.cast type e)
  | unary (op : UnaryOp) (tokens : List Token) (e : Expr) : Spells 0 tokens e →
      Spells 0 (.op op.symbol :: tokens) (.unary op e)
  | tighter (level : ℕ) (tokens : List Token) (e : Expr) : Spells level tokens e →
      Spells (level + 1) tokens e
  | binary (op : BinaryOp) (level : ℕ) (lhs rhs : List Token) (a b : Expr) :
      op.level = level + 1 → Spells (level + 1) lhs a → Spells level rhs b →
      Spells (level + 1) (lhs ++ .op op.symbol :: rhs) (.binary op a b)

variable {F : Type} (py : Python F) (label : String)

def binaryOperator : BinaryOp → BinaryOperator F
  | .mul => eager "*" fun _ lhs rhs => numericBinary py label (· * ·) py.mul lhs rhs
  | .div => eager "/" (divide py label)
  | .mod => eager "%" (modulo py label)
  | .add => eager "+" fun _ lhs rhs => plus py label lhs rhs
  | .sub => eager "-" fun _ lhs rhs => numericBinary py label (· - ·) py.sub lhs rhs
  | .shiftLeft => eager "<<" fun _ lhs rhs => shiftValue py label true lhs rhs
  | .shiftRight => eager ">>" fun _ lhs rhs => shiftValue py label false lhs rhs
  | .less => compareOperator py label "<" (fun a b => a < b) py.lt
  | .lessEqual =>
    compareOperator py label "<=" (fun a b => a ≤ b) (fun a b => py.lt a b || py.eq a b)
  | .greater => compareOperator py label ">" (fun a b => b < a) (fun a b => py.lt b a)
  | .greaterEqual =>
    compareOperator py label ">=" (fun a b => b ≤ a) (fun a b => py.lt b a || py.eq b a)
  | .equal => eager "==" fun _ lhs rhs => do return .bool (← compareEqual py label lhs rhs)
  | .notEqual => eager "!=" fun _ lhs rhs => do return .bool (!(← compareEqual py label lhs rhs))
  | .bitAnd => bitwiseOperator py label "&" (· &&& ·)
  | .bitXor => bitwiseOperator py label "^" (· ^^^ ·)
  | .bitOr => bitwiseOperator py label "|" (· ||| ·)
  | .and => andOperator py label
  | .or => orOperator py label

def unaryOperator : UnaryOp → TypedValue F → Result (TypedValue F)
  | .not => logicalNot py label
  | .complement => bitwiseComplement py label
  | .plus => unaryPlus py label
  | .minus => unaryMinus py label

/-- The value of a tree by the operations of the parser, each subtree evaluated in the mode the
parser reads it in. -/
def Expr.value (env : String → TypedValue F) : Bool → Expr → Option (TypedValue F)
  | evaluate, .literal hexadecimal value =>
    (literalIntegerKind value hexadecimal).map fun kind =>
      operandValue py evaluate (.number (.integer kind value))
  | evaluate, .bool value => some (operandValue py evaluate (.bool value))
  | evaluate, .name x => some (operandValue py evaluate (env x))
  | evaluate, .paren e => e.value env evaluate
  | evaluate, .cast type e => do
    let value ← e.value env evaluate
    (evaluateFunction py label type.name [value] evaluate).toOption
  | evaluate, .unary op e => do
    let value ← e.value env evaluate
    (unaryOperator py label op value).toOption
  | evaluate, .binary op lhs rhs => do
    let left ← lhs.value env evaluate
    let rhsMode ← ((binaryOperator py label op).rhsEvaluated evaluate left).toOption
    let right ← rhs.value env rhsMode
    ((binaryOperator py label op).apply evaluate left right).toOption

/-- The operators of a binary level and the parser of each level. -/
def operatorsAt : ℕ → List (BinaryOperator F)
  | 1 => mulOperators py label
  | 2 => addOperators py label
  | 3 => shiftOperators py label
  | 4 => compareOperators py label
  | 5 => equalityOperators py label
  | 6 => bitwiseAndOperators py label
  | 7 => bitwiseXorOperators py label
  | 8 => bitwiseOrOperators py label
  | 9 => [andOperator py label]
  | 10 => [orOperator py label]
  | _ => []

def levelParser (unary : Parser F) : ℕ → Parser F
  | 0 => unary
  | level + 1 => leftAssociative (operatorsAt py label (level + 1)) (levelParser unary level)

theorem parseOr_eq_levelParser (unary : Parser F) :
    parseOr py label unary = levelParser py label unary 10 := rfl

/-- The result of a parser on a token list when every name has a value. -/
def outcome {α : Type} (env : String → TypedValue F) (parser : ParserM F α) (tokens : List Token) :
    Option (α × List Token) :=
  ((parser tokens).eval fun name => .ok (env name)).toOption

section Outcome

variable {α β : Type} (env : String → TypedValue F)

theorem outcome_bind (x : ParserM F α) (f : α → ParserM F β) (tokens : List Token) :
    outcome env (x >>= f) tokens = (outcome env x tokens >>= fun p => outcome env (f p.1) p.2) := by
  have hbind : (x >>= f) tokens = (x tokens >>= fun p => f p.1 p.2) := rfl
  unfold outcome
  rw [hbind, Query.eval_bind]
  cases (x tokens).eval fun name => .ok (env name) <;> rfl

@[simp] theorem outcome_pure (a : α) (tokens : List Token) :
    outcome env (pure a : ParserM F α) tokens = some (a, tokens) := rfl

@[simp] theorem outcome_ofResult (x : Result α) (tokens : List Token) :
    outcome env (ofResult x : ParserM F α) tokens = x.toOption.map (·, tokens) := by
  cases x <;> rfl

@[simp] theorem outcome_peek (tokens : List Token) :
    outcome env (peek : ParserM F Token) tokens = some (tokens.headD .eof, tokens) := rfl

@[simp] theorem outcome_advance (tokens : List Token) :
    outcome env (advance : ParserM F Unit) tokens = some ((), tokens.tail) := rfl

@[simp] theorem outcome_get (tokens : List Token) :
    outcome env (get : ParserM F (List Token)) tokens = some (tokens, tokens) := rfl

theorem outcome_matchToken (symbol : String) (tokens : List Token) :
    outcome env (matchToken symbol : ParserM F Bool) tokens =
      if tokens.headD .eof = .op symbol then some (true, tokens.tail)
      else some (false, tokens) := by
  unfold matchToken
  rw [outcome_bind, outcome_peek]
  split
  · rename_i h
    simp only [Option.bind_eq_bind, Option.bind_some, if_pos h]
    rfl
  · rename_i h
    simp only [Option.bind_eq_bind, Option.bind_some, if_neg h]
    rfl

end Outcome

end Protocyte.Constants
