import Protocyte.Constants.Grammar
import Protocyte.Foundation.FixedWidth

/-! The meaning C++20 gives the integer and boolean expressions, and what is left of an operand
that evaluation skips. -/
namespace Protocyte.Constants

open Foundation

def IntegerKind.type (kind : IntegerKind) : IntType := ⟨kind.bits, kind.signed⟩

/-- An integer of one of the fixed-width types; it lies in the range of its type. -/
structure CxxInt where
  kind : IntegerKind
  value : kind.type.Value

inductive CxxValue where
  | bool (value : Bool)
  | int (x : CxxInt)

/-- The usual arithmetic conversions of two promoted kinds. -/
def usualKind (a b : IntegerKind) : IntegerKind :=
  if a.signed = b.signed then (if a.bits ≥ b.bits then a else b)
  else if a.signed then (if b.bits ≥ a.bits then b else a)
  else (if a.bits ≥ b.bits then a else b)

def CxxInt.convert (x : CxxInt) (kind : IntegerKind) : kind.type.Value :=
  kind.type.ofInt x.value.val

namespace CxxValue

def ofInt (kind : IntegerKind) (x : ℤ) : CxxValue := .int ⟨kind, kind.type.ofInt x⟩

def promote : CxxValue → CxxInt
  | bool value => ⟨.int32, IntegerKind.int32.type.ofInt (if value then 1 else 0)⟩
  | int x => x

def truth : CxxValue → Bool
  | bool value => value
  | int x => x.value.val ≠ 0

/-- The type of a value with the value zero. -/
def zero : CxxValue → CxxValue
  | bool _ => bool false
  | int x => ofInt x.kind 0

/-- The kind of an operator's operands after the usual arithmetic conversions. -/
def commonKind (l r : CxxValue) : IntegerKind := usualKind l.promote.kind r.promote.kind

def left (l r : CxxValue) : (commonKind l r).type.Value := l.promote.convert _

def right (l r : CxxValue) : (commonKind l r).type.Value := r.promote.convert _

def arithmetic (f : ℤ → ℤ → ℤ) (l r : CxxValue) : Option CxxValue :=
  ((commonKind l r).type.result (f (left l r).val (right l r).val)).map fun x => .int ⟨_, x⟩

def quotient (l r : CxxValue) : Option CxxValue :=
  if (right l r).val = 0 then none
  else ((commonKind l r).type.exactly ((left l r).val.tdiv (right l r).val)).map fun x => .int ⟨_, x⟩

/-- The remainder is defined where the quotient is. -/
def remainder (l r : CxxValue) : Option CxxValue := do
  let _ ← quotient l r
  let x ← (commonKind l r).type.exactly ((left l r).val.tmod (right l r).val)
  return .int ⟨_, x⟩

def bitwise (f : (w : ℕ) → BitVec w → BitVec w → BitVec w) (l r : CxxValue) : Option CxxValue :=
  let type := (commonKind l r).type
  some (.int ⟨_, type.ofBits (f _ (type.bits (left l r)) (type.bits (right l r)))⟩)

def compare (p : ℤ → ℤ → Bool) (l r : CxxValue) : Option CxxValue :=
  some (.bool (p (left l r).val (right l r).val))

/-- A shift keeps the kind of its left operand. -/
def shift (f : ℤ → ℕ → ℤ) (l r : CxxValue) : Option CxxValue :=
  let count := r.promote.value.val
  let kind := l.promote.kind
  if 0 ≤ count ∧ count < kind.bits then some (ofInt kind (f l.promote.value.val count.toNat))
  else none

def cast : ScalarType → CxxValue → CxxValue
  | .bool, v => .bool v.truth
  | .i32, v => .int ⟨.int32, v.promote.convert _⟩
  | .u32, v => .int ⟨.uint32, v.promote.convert _⟩
  | .i64, v => .int ⟨.int64, v.promote.convert _⟩
  | .u64, v => .int ⟨.uint64, v.promote.convert _⟩

def unary : UnaryOp → CxxValue → Option CxxValue
  | .not, v => some (.bool !v.truth)
  | .complement, v =>
    let type := v.promote.kind.type
    some (.int ⟨_, type.ofBits (~~~ type.bits v.promote.value)⟩)
  | .plus, v => some (.int v.promote)
  | .minus, v => (v.promote.kind.type.result (-v.promote.value.val)).map fun x => .int ⟨_, x⟩

def binary : BinaryOp → CxxValue → CxxValue → Option CxxValue
  | .mul, l, r => arithmetic (· * ·) l r
  | .div, l, r => quotient l r
  | .mod, l, r => remainder l r
  | .add, l, r => arithmetic (· + ·) l r
  | .sub, l, r => arithmetic (· - ·) l r
  | .shiftLeft, l, r => shift (fun a n => a * 2 ^ n) l r
  | .shiftRight, l, r => shift (fun a n => a / 2 ^ n) l r
  | .less, l, r => compare (fun a b => a < b) l r
  | .lessEqual, l, r => compare (fun a b => a ≤ b) l r
  | .greater, l, r => compare (fun a b => b < a) l r
  | .greaterEqual, l, r => compare (fun a b => b ≤ a) l r
  | .equal, l, r => compare (fun a b => a = b) l r
  | .notEqual, l, r => compare (fun a b => a ≠ b) l r
  | .bitAnd, l, r => bitwise (fun _ a b => a &&& b) l r
  | .bitXor, l, r => bitwise (fun _ a b => a ^^^ b) l r
  | .bitOr, l, r => bitwise (fun _ a b => a ||| b) l r
  | .and, l, r => some (.bool (l.truth && r.truth))
  | .or, l, r => some (.bool (l.truth || r.truth))

/-- The value of a logical operator whose right operand is not evaluated. -/
def shortCircuit : BinaryOp → CxxValue → Option CxxValue
  | .and, l => if l.truth then none else some (.bool false)
  | .or, l => if l.truth then some (.bool true) else none
  | _, _ => none

end CxxValue

/-- The types an unsuffixed literal may have, in the order they are tried. -/
def literalCandidates (hexadecimal : Bool) : List IntegerKind :=
  if hexadecimal then [.int32, .uint32, .int64, .uint64] else [.int32, .int64]

def literalValue (hexadecimal : Bool) (value : ℕ) : Option CxxValue :=
  ((literalCandidates hexadecimal).find? fun kind => kind.type.Fits value).map fun kind =>
    .ofInt kind value

namespace Expr

/-- Every literal of the expression has a type. -/
def literalsFit : Expr → Bool
  | literal hexadecimal value => (literalValue hexadecimal value).isSome
  | bool _ => true
  | name _ => true
  | paren e => e.literalsFit
  | cast _ e => e.literalsFit
  | unary _ e => e.literalsFit
  | binary _ lhs rhs => lhs.literalsFit && rhs.literalsFit

variable (env : String → CxxValue)

/-- The value of a well-formed expression; `none` where C++ leaves it undefined. -/
def eval : Expr → Option CxxValue
  | literal hexadecimal value => literalValue hexadecimal value
  | bool value => some (.bool value)
  | name x => some (env x)
  | paren e => e.eval
  | cast type e => (e.eval).map (CxxValue.cast type)
  | unary op e => e.eval >>= CxxValue.unary op
  | binary op lhs rhs => do
    let l ← lhs.eval
    match CxxValue.shortCircuit op l with
    | some v => return v
    | none =>
      let r ← rhs.eval
      CxxValue.binary op l r

/-- The meaning of an expression: a literal without a type makes it ill-formed as a whole. -/
def meaning (e : Expr) : Option CxxValue := if e.literalsFit then e.eval env else none

/-- What is left of an operand when every literal, constant, cast, quotient, remainder and
logical operation in it is the zero of its type. -/
def blank : Expr → Option CxxValue
  | literal hexadecimal value => (literalValue hexadecimal value).map CxxValue.zero
  | bool _ => some (.bool false)
  | name x => some (env x).zero
  | paren e => e.blank
  | cast type e => (e.blank).map fun v => (v.cast type).zero
  | unary op e => e.blank >>= CxxValue.unary op
  | binary op lhs rhs => do
    let l ← lhs.blank
    let r ← rhs.blank
    match op with
    | .and => return .bool false
    | .or => return .bool false
    | .div => return .ofInt (CxxValue.commonKind l r) 0
    | .mod => return .ofInt (CxxValue.commonKind l r) 0
    | op => CxxValue.binary op l r

/-- Every operand that evaluation skips still has a value when it is blanked. -/
def skipsSafely : Expr → Bool
  | literal _ _ => true
  | bool _ => true
  | name _ => true
  | paren e => e.skipsSafely
  | cast _ e => e.skipsSafely
  | unary _ e => e.skipsSafely
  | binary op lhs rhs =>
    lhs.skipsSafely &&
      match lhs.eval env with
      | none => true
      | some l =>
        match CxxValue.shortCircuit op l with
        | some _ => (rhs.blank env).isSome
        | none => rhs.skipsSafely

end Expr

/-- The value the evaluator represents a C++ value by. -/
def CxxValue.typed {F : Type} : CxxValue → TypedValue F
  | bool value => .bool value
  | int x => .number (.integer x.kind x.value.val)

end Protocyte.Constants
