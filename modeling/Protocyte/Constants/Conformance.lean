import Protocyte.Constants.Evaluation
import Mathlib.Data.Rat.Defs

/-! When an expression has its C++20 meaning. The parser keeps the kinds of an operand it skips by
evaluating it on zeros, which may fail where the operand itself would not. -/
namespace Protocyte.Constants

open Foundation

variable {F : Type} (py : Python F) (label : String) (env : String → CxxValue)

private theorem find_cons {α : Type} (p : α → Prop) [DecidablePred p] (a : α) (l : List α) :
    ((a :: l).find? fun x => p x) = if p a then some a else l.find? fun x => p x := by
  rw [List.find?_cons]
  by_cases h : p a <;> simp [h]

theorem literalIntegerKind_eq_find (hexadecimal : Bool) (value : ℕ) :
    literalIntegerKind value hexadecimal
      = (literalCandidates hexadecimal).find? fun kind => kind.type.Fits value := by
  have hfits : ∀ kind : IntegerKind, kind.type.Fits value ↔ (value : ℤ) ≤ kind.upper := by
    intro kind
    unfold IntType.Fits
    rw [kind.type_upper]
    have hlower : kind.type.lower ≤ 0 := by cases kind <;> decide
    constructor
    · intro h
      exact h.2
    · intro h
      exact ⟨by omega, h⟩
  have h32 : IntegerKind.int32.upper = 2 ^ 31 - 1 := rfl
  have hu32 : IntegerKind.uint32.upper = 2 ^ 32 - 1 := rfl
  have h64 : IntegerKind.int64.upper = 2 ^ 63 - 1 := rfl
  have hu64 : IntegerKind.uint64.upper = 2 ^ 64 - 1 := rfl
  unfold literalIntegerKind literalCandidates
  cases hexadecimal with
  | true =>
    simp only [if_true, find_cons, List.find?_nil, hfits, h32, hu32, h64, hu64]
    split_ifs <;> first | rfl | omega
  | false =>
    simp only [Bool.false_eq_true, if_false, find_cons, List.find?_nil, hfits, h32, h64]
    split_ifs <;> first | rfl | omega

private theorem literalValue_eq (hexadecimal : Bool) (value : ℕ) :
    literalValue hexadecimal value
      = (literalIntegerKind value hexadecimal).map fun kind => CxxValue.ofInt kind value := by
  rw [literalIntegerKind_eq_find]
  rfl

/-- A literal's kind holds its value. -/
private theorem literal_typed (hexadecimal : Bool) (value : ℕ) :
    ((literalIntegerKind value hexadecimal).map fun kind =>
        (TypedValue.number (.integer kind value) : TypedValue F))
      = (literalValue hexadecimal value).map CxxValue.typed := by
  rw [literalValue_eq, Option.map_map]
  apply Option.map_congr
  intro kind hkind
  have hfits : kind.type.Fits value := by
    rw [literalIntegerKind_eq_find] at hkind
    simpa using List.find?_some hkind
  change _ = TypedValue.number (.integer kind (kind.type.wrap value))
  rw [kind.type.wrap_of_fits hfits]

/-- An operand read without evaluation has the value of its blanked form. -/
theorem value_skipped (e : Expr) :
    e.value py label (fun x => (env x).typed) false = (e.blank env).map CxxValue.typed := by
  induction e with
  | literal hexadecimal value =>
    have htyped := literal_typed (F := F) hexadecimal value
    rw [Expr.value, Expr.blank, Option.map_map]
    have hzero : ∀ v : CxxValue, typeOnlyValue py v.typed = v.zero.typed := typeOnlyValue_typed py
    calc (literalIntegerKind value hexadecimal).map
          (fun kind => operandValue py false (.number (.integer kind value)))
        = ((literalIntegerKind value hexadecimal).map fun kind =>
            (TypedValue.number (.integer kind value) : TypedValue F)).map (typeOnlyValue py) := by
          rw [Option.map_map]
          rfl
      _ = (literalValue hexadecimal value).map (CxxValue.typed ∘ CxxValue.zero) := by
          rw [htyped, Option.map_map]
          apply Option.map_congr
          intro v _
          exact hzero v
  | bool value => rfl
  | name x =>
    rw [Expr.value, Expr.blank, Option.map_some, ← typeOnlyValue_typed py]
    rfl
  | paren e ih => exact ih
  | cast type e ih =>
    rw [Expr.value, Expr.blank, ih]
    cases e.blank env with
    | none => rfl
    | some v =>
      simp only [Option.map_some, Option.bind_eq_bind, Option.bind_some]
      rw [evaluateFunction_skipped]
      rfl
  | unary op e ih =>
    rw [Expr.value, Expr.blank, ih]
    cases e.blank env with
    | none => rfl
    | some v => exact unaryOperator_typed py label op v
  | binary op lhs rhs ihl ihr =>
    rw [Expr.value, Expr.blank, ihl]
    cases lhs.blank env with
    | none => rfl
    | some l =>
      simp only [Option.map_some, Option.bind_eq_bind, Option.bind_some]
      rw [rhsEvaluated_typed]
      simp only [Bool.false_and, Except.toOption, Option.bind_some]
      rw [ihr]
      cases rhs.blank env with
      | none => rfl
      | some r =>
        simp only [Option.map_some, Option.bind_some]
        cases op
        case and =>
          simp only [binaryOperator, andOperator, bothBools_typed]
          rfl
        case or =>
          simp only [binaryOperator, orOperator, bothBools_typed]
          rfl
        case div =>
          simp only [binaryOperator, eager, divide_skipped]
          rfl
        case mod =>
          simp only [binaryOperator, eager, modulo_skipped]
          rfl
        all_goals
          refine apply_typed py label _ false (.inr ?_) l r
          simp

theorem literalsFit_of_blank {e : Expr} (h : (e.blank env).isSome) : e.literalsFit = true := by
  induction e with
  | literal hexadecimal value =>
    rw [Expr.blank, Option.isSome_map] at h
    exact h
  | bool value => rfl
  | name x => rfl
  | paren e ih => exact ih h
  | cast type e ih =>
    rw [Expr.blank, Option.isSome_map] at h
    exact ih h
  | unary op e ih =>
    apply ih
    rw [Expr.blank] at h
    cases hv : e.blank env with
    | none => simp [hv] at h
    | some v => rfl
  | binary op lhs rhs ihl ihr =>
    rw [Expr.blank] at h
    rw [Expr.literalsFit, Bool.and_eq_true]
    cases hl : lhs.blank env with
    | none => simp [hl] at h
    | some l =>
      cases hr : rhs.blank env with
      | none => simp [hl, hr] at h
      | some r => exact ⟨ihl (by rw [hl]; rfl), ihr (by rw [hr]; rfl)⟩

/-- The value of a logical operator whose right operand does not matter. -/
theorem binary_of_shortCircuit {op : BinaryOp} {l v : CxxValue}
    (h : CxxValue.shortCircuit op l = some v) (r : CxxValue) :
    CxxValue.binary op l r = some v := by
  cases op
  case and =>
    cases htruth : l.truth with
    | true => simp [CxxValue.shortCircuit, htruth] at h
    | false => simpa [CxxValue.shortCircuit, CxxValue.binary, htruth] using h
  case or =>
    cases htruth : l.truth with
    | true => simpa [CxxValue.shortCircuit, CxxValue.binary, htruth] using h
    | false => simp [CxxValue.shortCircuit, htruth] at h
  all_goals cases h

/-- An expression that parses has its meaning, and skipped only harmless operands. -/
theorem eval_of_value {e : Expr} {v : TypedValue F}
    (h : e.value py label (fun x => (env x).typed) true = some v) :
    ∃ w, e.eval env = some w ∧ v = w.typed ∧ e.literalsFit = true ∧ e.skipsSafely env = true := by
  induction e generalizing v with
  | literal hexadecimal value =>
    have htyped := literal_typed (F := F) hexadecimal value
    rw [Expr.value] at h
    have hmap : (literalValue hexadecimal value).map CxxValue.typed = some v := by
      rw [← htyped]
      exact h
    obtain ⟨w, hw, rfl⟩ := Option.map_eq_some_iff.mp hmap
    exact ⟨w, hw, rfl, by rw [Expr.literalsFit, hw]; rfl, rfl⟩
  | bool value => exact ⟨.bool value, rfl, (Option.some.inj h).symm, rfl, rfl⟩
  | name x => exact ⟨env x, rfl, (Option.some.inj h).symm, rfl, rfl⟩
  | paren e ih => exact ih h
  | cast type e ih =>
    rw [Expr.value] at h
    obtain ⟨u, hu, hcast⟩ := Option.bind_eq_some_iff.mp h
    obtain ⟨w, hw, rfl, hfit, hsafe⟩ := ih hu
    rw [evaluateFunction_typed] at hcast
    refine ⟨w.cast type, ?_, (Option.some.inj hcast).symm, hfit, hsafe⟩
    rw [Expr.eval, hw]
    rfl
  | unary op e ih =>
    rw [Expr.value] at h
    obtain ⟨u, hu, hop⟩ := Option.bind_eq_some_iff.mp h
    obtain ⟨w, hw, rfl, hfit, hsafe⟩ := ih hu
    rw [unaryOperator_typed] at hop
    obtain ⟨w', hw', rfl⟩ := Option.map_eq_some_iff.mp hop
    refine ⟨w', ?_, rfl, hfit, hsafe⟩
    rw [Expr.eval, hw]
    exact hw'
  | binary op lhs rhs ihl ihr =>
    rw [Expr.value] at h
    obtain ⟨u, hu, hrest⟩ := Option.bind_eq_some_iff.mp h
    obtain ⟨l, hl, rfl, hlfit, hlsafe⟩ := ihl hu
    rw [rhsEvaluated_typed] at hrest
    simp only [Bool.true_and, Except.toOption, Option.bind_eq_bind, Option.bind_some] at hrest
    obtain ⟨u', hu', happly⟩ := Option.bind_eq_some_iff.mp hrest
    cases hshort : CxxValue.shortCircuit op l with
    | none =>
      rw [hshort] at hu'
      obtain ⟨r, hr, rfl, hrfit, hrsafe⟩ := ihr hu'
      have htyped := apply_typed py label op true (.inl rfl) l r
      unfold Except.toOption at htyped
      rw [htyped] at happly
      obtain ⟨w, hw, rfl⟩ := Option.map_eq_some_iff.mp happly
      refine ⟨w, ?_, rfl, ?_, ?_⟩
      · simp [Expr.eval, hl, hr, hshort, hw]
      · rw [Expr.literalsFit, hlfit, hrfit]
        rfl
      · simp [Expr.skipsSafely, hl, hshort, hlsafe, hrsafe]
    | some s =>
      rw [hshort, Option.isNone_some, value_skipped] at hu'
      obtain ⟨r, hr, rfl⟩ := Option.map_eq_some_iff.mp hu'
      have htyped := apply_typed py label op true (.inl rfl) l r
      unfold Except.toOption at htyped
      rw [htyped, binary_of_shortCircuit hshort] at happly
      refine ⟨s, ?_, (Option.some.inj happly).symm, ?_, ?_⟩
      · simp [Expr.eval, hl, hshort]
      · rw [Expr.literalsFit, hlfit, literalsFit_of_blank env (by rw [hr]; rfl)]
        rfl
      · simp [Expr.skipsSafely, hl, hshort, hlsafe, hr]

/-- Where skipped operands are harmless, a parse finds the value. -/
theorem value_of_eval {e : Expr} {w : CxxValue} (h : e.eval env = some w)
    (hsafe : e.skipsSafely env = true) :
    e.value py label (fun x => (env x).typed) true = some w.typed := by
  induction e generalizing w with
  | literal hexadecimal value =>
    have htyped := literal_typed (F := F) hexadecimal value
    have hvalue : literalValue hexadecimal value = some w := h
    rw [hvalue] at htyped
    exact htyped
  | bool value =>
    rw [← Option.some.inj h]
    rfl
  | name x =>
    rw [← Option.some.inj h]
    rfl
  | paren e ih => exact ih h hsafe
  | cast type e ih =>
    rw [Expr.eval] at h
    obtain ⟨v, hv, rfl⟩ := Option.map_eq_some_iff.mp h
    rw [Expr.value, ih hv hsafe]
    simp only [Option.bind_eq_bind, Option.bind_some]
    rw [evaluateFunction_typed]
    rfl
  | unary op e ih =>
    rw [Expr.eval] at h
    obtain ⟨v, hv, hop⟩ := Option.bind_eq_some_iff.mp h
    rw [Expr.value, ih hv hsafe]
    simp only [Option.bind_eq_bind, Option.bind_some]
    rw [unaryOperator_typed, hop]
    rfl
  | binary op lhs rhs ihl ihr =>
    rw [Expr.eval] at h
    obtain ⟨l, hl, hrest⟩ := Option.bind_eq_some_iff.mp h
    rw [Expr.skipsSafely, hl, Bool.and_eq_true] at hsafe
    simp only at hsafe
    rw [Expr.value, ihl hl hsafe.1]
    simp only [Option.bind_eq_bind, Option.bind_some]
    rw [rhsEvaluated_typed]
    simp only [Bool.true_and, Except.toOption, Option.bind_some]
    have htyped : ∀ r, ((binaryOperator py label op).apply true l.typed (CxxValue.typed r)).toOption
        = (CxxValue.binary op l r).map CxxValue.typed := apply_typed py label op true (.inl rfl) l
    unfold Except.toOption at htyped
    cases hshort : CxxValue.shortCircuit op l with
    | none =>
      rw [hshort] at hrest hsafe
      obtain ⟨r, hr, hop⟩ := Option.bind_eq_some_iff.mp hrest
      rw [Option.isNone_none, ihr hr hsafe.2, Option.bind_some, htyped, hop]
      rfl
    | some s =>
      rw [hshort] at hrest hsafe
      obtain ⟨r, hr⟩ := Option.isSome_iff_exists.mp hsafe.2
      rw [Option.isNone_some, value_skipped, hr, Option.map_some, Option.bind_some, htyped,
        binary_of_shortCircuit hshort, ← Option.some.inj hrest]
      rfl

/-- An integer lies in the range of its kind. -/
def TypedValue.InRange : TypedValue F → Prop
  | .number (.integer kind x) => kind.type.Fits x
  | _ => True

theorem typed_inRange (v : CxxValue) : (v.typed : TypedValue F).InRange := by
  cases v with
  | bool b => trivial
  | int x => exact x.value.property

theorem value_inRange {e : Expr} {evaluate : Bool} {v : TypedValue F}
    (h : e.value py label (fun x => (env x).typed) evaluate = some v) : v.InRange := by
  cases evaluate with
  | true =>
    obtain ⟨w, -, rfl, -⟩ := eval_of_value py label env h
    exact typed_inRange w
  | false =>
    rw [value_skipped] at h
    obtain ⟨w, -, rfl⟩ := Option.map_eq_some_iff.mp h
    exact typed_inRange w

/-- Every value that the parser of a level returns for a phrase lies in the range of its kind. -/
def IntermediatesFit : Prop :=
  ∀ (depth level : ℕ) (tokens : List Token) (e : Expr), Spells level tokens e →
    e.nesting ≤ depth → ∀ (evaluate : Bool) (rest : List Token), Follows level rest →
    ∀ (v : TypedValue F) (rest' : List Token),
      outcome (fun x => (env x).typed) (levelParser py label (parseUnary py label depth) level evaluate)
        (tokens ++ rest) = some (v, rest') → v.InRange

theorem intermediatesFit : IntermediatesFit py label env := by
  intro depth level tokens e h hnesting evaluate rest hrest v rest' hv
  rw [(h.computes depth hnesting).stop evaluate hrest] at hv
  obtain ⟨u, hu, heq⟩ := Option.map_eq_some_iff.mp hv
  rw [← (Prod.mk.inj heq).1]
  exact value_inRange py label env hu

/-- The parser finds the C++20 value and kind of an expression, or an error where it has none. -/
def MeetsCxx (text : String) (e : Expr) : Prop :=
  ((parseExpression py label text).eval fun x => .ok (env x).typed).toOption
      = (e.meaning env).map CxxValue.typed ∧
    IntermediatesFit py label env

/-- The parser meets C++20 on an expression that is in error anyway, or that skips only operands
which have a value when everything in them is zero; and on no other. -/
theorem parseExpression_meetsCxx_iff (text : String) (tokens : List Token) (e : Expr)
    (htokens : tokenize py label text = .ok (tokens ++ [.eof])) (h : Spells 10 tokens e)
    (hnesting : e.nesting ≤ maxExpressionNesting) :
    MeetsCxx py label env text e ↔ e.meaning env = none ∨ e.skipsSafely env = true := by
  unfold MeetsCxx
  rw [parseExpression_of_spells (fun x => (env x).typed) htokens h hnesting]
  constructor
  · intro hmeets
    cases hmeaning : e.meaning env with
    | none => exact .inl rfl
    | some w =>
      rw [hmeaning, Option.map_some] at hmeets
      obtain ⟨-, -, -, -, hsafe⟩ := eval_of_value py label env hmeets.1
      exact .inr hsafe
  · intro hcond
    refine ⟨?_, intermediatesFit py label env⟩
    cases hmeaning : e.meaning env with
    | some w =>
      unfold Expr.meaning at hmeaning
      split at hmeaning
      · cases hcond with
        | inl hnone => simp_all [Expr.meaning]
        | inr hsafe => exact value_of_eval py label env hmeaning hsafe
      · cases hmeaning
    | none =>
      cases hvalue : e.value py label (fun x => (env x).typed) true with
      | none => rfl
      | some v =>
        obtain ⟨w, hw, -, hfit, -⟩ := eval_of_value py label env hvalue
        unfold Expr.meaning at hmeaning
        rw [if_pos hfit, hw] at hmeaning
        cases hmeaning

/-- A host with exact rationals for floats, which is all that integer expressions need. -/
def rationalPython : Python ℚ where
  zero := 0
  one := 1
  half := 1 / 2
  ofInt x := some x
  parseFloat _ := none
  isFinite _ := true
  packF32 x := some x
  neg x := -x
  add x y := x + y
  sub x y := x - y
  mul x y := x * y
  div x y := x / y
  eq x y := x = y
  lt x y := x < y
  abs x := if x < 0 then -x else x
  copysign x y := if (x < 0) = (y < 0) then x else -x
  trunc x := if x < 0 then x.ceil else x.floor
  ceil x := x.ceil
  floor x := x.floor
  isInteger x := x.den = 1
  modf x := (x - (x.floor : ℚ), x.floor)
  format _ x := toString x
  evaluateUnary _ _ _ := .error .domain
  evaluateDeterministicPow _ _ := .error .domain
  isSpace _ := false
  isDigit _ := false
  isAlpha _ := false
  isAlnum _ := false
  decimal _ := none
  literalEval _ := none
  repr text := "'" ++ text ++ "'"

theorem Spells.weaken {low : ℕ} {tokens : List Token} {e : Expr} (h : Spells low tokens e) :
    ∀ extra, Spells (low + extra) tokens e
  | 0 => h
  | extra + 1 => .tighter _ _ _ (h.weaken extra)

private theorem spells_digit (text : String) (d : ℕ) (hd : d ≠ 0)
    (htext : text.toList.mapM decimalDigit = some [d]) :
    Spells 0 [.number text] (.literal false d) := by
  have hliteral := SpellsLiteral.decimal text.toList d [] hd htext
  simp only [List.foldl_cons, List.foldl_nil, Nat.zero_mul, Nat.zero_add] at hliteral
  exact .literal text false d hliteral

theorem parseExpression_meetsCxx_quotient :
    MeetsCxx rationalPython "LIMIT" (fun _ => .bool false) "-7 / 2"
      (.binary .div (.unary .minus (.literal false 7)) (.literal false 2)) :=
  (parseExpression_meetsCxx_iff rationalPython "LIMIT" (fun _ => .bool false) "-7 / 2"
    [.op "-", .number "7", .op "/", .number "2"] _ rfl
    (Spells.weaken (.binary .div 0 [.op "-", .number "7"] [.number "2"] _ _ rfl
      (Spells.weaken (.unary .minus _ _ (spells_digit "7" 7 (by decide) rfl)) 1)
      (spells_digit "2" 2 (by decide) rfl)) 9) (by decide)).mpr (.inr rfl)

/-- `~-6` is the count `5`, but on zeros it is `-1`: the skipped shift is rejected. -/
def skippedShift : Expr :=
  .binary .and (.bool false) (.paren (.binary .shiftLeft (.literal false 1)
    (.unary .complement (.unary .minus (.literal false 6)))))

theorem skippedShift_spelled :
    Spells 10 [.ident "false", .op "&&", .op "(", .number "1", .op "<<", .op "~", .op "-",
      .number "6", .op ")"] skippedShift := by
  have hcount : Spells 0 [.op "~", .op "-", .number "6"]
      (.unary .complement (.unary .minus (.literal false 6))) :=
    .unary .complement _ _ (.unary .minus _ _ (spells_digit "6" 6 (by decide) rfl))
  have hshift : Spells 3 [.number "1", .op "<<", .op "~", .op "-", .number "6"]
      (.binary .shiftLeft (.literal false 1)
        (.unary .complement (.unary .minus (.literal false 6)))) :=
    .binary .shiftLeft 2 [.number "1"] [.op "~", .op "-", .number "6"] _ _ rfl
      (Spells.weaken (spells_digit "1" 1 (by decide) rfl) 3) (hcount.weaken 2)
  have hand := Spells.binary .and 8 [.ident "false"] _ _ _ rfl (Spells.weaken .false 9)
    (Spells.weaken (.paren _ _ (hshift.weaken 7)) 8)
  exact hand.weaken 1

theorem skippedShift_not_meetsCxx :
    skippedShift.nesting ≤ maxExpressionNesting ∧
    Spells 10 [.ident "false", .op "&&", .op "(", .number "1", .op "<<", .op "~", .op "-",
      .number "6", .op ")"] skippedShift ∧
    tokenize rationalPython "LIMIT" "false && (1 << ~-6)" = .ok [.ident "false", .op "&&", .op "(",
      .number "1", .op "<<", .op "~", .op "-", .number "6", .op ")", .eof] ∧
    ¬ MeetsCxx rationalPython "LIMIT" (fun _ => .bool false) "false && (1 << ~-6)" skippedShift := by
  have htokens : tokenize rationalPython "LIMIT" "false && (1 << ~-6)" = .ok [.ident "false",
      .op "&&", .op "(", .number "1", .op "<<", .op "~", .op "-", .number "6", .op ")", .eof] := rfl
  refine ⟨by decide, skippedShift_spelled, htokens, ?_⟩
  intro hmeets
  have hmeaning : skippedShift.meaning (fun _ => .bool false) = some (.bool false) := rfl
  have herror : ((parseExpression rationalPython "LIMIT" "false && (1 << ~-6)").eval
      fun _ => .ok (CxxValue.bool false).typed).toOption = none := by
    rw [parseExpression_of_tokens htokens]
    rfl
  have hresult := hmeets.1
  rw [hmeaning, herror] at hresult
  cases hresult

end Protocyte.Constants
