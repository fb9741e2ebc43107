import Protocyte.Constants.Grammar

/-! The parser computes the value of the tree its tokens spell. -/
namespace Protocyte.Constants

open Foundation

variable {F : Type} (py : Python F) (label : String)

section Literals

private theorem mapM_of_imp {α β : Type} {f g : α → Option β}
    (h : ∀ a b, f a = some b → g a = some b) {l : List α} {values : List β}
    (hl : l.mapM f = some values) : l.mapM g = some values := by
  induction l generalizing values with
  | nil => exact hl
  | cons a l ih =>
    rw [List.mapM_cons] at hl ⊢
    obtain ⟨b, hb, hrest⟩ := Option.bind_eq_some_iff.mp hl
    obtain ⟨bs, hbs, hvalues⟩ := Option.bind_eq_some_iff.mp hrest
    rw [h a b hb]
    simp only [Option.bind_eq_bind, Option.bind_some, ih hbs]
    exact hvalues

private theorem mem_of_mapM {α β : Type} {f : α → Option β} {l : List α} {values : List β}
    (hl : l.mapM f = some values) {a : α} (ha : a ∈ l) : ∃ b, f a = some b := by
  induction l generalizing values with
  | nil => cases ha
  | cons c l ih =>
    rw [List.mapM_cons] at hl
    obtain ⟨b, hb, hrest⟩ := Option.bind_eq_some_iff.mp hl
    obtain ⟨bs, hbs, hvalues⟩ := Option.bind_eq_some_iff.mp hrest
    cases ha with
    | head => exact ⟨b, hb⟩
    | tail _ ha => exact ih hbs ha

theorem decimalDigit_eq_some {c : Char} {d : ℕ} (h : decimalDigit c = some d) :
    48 ≤ c.toNat ∧ c.toNat ≤ 57 ∧ d = c.toNat - 48 := by
  unfold decimalDigit at h
  split at h
  · rename_i hc
    have hlow : 48 ≤ c.toNat := hc.1
    have hhigh : c.toNat ≤ 57 := hc.2
    exact ⟨hlow, hhigh, (Option.some.inj h).symm⟩
  · cases h

private theorem ascii_of_lt {c : Char} (h : c.toNat < 128) : ascii c = true := by
  simp [ascii, h]

theorem decimalDigitValue_of_decimalDigit (c : Char) (d : ℕ) (h : decimalDigit c = some d) :
    decimalDigitValue py c = some d := by
  obtain ⟨hlow, hhigh, rfl⟩ := decimalDigit_eq_some h
  unfold decimalDigitValue
  rw [if_pos (ascii_of_lt (by omega))]

private theorem isDigit_iff (c : Char) : c.isDigit = true ↔ 48 ≤ c.toNat ∧ c.toNat ≤ 57 := by
  unfold Char.isDigit
  rw [Bool.and_eq_true, decide_eq_true_iff, decide_eq_true_iff]
  exact Iff.rfl

private theorem toLower_toNat {c : Char} (hlow : 65 ≤ c.toNat) (hhigh : c.toNat ≤ 90) :
    c.toLower.toNat = c.toNat + 32 := by
  have hcond : c.val ≥ 'A'.val ∧ c.val ≤ 'Z'.val := ⟨hlow, hhigh⟩
  have hadd : (c.val + ('a'.val - 'A'.val)).toNat = (c.val.toNat + 32) % 2 ^ 32 :=
    UInt32.toNat_add c.val ('a'.val - 'A'.val)
  have hval : c.toNat = c.val.toNat := rfl
  unfold Char.toLower
  rw [dif_pos hcond]
  change (c.val + ('a'.val - 'A'.val)).toNat = c.toNat + 32
  omega

private theorem toLower_of_lower {c : Char} (hlow : 97 ≤ c.toNat) : c.toLower = c := by
  have hcond : ¬ (c.val ≥ 'A'.val ∧ c.val ≤ 'Z'.val) := by
    rintro ⟨-, hle⟩
    have hhigh : c.toNat ≤ 90 := hle
    omega
  unfold Char.toLower
  rw [dif_neg hcond]

theorem hexDigitValue_of_hexadecimalDigit (c : Char) (d : ℕ)
    (h : hexadecimalDigit c = some d) : hexDigitValue py c = some d := by
  unfold hexadecimalDigit at h
  unfold hexDigitValue
  split_ifs at h with hdigit hlower hupper
  · have hlow : 48 ≤ c.toNat := hdigit.1
    have hhigh : c.toNat ≤ 57 := hdigit.2
    rw [if_pos (ascii_of_lt (by omega)), if_pos ((isDigit_iff c).mpr ⟨hlow, hhigh⟩)]
    exact h
  · have hlow : 97 ≤ c.toNat := hlower.1
    have hhigh : c.toNat ≤ 102 := hlower.2
    have hnot : ¬ c.isDigit = true := by
      rw [isDigit_iff]
      omega
    rw [if_pos (ascii_of_lt (by omega)), if_neg hnot, toLower_of_lower hlow]
    exact h
  · have hlow : 65 ≤ c.toNat := hupper.1
    have hhigh : c.toNat ≤ 70 := hupper.2
    have hnot : ¬ c.isDigit = true := by
      rw [isDigit_iff]
      omega
    rw [if_pos (ascii_of_lt (by omega)), if_neg hnot, toLower_toNat hlow (by omega)]
    rw [← h]
    congr 1

private theorem decimal_head {text : List Char} {first : ℕ} {rest : List ℕ} (hfirst : first ≠ 0)
    (hdigits : text.mapM decimalDigit = some (first :: rest)) : isHexPrefix text = false := by
  cases text with
  | nil => rfl
  | cons c text =>
    rw [List.mapM_cons] at hdigits
    obtain ⟨d, hd, hrest⟩ := Option.bind_eq_some_iff.mp hdigits
    obtain ⟨ds, hds, hvalues⟩ := Option.bind_eq_some_iff.mp hrest
    have hdfirst : d = first := (List.cons.inj (Option.some.inj hvalues)).1
    have hc : c ≠ '0' := by
      rintro rfl
      have hzero : decimalDigit '0' = some 0 := rfl
      rw [hzero] at hd
      exact hfirst (hdfirst ▸ (Option.some.inj hd).symm)
    unfold isHexPrefix
    split
    · rename_i heq
      exact absurd (List.cons.inj heq).1 hc
    · rename_i heq
      exact absurd (List.cons.inj heq).1 hc
    · rfl

private theorem decimal_not_floating {text : List Char} {values : List ℕ}
    (hdigits : text.mapM decimalDigit = some values) : numberTokenIsFloating text = false := by
  have habsent : ∀ c : Char, decimalDigit c = none → text.contains c = false := by
    intro c hc
    rw [Bool.eq_false_iff]
    intro hmem
    obtain ⟨d, hd⟩ := mem_of_mapM hdigits (List.contains_iff_mem.mp hmem)
    rw [hc] at hd
    cases hd
  unfold numberTokenIsFloating
  rw [habsent '.' rfl, habsent 'e' rfl, habsent 'E' rfl]
  simp

/-- A spelled literal is a number token with the literal's value and base. -/
theorem parseInt_of_spells {text : List Char} {hexadecimal : Bool} {value : ℕ}
    (h : SpellsLiteral text hexadecimal value) :
    parseInt py text = some (value : Int) ∧ isHexPrefix text = hexadecimal ∧
      numberTokenIsFloating text = false := by
  cases h with
  | zero =>
    constructor
    · have hdigit := decimalDigitValue_of_decimalDigit py '0' 0 rfl
      simp [parseInt, isHexPrefix, hdigit, digitsValue]
    · constructor <;> rfl
  | decimal digits first rest hfirst hdigits =>
    have hhead := decimal_head hfirst hdigits
    constructor
    · have hvalues := mapM_of_imp (decimalDigitValue_of_decimalDigit py) hdigits
      unfold parseInt
      rw [if_neg (by simp [hhead]), hvalues]
      simp [hfirst, digitsValue]
    · constructor
      · exact hhead
      · exact decimal_not_floating hdigits
  | hexadecimal x digits values hx hne hdigits =>
    have hhead : isHexPrefix ('0' :: x :: digits) = true := by
      cases hx with
      | inl hx => rw [hx]; rfl
      | inr hx => rw [hx]; rfl
    constructor
    · have hvalues := mapM_of_imp (hexDigitValue_of_hexadecimalDigit py) hdigits
      unfold parseInt
      rw [if_pos hhead]
      simp [hvalues, digitsValue]
    · constructor
      · exact hhead
      · unfold numberTokenIsFloating
        rw [hhead]
        rfl

theorem numberOperand_of_spells {text : String} {hexadecimal : Bool} {value : ℕ}
    (h : SpellsLiteral text.toList hexadecimal value) :
    (numberOperand py label text).toOption =
      (literalIntegerKind value hexadecimal).map fun kind => .number (.integer kind value) := by
  obtain ⟨hvalue, hhead, hfloating⟩ := parseInt_of_spells py h
  have hnumber : parseNumberToken py label text = .ok (.inl (value : Int)) := by
    unfold parseNumberToken
    rw [if_neg (by simp [hfloating]), hvalue]
  unfold numberOperand
  rw [hnumber]
  simp only [bind, Except.bind, hhead]
  cases literalIntegerKind value hexadecimal <;> rfl

end Literals

section Operators

/-- The next token neither continues an expression of the level nor turns a name into a call. -/
def Follows (level : ℕ) (rest : List Token) : Prop :=
  rest.headD .eof ≠ .op "(" ∧ ∀ op : BinaryOp, rest.headD .eof = .op op.symbol → level < op.level

theorem Follows.mono {low high : ℕ} {rest : List Token} (h : Follows high rest) (hle : low ≤ high) :
    Follows low rest :=
  ⟨h.1, fun op hop => Nat.lt_of_le_of_lt hle (h.2 op hop)⟩

theorem follows_close (level : ℕ) (rest : List Token) : Follows level (.op ")" :: rest) := by
  constructor
  · simp
  · intro op hop
    cases op <;> simp [BinaryOp.symbol] at hop

theorem follows_eof (level : ℕ) : Follows level [.eof] := by
  constructor
  · simp
  · intro op hop
    simp at hop

theorem follows_operator (op : BinaryOp) {level : ℕ} (h : op.level = level + 1)
    (rest : List Token) : Follows level (.op op.symbol :: rest) := by
  constructor
  · cases op <;> simp [BinaryOp.symbol]
  · intro other hother
    have hsymbol : op.symbol = other.symbol := Token.op.inj hother
    have hsame : op = other := by
      cases op <;> cases other <;> first | rfl | (simp [BinaryOp.symbol] at hsymbol)
    rw [← hsame]
    omega

theorem matchOperator_symbol (op : BinaryOp) :
    matchOperator (operatorsAt py label op.level) (.op op.symbol)
      = some (binaryOperator py label op) := by
  cases op <;> rfl

private theorem operatorsAt_symbol (level : ℕ) {op : BinaryOperator F}
    (h : op ∈ operatorsAt py label level) :
    ∃ source : BinaryOp, source.level = level ∧ source.symbol = op.symbol := by
  unfold operatorsAt at h
  split at h <;> simp only [mulOperators, addOperators, shiftOperators, compareOperators,
    equalityOperators, bitwiseAndOperators, bitwiseXorOperators, bitwiseOrOperators,
    List.mem_cons, List.not_mem_nil, or_false] at h
  · obtain rfl | rfl | rfl := h
    · exact ⟨.mul, rfl, rfl⟩
    · exact ⟨.div, rfl, rfl⟩
    · exact ⟨.mod, rfl, rfl⟩
  · obtain rfl | rfl := h
    · exact ⟨.add, rfl, rfl⟩
    · exact ⟨.sub, rfl, rfl⟩
  · obtain rfl | rfl := h
    · exact ⟨.shiftLeft, rfl, rfl⟩
    · exact ⟨.shiftRight, rfl, rfl⟩
  · obtain rfl | rfl | rfl | rfl := h
    · exact ⟨.less, rfl, rfl⟩
    · exact ⟨.lessEqual, rfl, rfl⟩
    · exact ⟨.greater, rfl, rfl⟩
    · exact ⟨.greaterEqual, rfl, rfl⟩
  · obtain rfl | rfl := h
    · exact ⟨.equal, rfl, rfl⟩
    · exact ⟨.notEqual, rfl, rfl⟩
  · exact ⟨.bitAnd, rfl, h ▸ rfl⟩
  · exact ⟨.bitXor, rfl, h ▸ rfl⟩
  · exact ⟨.bitOr, rfl, h ▸ rfl⟩
  · exact ⟨.and, rfl, h ▸ rfl⟩
  · exact ⟨.or, rfl, h ▸ rfl⟩

theorem matchOperator_follows {level : ℕ} {rest : List Token} (h : Follows level rest) :
    matchOperator (operatorsAt py label level) (rest.headD .eof) = none := by
  cases htoken : rest.headD .eof with
  | op symbol =>
    unfold matchOperator
    rw [List.find?_eq_none]
    intro op hop hsymbol
    obtain ⟨source, hlevel, hsource⟩ := operatorsAt_symbol py label level hop
    have heq : op.symbol = symbol := by simpa using hsymbol
    have hlt := h.2 source (by rw [htoken, hsource, heq])
    omega
  | string text => rfl
  | number text => rfl
  | ident text => rfl
  | eof => rfl

end Operators

section Loop

variable (env : String → TypedValue F) (operators : List (BinaryOperator F)) (operand : Parser F)

theorem operatorLoop_stop {passes : ℕ} {evaluate : Bool} {value : TypedValue F}
    {rest : List Token} (h : matchOperator operators (rest.headD .eof) = none) :
    outcome env (operatorLoop operators operand evaluate passes value) rest
      = some (value, rest) := by
  cases passes with
  | zero => rfl
  | succ passes =>
    unfold operatorLoop
    rw [outcome_bind, outcome_peek]
    simp only [Option.bind_eq_bind, Option.bind_some, h]
    rfl

theorem operatorLoop_step {passes : ℕ} {evaluate : Bool} {value : TypedValue F}
    {token : Token} {rest : List Token} {op : BinaryOperator F}
    (h : matchOperator operators token = some op) :
    outcome env (operatorLoop operators operand evaluate (passes + 1) value) (token :: rest) =
      (do
        let rhsMode ← (op.rhsEvaluated evaluate value).toOption
        let (rhs, rest) ← outcome env (operand rhsMode) rest
        let value ← (op.apply evaluate value rhs).toOption
        outcome env (operatorLoop operators operand evaluate passes value) rest) := by
  conv => lhs; unfold operatorLoop
  rw [outcome_bind, outcome_peek]
  simp only [Option.bind_eq_bind, Option.bind_some, List.headD_cons, h]
  rw [outcome_bind, outcome_advance]
  simp only [Option.bind_eq_bind, Option.bind_some, List.tail_cons]
  rw [outcome_bind, outcome_ofResult]
  cases (op.rhsEvaluated evaluate value).toOption with
  | none => rfl
  | some rhsMode =>
    simp only [Option.map_some, Option.bind_eq_bind, Option.bind_some]
    rw [outcome_bind]
    cases outcome env (operand rhsMode) rest with
    | none => rfl
    | some p =>
      simp only [Option.bind_eq_bind, Option.bind_some]
      rw [outcome_bind, outcome_ofResult]
      cases (op.apply evaluate value p.1).toOption <;> rfl

theorem leftAssociative_outcome (evaluate : Bool) (tokens : List Token) :
    outcome env (leftAssociative operators operand evaluate) tokens =
      (do
        let (value, rest) ← outcome env (operand evaluate) tokens
        outcome env (operatorLoop operators operand evaluate rest.length value) rest) := by
  unfold leftAssociative
  rw [outcome_bind]
  cases outcome env (operand evaluate) tokens <;> rfl

end Loop

section Unary

variable (env : String → TypedValue F) (nestedUnary nestedOr : Parser F)

theorem unaryLevel_operator {evaluate : Bool} {token : Token} {rest : List Token} {symbol : String}
    {apply : TypedValue F → Result (TypedValue F)}
    (h : matchUnary py label token = some (symbol, apply)) :
    outcome env (unaryLevel py label nestedUnary nestedOr evaluate) (token :: rest) =
      (do
        let (value, rest) ← outcome env (nestedUnary evaluate) rest
        let value ← (apply value).toOption
        return (value, rest)) := by
  unfold unaryLevel
  rw [outcome_bind, outcome_peek]
  simp only [Option.bind_eq_bind, Option.bind_some, List.headD_cons, h]
  rw [outcome_bind, outcome_advance]
  simp only [Option.bind_eq_bind, Option.bind_some, List.tail_cons]
  rw [outcome_bind]
  cases outcome env (nestedUnary evaluate) rest with
  | none => rfl
  | some p =>
    simp only [Option.bind_eq_bind, Option.bind_some, outcome_ofResult]
    cases (apply p.1).toOption <;> rfl

theorem unaryLevel_primary {evaluate : Bool} {tokens : List Token}
    (h : matchUnary py label (tokens.headD .eof) = none) :
    outcome env (unaryLevel py label nestedUnary nestedOr evaluate) tokens =
      outcome env (parsePrimary py label nestedOr evaluate) tokens := by
  unfold unaryLevel
  rw [outcome_bind, outcome_peek]
  simp only [Option.bind_eq_bind, Option.bind_some, h]

theorem matchUnary_symbol (op : UnaryOp) :
    matchUnary py label (.op op.symbol) = some (op.symbol, unaryOperator py label op) := by
  cases op <;> rfl

theorem parsePrimary_number (evaluate : Bool) (text : String) (rest : List Token) :
    outcome env (parsePrimary py label nestedOr evaluate) (.number text :: rest) =
      (numberOperand py label text).toOption.map fun value =>
        (operandValue py evaluate value, rest) := by
  unfold parsePrimary
  rw [outcome_bind, outcome_peek]
  simp only [Option.bind_eq_bind, Option.bind_some, List.headD_cons]
  rw [outcome_bind, outcome_advance]
  simp only [Option.bind_eq_bind, Option.bind_some, List.tail_cons]
  rw [outcome_bind, outcome_ofResult]
  cases (numberOperand py label text).toOption <;> rfl

theorem parsePrimary_ident (evaluate : Bool) (name : String) (rest : List Token) :
    outcome env (parsePrimary py label nestedOr evaluate) (.ident name :: rest) =
      outcome env (parseIdentifier py label nestedOr name evaluate) rest := by
  unfold parsePrimary
  rw [outcome_bind, outcome_peek]
  simp only [Option.bind_eq_bind, Option.bind_some, List.headD_cons]
  rw [outcome_bind, outcome_advance]
  simp only [Option.bind_eq_bind, Option.bind_some, List.tail_cons]

theorem parseIdentifier_name {evaluate : Bool} {name : String} {rest : List Token}
    (htrue : name ≠ "true") (hfalse : name ≠ "false") (hrest : rest.headD .eof ≠ .op "(") :
    outcome env (parseIdentifier py label nestedOr name evaluate) rest
      = some (operandValue py evaluate (env name), rest) := by
  unfold parseIdentifier
  rw [if_neg htrue, if_neg hfalse, outcome_bind, outcome_matchToken, if_neg hrest]
  rfl

theorem expectToken_close (rest : List Token) :
    outcome env (expectToken py label ")" : ParserM F Unit) (.op ")" :: rest)
      = some ((), rest) := by
  unfold expectToken
  rw [outcome_bind, outcome_matchToken, List.headD_cons, if_pos rfl]
  rfl

theorem parsePrimary_paren {evaluate : Bool} {tokens rest : List Token}
    {value : Option (TypedValue F)}
    (h : outcome env (nestedOr evaluate) (tokens ++ .op ")" :: rest)
      = value.map (·, .op ")" :: rest)) :
    outcome env (parsePrimary py label nestedOr evaluate) (.op "(" :: tokens ++ .op ")" :: rest)
      = value.map (·, rest) := by
  unfold parsePrimary
  rw [outcome_bind, outcome_peek]
  simp only [Option.bind_eq_bind, Option.bind_some, List.cons_append, List.headD_cons]
  rw [outcome_bind, outcome_matchToken, List.headD_cons, if_pos rfl, List.tail_cons]
  simp only [Option.bind_eq_bind, Option.bind_some, if_true]
  rw [outcome_bind, h]
  cases value with
  | none => rfl
  | some v =>
    simp only [Option.map_some, Option.bind_eq_bind, Option.bind_some]
    rw [outcome_bind, expectToken_close]
    rfl

/-- A call with one argument, which starts with no closing parenthesis. -/
theorem parseIdentifier_call {evaluate : Bool} {name : String} {tokens rest : List Token}
    {value : Option (TypedValue F)} (htrue : name ≠ "true") (hfalse : name ≠ "false")
    (hhead : tokens.head? ≠ none ∧ tokens.head? ≠ some (.op ")"))
    (h : outcome env (nestedOr evaluate) (tokens ++ .op ")" :: rest)
      = value.map (·, .op ")" :: rest)) :
    outcome env (parseIdentifier py label nestedOr name evaluate)
        (.op "(" :: tokens ++ .op ")" :: rest) =
      (do
        let v ← value
        let v ← (evaluateFunction py label name [v] evaluate).toOption
        return (v, rest)) := by
  obtain ⟨first, tokens, rfl⟩ : ∃ first others, tokens = first :: others := by
    cases tokens with
    | nil => exact absurd rfl hhead.1
    | cons first others => exact ⟨first, others, rfl⟩
  have hfirst : first ≠ .op ")" := fun hclose => hhead.2 (by rw [hclose]; rfl)
  unfold parseIdentifier
  rw [if_neg htrue, if_neg hfalse, outcome_bind, outcome_matchToken]
  simp only [List.cons_append, List.headD_cons, if_true, List.tail_cons, Option.bind_eq_bind,
    Option.bind_some]
  unfold parseCall
  rw [outcome_bind, outcome_matchToken, List.headD_cons, if_neg hfirst]
  simp only [Option.bind_eq_bind, Option.bind_some, Bool.false_eq_true, if_false]
  rw [outcome_bind, outcome_get]
  simp only [Option.bind_eq_bind, Option.bind_some, List.length_cons]
  rw [outcome_bind]
  unfold parseArguments
  rw [outcome_bind]
  rw [List.cons_append] at h
  rw [h]
  cases value with
  | none => rfl
  | some v =>
    simp only [Option.map_some, Option.bind_eq_bind, Option.bind_some]
    rw [outcome_bind, outcome_matchToken, List.headD_cons, if_pos rfl]
    simp only [Option.bind_eq_bind, Option.bind_some, if_true, outcome_pure, List.tail_cons,
      List.nil_append, outcome_ofResult]
    cases (evaluateFunction py label name [v] evaluate).toOption <;> rfl

end Unary

section Trees

variable (env : String → TypedValue F)

theorem Spells.head {level : ℕ} {tokens : List Token} {e : Expr} (h : Spells level tokens e) :
    tokens.head? ≠ none ∧ tokens.head? ≠ some (.op ")") := by
  induction h with
  | literal text hexadecimal value h => simp
  | true => simp
  | false => simp
  | name x htrue hfalse => simp
  | paren tokens e h ih => simp
  | cast type tokens e h ih => simp
  | unary op tokens e h ih => cases op <;> simp [UnaryOp.symbol]
  | tighter level tokens e h ih => exact ih
  | binary op level lhs rhs a b hlevel ha hb iha ihb =>
    cases lhs with
    | nil => exact absurd rfl iha.1
    | cons token lhs => exact iha

/-- What the parser of a level does on the tokens of a tree: a unary level stops after them, a
binary level goes on with its loop. -/
def Computes (depth : ℕ) : ℕ → List Token → Expr → Prop
  | 0, tokens, e => ∀ evaluate rest, Follows 0 rest →
    outcome env (parseUnary py label depth evaluate) (tokens ++ rest)
      = (e.value py label env evaluate).map (·, rest)
  | level + 1, tokens, e => ∀ evaluate rest, Follows level rest → ∃ passes, rest.length ≤ passes ∧
    outcome env (levelParser py label (parseUnary py label depth) (level + 1) evaluate)
        (tokens ++ rest) =
      (do
        let value ← e.value py label env evaluate
        outcome env (operatorLoop (operatorsAt py label (level + 1))
          (levelParser py label (parseUnary py label depth) level) evaluate passes value) rest)

variable {py label env}

theorem Computes.stop {depth level : ℕ} {tokens : List Token} {e : Expr}
    (h : Computes py label env depth level tokens e) (evaluate : Bool) {rest : List Token}
    (hrest : Follows level rest) :
    outcome env (levelParser py label (parseUnary py label depth) level evaluate) (tokens ++ rest)
      = (e.value py label env evaluate).map (·, rest) := by
  cases level with
  | zero => exact h evaluate rest hrest
  | succ level =>
    obtain ⟨passes, -, heq⟩ := h evaluate rest (hrest.mono (Nat.le_succ level))
    rw [heq]
    cases e.value py label env evaluate with
    | none => rfl
    | some value =>
      simp only [Option.bind_eq_bind, Option.bind_some, Option.map_some]
      exact operatorLoop_stop env _ _ (matchOperator_follows py label hrest)

theorem Computes.tighter {depth level : ℕ} {tokens : List Token} {e : Expr}
    (h : Computes py label env depth level tokens e) :
    Computes py label env depth (level + 1) tokens e := by
  intro evaluate rest hrest
  refine ⟨rest.length, Nat.le_refl _, ?_⟩
  have hparser : levelParser py label (parseUnary py label depth) (level + 1)
      = leftAssociative (operatorsAt py label (level + 1))
        (levelParser py label (parseUnary py label depth) level) := rfl
  rw [hparser, leftAssociative_outcome, h.stop evaluate hrest]
  cases e.value py label env evaluate <;> rfl

theorem Computes.binary {depth level : ℕ} {op : BinaryOp} {lhs rhs : List Token} {a b : Expr}
    (hlevel : op.level = level + 1) (ha : Computes py label env depth (level + 1) lhs a)
    (hb : Computes py label env depth level rhs b) :
    Computes py label env depth (level + 1) (lhs ++ .op op.symbol :: rhs) (.binary op a b) := by
  intro evaluate rest hrest
  have htokens : (lhs ++ .op op.symbol :: rhs) ++ rest = lhs ++ .op op.symbol :: (rhs ++ rest) := by
    simp
  obtain ⟨passes, hpasses, heq⟩ :=
    ha evaluate (.op op.symbol :: (rhs ++ rest)) (follows_operator op hlevel _)
  obtain ⟨passes, rfl⟩ : ∃ n, passes = n + 1 :=
    ⟨passes - 1, by rw [List.length_cons] at hpasses; omega⟩
  have hmatch : matchOperator (operatorsAt py label (level + 1)) (.op op.symbol)
      = some (binaryOperator py label op) := by
    rw [← hlevel]
    exact matchOperator_symbol py label op
  refine ⟨passes, ?_, ?_⟩
  · rw [List.length_cons, List.length_append] at hpasses
    omega
  · rw [htokens, heq]
    simp only [Expr.value]
    cases a.value py label env evaluate with
    | none => rfl
    | some left =>
      simp only [Option.bind_eq_bind, Option.bind_some]
      rw [operatorLoop_step env _ _ hmatch]
      cases ((binaryOperator py label op).rhsEvaluated evaluate left).toOption with
      | none => rfl
      | some rhsMode =>
        simp only [Option.bind_eq_bind, Option.bind_some]
        rw [hb.stop rhsMode hrest]
        cases b.value py label env rhsMode <;> rfl

/-- The parser of a level computes the value of the tree its tokens spell. -/
theorem Spells.computes {level : ℕ} {tokens : List Token} {e : Expr} (h : Spells level tokens e) :
    ∀ depth, e.nesting ≤ depth → Computes py label env depth level tokens e := by
  induction h with
  | literal text hexadecimal value h =>
    intro depth _ evaluate rest _
    have hprimary : matchUnary py label ([Token.number text] ++ rest |>.headD .eof) = none := rfl
    cases depth <;>
    · unfold parseUnary
      rw [unaryLevel_primary py label env _ _ hprimary, List.singleton_append,
        parsePrimary_number, numberOperand_of_spells py label h, Expr.value]
      cases literalIntegerKind value hexadecimal <;> rfl
  | true =>
    intro depth _ evaluate rest _
    have hprimary : matchUnary py label ([Token.ident "true"] ++ rest |>.headD .eof) = none := rfl
    cases depth <;>
    · unfold parseUnary
      rw [unaryLevel_primary py label env _ _ hprimary, List.singleton_append, parsePrimary_ident]
      rfl
  | false =>
    intro depth _ evaluate rest _
    have hprimary : matchUnary py label ([Token.ident "false"] ++ rest |>.headD .eof) = none := rfl
    cases depth <;>
    · unfold parseUnary
      rw [unaryLevel_primary py label env _ _ hprimary, List.singleton_append, parsePrimary_ident]
      cases evaluate <;> rfl
  | name x htrue hfalse =>
    intro depth _ evaluate rest hrest
    have hprimary : matchUnary py label ([Token.ident x] ++ rest |>.headD .eof) = none := rfl
    cases depth <;>
    · unfold parseUnary
      rw [unaryLevel_primary py label env _ _ hprimary, List.singleton_append, parsePrimary_ident,
        parseIdentifier_name py label env _ htrue hfalse hrest.1]
      rfl
  | paren tokens e h ih =>
    intro depth hdepth evaluate rest _
    have hprimary : matchUnary py label
        ((Token.op "(" :: tokens ++ [Token.op ")"]) ++ rest |>.headD .eof) = none := rfl
    cases depth with
    | zero => exact absurd hdepth (Nat.not_succ_le_zero _)
    | succ depth =>
      have hnested := (ih depth (Nat.le_of_succ_le_succ hdepth)).stop
        evaluate (follows_close 10 rest)
      unfold parseUnary
      rw [unaryLevel_primary py label env _ _ hprimary, parseOr_eq_levelParser,
        List.append_assoc, List.singleton_append, parsePrimary_paren py label env _ hnested,
        Expr.value]
  | cast type tokens e h ih =>
    intro depth hdepth evaluate rest _
    have hprimary : matchUnary py label
        ((Token.ident type.name :: Token.op "(" :: tokens ++ [Token.op ")"]) ++ rest
          |>.headD .eof) = none := rfl
    have htrue : type.name ≠ "true" := by cases type <;> simp [ScalarType.name]
    have hfalse : type.name ≠ "false" := by cases type <;> simp [ScalarType.name]
    cases depth with
    | zero => exact absurd hdepth (Nat.not_succ_le_zero _)
    | succ depth =>
      have hnested := (ih depth (Nat.le_of_succ_le_succ hdepth)).stop
        evaluate (follows_close 10 rest)
      unfold parseUnary
      rw [unaryLevel_primary py label env _ _ hprimary, parseOr_eq_levelParser,
        List.append_assoc, List.singleton_append, List.cons_append, parsePrimary_ident,
        parseIdentifier_call py label env _ htrue hfalse h.head hnested, Expr.value]
      cases e.value py label env evaluate with
      | none => rfl
      | some value =>
        simp only [Option.bind_eq_bind, Option.bind_some]
        cases (evaluateFunction py label type.name [value] evaluate).toOption <;> rfl
  | unary op tokens e h ih =>
    intro depth hdepth evaluate rest hrest
    cases depth with
    | zero => exact absurd hdepth (Nat.not_succ_le_zero _)
    | succ depth =>
      have hnested := ih depth (Nat.le_of_succ_le_succ hdepth) evaluate rest hrest
      unfold parseUnary
      rw [List.cons_append, unaryLevel_operator py label env _ _ (matchUnary_symbol py label op),
        hnested, Expr.value]
      cases e.value py label env evaluate with
      | none => rfl
      | some value =>
        simp only [Option.map_some, Option.bind_eq_bind, Option.bind_some]
        cases (unaryOperator py label op value).toOption <;> rfl
  | tighter level tokens e h ih =>
    intro depth hdepth
    exact (ih depth hdepth).tighter
  | binary op level lhs rhs a b hlevel ha hb iha ihb =>
    intro depth hdepth
    have hmax : max a.nesting b.nesting ≤ depth := hdepth
    exact Computes.binary hlevel (iha depth (by omega)) (ihb depth (by omega))

theorem parseTokens_of_spells {tokens : List Token} {e : Expr} (h : Spells 10 tokens e)
    (hnesting : e.nesting ≤ maxExpressionNesting) :
    (outcome env (parseTokens py label) (tokens ++ [.eof])).map Prod.fst
      = e.value py label env true := by
  have hcomputes : Computes py label env maxExpressionNesting 10 tokens e :=
    h.computes maxExpressionNesting hnesting
  have hparse := hcomputes.stop true (follows_eof 10)
  unfold parseTokens
  rw [outcome_bind, parseOr_eq_levelParser, hparse]
  cases e.value py label env true <;> rfl

theorem parseExpression_of_tokens {text : String} {tokens : List Token}
    (h : tokenize py label text = .ok tokens) :
    parseExpression py label text = (parseTokens py label tokens >>= fun p => pure p.1) := by
  have hlift : (Query.lift (.ok tokens) : Evaluation F (List Token)) = .done tokens := rfl
  unfold parseExpression
  rw [h, hlift, Query.done_bind]

variable (env)

/-- An expression within the nesting limit has the value of its tree. -/
theorem parseExpression_of_spells {text : String} {tokens : List Token} {e : Expr}
    (htokens : tokenize py label text = .ok (tokens ++ [.eof])) (h : Spells 10 tokens e)
    (hnesting : e.nesting ≤ maxExpressionNesting) :
    ((parseExpression py label text).eval fun name => .ok (env name)).toOption
      = e.value py label env true := by
  rw [← parseTokens_of_spells h hnesting, parseExpression_of_tokens htokens, Query.eval_bind]
  unfold outcome
  cases (parseTokens py label (tokens ++ [.eof])).eval fun name => .ok (env name) <;> rfl

end Trees

end Protocyte.Constants
