import Protocyte.Constants.Expression

/-! The names an expression looks up are the identifiers of its text, whatever their values. -/
namespace Protocyte.Constants

open Foundation

variable {F : Type} (py : Python F) (label : String)

/-- The identifiers that are neither a literal nor the name of a called function. -/
def identifiers : List Token → List String
  | [] => []
  | .ident name :: rest =>
    if name = "true" ∨ name = "false" ∨ rest.headD .eof = .op "(" then identifiers rest
    else name :: identifiers rest
  | .eof :: _ => []
  | _ :: rest => identifiers rest

abbrev Environment (F : Type) := String → Result (TypedValue F)

/-- A parser looks up identifiers of the tokens it is given: when it succeeds, those before the
tokens it leaves. -/
def Reads {α : Type} (parser : ParserM F α) (tokens : List Token) (names : List String) : Prop :=
  ∀ env : Environment F,
    (∀ name ∈ (parser tokens).asked env, name ∈ names) ∧
    ∀ a rest, (parser tokens).eval env = .ok (a, rest) →
      names = (parser tokens).asked env ++ identifiers rest

def Tracks {α : Type} (parser : ParserM F α) : Prop :=
  ∀ tokens, Reads parser tokens (identifiers tokens)

section Rules

variable {α β : Type}

theorem Reads.bind {x : ParserM F α} {f : α → ParserM F β} {tokens : List Token}
    {names : List String} (hx : Reads x tokens names)
    (hf : ∀ a rest, Reads (f a) rest (identifiers rest)) : Reads (x >>= f) tokens names := by
  intro env
  have hbind : (x >>= f) tokens = (x tokens >>= fun p => f p.1 p.2) := rfl
  rw [hbind, Query.asked_bind, Query.eval_bind]
  cases heval : (x tokens).eval env with
  | error e =>
    constructor
    · intro name hname
      rw [List.append_nil] at hname
      exact (hx env).1 name hname
    · intro a rest h
      cases h
  | ok p =>
    obtain ⟨a, rest⟩ := p
    have hsplit := (hx env).2 a rest heval
    obtain ⟨hsub, hall⟩ := hf a rest env
    constructor
    · intro name hname
      cases List.mem_append.mp hname with
      | inl hmem => exact (hx env).1 name hmem
      | inr hmem =>
        rw [hsplit]
        exact List.mem_append_right _ (hsub name hmem)
    · intro b rest' h
      rw [hsplit, hall b rest' h, List.append_assoc]

theorem Tracks.bind {x : ParserM F α} {f : α → ParserM F β} (hx : Tracks x)
    (hf : ∀ a, Tracks (f a)) : Tracks (x >>= f) :=
  fun tokens => (hx tokens).bind fun a rest => hf a rest

theorem tracks_pure (a : α) : Tracks (pure a : ParserM F α) := by
  intro tokens env
  constructor
  · intro name hname
    cases hname
  · intro b rest h
    have hrest : rest = tokens := (Prod.mk.inj (Except.ok.inj h)).2.symm
    rw [hrest]
    rfl

theorem tracks_ofResult (x : Result α) : Tracks (ofResult x : ParserM F α) := by
  intro tokens env
  cases x with
  | ok a => exact tracks_pure a tokens env
  | error e =>
    constructor
    · intro name hname
      cases hname
    · intro a rest h
      cases h

theorem tracks_peek : Tracks (peek : ParserM F Token) := by
  intro tokens env
  constructor
  · intro name hname
    cases hname
  · intro a rest h
    have hrest : rest = tokens := (Prod.mk.inj (Except.ok.inj h)).2.symm
    rw [hrest]
    rfl

theorem tracks_get : Tracks (get : ParserM F (List Token)) := by
  intro tokens env
  constructor
  · intro name hname
    cases hname
  · intro a rest h
    have hrest : rest = tokens := (Prod.mk.inj (Except.ok.inj h)).2.symm
    rw [hrest]
    rfl

theorem reads_done (a : α) {tokens : List Token} (rest : List Token) {names : List String}
    {x : ParserM F α} (hx : x tokens = .done (a, rest)) (h : names = identifiers rest) :
    Reads x tokens names := by
  intro env
  rw [hx]
  constructor
  · intro name hname
    cases hname
  · intro b rest' heval
    rw [h, (Prod.mk.inj (Except.ok.inj heval)).2]
    rfl

/-- A step that looks at the current token. -/
theorem reads_peek {f : Token → ParserM F α} {tokens : List Token} {names : List String}
    (h : Reads (f (tokens.headD .eof)) tokens names) : Reads (peek >>= f) tokens names := h

/-- A step that passes the current token. -/
theorem reads_advance {f : Unit → ParserM F α} {token : Token} {rest : List Token}
    {names : List String} (h : Reads (f ()) rest names) :
    Reads (advance >>= f) (token :: rest) names := h

theorem matchToken_apply (symbol : String) (tokens : List Token) :
    (matchToken symbol : ParserM F Bool) tokens =
      if tokens.headD .eof = .op symbol then .done (true, tokens.tail)
      else .done (false, tokens) := by
  have hmatch : (matchToken symbol : ParserM F Bool) tokens =
      (if tokens.headD .eof = .op symbol then (do advance; return true)
        else (return false : ParserM F Bool)) tokens := rfl
  rw [hmatch]
  split <;> rfl

theorem reads_matched {f : Bool → ParserM F α} {symbol : String} {tokens : List Token}
    {names : List String} (hmatch : tokens.headD .eof = .op symbol)
    (h : Reads (f true) tokens.tail names) : Reads (matchToken symbol >>= f) tokens names := by
  have hstep : (matchToken symbol >>= f) tokens = f true tokens.tail := by
    have hbind : (matchToken symbol >>= f) tokens
        = ((matchToken symbol : ParserM F Bool) tokens >>= fun p => f p.1 p.2) := rfl
    rw [hbind, matchToken_apply, if_pos hmatch]
    rfl
  unfold Reads
  rw [hstep]
  exact h

theorem reads_unmatched {f : Bool → ParserM F α} {symbol : String} {tokens : List Token}
    {names : List String} (hmatch : tokens.headD .eof ≠ .op symbol)
    (h : Reads (f false) tokens names) : Reads (matchToken symbol >>= f) tokens names := by
  have hstep : (matchToken symbol >>= f) tokens = f false tokens := by
    have hbind : (matchToken symbol >>= f) tokens
        = ((matchToken symbol : ParserM F Bool) tokens >>= fun p => f p.1 p.2) := rfl
    rw [hbind, matchToken_apply, if_neg hmatch]
    rfl
  unfold Reads
  rw [hstep]
  exact h

theorem tracks_matchToken (symbol : String) : Tracks (matchToken symbol : ParserM F Bool) := by
  intro tokens
  by_cases h : tokens.headD .eof = .op symbol
  · cases tokens with
    | nil => cases h
    | cons token rest =>
      have htoken : token = .op symbol := h
      refine reads_done true rest ?_ (by rw [htoken]; rfl)
      rw [matchToken_apply, if_pos h]
      rfl
  · refine reads_done false tokens ?_ rfl
    rw [matchToken_apply, if_neg h]

theorem tracks_expectToken (symbol : String) : Tracks (expectToken py label symbol : ParserM F Unit) := by
  unfold expectToken
  refine (tracks_matchToken symbol).bind fun found => ?_
  cases found with
  | true => exact tracks_pure ()
  | false => exact tracks_peek.bind fun token => tracks_ofResult _

end Rules

section Parser

/-- What matches symbols only has matched the symbol the tokens start with. -/
private theorem symbol_of_matched {A : Type} {matched : Token → Option A} {tokens : List Token}
    {a : A} (hstring : ∀ text, matched (.string text) = none)
    (hnumber : ∀ text, matched (.number text) = none)
    (hident : ∀ text, matched (.ident text) = none) (heof : matched .eof = none)
    (h : matched (tokens.headD .eof) = some a) : ∃ symbol rest, tokens = .op symbol :: rest := by
  have hnone {token : Token} (hn : matched token = none) : matched token ≠ some a := by
    rw [hn]
    exact nofun
  cases tokens with
  | nil => exact absurd h (hnone heof)
  | cons token rest =>
    cases token with
    | op symbol => exact ⟨symbol, rest, rfl⟩
    | string text => exact absurd h (hnone (hstring text))
    | number text => exact absurd h (hnone (hnumber text))
    | ident text => exact absurd h (hnone (hident text))
    | eof => exact absurd h (hnone heof)

theorem tracks_operatorLoop {operators : List (BinaryOperator F)} {operand : Parser F}
    (hoperand : ∀ evaluate, Tracks (operand evaluate)) (evaluate : Bool) (passes : ℕ) :
    ∀ value, Tracks (operatorLoop operators operand evaluate passes value) := by
  induction passes with
  | zero => exact fun value => tracks_pure value
  | succ passes ih =>
    intro value tokens
    unfold operatorLoop
    apply reads_peek
    cases hmatch : matchOperator operators (tokens.headD .eof) with
    | none => exact tracks_pure value tokens
    | some op =>
      obtain ⟨symbol, rest, rfl⟩ := symbol_of_matched (fun _ => rfl) (fun _ => rfl) (fun _ => rfl)
        rfl hmatch
      apply reads_advance
      refine (tracks_ofResult _).bind (fun rhsMode => ?_) rest
      refine (hoperand rhsMode).bind fun rhs => ?_
      exact (tracks_ofResult _).bind fun value => ih value

theorem tracks_leftAssociative (operators : List (BinaryOperator F)) {operand : Parser F}
    (hoperand : ∀ evaluate, Tracks (operand evaluate)) (evaluate : Bool) :
    Tracks (leftAssociative operators operand evaluate) := by
  unfold leftAssociative
  refine (hoperand evaluate).bind fun value => ?_
  refine tracks_get.bind fun tokens => ?_
  exact tracks_operatorLoop hoperand evaluate tokens.length value

theorem tracks_parseOr {unary : Parser F} (hunary : ∀ evaluate, Tracks (unary evaluate)) :
    ∀ evaluate, Tracks (parseOr py label unary evaluate) := by
  have hmul := tracks_leftAssociative (mulOperators py label) hunary
  have hadd := tracks_leftAssociative (addOperators py label) hmul
  have hshift := tracks_leftAssociative (shiftOperators py label) hadd
  have hcompare := tracks_leftAssociative (compareOperators py label) hshift
  have hequality := tracks_leftAssociative (equalityOperators py label) hcompare
  have hbitAnd := tracks_leftAssociative (bitwiseAndOperators py label) hequality
  have hbitXor := tracks_leftAssociative (bitwiseXorOperators py label) hbitAnd
  have hbitOr := tracks_leftAssociative (bitwiseOrOperators py label) hbitXor
  have hand := tracks_leftAssociative [andOperator py label] hbitOr
  exact tracks_leftAssociative [orOperator py label] hand

theorem tracks_parseArguments {nestedOr : Parser F}
    (hor : ∀ evaluate, Tracks (nestedOr evaluate)) (evaluate : Bool) (passes : ℕ) :
    ∀ args, Tracks (parseArguments py label nestedOr evaluate passes args) := by
  induction passes with
  | zero => exact fun args => tracks_pure args
  | succ passes ih =>
    intro args
    unfold parseArguments
    refine (hor evaluate).bind fun arg => ?_
    refine (tracks_matchToken ")").bind fun closed => ?_
    cases closed with
    | true => exact tracks_pure (args ++ [arg])
    | false => exact (tracks_expectToken py label ",").bind fun _ => ih (args ++ [arg])

theorem tracks_parseCall {nestedOr : Parser F} (hor : ∀ evaluate, Tracks (nestedOr evaluate))
    (name : String) (evaluate : Bool) : Tracks (parseCall py label nestedOr name evaluate) := by
  unfold parseCall
  refine (tracks_matchToken ")").bind fun closed => ?_
  cases closed with
  | true => exact tracks_ofResult _
  | false =>
    refine tracks_get.bind fun tokens => ?_
    refine (tracks_parseArguments py label hor evaluate tokens.length []).bind fun args => ?_
    exact tracks_ofResult _

/-- What follows an identifier decides whether it is looked up. -/
theorem reads_parseIdentifier {nestedOr : Parser F} (hor : ∀ evaluate, Tracks (nestedOr evaluate))
    (name : String) (evaluate : Bool) (rest : List Token) :
    Reads (parseIdentifier py label nestedOr name evaluate) rest
      (identifiers (.ident name :: rest)) := by
  unfold parseIdentifier
  rw [identifiers]
  by_cases htrue : name = "true"
  · rw [if_pos htrue, if_pos (.inl htrue)]
    exact tracks_pure _ rest
  · rw [if_neg htrue]
    by_cases hfalse : name = "false"
    · rw [if_pos hfalse, if_pos (.inr (.inl hfalse))]
      exact tracks_pure _ rest
    · rw [if_neg hfalse]
      by_cases hcall : rest.headD .eof = .op "("
      · rw [if_pos (.inr (.inr hcall))]
        cases rest with
        | nil => cases hcall
        | cons token rest =>
          have htoken : token = .op "(" := hcall
          rw [htoken]
          exact reads_matched rfl (tracks_parseCall py label hor name evaluate rest)
      · have hname : ¬ (name = "true" ∨ name = "false" ∨ rest.headD .eof = .op "(") := by
          rintro (h | h | h)
          · exact htrue h
          · exact hfalse h
          · exact hcall h
        rw [if_neg hname]
        apply reads_unmatched hcall
        intro env
        constructor
        · intro other hother
          have hlookup : ((do
              let value ← StateT.lift (Query.lookup name)
              return operandValue py evaluate value : ParserM F (TypedValue F)) rest)
              = Query.ask name fun v => .done (operandValue py evaluate v, rest) := rfl
          change other ∈ (Query.ask name fun v =>
            Query.done (operandValue py evaluate v, rest)).asked env at hother
          cases hvalue : env name with
          | ok v =>
            rw [Query.asked_ask_ok hvalue] at hother
            cases List.mem_cons.mp hother with
            | inl heq => exact heq ▸ List.mem_cons_self
            | inr hmem => cases hmem
          | error e =>
            rw [Query.asked_ask_error hvalue] at hother
            rw [List.mem_singleton.mp hother]
            exact List.mem_cons_self
        · intro a rest' heval
          change (Query.ask name fun v =>
            Query.done (operandValue py evaluate v, rest)).eval env = .ok (a, rest') at heval
          change _ = (Query.ask name fun v =>
            Query.done (operandValue py evaluate v, rest)).asked env ++ _
          rw [Query.eval_ask] at heval
          cases hvalue : env name with
          | ok v =>
            rw [hvalue] at heval
            have hrest : rest = rest' := (Prod.mk.inj (Except.ok.inj heval)).2
            rw [Query.asked_ask_ok hvalue, hrest]
            rfl
          | error e =>
            rw [hvalue] at heval
            cases heval

theorem tracks_parsePrimary {nestedOr : Parser F} (hor : ∀ evaluate, Tracks (nestedOr evaluate))
    (evaluate : Bool) : Tracks (parsePrimary py label nestedOr evaluate) := by
  have hother : ∀ token : Token, Tracks (do
      if ← matchToken "(" then
        let value ← nestedOr evaluate
        expectToken py label ")"
        return value
      else failure label s!"unexpected token {py.repr token.text}" : ParserM F (TypedValue F)) := by
    intro token
    refine (tracks_matchToken "(").bind fun found => ?_
    cases found with
    | true =>
      refine (hor evaluate).bind fun value => ?_
      exact (tracks_expectToken py label ")").bind fun _ => tracks_pure value
    | false => exact tracks_ofResult _
  intro tokens
  unfold parsePrimary
  apply reads_peek
  cases tokens with
  | nil => exact hother .eof []
  | cons token rest =>
    cases token with
    | op symbol => exact hother (.op symbol) (.op symbol :: rest)
    | eof => exact hother .eof (.eof :: rest)
    | number text =>
      apply reads_advance
      exact (tracks_ofResult _).bind (fun value => tracks_pure _) rest
    | string text =>
      apply reads_advance
      exact (tracks_ofResult _).bind (fun value => tracks_pure _) rest
    | ident name =>
      apply reads_advance
      exact reads_parseIdentifier py label hor name evaluate rest

theorem tracks_unaryLevel {nestedUnary nestedOr : Parser F}
    (hunary : ∀ evaluate, Tracks (nestedUnary evaluate))
    (hor : ∀ evaluate, Tracks (nestedOr evaluate)) (evaluate : Bool) :
    Tracks (unaryLevel py label nestedUnary nestedOr evaluate) := by
  intro tokens
  unfold unaryLevel
  apply reads_peek
  cases hmatch : matchUnary py label (tokens.headD .eof) with
  | none => exact tracks_parsePrimary py label hor evaluate tokens
  | some op =>
    obtain ⟨symbol, rest, rfl⟩ := symbol_of_matched (fun _ => rfl) (fun _ => rfl) (fun _ => rfl)
      rfl hmatch
    apply reads_advance
    exact (hunary evaluate).bind (fun value => tracks_ofResult _) rest

theorem tracks_parseUnary (depth : ℕ) : ∀ evaluate, Tracks (parseUnary py label depth evaluate) := by
  have hexceeded : ∀ evaluate, Tracks (nestingExceeded label evaluate : ParserM F _) :=
    fun evaluate => tracks_ofResult _
  induction depth with
  | zero => exact tracks_unaryLevel py label hexceeded hexceeded
  | succ depth ih => exact tracks_unaryLevel py label ih (tracks_parseOr py label ih)

theorem tracks_parseTokens : Tracks (parseTokens py label) := by
  unfold parseTokens
  refine (tracks_parseOr py label (tracks_parseUnary py label _) true).bind fun value => ?_
  refine tracks_peek.bind fun token => ?_
  split
  · exact tracks_ofResult _
  · exact tracks_pure value

theorem parseTokens_rest {env : Environment F} {tokens rest : List Token} {value : TypedValue F}
    (h : (parseTokens py label tokens).eval env = .ok (value, rest)) : identifiers rest = [] := by
  have hstep : parseTokens py label tokens =
      (parseOr py label (parseUnary py label maxExpressionNesting) true tokens >>= fun p =>
        (if p.2.headD .eof ≠ .eof then
          failure label s!"unexpected token {py.repr (p.2.headD .eof).text}"
        else return p.1 : ParserM F (TypedValue F)) p.2) := rfl
  rw [hstep, Query.eval_bind] at h
  cases hor : (parseOr py label (parseUnary py label maxExpressionNesting) true tokens).eval env with
  | error e =>
    rw [hor] at h
    cases h
  | ok p =>
    rw [hor] at h
    change ((if p.2.headD .eof ≠ .eof then
        failure label s!"unexpected token {py.repr (p.2.headD .eof).text}"
      else return p.1 : ParserM F (TypedValue F)) p.2).eval env = .ok (value, rest) at h
    by_cases heof : p.2.headD .eof = .eof
    · rw [if_neg (not_not.mpr heof)] at h
      have hrest : p.2 = rest := (Prod.mk.inj (Except.ok.inj h)).2
      rw [← hrest]
      cases hp : p.2 with
      | nil => rfl
      | cons token left =>
        rw [hp] at heof
        have htoken : token = .eof := heof
        rw [htoken]
        rfl
    · rw [if_pos heof] at h
      cases h

/-- The names of an expression's text. -/
def referencedNames (text : String) : List String :=
  match tokenize py label text with
  | .ok tokens => identifiers tokens
  | .error _ => []

private theorem parseExpression_split {text : String} {tokens : List Token}
    (htokens : tokenize py label text = .ok tokens) (env : Environment F) :
    (parseExpression py label text).asked env = (parseTokens py label tokens).asked env ∧
      ∀ value, (parseExpression py label text).eval env = .ok value →
        ∃ rest, (parseTokens py label tokens).eval env = .ok (value, rest) := by
  have hlift : (Query.lift (.ok tokens) : Evaluation F (List Token)) = .done tokens := rfl
  have hexpr : parseExpression py label text
      = (parseTokens py label tokens >>= fun p => Query.done p.1) := by
    unfold parseExpression
    rw [htokens, hlift, Query.done_bind]
    rfl
  rw [hexpr, Query.asked_bind, Query.eval_bind]
  cases (parseTokens py label tokens).eval env with
  | error e =>
    constructor
    · exact List.append_nil _
    · intro value h
      cases h
  | ok p =>
    constructor
    · exact List.append_nil _
    · intro value h
      have hvalue : p.1 = value := Except.ok.inj h
      exact ⟨p.2, by rw [← hvalue]⟩

/-- An expression asks for no name but its identifiers. -/
theorem asked_subset (text : String) (env : Environment F) :
    ∀ name ∈ (parseExpression py label text).asked env, name ∈ referencedNames py label text := by
  unfold referencedNames
  cases htokens : tokenize py label text with
  | error e =>
    unfold parseExpression
    rw [htokens]
    intro name hname
    cases hname
  | ok tokens =>
    rw [(parseExpression_split py label htokens env).1]
    exact (tracks_parseTokens py label tokens env).1

/-- An expression that has a value asked for all of its identifiers. -/
theorem asked_of_eval {text : String} {env : Environment F} {value : TypedValue F}
    (h : (parseExpression py label text).eval env = .ok value) :
    (parseExpression py label text).asked env = referencedNames py label text := by
  unfold referencedNames
  cases htokens : tokenize py label text with
  | error e =>
    unfold parseExpression at h
    rw [htokens] at h
    cases h
  | ok tokens =>
    obtain ⟨hasked, hvalue⟩ := parseExpression_split py label htokens env
    obtain ⟨rest, heval⟩ := hvalue value h
    have hall := (tracks_parseTokens py label tokens env).2 value rest heval
    rw [hasked]
    simp only
    rw [hall, parseTokens_rest py label heval, List.append_nil]

end Parser

end Protocyte.Constants
