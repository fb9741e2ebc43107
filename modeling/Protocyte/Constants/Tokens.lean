import Protocyte.Constants.Value

/-! The tokens of an expression and the values of its number and string tokens. -/
namespace Protocyte.Constants

variable {F : Type} (py : Python F)

inductive Token where
  | op (symbol : String)
  | string (text : String)
  | number (text : String)
  | ident (text : String)
  | eof
deriving DecidableEq, Repr

/-- The text of a token in a diagnostic. -/
def Token.text : Token → String
  | .op symbol => symbol
  | .string text => text
  | .number text => text
  | .ident text => text
  | .eof => "EOF"

section Characters

def ascii (c : Char) : Bool := c.toNat < 128

/-- `str.isspace`, which also holds of the four ASCII separators. -/
def isSpace (c : Char) : Bool :=
  if ascii c then (9 ≤ c.toNat ∧ c.toNat ≤ 13) ∨ (28 ≤ c.toNat ∧ c.toNat ≤ 32) else py.isSpace c

def isDigit (c : Char) : Bool := if ascii c then c.isDigit else py.isDigit c

def isAlpha (c : Char) : Bool := if ascii c then c.isAlpha else py.isAlpha c

def isAlnum (c : Char) : Bool := if ascii c then c.isAlphanum else py.isAlnum c

def isHexDigit (c : Char) : Bool := isDigit py c || c.toLower ∈ ['a', 'b', 'c', 'd', 'e', 'f']

end Characters

def multiOps : List String := ["&&", "||", "==", "!=", "<=", ">=", "<<", ">>"]

def singleOps : List Char := "+-*/%()!,<>&|^~".toList

/-- The rest of a string literal after its opening quote, with the closing quote. -/
def scanString (quote : Char) : Bool → List Char → Option (List Char × List Char)
  | _, [] => none
  | true, c :: rest => (scanString quote false rest).map fun (text, rest) => (c :: text, rest)
  | false, c :: rest =>
    if c = '\\' then (scanString quote true rest).map fun (text, rest) => (c :: text, rest)
    else if c = quote then some ([c], rest)
    else (scanString quote false rest).map fun (text, rest) => (c :: text, rest)

/-- A decimal point with the digits after it. -/
def scanFraction : List Char → List Char × List Char
  | '.' :: rest => ('.' :: (rest.takeWhile (isDigit py)), rest.dropWhile (isDigit py))
  | rest => ([], rest)

def scanSign : List Char → List Char × List Char
  | '+' :: rest => (['+'], rest)
  | '-' :: rest => (['-'], rest)
  | rest => ([], rest)

def scanExponent : List Char → List Char × List Char
  | [] => ([], [])
  | c :: rest =>
    if c = 'e' ∨ c = 'E' then
      let (sign, rest) := scanSign rest
      (c :: sign ++ rest.takeWhile (isDigit py), rest.dropWhile (isDigit py))
    else ([], c :: rest)

/-- A number token other than a hexadecimal one. -/
def scanDecimal (text : List Char) : List Char × List Char :=
  let (fraction, rest) := scanFraction py (text.dropWhile (isDigit py))
  let (exponent, rest) := scanExponent py rest
  (text.takeWhile (isDigit py) ++ fraction ++ exponent, rest)

def isHexPrefix : List Char → Bool
  | '0' :: 'x' :: _ => true
  | '0' :: 'X' :: _ => true
  | _ => false

def scanNumber (label : String) (text : List Char) : Result (Token × List Char) :=
  if isHexPrefix text then
    let digits := (text.drop 2).takeWhile (isHexDigit py)
    let literal := String.ofList (text.take 2 ++ digits)
    if digits = [] then reject label s!"invalid numeric literal {py.repr literal}"
    else .ok (.number literal, (text.drop 2).dropWhile (isHexDigit py))
  else
    let (literal, rest) := scanDecimal py text
    .ok (.number (String.ofList literal), rest)

def isIdentifierPart (c : Char) : Bool := isAlnum py c || c = '_' || c = '.'

/-- One step of the tokenizer: a token unless white space is skipped, and the text left. -/
def nextToken (label : String) (c : Char) (rest : List Char) :
    Result (Option Token × List Char) :=
  if isSpace py c then .ok (none, rest)
  else if String.ofList (c :: rest.take 1) ∈ multiOps then
    .ok (some (.op (String.ofList (c :: rest.take 1))), rest.drop 1)
  else if c ∈ singleOps then .ok (some (.op (String.ofList [c])), rest)
  else if c = '"' ∨ c = '\'' then
    match scanString c false rest with
    | none => reject label "unterminated string literal"
    | some (text, rest) => .ok (some (.string (String.ofList (c :: text))), rest)
  else if isDigit py c then do
    let (token, rest) ← scanNumber py label (c :: rest)
    return (some token, rest)
  else if isAlpha py c || c = '_' then
    .ok (some (.ident (String.ofList (c :: rest.takeWhile (isIdentifierPart py)))),
      rest.dropWhile (isIdentifierPart py))
  else reject label s!"unexpected character {py.repr (String.ofList [c])}"

/-- The tokenizer's loop. Every step takes at least one character, so a step for each of them
is enough. -/
def tokenizeFrom (label : String) : ℕ → List Char → Result (List Token)
  | 0, _ => .ok [.eof]
  | _ + 1, [] => .ok [.eof]
  | steps + 1, c :: rest => do
    let (token, rest) ← nextToken py label c rest
    let tokens ← tokenizeFrom label steps rest
    return token.toList ++ tokens

def tokenize (label text : String) : Result (List Token) :=
  tokenizeFrom py label text.length text.toList

theorem scanString_length {quote : Char} {escaped : Bool} {text literal rest : List Char}
    (h : scanString quote escaped text = some (literal, rest)) : rest.length ≤ text.length := by
  induction text generalizing escaped literal rest with
  | nil => cases escaped <;> simp [scanString] at h
  | cons c text ih =>
    cases escaped with
    | true =>
      simp only [scanString, Option.map_eq_some_iff] at h
      obtain ⟨⟨literal', rest'⟩, hscan, heq⟩ := h
      have hrest : rest' = rest := (Prod.mk.inj heq).2
      have hle := ih hscan
      rw [List.length_cons, ← hrest]
      omega
    | false =>
      simp only [scanString] at h
      split_ifs at h with hslash hquote
      · obtain ⟨⟨literal', rest'⟩, hscan, heq⟩ := Option.map_eq_some_iff.mp h
        have hrest : rest' = rest := (Prod.mk.inj heq).2
        have hle := ih hscan
        rw [List.length_cons, ← hrest]
        omega
      · have hrest : text = rest := (Prod.mk.inj (Option.some.inj h)).2
        rw [List.length_cons, hrest]
        omega
      · obtain ⟨⟨literal', rest'⟩, hscan, heq⟩ := Option.map_eq_some_iff.mp h
        have hrest : rest' = rest := (Prod.mk.inj heq).2
        have hle := ih hscan
        rw [List.length_cons, ← hrest]
        omega

private theorem dropWhile_length {α : Type} (p : α → Bool) (l : List α) :
    (l.dropWhile p).length ≤ l.length := (List.dropWhile_sublist p).length_le

theorem scanFraction_length (text : List Char) :
    (scanFraction py text).2.length ≤ text.length := by
  unfold scanFraction
  split
  · have := dropWhile_length (isDigit py) ‹List Char›
    simp only [List.length_cons]
    omega
  · exact Nat.le_refl _

theorem scanSign_length (text : List Char) : (scanSign text).2.length ≤ text.length := by
  unfold scanSign
  split <;> simp

theorem scanExponent_length (text : List Char) :
    (scanExponent py text).2.length ≤ text.length := by
  cases text with
  | nil => simp [scanExponent]
  | cons c rest =>
    simp only [scanExponent]
    split
    · have hdigits := dropWhile_length (isDigit py) (scanSign rest).2
      have hsign := scanSign_length rest
      simp only [List.length_cons]
      omega
    · exact Nat.le_refl _

theorem scanNumber_length {label : String} {c : Char} {rest rest' : List Char} {token : Token}
    (hc : isDigit py c) (h : scanNumber py label (c :: rest) = .ok (token, rest')) :
    rest'.length ≤ rest.length := by
  unfold scanNumber at h
  split at h
  · simp only at h
    split at h
    · cases h
    · have hrest := (Prod.mk.inj (Except.ok.inj h)).2
      have hdrop := dropWhile_length (isHexDigit py) ((c :: rest).drop 2)
      rw [hrest, List.length_drop] at hdrop
      simp only [List.length_cons] at hdrop
      omega
  · have hrest := (Prod.mk.inj (Except.ok.inj h)).2
    have hexponent := scanExponent_length py
      (scanFraction py ((c :: rest).dropWhile (isDigit py))).2
    have hfraction := scanFraction_length py ((c :: rest).dropWhile (isDigit py))
    have hdrop : (c :: rest).dropWhile (isDigit py) = rest.dropWhile (isDigit py) := by
      rw [List.dropWhile_cons, if_pos hc]
    have hdigits := dropWhile_length (isDigit py) rest
    rw [hdrop] at hexponent hfraction
    have hleft : rest' = (scanDecimal py (c :: rest)).2 := hrest.symm
    have hscan : (scanDecimal py (c :: rest)).2
        = (scanExponent py (scanFraction py ((c :: rest).dropWhile (isDigit py))).2).2 := rfl
    rw [hleft, hscan, hdrop]
    omega

theorem nextToken_length {label : String} {c : Char} {rest rest' : List Char}
    {token : Option Token} (h : nextToken py label c rest = .ok (token, rest')) :
    rest'.length ≤ rest.length := by
  unfold nextToken at h
  split_ifs at h with hspace hmulti hsingle hquote hdigit halpha
  · exact Nat.le_of_eq (congrArg List.length (Prod.mk.inj (Except.ok.inj h)).2.symm)
  · rw [← (Prod.mk.inj (Except.ok.inj h)).2, List.length_drop]
    omega
  · exact Nat.le_of_eq (congrArg List.length (Prod.mk.inj (Except.ok.inj h)).2.symm)
  · cases hscan : scanString c false rest with
    | none => simp [hscan, reject] at h
    | some p =>
      obtain ⟨text, left⟩ := p
      simp only [hscan] at h
      rw [← (Prod.mk.inj (Except.ok.inj h)).2]
      exact scanString_length hscan
  · cases hscan : scanNumber py label (c :: rest) with
    | error e => simp [hscan, bind, Except.bind] at h
    | ok p =>
      obtain ⟨number, left⟩ := p
      simp only [hscan, bind, Except.bind, pure, Except.pure] at h
      rw [← (Prod.mk.inj (Except.ok.inj h)).2]
      exact scanNumber_length py hdigit hscan
  · rw [← (Prod.mk.inj (Except.ok.inj h)).2]
    exact dropWhile_length _ _
  · cases h

/-- The loop ends because the text does: more steps change nothing. -/
theorem tokenizeFrom_steps (label : String) (steps : ℕ) (text : List Char)
    (h : text.length ≤ steps) :
    tokenizeFrom py label steps text = tokenizeFrom py label text.length text := by
  induction steps using Nat.strongRecOn generalizing text with
  | ind steps ih =>
    cases text with
    | nil =>
      cases steps with
      | zero => rfl
      | succ steps => rfl
    | cons c rest =>
      obtain ⟨steps, rfl⟩ : ∃ n, steps = n + 1 := ⟨steps - 1, by rw [List.length_cons] at h; omega⟩
      rw [List.length_cons] at h
      rw [List.length_cons]
      simp only [tokenizeFrom]
      cases hnext : nextToken py label c rest with
      | error e => rfl
      | ok p =>
        obtain ⟨token, left⟩ := p
        have hleft := nextToken_length py hnext
        have hone := ih steps (by omega) left (by omega)
        have htwo := ih rest.length (by omega) left (by omega)
        simp only [bind, Except.bind]
        rw [hone, htwo]

def hexDigitValue (c : Char) : Option ℕ :=
  if ascii c then
    if c.isDigit then some (c.toNat - 48) else some (c.toLower.toNat - 87)
  else py.decimal c

def decimalDigitValue (c : Char) : Option ℕ :=
  if ascii c then some (c.toNat - 48) else py.decimal c

def digitsValue (base : ℕ) (digits : List ℕ) : ℕ := digits.foldl (fun n d => n * base + d) 0

/-- `int(token, 0)` of a number token: a decimal literal has no leading zeros unless it is
zero. -/
def parseInt (text : List Char) : Option Int :=
  if isHexPrefix text then do
    let digits ← (text.drop 2).mapM (hexDigitValue py)
    return digitsValue 16 digits
  else do
    let digits ← text.mapM (decimalDigitValue py)
    if digits.head? = some 0 ∧ digitsValue 10 digits ≠ 0 then none
    else return digitsValue 10 digits

def numberTokenIsFloating (text : List Char) : Bool :=
  !isHexPrefix text && (text.contains '.' || text.contains 'e' || text.contains 'E')

def parseNumberToken (label token : String) : Result (Int ⊕ F) :=
  if numberTokenIsFloating token.toList then
    match py.parseFloat token with
    | none => reject label s!"invalid numeric literal {py.repr token}"
    | some value =>
      if !py.isFinite value then reject label "numeric literal must be finite"
      else .ok (.inr value)
  else
    match parseInt py token.toList with
    | none => reject label s!"invalid numeric literal {py.repr token}"
    | some value => .ok (.inl value)

/-- A string of code points is UTF-8 encodable unless it holds a lone surrogate. -/
def validateUtf8String (codePoints : List ℕ) : Option String :=
  if codePoints.all fun n => n.isValidChar then
    some (String.ofList (codePoints.map Char.ofNat))
  else none

def parseStringToken (label token : String) : Result String :=
  match py.literalEval token with
  | none => reject label "invalid string literal"
  | some codePoints =>
    match validateUtf8String codePoints with
    | none => reject label "string value must be valid UTF-8"
    | some value => .ok value

end Protocyte.Constants
