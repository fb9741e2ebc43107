import Protocyte.ImportScanner.Scanner

/-! The tokens of a descriptor source, what it is to write them down, and the imports among them:
the scanner finds these in whatever is written. -/
namespace Protocyte.ImportScanner

open Foundation
open Foundation.Utf8 (byte)

section Tokens

inductive Token
  | identifier (name : List UInt8)
  | number (text : List UInt8)
  | literal (quote : UInt8) (body value : List UInt8)
  | symbol (value : UInt8)
deriving DecidableEq, Repr

def Token.text : Token → List UInt8
  | .identifier name => name
  | .number text => text
  | .literal quote body _ => quote :: (body ++ [quote])
  | .symbol value => [value]

/-- Digits, or digits around a dot. -/
inductive Mantissa : List UInt8 → Prop
  | whole {digits : List UInt8} (hne : digits ≠ []) (hdigits : ∀ b ∈ digits, isDigit b = true) :
      Mantissa digits
  | fraction {whole digits : List UInt8} (hne : whole ≠ [] ∨ digits ≠ [])
      (hwhole : ∀ b ∈ whole, isDigit b = true) (hdigits : ∀ b ∈ digits, isDigit b = true) :
      Mantissa (whole ++ byte '.' :: digits)

inductive Exponent : List UInt8 → Prop
  | none : Exponent []
  | some {mark : UInt8} {sign digits : List UInt8} (hmark : mark = byte 'e' ∨ mark = byte 'E')
      (hsign : sign = [] ∨ sign = [byte '+'] ∨ sign = [byte '-']) (hne : digits ≠ [])
      (hdigits : ∀ b ∈ digits, isDigit b = true) : Exponent (mark :: (sign ++ digits))

inductive NumberText : List UInt8 → Prop
  | hexadecimal {mark : UInt8} {digits : List UInt8} (hmark : mark = byte 'x' ∨ mark = byte 'X')
      (hne : digits ≠ []) (hdigits : ∀ b ∈ digits, isHexDigit b = true) :
      NumberText (byte '0' :: mark :: digits)
  | decimal {mantissa exponent suffix : List UInt8} (hmantissa : Mantissa mantissa)
      (hexponent : Exponent exponent)
      (hsuffix : suffix = [] ∨ suffix = [byte 'f'] ∨ suffix = [byte 'F']) :
      NumberText (mantissa ++ (exponent ++ suffix))

/-- A token that can be written. -/
inductive Token.Valid : Token → Prop
  | identifier {first : UInt8} {rest : List UInt8} (hfirst : isIdentifierStart first = true)
      (hrest : ∀ b ∈ rest, isIdentifierContinue b = true) : Valid (.identifier (first :: rest))
  | number {text : List UInt8} (h : NumberText text) : Valid (.number text)
  | literal {quote : UInt8} {body value : List UInt8}
      (hquote : quote = byte '"' ∨ quote = byte '\'') (hclosed : Closed quote body)
      (hvalue : Unescapes body value) : Valid (.literal quote body value)
  | symbol {value : UInt8} (hcontinue : isIdentifierContinue value = false)
      (hquote : value ≠ byte '"' ∧ value ≠ byte '\'') (hblank : whitespace.contains value = false) :
      Valid (.symbol value)

/-- The bytes behind a token do not merge with it. -/
def Token.Separate (token : Token) (after : List UInt8) : Prop :=
  match token with
  | .identifier _ => ∀ b ∈ after.head?, isIdentifierContinue b = false
  | .number _ => ∀ b ∈ after.head?, isIdentifierContinue b = false
  | .literal _ _ _ => True
  | .symbol value => value = byte '/' → ∀ b ∈ after.head?, b ≠ byte '/' ∧ b ≠ byte '*'

/-- The ways to write tokens, with white space and comments around them. -/
inductive Renders : List Token → List UInt8 → Prop
  | nil : Renders [] []
  | blank {tokens : List Token} {data : List UInt8} {b : UInt8} (h : whitespace.contains b = true)
      (rest : Renders tokens data) : Renders tokens (b :: data)
  | lineComment {tokens : List Token} {data content : List UInt8} (h : byte '\n' ∉ content)
      (rest : Renders tokens data) :
      Renders tokens (byte '/' :: byte '/' :: (content ++ byte '\n' :: data))
  | blockComment {tokens : List Token} {data content : List UInt8}
      (h : ¬[byte '*', byte '/'] <:+: content) (rest : Renders tokens data) :
      Renders tokens (byte '/' :: byte '*' :: (content ++ byte '*' :: byte '/' :: data))
  | token {tokens : List Token} {data : List UInt8} {token : Token} (hvalid : token.Valid)
      (hseparate : token.Separate data) (rest : Renders tokens data) :
      Renders (token :: tokens) (token.text ++ data)

end Tokens

section Imports

def Token.isImport : Token → Bool
  | .identifier name => name == importWord
  | _ => false

def Token.isQualifier : Token → Bool
  | .identifier name => qualifierWords.contains name
  | _ => false

def Token.isLiteral : Token → Bool
  | .literal _ _ _ => true
  | _ => false

def Token.value : Token → List UInt8
  | .literal _ _ value => value
  | _ => []

/-- The tokens without the qualifier in front, if there is one. -/
def withoutQualifier : List Token → List Token
  | [] => []
  | token :: tokens => if token.isQualifier then tokens else token :: tokens

/-- The name behind the word of an import: literals up to a semicolon. -/
def nameOf (tokens : List Token) : Option (List UInt8) :=
  let literals := tokens.takeWhile Token.isLiteral
  if literals ≠ [] ∧ (tokens.dropWhile Token.isLiteral).head? = some (.symbol (byte ';')) then
    some (literals.flatMap Token.value)
  else none

/-- The import that tokens start with. -/
def importAt : List Token → Option (List UInt8)
  | [] => none
  | token :: tokens => if token.isImport then nameOf (withoutQualifier tokens) else none

/-- The imports of a sequence of tokens, in order. -/
def importsOf (tokens : List Token) : List (List UInt8) := tokens.tails.filterMap importAt

/-- No import follows another one, its qualifier or its literals. -/
def Apart (tokens : List Token) : Prop :=
  ∀ before first qualifier literals second after,
    tokens = before ++ first :: (qualifier ++ (literals ++ second :: after)) →
    first.isImport = true → (qualifier = [] ∨ ∃ q, q.isQualifier = true ∧ qualifier = [q]) →
    (∀ t ∈ literals, t.isLiteral = true) → second.isImport = false

end Imports

section Automaton

/-- The scanner on tokens. -/
def scanTokens : List Token → Option Expectation → List UInt8 → List (List UInt8) →
    List (List UInt8)
  | [], _, _, imports => imports
  | .identifier name :: tokens, expectation, importName, imports =>
    if expectation = none ∧ name = importWord then
      scanTokens tokens (some .qualifierOrString) [] imports
    else if expectation = some .qualifierOrString ∧ qualifierWords.contains name then
      scanTokens tokens (some .string) importName imports
    else scanTokens tokens none [] imports
  | .number _ :: tokens, _, _, imports => scanTokens tokens none [] imports
  | .literal _ _ value :: tokens, expectation, importName, imports =>
    if expectation = none then scanTokens tokens none [] imports
    else scanTokens tokens (some .adjacentStringOrEnd) (importName ++ value) imports
  | .symbol value :: tokens, expectation, importName, imports =>
    scanTokens tokens none []
      (if value = byte ';' ∧ expectation = some .adjacentStringOrEnd then imports ++ [importName]
      else imports)

/-- An import without its semicolon is none. -/
example (importName : List UInt8) (imports : List (List UInt8)) :
    scanTokens [] (some .adjacentStringOrEnd) importName imports = imports := by
  rw [scanTokens]

end Automaton

section Branches

variable {b : UInt8} {rest name data : List UInt8} {expectation : Option Expectation}
  {importName : List UInt8} {imports : List (List UInt8)}

theorem ne_slash_of_start (h : isIdentifierStart b = true) : b ≠ byte '/' := by
  rintro rfl
  exact absurd h (by decide)

theorem scan_lineComment : scan (byte '/' :: byte '/' :: rest) expectation importName imports =
    scan (rest.dropWhile (· ≠ byte '\n')) expectation importName imports := by
  rw [scan, if_pos ⟨rfl, rfl⟩]
  rfl

theorem scan_blockComment : scan (byte '/' :: byte '*' :: rest) expectation importName imports =
    scan (afterComment rest) expectation importName imports := by
  rw [scan, if_neg (fun h => absurd (Option.some.inj h.2) (by decide)), if_pos ⟨rfl, rfl⟩]
  rfl

theorem scan_identifier (hstart : isIdentifierStart b = true) :
    scan (b :: rest) expectation importName imports =
      if expectation = none ∧ b :: rest.takeWhile isIdentifierContinue = importWord then
        scan (rest.dropWhile isIdentifierContinue) (some .qualifierOrString) [] imports
      else if expectation = some .qualifierOrString ∧
          qualifierWords.contains (b :: rest.takeWhile isIdentifierContinue) then
        scan (rest.dropWhile isIdentifierContinue) (some .string) importName imports
      else scan (rest.dropWhile isIdentifierContinue) none [] imports := by
  have hslash := ne_slash_of_start hstart
  rw [scan, if_neg fun h => hslash h.1, if_neg fun h => hslash h.1, if_pos hstart]

theorem scan_literal {quote : UInt8} (hquote : quote = byte '"' ∨ quote = byte '\'') :
    scan (quote :: rest) expectation importName imports =
      match expectation.isSome, (decodeString quote expectation.isSome rest []).2 with
      | true, some value =>
        scan (decodeString quote expectation.isSome rest []).1 (some .adjacentStringOrEnd)
          (importName ++ value) imports
      | _, _ => scan (decodeString quote expectation.isSome rest []).1 none [] imports := by
  have hslash : quote ≠ byte '/' := by rcases hquote with rfl | rfl <;> decide
  have hstart : isIdentifierStart quote = false := by rcases hquote with rfl | rfl <;> decide
  rewrite [scan, if_neg fun h => hslash h.1, if_neg fun h => hslash h.1,
    if_neg (by simp [hstart]), if_pos hquote]
  rfl

/-- What a byte does that is neither part of a word nor a quote nor the start of a comment. -/
theorem scan_sign (hcontinue : isIdentifierContinue b = false)
    (hquote : b ≠ byte '"' ∧ b ≠ byte '\'')
    (hcomment : b = byte '/' → ∀ c ∈ rest.head?, c ≠ byte '/' ∧ c ≠ byte '*') :
    scan (b :: rest) expectation importName imports =
      if whitespace.contains b then scan rest expectation importName imports
      else if b = byte ';' then
        scan rest none []
          (if expectation = some .adjacentStringOrEnd then imports ++ [importName] else imports)
      else scan rest none [] imports := by
  have hstart : isIdentifierStart b = false := (Bool.or_eq_false_iff.mp hcontinue).1
  rw [scan, if_neg fun h => (hcomment h.1 _ h.2).1 rfl, if_neg fun h => (hcomment h.1 _ h.2).2 rfl,
    if_neg (by simp [hstart]), if_neg (not_or.mpr hquote)]

theorem blank_facts : ∀ b ∈ whitespace, isIdentifierContinue b = false ∧
    (b ≠ byte '"' ∧ b ≠ byte '\'') ∧ b ≠ byte '/' := by
  have hall : (whitespace.all fun b => decide (isIdentifierContinue b = false ∧
      (b ≠ byte '"' ∧ b ≠ byte '\'') ∧ b ≠ byte '/')) = true := by decide
  intro b hb
  exact of_decide_eq_true (List.all_eq_true.mp hall b hb)

theorem scan_blank (h : whitespace.contains b = true) :
    scan (b :: rest) expectation importName imports = scan rest expectation importName imports := by
  obtain ⟨hcontinue, hquote, hslash⟩ := blank_facts b (List.contains_iff_mem.mp h)
  rw [scan_sign hcontinue hquote fun heq => absurd heq hslash, if_pos h]

end Branches

section Numbers

variable {digits word rest : List UInt8} {expectation : Option Expectation}
  {importName : List UInt8} {imports : List (List UInt8)}

/-- A byte of a number that is part of no word. -/
def isNumberSign (b : UInt8) : Bool :=
  isDigit b || b == byte '.' || b == byte '+' || b == byte '-'

theorem numberSign_fixed : ∀ n < 256, isNumberSign (UInt8.ofNat n) = true →
    isIdentifierStart (UInt8.ofNat n) = false ∧
    (UInt8.ofNat n ≠ byte '"' ∧ UInt8.ofNat n ≠ byte '\'') ∧ UInt8.ofNat n ≠ byte '/' ∧
    whitespace.contains (UInt8.ofNat n) = false ∧ UInt8.ofNat n ≠ byte ';' := by
  decide +kernel

theorem scan_numberSign {b : UInt8} (h : isNumberSign b = true) :
    scan (b :: rest) expectation importName imports = scan rest none [] imports := by
  obtain ⟨hstart, hquote, hslash, hblank, hsemicolon⟩ :=
    Utf8.forall_byte (P := fun b => isNumberSign b = true → isIdentifierStart b = false ∧
      (b ≠ byte '"' ∧ b ≠ byte '\'') ∧ b ≠ byte '/' ∧ whitespace.contains b = false ∧
      b ≠ byte ';') numberSign_fixed b h
  rw [scan, if_neg fun h => hslash h.1, if_neg fun h => hslash h.1, if_neg (by simp [hstart]),
    if_neg (not_or.mpr hquote), if_neg (Bool.eq_false_iff.mp hblank), if_neg hsemicolon]

theorem scan_numberSigns (h : ∀ b ∈ digits, isNumberSign b = true) :
    scan (digits ++ rest) none [] imports = scan rest none [] imports := by
  induction digits with
  | nil => rfl
  | cons b digits ih =>
    obtain ⟨hb, hdigits⟩ := List.forall_mem_cons.mp h
    rw [List.cons_append, scan_numberSign hb, ih hdigits]

theorem isNumberSign_of_digit {b : UInt8} (h : isDigit b = true) : isNumberSign b = true := by
  simp [isNumberSign, h]

theorem takeWhile_word (hword : ∀ b ∈ word, isIdentifierContinue b = true)
    (hend : ∀ b ∈ rest.head?, isIdentifierContinue b = false) :
    (word ++ rest).takeWhile isIdentifierContinue = word ∧
      (word ++ rest).dropWhile isIdentifierContinue = rest := by
  rw [List.takeWhile_append_of_pos hword, List.dropWhile_append_of_pos hword]
  cases rest with
  | nil => simp
  | cons b rest =>
    have hb : ¬isIdentifierContinue b = true := by simp [hend b rfl]
    rw [List.takeWhile_cons_of_neg hb, List.dropWhile_cons_of_neg hb, List.append_nil]
    exact ⟨rfl, rfl⟩

/-- A word in a number is not the word of an import: it does not start like it. -/
theorem scan_word {b : UInt8} (hstart : isIdentifierStart b = true) (hne : b ≠ byte 'i')
    (hword : ∀ b ∈ word, isIdentifierContinue b = true)
    (hend : ∀ b ∈ rest.head?, isIdentifierContinue b = false) :
    scan (b :: (word ++ rest)) none [] imports = scan rest none [] imports := by
  obtain ⟨htake, hdrop⟩ := takeWhile_word hword hend
  have himport : b :: word ≠ importWord := by
    intro h
    exact hne (List.cons.inj h).1
  rw [scan_identifier hstart, htake, hdrop, if_neg fun h => himport h.2,
    if_neg fun h => absurd h.1 (by simp)]

theorem continue_fixed : ∀ n < 256, isHexDigit (UInt8.ofNat n) = true →
    isIdentifierContinue (UInt8.ofNat n) = true := by
  decide +kernel

theorem continue_of_hex {b : UInt8} (h : isHexDigit b = true) : isIdentifierContinue b = true :=
  Utf8.forall_byte (P := fun b => isHexDigit b = true → isIdentifierContinue b = true)
    continue_fixed b h

theorem continue_of_digit {b : UInt8} (h : isDigit b = true) : isIdentifierContinue b = true := by
  simp [isIdentifierContinue, h]

theorem Mantissa.signs {mantissa : List UInt8} (h : Mantissa mantissa) :
    ∃ first others, mantissa = first :: others ∧ isNumberSign first = true ∧
      ∀ b ∈ others, isNumberSign b = true := by
  have hsigns : mantissa ≠ [] ∧ ∀ b ∈ mantissa, isNumberSign b = true := by
    cases h with
    | whole hne hdigits => exact ⟨hne, fun b hb => isNumberSign_of_digit (hdigits b hb)⟩
    | fraction _ hwhole hdigits =>
      refine ⟨by simp, fun b hb => ?_⟩
      rcases List.mem_append.mp hb with hb | hb
      · exact isNumberSign_of_digit (hwhole b hb)
      · rcases List.mem_cons.mp hb with rfl | hb
        · decide
        · exact isNumberSign_of_digit (hdigits b hb)
  obtain ⟨first, others, rfl⟩ := List.exists_cons_of_ne_nil hsigns.1
  obtain ⟨hfirst, hothers⟩ := List.forall_mem_cons.mp hsigns.2
  exact ⟨first, others, rfl, hfirst, hothers⟩

/-- The suffix of a number is a word of one letter. -/
theorem scan_suffix {suffix : List UInt8}
    (hsuffix : suffix = [] ∨ suffix = [byte 'f'] ∨ suffix = [byte 'F'])
    (hend : ∀ b ∈ rest.head?, isIdentifierContinue b = false) :
    scan (suffix ++ rest) none [] imports = scan rest none [] imports := by
  have hletter : ∀ b, isIdentifierStart b = true → b ≠ byte 'i' →
      scan (b :: ([] ++ rest)) none [] imports = scan rest none [] imports :=
    fun b hstart hne => scan_word hstart hne (List.forall_mem_nil _) hend
  rcases hsuffix with rfl | rfl | rfl
  · rfl
  · exact hletter _ (by decide) (by decide)
  · exact hletter _ (by decide) (by decide)

theorem continue_suffix {suffix : List UInt8}
    (hsuffix : suffix = [] ∨ suffix = [byte 'f'] ∨ suffix = [byte 'F']) :
    ∀ b ∈ suffix, isIdentifierContinue b = true := by
  rcases hsuffix with rfl | rfl | rfl
  · exact List.forall_mem_nil _
  · exact List.forall_mem_singleton.mpr (by decide)
  · exact List.forall_mem_singleton.mpr (by decide)

theorem scan_exponent {exponent suffix : List UInt8} (h : Exponent exponent)
    (hsuffix : suffix = [] ∨ suffix = [byte 'f'] ∨ suffix = [byte 'F'])
    (hend : ∀ b ∈ rest.head?, isIdentifierContinue b = false) :
    scan (exponent ++ (suffix ++ rest)) none [] imports = scan rest none [] imports := by
  cases h with
  | none => exact scan_suffix hsuffix hend
  | @some mark sign digits hmark hsign hne hdigits =>
    have hstart : isIdentifierStart mark = true := by rcases hmark with rfl | rfl <;> decide
    have hmark : mark ≠ byte 'i' := by rcases hmark with rfl | rfl <;> decide
    have hdigitSigns : ∀ b ∈ digits, isNumberSign b = true :=
      fun b hb => isNumberSign_of_digit (hdigits b hb)
    -- without a sign, the letters and the digits are one word
    have hsigned : ∀ c, isNumberSign c = true → isIdentifierContinue c = false →
        scan (mark :: ([c] ++ digits ++ (suffix ++ rest))) none [] imports =
          scan rest none [] imports := by
      intro c hc hcontinue
      have hmarkEnd : ∀ b ∈ ([c] ++ digits ++ (suffix ++ rest)).head?,
          isIdentifierContinue b = false := by
        intro b hb
        rw [← Option.some.inj hb]
        exact hcontinue
      rw [← List.nil_append ([c] ++ digits ++ _),
        scan_word hstart hmark (List.forall_mem_nil _) hmarkEnd]
      show scan (c :: (digits ++ (suffix ++ rest))) none [] imports = _
      rw [scan_numberSign hc, scan_numberSigns hdigitSigns, scan_suffix hsuffix hend]
    rcases hsign with rfl | rfl | rfl
    · show scan (mark :: (digits ++ (suffix ++ rest))) none [] imports = _
      rw [← List.append_assoc]
      apply scan_word hstart hmark _ hend
      intro b hb
      rcases List.mem_append.mp hb with hb | hb
      · exact continue_of_digit (hdigits b hb)
      · exact continue_suffix hsuffix b hb
    · exact hsigned _ (by decide) (by decide)
    · exact hsigned _ (by decide) (by decide)

theorem scan_number {text : List UInt8} (h : NumberText text)
    (hend : ∀ b ∈ rest.head?, isIdentifierContinue b = false) :
    scan (text ++ rest) expectation importName imports = scan rest none [] imports := by
  cases h with
  | @hexadecimal mark digits hmark hne hdigits =>
    have hstart : isIdentifierStart mark = true := by rcases hmark with rfl | rfl <;> decide
    have hmark : mark ≠ byte 'i' := by rcases hmark with rfl | rfl <;> decide
    show scan (byte '0' :: mark :: (digits ++ rest)) expectation importName imports = _
    rw [scan_numberSign (by decide)]
    exact scan_word hstart hmark (fun b hb => continue_of_hex (hdigits b hb)) hend
  | @decimal mantissa exponent suffix hmantissa hexponent hsuffix =>
    obtain ⟨first, others, rfl, hfirst, hothers⟩ := hmantissa.signs
    rw [List.append_assoc, List.cons_append, scan_numberSign hfirst, scan_numberSigns hothers,
      List.append_assoc]
    exact scan_exponent hexponent hsuffix hend

end Numbers

section Rendering

theorem afterComment_content {content data : List UInt8}
    (h : ¬[byte '*', byte '/'] <:+: content) :
    afterComment (content ++ byte '*' :: byte '/' :: data) = data := by
  induction content with
  | nil => rw [List.nil_append, afterComment, if_pos ⟨rfl, rfl⟩]
  | cons b content ih =>
    have hrest : ¬[byte '*', byte '/'] <:+: content :=
      fun hinside => h (hinside.trans (List.suffix_cons b content).isInfix)
    refine Eq.trans ?_ (ih hrest)
    cases content with
    | nil =>
      show afterComment (b :: byte '*' :: byte '/' :: data) = _
      rw [afterComment, if_neg fun hend => absurd hend.2 (by decide)]
      rfl
    | cons c content =>
      show afterComment (b :: c :: (content ++ byte '*' :: byte '/' :: data)) = _
      have hend : ¬(b = byte '*' ∧ c = byte '/') := by
        rintro ⟨rfl, rfl⟩
        exact h ⟨[], content, rfl⟩
      rw [afterComment, if_neg hend]
      rfl

/-- The scanner does with the bytes what it does with the tokens. -/
theorem scan_renders {tokens : List Token} {data : List UInt8} (h : Renders tokens data)
    (expectation : Option Expectation) (importName : List UInt8) (imports : List (List UInt8)) :
    scan data expectation importName imports =
      scanTokens tokens expectation importName imports := by
  induction h generalizing expectation importName imports with
  | nil =>
    rw [scan]
    rfl
  | blank hblank rest ih => rw [scan_blank hblank, ih]
  | @lineComment tokens data content hcontent rest ih =>
    have hdrop : (content ++ byte '\n' :: data).dropWhile (· ≠ byte '\n') = byte '\n' :: data := by
      rw [List.dropWhile_append_of_pos]
      · simp
      · intro b hb
        apply decide_eq_true
        rintro rfl
        exact hcontent hb
    rw [scan_lineComment, hdrop, scan_blank (by decide), ih]
  | blockComment hcontent rest ih => rw [scan_blockComment, afterComment_content hcontent, ih]
  | @token tokens data token hvalid hseparate rest ih =>
    cases hvalid with
    | @identifier first name hfirst hname =>
      obtain ⟨htake, hdrop⟩ := takeWhile_word hname hseparate
      show scan (first :: (name ++ data)) expectation importName imports = _
      rw [scan_identifier hfirst, htake, hdrop, ih, ih, ih]
      rfl
    | number hnumber => exact (scan_number hnumber hseparate).trans (ih none [] imports)
    | @literal quote body value hquote hclosed hvalue =>
      show scan (quote :: (body ++ [quote] ++ data)) expectation importName imports = _
      rw [scan_literal hquote, List.append_assoc]
      show _ = if expectation = none then _ else _
      cases expectation with
      | none =>
        have hdecode : decodeString quote false (body ++ quote :: data) [] = (data, some []) :=
          decodeString_skip hclosed (isQuote hquote)
        simp only [Option.isSome_none, if_pos, List.singleton_append, hdecode]
        exact ih none [] imports
      | some expected =>
        have hdecode : decodeString quote true (body ++ quote :: data) [] =
            (data, some ([] ++ value)) := decodeString_capture hvalue hclosed (isQuote hquote) []
        simp only [Option.isSome_some, List.singleton_append, hdecode, reduceCtorEq, if_false]
        exact ih (some .adjacentStringOrEnd) (importName ++ value) imports
    | @symbol value hcontinue hquote hblank =>
      show scan (value :: data) expectation importName imports = _
      rw [scan_sign hcontinue hquote hseparate, if_neg (Bool.eq_false_iff.mp hblank), ih, ih,
        scanTokens]
      by_cases hsemicolon : value = byte ';'
      · simp only [hsemicolon, if_true, true_and]
      · simp only [hsemicolon, if_false, false_and]

end Rendering

section Runs

variable {token : Token} {tokens literals rest : List Token} {expectation : Expectation}
  {importName : List UInt8} {imports : List (List UInt8)}

theorem importsOf_cons (token : Token) (tokens : List Token) :
    importsOf (token :: tokens) = (importAt (token :: tokens)).toList ++ importsOf tokens := by
  unfold importsOf
  rw [List.tails_cons, List.filterMap_cons]
  cases importAt (token :: tokens) <;> rfl

theorem importsOf_append (h : ∀ t ∈ literals, t.isImport = false) :
    importsOf (literals ++ rest) = importsOf rest := by
  induction literals with
  | nil => rfl
  | cons token literals ih =>
    obtain ⟨htoken, hliterals⟩ := List.forall_mem_cons.mp h
    rw [List.cons_append, importsOf_cons, ih hliterals, importAt, if_neg (by simp [htoken])]
    rfl

theorem isImport_of_literal (h : token.isLiteral = true) : token.isImport = false := by
  cases token with
  | literal => rfl
  | _ => exact absurd h (by simp [Token.isLiteral])

theorem qualifiers_ne_import : qualifierWords.contains importWord = false := by decide

theorem isImport_of_qualifier (h : token.isQualifier = true) : token.isImport = false := by
  cases token with
  | identifier name =>
    apply beq_eq_false_iff_ne.mpr
    rintro rfl
    exact absurd (h.symm.trans qualifiers_ne_import) (by simp)
  | _ => rfl

theorem Apart.suffix (front : List Token) (h : Apart (front ++ rest)) : Apart rest := by
  intro before first qualifier literals second after hsplit
  apply h (front ++ before) first qualifier literals second after
  rw [hsplit, List.append_assoc]

/-- Outside of an import, a token changes nothing unless it starts one. -/
theorem scanTokens_none (h : token.isImport = false) :
    scanTokens (token :: tokens) none importName imports = scanTokens tokens none [] imports := by
  cases token with
  | identifier name =>
    have hname : name ≠ importWord := beq_eq_false_iff_ne.mp h
    rw [scanTokens, if_neg fun hand => hname hand.2, if_neg fun hand => absurd hand.1 (by simp)]
  | number text => rfl
  | literal quote body value => rfl
  | symbol value => rw [scanTokens, if_neg fun hand => absurd hand.2 (by simp)]

theorem scanTokens_import (h : token.isImport = true) :
    scanTokens (token :: tokens) none importName imports =
      scanTokens tokens (some .qualifierOrString) [] imports := by
  cases token with
  | identifier name =>
    have hname : name = importWord := beq_iff_eq.mp h
    rw [scanTokens, if_pos ⟨rfl, hname⟩]
  | _ => exact absurd h (by simp [Token.isImport])

theorem scanTokens_qualifier (h : token.isQualifier = true) :
    scanTokens (token :: tokens) (some .qualifierOrString) importName imports =
      scanTokens tokens (some .string) importName imports := by
  cases token with
  | identifier name =>
    rw [scanTokens, if_neg fun hand => absurd hand.1 (by simp), if_pos ⟨rfl, h⟩]
  | _ => exact absurd h (by simp [Token.isQualifier])

theorem scanTokens_literal (h : token.isLiteral = true) :
    scanTokens (token :: tokens) (some expectation) importName imports =
      scanTokens tokens (some .adjacentStringOrEnd) (importName ++ token.value) imports := by
  cases token with
  | literal quote body value => rw [scanTokens, if_neg (by simp)]; rfl
  | _ => exact absurd h (by simp [Token.isLiteral])

theorem scanTokens_literals (h : ∀ t ∈ literals, t.isLiteral = true) :
    scanTokens (literals ++ rest) (some .adjacentStringOrEnd) importName imports =
      scanTokens rest (some .adjacentStringOrEnd) (importName ++ literals.flatMap Token.value)
        imports := by
  induction literals generalizing importName with
  | nil => simp
  | cons token literals ih =>
    obtain ⟨htoken, hliterals⟩ := List.forall_mem_cons.mp h
    rw [List.cons_append, scanTokens_literal htoken, ih hliterals, List.flatMap_cons,
      List.append_assoc]

/-- A token that does not go on with an import ends it. -/
theorem scanTokens_end (hliteral : ∀ t ∈ tokens.head?, t.isLiteral = false)
    (himport : ∀ t ∈ tokens.head?, t.isImport = false)
    (hqualifier : expectation = .qualifierOrString → ∀ t ∈ tokens.head?, t.isQualifier = false) :
    scanTokens tokens (some expectation) importName imports =
      scanTokens tokens none []
        (if expectation = .adjacentStringOrEnd ∧ tokens.head? = some (.symbol (byte ';')) then
          imports ++ [importName] else imports) := by
  cases tokens with
  | nil => rw [if_neg fun hand => absurd hand.2 (by simp)]; rfl
  | cons token tokens =>
    rw [scanTokens_none (himport token rfl)]
    cases token with
    | identifier name =>
      rw [scanTokens, if_neg fun hand => absurd hand.1 (by simp), if_neg,
        if_neg fun hand => absurd hand.2 (by simp)]
      rintro ⟨hexpectation, hname⟩
      have hnot := hqualifier (Option.some.inj hexpectation) _ rfl
      exact absurd (hname.symm.trans hnot) (by simp)
    | number text =>
      rw [if_neg fun hand => absurd hand.2 (by simp)]
      rfl
    | literal quote body value => exact absurd (hliteral _ rfl) (by simp [Token.isLiteral])
    | symbol value =>
      rw [scanTokens]
      simp only [List.head?_cons, Option.some.injEq, Token.symbol.injEq, and_comm]

/-- What the scanner does with the tokens of a name. -/
theorem scanTokens_name (hexpectation : expectation ≠ .adjacentStringOrEnd)
    (himport : ∀ t ∈ (tokens.dropWhile Token.isLiteral).head?, t.isImport = false)
    (hqualifier : expectation = .qualifierOrString → ∀ t ∈ tokens.head?, t.isQualifier = false) :
    scanTokens tokens (some expectation) [] imports =
      scanTokens (tokens.dropWhile Token.isLiteral) none []
        (imports ++ (nameOf tokens).toList) := by
  have hsplit := List.takeWhile_append_dropWhile (p := Token.isLiteral) (l := tokens)
  have hliterals : ∀ t ∈ tokens.takeWhile Token.isLiteral, t.isLiteral = true :=
    fun t ht => List.mem_takeWhile_imp ht
  have hend : ∀ t ∈ (tokens.dropWhile Token.isLiteral).head?, t.isLiteral = false := by
    intro t ht
    have hnot := List.head?_dropWhile_not Token.isLiteral tokens
    rw [Option.mem_def.mp ht] at hnot
    simpa using hnot
  cases hname : tokens.takeWhile Token.isLiteral with
  | nil =>
    have hdrop : tokens.dropWhile Token.isLiteral = tokens := by
      rwa [hname, List.nil_append] at hsplit
    have hnone : nameOf tokens = none := by
      unfold nameOf
      simp only [hname]
      exact if_neg fun hand => hand.1 rfl
    rw [hdrop] at himport hend ⊢
    rw [hnone, scanTokens_end hend himport hqualifier, if_neg fun hand => hexpectation hand.1]
    simp
  | cons token literals =>
    rw [hname] at hliterals hsplit
    obtain ⟨htoken, hrest⟩ := List.forall_mem_cons.mp hliterals
    have hnameOf : nameOf tokens =
        if (tokens.dropWhile Token.isLiteral).head? = some (.symbol (byte ';')) then
          some ((token :: literals).flatMap Token.value) else none := by
      unfold nameOf
      simp only [hname, ne_eq, reduceCtorEq, not_false_eq_true, true_and]
    rw [hnameOf]
    generalize tokens.dropWhile Token.isLiteral = others at *
    rw [← hsplit, List.cons_append, scanTokens_literal htoken, scanTokens_literals hrest,
      scanTokens_end hend himport (by simp)]
    by_cases hsemicolon : others.head? = some (.symbol (byte ';'))
    · simp [hsemicolon]
    · simp [hsemicolon]

theorem withoutQualifier_cases (tokens : List Token) :
    (withoutQualifier tokens = tokens ∧ ∀ t ∈ tokens.head?, t.isQualifier = false) ∨
      ∃ q, q.isQualifier = true ∧ tokens = q :: withoutQualifier tokens := by
  cases tokens with
  | nil => exact .inl ⟨rfl, by simp⟩
  | cons token tokens =>
    rw [withoutQualifier]
    split_ifs with h
    · exact .inr ⟨token, h, rfl⟩
    · exact .inl ⟨rfl, by simpa using h⟩

/-- What the scanner does with the tokens behind the word of an import. -/
theorem scanTokens_behind
    (himport : ∀ t ∈ ((withoutQualifier tokens).dropWhile Token.isLiteral).head?,
      t.isImport = false) :
    scanTokens tokens (some .qualifierOrString) [] imports =
      scanTokens ((withoutQualifier tokens).dropWhile Token.isLiteral) none []
        (imports ++ (nameOf (withoutQualifier tokens)).toList) := by
  rcases withoutQualifier_cases tokens with ⟨heq, hnot⟩ | ⟨q, hq, heq⟩
  · rw [heq] at himport ⊢
    exact scanTokens_name (by simp) himport fun _ => hnot
  · generalize withoutQualifier tokens = names at himport heq ⊢
    rw [heq, scanTokens_qualifier hq]
    exact scanTokens_name (by simp) himport (by simp)

/-- Tokens are a qualifier, literals and others. -/
theorem exists_split (tokens : List Token) : ∃ qualifier,
    (qualifier = [] ∨ ∃ q, q.isQualifier = true ∧ qualifier = [q]) ∧
      tokens = qualifier ++ ((withoutQualifier tokens).takeWhile Token.isLiteral ++
        (withoutQualifier tokens).dropWhile Token.isLiteral) := by
  rw [List.takeWhile_append_dropWhile]
  rcases withoutQualifier_cases tokens with ⟨heq, _⟩ | ⟨q, hq, heq⟩
  · exact ⟨[], .inl rfl, heq.symm⟩
  · exact ⟨[q], .inr ⟨q, hq, rfl⟩, heq⟩

theorem scanTokens_importsOf (h : Apart tokens) :
    scanTokens tokens none [] imports = imports ++ importsOf tokens := by
  induction hn : tokens.length using Nat.strong_induction_on generalizing tokens imports with
  | _ n ih =>
    cases tokens with
    | nil => exact (List.append_nil imports).symm
    | cons token tokens =>
      have htail : Apart tokens := Apart.suffix [token] h
      rw [importsOf_cons, importAt]
      cases himport : token.isImport with
      | false =>
        rw [scanTokens_none himport, ih tokens.length (by rw [← hn]; exact Nat.lt_succ_self _) htail
          rfl, if_neg (by simp)]
        rfl
      | true =>
        -- the qualifier and the literals behind the import start no other one
        obtain ⟨qualifier, hqualifier, hsplit⟩ := exists_split tokens
        have hliterals : ∀ t ∈ (withoutQualifier tokens).takeWhile Token.isLiteral,
            t.isLiteral = true := fun t ht => List.mem_takeWhile_imp ht
        have hothers : ∀ t ∈ ((withoutQualifier tokens).dropWhile Token.isLiteral).head?,
            t.isImport = false := by
          intro second hsecond
          obtain ⟨after, hafter⟩ := List.head?_eq_some_iff.mp hsecond
          rw [hafter] at hsplit
          exact h [] token qualifier _ second after (by rw [List.nil_append, ← hsplit]) himport
            hqualifier hliterals
        have hnoImport : ∀ t ∈ qualifier, t.isImport = false := by
          intro t ht
          rcases hqualifier with rfl | ⟨q, hq, rfl⟩
          · exact absurd ht List.not_mem_nil
          · rw [List.mem_singleton.mp ht]
            exact isImport_of_qualifier hq
        rw [scanTokens_import himport, scanTokens_behind hothers, if_pos rfl]
        generalize nameOf (withoutQualifier tokens) = name
        generalize (withoutQualifier tokens).takeWhile Token.isLiteral = literals at *
        generalize (withoutQualifier tokens).dropWhile Token.isLiteral = others at *
        have happart : Apart others := by
          rw [hsplit, ← List.append_assoc] at htail
          exact Apart.suffix _ htail
        have hlength : others.length < n := by
          rw [← hn, hsplit, List.length_cons, List.length_append, List.length_append]
          omega
        have hname : importsOf tokens = importsOf others := by
          rw [hsplit, importsOf_append hnoImport,
            importsOf_append fun t ht => isImport_of_literal (hliterals t ht)]
        rw [ih others.length hlength happart rfl, hname, List.append_assoc]

end Runs

/-- The scanner finds the imports of the tokens, whatever white space and comments are between
them and whatever their literals and comments contain. -/
theorem importNames_renders {tokens : List Token} {data : List UInt8} (h : Renders tokens data)
    (hapart : Apart tokens) : importNames data = importsOf tokens := by
  unfold importNames
  rw [scan_renders h, scanTokens_importsOf hapart, List.nil_append]

section Sample

def publicWord : List UInt8 := ['p', 'u', 'b', 'l', 'i', 'c'].map byte

/-- A body of a literal with an escaped `b` in it. -/
def escapedBody : List UInt8 := ['\\', 'x', '6', '2'].map byte

/-- The tokens of `import public "a/" '\x62';` -/
def sampleTokens : List Token :=
  [.identifier (['i', 'm', 'p', 'o', 'r', 't'].map byte), .identifier publicWord,
    .literal (byte '"') (['a', '/'].map byte) (['a', '/'].map byte),
    .literal (byte '\'') escapedBody [byte 'b'], .symbol (byte ';')]

/-- They are written with a quote in a comment, and the literals without a space between them. -/
def sampleData : List UInt8 :=
  ['i', 'm', 'p', 'o', 'r', 't', '/', '*', '"', '*', '/', 'p', 'u', 'b', 'l', 'i', 'c', ' ', '"',
    'a', '/', '"', '\'', '\\', 'x', '6', '2', '\'', ';'].map byte

theorem separate_word {name : List UInt8} {b : UInt8} {rest : List UInt8}
    (h : isIdentifierContinue b = false) : (Token.identifier name).Separate (b :: rest) := by
  intro c hc
  rw [← Option.some.inj hc]
  exact h

theorem unescapes_escapedBody : Unescapes escapedBody [byte 'b'] := by
  have hescape : Unescapes (byte '\\' :: byte 'x' :: (['6', '2'].map byte ++ []))
      [UInt8.ofNat (intOf 16 (['6', '2'].map byte))] :=
    .hexadecimal (.inl rfl) (by decide) (List.all_eq_true.mp (by decide)) (by decide) (.inl rfl)
      .nil
  exact hescape

theorem renders_sample : Renders sampleTokens sampleData := by
  have hend : Renders [.symbol (byte ';')] [byte ';'] :=
    .token (.symbol (by decide) (by decide) (by decide)) (fun h => absurd h (by decide)) .nil
  have hescaped : Renders _ ((Token.literal (byte '\'') escapedBody [byte 'b']).text ++ [byte ';']) :=
    .token (.literal (.inr rfl) (.escaped _ (.plain (by decide) (by decide)
      (.plain (by decide) (by decide) .nil))) unescapes_escapedBody) trivial hend
  have hliteral : Renders _ ((Token.literal (byte '"') (['a', '/'].map byte)
      (['a', '/'].map byte)).text ++ (['\'', '\\', 'x', '6', '2', '\'', ';'].map byte)) :=
    .token (.literal (.inl rfl) (.plain (by decide) (by decide) (.plain (by decide) (by decide)
      .nil)) (.plain (by decide) (.plain (by decide) .nil))) trivial hescaped
  have hblank := hliteral.blank (b := byte ' ') (by decide)
  have hpublic : Renders _ ((Token.identifier publicWord).text ++ _) :=
    .token (.identifier (by decide) (List.all_eq_true.mp (by decide)))
      (separate_word (by decide)) hblank
  have hcomment : Renders _ (byte '/' :: byte '*' :: ([byte '"'] ++ byte '*' :: byte '/' :: _)) :=
    .blockComment (by decide) hpublic
  exact .token (.identifier (by decide) (List.all_eq_true.mp (by decide)))
    (separate_word (by decide)) hcomment

theorem apart_sample : Apart sampleTokens := by
  intro before first qualifier literals second after hsplit hfirst _ _
  by_contra hsecond
  have hcount := congrArg (List.countP Token.isImport) hsplit
  have hone : sampleTokens.countP Token.isImport = 1 := by decide
  rw [Bool.not_eq_false] at hsecond
  simp only [List.countP_append, List.countP_cons, hfirst, hsecond, hone, if_true] at hcount
  omega

theorem importNames_renders_sample : importNames sampleData = [['a', '/', 'b'].map byte] := by
  rw [importNames_renders renders_sample apart_sample]
  decide

end Sample

end Protocyte.ImportScanner
