import Protocyte.Foundation.Utf8
import Mathlib.Data.List.TakeWhile
import Mathlib.Data.Nat.Bitwise
import Mathlib.Tactic.Ring

/-! The string literals of the import scanner: the scan that skips or decodes one, and the rules of
its escapes. A position in the data is the list of the bytes from there. -/
namespace Protocyte.ImportScanner

open Foundation
open Foundation.Utf8 (byte)

section Model

def hexDigits : List UInt8 := "0123456789abcdefABCDEF".toList.map byte

def isHexDigit (value : UInt8) : Bool := hexDigits.contains value

def isOctalDigit (value : UInt8) : Bool := byte '0' ≤ value && value ≤ byte '7'

def digitValue (digit : UInt8) : ℕ :=
  if digit ≤ byte '9' then digit.toNat - 48
  else if digit ≤ byte 'F' then digit.toNat - 55
  else digit.toNat - 87

/-- `int(digits, base)` -/
def intOf (base : ℕ) (digits : List UInt8) : ℕ :=
  digits.foldl (fun value digit => base * value + digitValue digit) 0

def simpleEscapes : List (UInt8 × UInt8) :=
  [(byte 'a', 7), (byte 'b', 8), (byte 'f', 12), (byte 'n', 10), (byte 'r', 13), (byte 't', 9),
    (byte 'v', 11)]

/-- `_SIMPLE_ESCAPES.get(escaped, escaped)` -/
def simpleEscape (escaped : UInt8) : UInt8 := (simpleEscapes.lookup escaped).getD escaped

def encodeUnicodePoint (codePoint : ℕ) : List UInt8 :=
  if codePoint ≤ 0x7F then [UInt8.ofNat codePoint]
  else if codePoint ≤ 0x7FF then
    [UInt8.ofNat (0xC0 ||| codePoint >>> 6), UInt8.ofNat (0x80 ||| codePoint &&& 0x3F)]
  else if codePoint ≤ 0xFFFF then
    [UInt8.ofNat (0xE0 ||| codePoint >>> 12), UInt8.ofNat (0x80 ||| codePoint >>> 6 &&& 0x3F),
      UInt8.ofNat (0x80 ||| codePoint &&& 0x3F)]
  else if codePoint ≤ 0x10FFFF then
    [UInt8.ofNat (0xF0 ||| codePoint >>> 18), UInt8.ofNat (0x80 ||| codePoint >>> 12 &&& 0x3F),
      UInt8.ofNat (0x80 ||| codePoint >>> 6 &&& 0x3F), UInt8.ofNat (0x80 ||| codePoint &&& 0x3F)]
  else
    let digits := Nat.toDigits 16 codePoint
    ('\\' :: 'U' :: (List.replicate (8 - digits.length) '0' ++ digits)).map byte

/-- The surrogate that completes a pair, when the bytes escape one. -/
def trailSurrogate (data : List UInt8) : Option ℕ :=
  let trailDigits := (data.drop 2).take 4
  if data.take 2 = [byte '\\', byte 'u'] ∧ trailDigits.length = 4 ∧ trailDigits.all isHexDigit then
    let trail := intOf 16 trailDigits
    if 0xDC00 ≤ trail ∧ trail < 0xE000 then some trail else none
  else none

def unicodeWidth (mark : UInt8) : ℕ := if mark = byte 'u' then 4 else 8

/-- The bytes an escape of a code point stands for, and the data after it. -/
def decodeUnicodeEscape (mark : UInt8) (data : List UInt8) : Option (List UInt8 × List UInt8) :=
  let digits := data.take (unicodeWidth mark)
  let rest := data.drop (unicodeWidth mark)
  if data.length < unicodeWidth mark ∨ digits.all isHexDigit = false then none
  else
    let codePoint := intOf 16 digits
    if 0xD800 ≤ codePoint ∧ codePoint < 0xDC00 then
      match trailSurrogate rest with
      | some trail =>
        some (rest.drop 6,
          encodeUnicodePoint (0x10000 + (codePoint - 0xD800) <<< 10 + trail - 0xDC00))
      | none => some (rest, encodeUnicodePoint codePoint)
    else some (rest, encodeUnicodePoint codePoint)

theorem length_decodeUnicodeEscape {mark : UInt8} {data rest value : List UInt8}
    (h : decodeUnicodeEscape mark data = some (rest, value)) : rest.length ≤ data.length := by
  unfold decodeUnicodeEscape at h
  simp only at h
  split_ifs at h
  · split at h <;> cases h <;> simp only [List.length_drop] <;> omega
  · cases h
    simp only [List.length_drop]
    omega

/-- The scan of a literal from behind its opening quote: the data after the closing one, and the
value if there is one. -/
def decodeString (quote : UInt8) (capture : Bool) (data value : List UInt8) :
    List UInt8 × Option (List UInt8) :=
  match data with
  | [] => ([], none)
  | current :: rest =>
    if current = byte '\\' then
      match rest with
      | [] => ([], none)
      | escaped :: rest =>
        if capture = false then decodeString quote capture rest value
        else if escaped = byte 'x' ∨ escaped = byte 'X' then
          let digits := (rest.take 2).takeWhile isHexDigit
          if digits = [] then decodeString quote capture rest (value ++ [escaped])
          else decodeString quote capture (rest.drop digits.length)
            (value ++ [UInt8.ofNat (intOf 16 digits)])
        else if escaped = byte 'u' ∨ escaped = byte 'U' then
          match _h : decodeUnicodeEscape escaped rest with
          | none => decodeString quote capture rest (value ++ [escaped])
          | some (rest, encoded) => decodeString quote capture rest (value ++ encoded)
        else if isOctalDigit escaped then
          let digits := (rest.take 2).takeWhile isOctalDigit
          decodeString quote capture (rest.drop digits.length)
            (value ++ [UInt8.ofNat (intOf 8 (escaped :: digits))])
        else decodeString quote capture rest (value ++ [simpleEscape escaped])
    else if current = quote then (rest, some value)
    else decodeString quote capture rest (if capture then value ++ [current] else value)
termination_by data.length
decreasing_by
  all_goals simp only [List.length_cons, List.length_drop]
  all_goals first | omega | skip
  have hle := length_decodeUnicodeEscape _h
  omega

end Model

section Rules

/-- The bytes between the quotes of a literal: no quote and no backslash but escaped ones. -/
inductive Closed (quote : UInt8) : List UInt8 → Prop
  | nil : Closed quote []
  | plain {b : UInt8} {rest : List UInt8} (hquote : b ≠ quote) (hslash : b ≠ byte '\\')
      (tail : Closed quote rest) : Closed quote (b :: rest)
  | escaped (b : UInt8) {rest : List UInt8} (tail : Closed quote rest) :
      Closed quote (byte '\\' :: b :: rest)

/-- The digits that escape a code point behind their mark. -/
structure UnicodeDigits (mark : UInt8) (digits : List UInt8) : Prop where
  isMark : mark = byte 'u' ∨ mark = byte 'U'
  length : digits.length = unicodeWidth mark
  hex : ∀ b ∈ digits, isHexDigit b = true

/-- A trailing surrogate, escaped. -/
structure TrailText (text : List UInt8) (trail : ℕ) : Prop where
  text : ∃ digits, text = byte '\\' :: byte 'u' :: digits ∧ UnicodeDigits (byte 'u') digits ∧
    intOf 16 digits = trail
  range : 0xDC00 ≤ trail ∧ trail < 0xE000

def LeadSurrogate (codePoint : ℕ) : Prop := 0xD800 ≤ codePoint ∧ codePoint < 0xDC00

/-- The bytes of a literal and what they stand for: an escape takes as many digits as it can. -/
inductive Unescapes : List UInt8 → List UInt8 → Prop
  | nil : Unescapes [] []
  | plain {b : UInt8} {rest value : List UInt8} (hslash : b ≠ byte '\\')
      (tail : Unescapes rest value) : Unescapes (b :: rest) (b :: value)
  | hexadecimal {mark : UInt8} {digits rest value : List UInt8}
      (hmark : mark = byte 'x' ∨ mark = byte 'X') (hne : digits ≠ [])
      (hdigits : ∀ b ∈ digits, isHexDigit b = true) (hlength : digits.length ≤ 2)
      (hgreedy : digits.length = 2 ∨ ∀ b ∈ rest.head?, isHexDigit b = false)
      (tail : Unescapes rest value) :
      Unescapes (byte '\\' :: mark :: (digits ++ rest)) (UInt8.ofNat (intOf 16 digits) :: value)
  | octal {digit : UInt8} {digits rest value : List UInt8} (hdigit : isOctalDigit digit = true)
      (hdigits : ∀ b ∈ digits, isOctalDigit b = true) (hlength : digits.length ≤ 2)
      (hgreedy : digits.length = 2 ∨ ∀ b ∈ rest.head?, isOctalDigit b = false)
      (tail : Unescapes rest value) :
      Unescapes (byte '\\' :: digit :: (digits ++ rest))
        (UInt8.ofNat (intOf 8 (digit :: digits)) :: value)
  | unicode {mark : UInt8} {digits rest value : List UInt8} (hdigits : UnicodeDigits mark digits)
      (hsingle : LeadSurrogate (intOf 16 digits) → ∀ text after trail, rest = text ++ after →
        ¬TrailText text trail) (tail : Unescapes rest value) :
      Unescapes (byte '\\' :: mark :: (digits ++ rest))
        (encodeUnicodePoint (intOf 16 digits) ++ value)
  | pair {mark : UInt8} {digits text rest value : List UInt8} {trail : ℕ}
      (hdigits : UnicodeDigits mark digits) (hlead : LeadSurrogate (intOf 16 digits))
      (htrail : TrailText text trail) (tail : Unescapes rest value) :
      Unescapes (byte '\\' :: mark :: (digits ++ (text ++ rest)))
        (encodeUnicodePoint
          (0x10000 + (intOf 16 digits - 0xD800) <<< 10 + trail - 0xDC00) ++ value)
  | simple {b : UInt8} {rest value : List UInt8}
      (hhex : b = byte 'x' ∨ b = byte 'X' → ∀ c ∈ rest.head?, isHexDigit c = false)
      (hoctal : isOctalDigit b = false)
      (hunicode : ∀ digits after, rest = digits ++ after → ¬UnicodeDigits b digits)
      (tail : Unescapes rest value) :
      Unescapes (byte '\\' :: b :: rest) (simpleEscape b :: value)

end Rules

section Digits

variable {p : UInt8 → Bool} {digits rest : List UInt8} {n : ℕ}

/-- Digits that cannot be continued are all that is taken. -/
theorem takeWhile_take (hdigits : ∀ b ∈ digits, p b = true) (hlength : digits.length ≤ n)
    (hgreedy : digits.length = n ∨ ∀ b ∈ rest.head?, p b = false) :
    ((digits ++ rest).take n).takeWhile p = digits := by
  rw [List.take_append, List.take_of_length_le hlength, List.takeWhile_append_of_pos hdigits]
  have hnil : (rest.take (n - digits.length)).takeWhile p = [] := by
    rcases hgreedy with heq | hhead
    · rw [heq, Nat.sub_self, List.take_zero]
      rfl
    · cases rest with
      | nil => simp
      | cons b rest =>
        cases n - digits.length with
        | zero => rfl
        | succ m => rw [List.take_succ_cons, List.takeWhile_cons_of_neg (by simp [hhead b rfl])]
  rw [hnil, List.append_nil]

end Digits

section Decoding

variable {quote : UInt8} {body rest value after : List UInt8}

/-- A byte that ends a literal. -/
structure IsQuote (quote : UInt8) : Prop where
  slash : quote ≠ byte '\\'
  hex : isHexDigit quote = false
  octal : isOctalDigit quote = false
  mark : quote ≠ byte 'u'

theorem isQuote {quote : UInt8} (h : quote = byte '"' ∨ quote = byte '\'') : IsQuote quote := by
  rcases h with rfl | rfl
  · exact ⟨by decide, by decide, by decide, by decide⟩
  · exact ⟨by decide, by decide, by decide, by decide⟩

theorem Closed.tail_plain {b : UInt8} (h : Closed quote (b :: rest)) (hslash : b ≠ byte '\\') :
    b ≠ quote ∧ Closed quote rest := by
  cases h with
  | plain hquote _ tail => exact ⟨hquote, tail⟩
  | escaped _ _ => exact absurd rfl hslash

theorem Closed.drop_plain {digits : List UInt8} (h : Closed quote (digits ++ rest))
    (hslash : ∀ b ∈ digits, b ≠ byte '\\') : Closed quote rest := by
  induction digits with
  | nil => exact h
  | cons b digits ih =>
    apply ih (h.tail_plain (hslash b List.mem_cons_self)).2
    exact fun c hc => hslash c (List.mem_cons_of_mem _ hc)

theorem Closed.tail_escape {b : UInt8} (h : Closed quote (byte '\\' :: b :: rest)) :
    Closed quote rest := by
  cases h with
  | plain _ hslash _ => exact absurd rfl hslash
  | escaped _ tail => exact tail

/-- Without decoding, a literal is skipped up to its closing quote. -/
theorem decodeString_skip (h : Closed quote body) (hquote : IsQuote quote) :
    decodeString quote false (body ++ quote :: after) value = (after, some value) := by
  induction h with
  | nil =>
    rw [List.nil_append, decodeString.eq_def]
    simp only [if_neg hquote.slash, if_pos]
  | plain hne hslash tail ih =>
    rw [List.cons_append, decodeString.eq_def]
    simp only [if_neg hslash, if_neg hne]
    exact ih
  | escaped b tail ih =>
    rw [List.cons_append, List.cons_append, decodeString.eq_def]
    simp only [if_pos]
    exact ih

theorem head?_append_quote {p : UInt8 → Bool} (after : List UInt8) (hquote : p quote = false)
    (h : ∀ b ∈ rest.head?, p b = false) : ∀ b ∈ (rest ++ quote :: after).head?, p b = false := by
  cases rest with
  | nil =>
    intro b hb
    rw [← Option.some.inj hb]
    exact hquote
  | cons c rest => exact h

theorem hex_ne_slash {b : UInt8} (h : isHexDigit b = true) : b ≠ byte '\\' := by
  rintro rfl
  exact absurd h (by decide)

theorem octal_ne_slash {b : UInt8} (h : isOctalDigit b = true) : b ≠ byte '\\' := by
  rintro rfl
  exact absurd h (by decide)

theorem octal_ne_mark {b : UInt8} (h : isOctalDigit b = true) :
    ¬(b = byte 'x' ∨ b = byte 'X') ∧ ¬(b = byte 'u' ∨ b = byte 'U') := by
  constructor
  · rintro (rfl | rfl) <;> exact absurd h (by decide)
  · rintro (rfl | rfl) <;> exact absurd h (by decide)

section CodePoints

variable {mark : UInt8} {digits text data : List UInt8} {trail : ℕ}

/-- Bytes that are all digits do not reach the quote. -/
theorem length_of_take {p : UInt8 → Bool} {n : ℕ} (hquote : p quote = false)
    (h : ∀ b ∈ (rest ++ quote :: after).take n, p b = true) : n ≤ rest.length := by
  by_contra hlt
  have hmem : quote ∈ (rest ++ quote :: after).take n := by
    rw [List.take_append]
    obtain ⟨m, hm⟩ := Nat.exists_eq_succ_of_ne_zero (Nat.sub_ne_zero_of_lt (Nat.lt_of_not_le hlt))
    rw [hm, List.take_succ_cons]
    simp
  rw [h quote hmem] at hquote
  exact absurd hquote (by simp)

theorem trailSurrogate_of_text (data : List UInt8) (h : TrailText text trail) :
    trailSurrogate (text ++ data) = some trail ∧ (text ++ data).drop 6 = data := by
  obtain ⟨⟨digits, rfl, hdigits, rfl⟩, hrange⟩ := h
  have hlength : digits.length = 4 := hdigits.length
  have hall : digits.all isHexDigit = true := List.all_eq_true.mpr hdigits.hex
  have htake : ((byte '\\' :: byte 'u' :: (digits ++ data)).drop 2).take 4 = digits := by
    rw [List.drop_succ_cons, List.drop_succ_cons, List.drop_zero, ← hlength, List.take_left]
  constructor
  · unfold trailSurrogate
    simp only [List.cons_append, htake]
    rw [if_pos ⟨rfl, hlength, hall⟩, if_pos hrange]
  · simp only [List.cons_append, List.drop_succ_cons]
    rw [← hlength, List.drop_left]

theorem text_of_trailSurrogate (hquote : IsQuote quote)
    (h : trailSurrogate (rest ++ quote :: after) = some trail) :
    ∃ text data, rest = text ++ data ∧ TrailText text trail := by
  unfold trailSurrogate at h
  simp only at h
  split_ifs at h with hdigits hrange
  obtain rfl := Option.some.inj h
  obtain ⟨hmark, hlength, hhex⟩ := hdigits
  rcases rest with _ | ⟨b, _ | ⟨c, rest⟩⟩
  · exact absurd (List.cons.inj hmark).1 hquote.slash
  · exact absurd (List.cons.inj (List.cons.inj hmark).2).1 hquote.mark
  · obtain ⟨rfl, hnext⟩ := List.cons.inj hmark
    obtain ⟨rfl, -⟩ := List.cons.inj hnext
    simp only [List.cons_append, List.drop_succ_cons, List.drop_zero] at hlength hhex hrange ⊢
    have hfour := length_of_take hquote.hex (List.all_eq_true.mp hhex)
    rw [List.take_append_of_le_length hfour] at hlength hhex hrange ⊢
    refine ⟨byte '\\' :: byte 'u' :: rest.take 4, rest.drop 4, ?_,
      ⟨⟨_, rfl, ⟨.inl rfl, hlength, List.all_eq_true.mp hhex⟩, rfl⟩, hrange⟩⟩
    rw [List.cons_append, List.cons_append, List.take_append_drop]

theorem decodeUnicodeEscape_of_digits (h : UnicodeDigits mark digits) :
    decodeUnicodeEscape mark (digits ++ data) =
      if 0xD800 ≤ intOf 16 digits ∧ intOf 16 digits < 0xDC00 then
        match trailSurrogate data with
        | some trail =>
          some (data.drop 6,
            encodeUnicodePoint (0x10000 + (intOf 16 digits - 0xD800) <<< 10 + trail - 0xDC00))
        | none => some (data, encodeUnicodePoint (intOf 16 digits))
      else some (data, encodeUnicodePoint (intOf 16 digits)) := by
  have hall : digits.all isHexDigit = true := List.all_eq_true.mpr h.hex
  unfold decodeUnicodeEscape
  rw [← h.length, List.take_left, List.drop_left, if_neg (by simp [hall])]

theorem decodeUnicodeEscape_none (after : List UInt8) (hquote : IsQuote quote)
    (hmark : mark = byte 'u' ∨ mark = byte 'U')
    (h : ∀ digits data, rest = digits ++ data → ¬UnicodeDigits mark digits) :
    decodeUnicodeEscape mark (rest ++ quote :: after) = none := by
  unfold decodeUnicodeEscape
  apply if_pos
  by_contra hdigits
  obtain ⟨hlength, hall⟩ := not_or.mp hdigits
  rw [Bool.not_eq_false] at hall
  have hhex := List.all_eq_true.mp hall
  have hle := length_of_take hquote.hex hhex
  rw [List.take_append_of_le_length hle] at hhex
  exact h _ _ (List.take_append_drop (unicodeWidth mark) rest).symm
    ⟨hmark, List.length_take_of_le hle, hhex⟩

end CodePoints

theorem decodeString_unicode {mark : UInt8} {data remaining encoded start : List UInt8}
    (hmark : mark = byte 'u' ∨ mark = byte 'U')
    (h : decodeUnicodeEscape mark data = some (remaining, encoded)) :
    decodeString quote true (byte '\\' :: mark :: data) start =
      decodeString quote true remaining (start ++ encoded) := by
  have hx : ¬(mark = byte 'x' ∨ mark = byte 'X') := by
    rcases hmark with rfl | rfl <;> decide
  rw [decodeString.eq_def]
  simp only [if_pos, if_neg hx, if_pos hmark, reduceCtorEq, if_false]
  split
  · next hnone => exact absurd (hnone.symm.trans h) (by simp)
  · next remaining' encoded' hsome =>
    obtain ⟨rfl, rfl⟩ := Prod.mk.inj (Option.some.inj (hsome.symm.trans h))
    rfl

theorem decodeString_mark {mark : UInt8} {data start : List UInt8}
    (hmark : mark = byte 'u' ∨ mark = byte 'U') (h : decodeUnicodeEscape mark data = none) :
    decodeString quote true (byte '\\' :: mark :: data) start =
      decodeString quote true data (start ++ [mark]) := by
  have hx : ¬(mark = byte 'x' ∨ mark = byte 'X') := by
    rcases hmark with rfl | rfl <;> decide
  rw [decodeString.eq_def]
  simp only [if_pos, if_neg hx, if_pos hmark, reduceCtorEq, if_false]
  split
  · rfl
  · next remaining encoded hsome => exact absurd (hsome.symm.trans h) (by simp)

/-- With decoding, a literal is read up to its closing quote and has the value its escapes say. -/
theorem decodeString_capture (h : Unescapes body value) (hclosed : Closed quote body)
    (hquote : IsQuote quote) (start : List UInt8) :
    decodeString quote true (body ++ quote :: after) start = (after, some (start ++ value)) := by
  induction h generalizing start with
  | nil =>
    rw [List.nil_append, decodeString.eq_def]
    simp only [if_neg hquote.slash, if_pos, List.append_nil]
  | plain hslash tail ih =>
    obtain ⟨hne, htail⟩ := hclosed.tail_plain hslash
    rw [List.cons_append, decodeString.eq_def]
    simp only [if_neg hslash, if_neg hne]
    rw [ih htail]
    simp
  | @hexadecimal mark digits rest value hmark hne hdigits hlength hgreedy tail ih =>
    have hrest : Closed quote rest := hclosed.tail_escape.drop_plain fun b hb => hex_ne_slash (hdigits b hb)
    have hend := hgreedy.imp_right (head?_append_quote after hquote.hex)
    rw [List.cons_append, List.cons_append, List.append_assoc, decodeString.eq_def]
    simp only [if_pos, if_pos hmark, takeWhile_take hdigits hlength hend, if_neg hne,
      List.drop_left, reduceCtorEq, if_false]
    rw [ih hrest]
    simp
  | @octal digit digits rest value hdigit hdigits hlength hgreedy tail ih =>
    have hrest : Closed quote rest :=
      hclosed.tail_escape.drop_plain fun b hb => octal_ne_slash (hdigits b hb)
    have hend := hgreedy.imp_right (head?_append_quote after hquote.octal)
    obtain ⟨hx, hu⟩ := octal_ne_mark hdigit
    rw [List.cons_append, List.cons_append, List.append_assoc, decodeString.eq_def]
    simp only [if_pos, if_neg hx, if_neg hu, takeWhile_take hdigits hlength hend, hdigit,
      List.drop_left, reduceCtorEq, if_false]
    rw [ih hrest]
    simp
  | @unicode mark digits rest value hdigits hsingle tail ih =>
    have hrest : Closed quote rest :=
      hclosed.tail_escape.drop_plain fun b hb => hex_ne_slash (hdigits.hex b hb)
    have hdecode : decodeUnicodeEscape mark (digits ++ (rest ++ quote :: after)) =
        some (rest ++ quote :: after, encodeUnicodePoint (intOf 16 digits)) := by
      rw [decodeUnicodeEscape_of_digits hdigits]
      split_ifs with hlead
      · split
        · next trail htrail =>
          obtain ⟨text, data, hsplit, htext⟩ := text_of_trailSurrogate hquote htrail
          exact absurd htext (hsingle hlead text data trail hsplit)
        · rfl
      · rfl
    rw [List.cons_append, List.cons_append, List.append_assoc,
      decodeString_unicode hdigits.isMark hdecode, ih hrest, List.append_assoc]
  | @pair mark digits text rest value trail hdigits hlead htrail tail ih =>
    have hrest : Closed quote rest := by
      obtain ⟨⟨trailDigits, rfl, htrailDigits, -⟩, -⟩ := htrail
      have htext := hclosed.tail_escape.drop_plain fun b hb => hex_ne_slash (hdigits.hex b hb)
      exact htext.tail_escape.drop_plain fun b hb => hex_ne_slash (htrailDigits.hex b hb)
    obtain ⟨hsome, hdrop⟩ := trailSurrogate_of_text (rest ++ quote :: after) htrail
    have hdecode : decodeUnicodeEscape mark (digits ++ (text ++ (rest ++ quote :: after))) =
        some (rest ++ quote :: after, encodeUnicodePoint
          (0x10000 + (intOf 16 digits - 0xD800) <<< 10 + trail - 0xDC00)) := by
      rw [decodeUnicodeEscape_of_digits hdigits, if_pos (show _ ∧ _ from hlead), hsome]
      simp only [hdrop]
    rw [List.cons_append, List.cons_append, List.append_assoc, List.append_assoc,
      decodeString_unicode hdigits.isMark hdecode, ih hrest, List.append_assoc]
  | @simple b rest value hhex hoctal hunicode tail ih =>
    have hrest : Closed quote rest := hclosed.tail_escape
    rw [List.cons_append, List.cons_append]
    by_cases hx : b = byte 'x' ∨ b = byte 'X'
    · have hnone : ((rest ++ quote :: after).take 2).takeWhile isHexDigit = [] :=
        takeWhile_take (List.forall_mem_nil _) (Nat.zero_le 2)
          (.inr (head?_append_quote after hquote.hex (hhex hx)))
      have hsame : simpleEscape b = b := by rcases hx with rfl | rfl <;> decide
      rw [decodeString.eq_def]
      simp only [if_pos, if_pos hx, hnone, reduceCtorEq, if_false]
      rw [ih hrest, hsame]
      simp
    · by_cases hu : b = byte 'u' ∨ b = byte 'U'
      · have hnone := decodeUnicodeEscape_none after hquote hu hunicode
        have hsame : simpleEscape b = b := by rcases hu with rfl | rfl <;> decide
        rw [decodeString_mark hu hnone, ih hrest, hsame, List.append_assoc]
        rfl
      · rw [decodeString.eq_def]
        simp only [if_pos, if_neg hx, if_neg hu, hoctal, reduceCtorEq, if_false]
        rw [ih hrest]
        simp

end Decoding

end Protocyte.ImportScanner
