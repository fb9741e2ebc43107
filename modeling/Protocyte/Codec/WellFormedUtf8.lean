import Protocyte.Codec.Validate
import Protocyte.Foundation.Utf8

/-! String validation: it reads inside the span only, and accepts the UTF-8 encodings of texts. -/
namespace Protocyte
open Foundation

/-- The continuation bytes from an index on. A read past the end of the span has no result. -/
def continuationsAt (view : List UInt8) : ℕ → ℕ → ℕ → Option (Option ℕ)
  | 0, _, code => some (some code)
  | need + 1, index, code =>
    match view[index]? with
    | none => none
    | some next =>
      if next.toNat &&& 0xC0 ≠ 0x80 then some none
      else continuationsAt view need (index + 1) ((code <<< 6) ||| (next.toNat &&& 0x3F))

/-- `String::validate_utf8` from an index on, reading the span by index. The first argument bounds
the iterations; without a result, they ran out or a read was past the end. -/
def validateUtf8At (view : List UInt8) : ℕ → ℕ → Option Bool
  | 0, _ => none
  | n + 1, i =>
    if i < view.length then
      match view[i]? with
      | none => none
      | some byte =>
        if byte.toNat < 0x80 then validateUtf8At view n (i + 1)
        else match leadByte byte.toNat with
          | none => some false
          | some (need, code) =>
            if i + need ≥ view.length then some false
            else match continuationsAt view need (i + 1) code with
              | none => none
              | some none => some false
              | some (some code) =>
                if (need = 1 ∧ code < 0x80) ∨ (need = 2 ∧ code < 0x800) ∨
                    (need = 3 ∧ code < 0x10000) then some false
                else if code > 0x10FFFF ∨ (code ≥ 0xD800 ∧ code ≤ 0xDFFF) then some false
                else validateUtf8At view n (i + need + 1)
    else some true

/-- The encodings of texts, a text being a list of Unicode scalar values. -/
def WellFormedUtf8 (bytes : List UInt8) : Prop := ∃ text : List Char, Utf8.encode text = bytes

section Reads

variable {view : List UInt8} {i need code n : ℕ}

theorem continuationsAt_eq (h : i + need ≤ view.length) :
    continuationsAt view need i code = some (continuationBytes ((view.drop i).take need) code) := by
  induction need generalizing i code with
  | zero => simp [continuationsAt, continuationBytes]
  | succ need ih =>
    have hlt : i < view.length := by omega
    rw [continuationsAt, List.getElem?_eq_getElem hlt, List.drop_eq_getElem_cons hlt,
      List.take_succ_cons, continuationBytes]
    simp only
    split_ifs
    · rfl
    · exact ih (by omega)

/-- Reading by index gives what reading the bytes in turn does. -/
theorem validateUtf8At_eq (hi : i ≤ view.length) (h : view.length < i + n) :
    validateUtf8At view n i = some (validateUtf8Loop n (view.drop i)) := by
  induction n generalizing i with
  | zero => omega
  | succ n ih =>
    rw [validateUtf8At]
    by_cases hlt : i < view.length
    · rw [if_pos hlt, List.getElem?_eq_getElem hlt, List.drop_eq_getElem_cons hlt,
        validateUtf8Loop]
      simp only [List.length_drop]
      split_ifs with hascii
      · exact ih (by omega) (by omega)
      · cases leadByte view[i].toNat with
        | none => rfl
        | some lead =>
          obtain ⟨need, code⟩ := lead
          simp only
          by_cases hshort : i + need ≥ view.length
          · rw [if_pos hshort, if_pos (by omega)]
          · rw [if_neg hshort, if_neg (by omega), continuationsAt_eq (by omega)]
            cases continuationBytes ((view.drop (i + 1)).take need) code with
            | none => rfl
            | some code =>
              simp only
              split_ifs
              · rfl
              · rfl
              · rw [ih (by omega) (by omega), List.drop_drop]
                congr 2
                congr 1
                omega
    · rw [if_neg hlt, List.drop_eq_nil_of_le (by omega)]
      rfl

end Reads

section Characters

private theorem leadByte_eq : ∀ b < 256, 128 ≤ b → leadByte b =
    if b < 193 then none
    else if b < 224 then some (1, b - 192)
    else if b < 240 then some (2, b - 224)
    else if b < 248 then some (3, b - 240)
    else none := by
  decide +kernel

private theorem continuation_iff : ∀ b < 256, (b &&& 0xC0 = 0x80 ↔ 128 ≤ b ∧ b < 192) := by
  decide +kernel

private theorem or_low {code low : ℕ} (h : low < 64) : (code <<< 6) ||| low = code * 64 + low := by
  rw [Nat.shiftLeft_eq, Nat.mul_comm, ← Nat.two_pow_add_eq_or_of_lt (i := 6) h]

theorem continuationBytes_cons {next : UInt8} {rest : List UInt8} {code : ℕ} :
    continuationBytes (next :: rest) code =
      if 128 ≤ next.toNat ∧ next.toNat < 192 then
        continuationBytes rest (code * 64 + (next.toNat - 128))
      else none := by
  have hlt := next.toNat_lt
  have hmod : next.toNat &&& 0x3F = next.toNat % 64 := Nat.and_two_pow_sub_one_eq_mod _ 6
  rw [continuationBytes, hmod, or_low (by omega)]
  by_cases h : 128 ≤ next.toNat ∧ next.toNat < 192
  · have hlow : next.toNat % 64 = next.toNat - 128 := by omega
    rw [if_neg (not_not_intro ((continuation_iff _ hlt).mpr h)), if_pos h, hlow]
  · rw [if_pos fun hbits => h ((continuation_iff _ hlt).mp hbits), if_neg h]

/-- The code point after its first bits and the bytes that follow, when it is in range. -/
def decodeRest (need code : ℕ) (rest : List UInt8) : Option ℕ :=
  if need > rest.length then none
  else (continuationBytes (rest.take need) code).bind fun code =>
    if (need = 1 ∧ code < 0x80) ∨ (need = 2 ∧ code < 0x800) ∨ (need = 3 ∧ code < 0x10000) then none
    else if code > 0x10FFFF ∨ (code ≥ 0xD800 ∧ code ≤ 0xDFFF) then none
    else some code

theorem validateUtf8Loop_cons {n : ℕ} {byte : UInt8} {rest : List UInt8} :
    validateUtf8Loop (n + 1) (byte :: rest) =
      if byte.toNat < 0x80 then validateUtf8Loop n rest
      else match leadByte byte.toNat with
        | none => false
        | some (need, code) =>
          match decodeRest need code rest with
          | none => false
          | some _ => validateUtf8Loop n (rest.drop need) := by
  rw [validateUtf8Loop]
  split_ifs with hascii
  · rfl
  · cases leadByte byte.toNat with
    | none => rfl
    | some lead =>
      obtain ⟨need, code⟩ := lead
      simp only
      unfold decodeRest
      split_ifs with hshort
      · rfl
      · cases continuationBytes (rest.take need) code with
        | none => rfl
        | some code =>
          simp only [Option.bind_some]
          split_ifs <;> rfl

/-- A byte that continues a character. -/
def Continues (b : UInt8) : Prop := 128 ≤ b.toNat ∧ b.toNat < 192

/-- The bits of the bytes that follow, behind those there are. -/
def addBits (code : ℕ) (bytes : List UInt8) : ℕ :=
  bytes.foldl (fun code b => code * 64 + (b.toNat - 128)) code

theorem addBits_nil (code : ℕ) : addBits code [] = code := rfl

theorem addBits_cons (code : ℕ) (b : UInt8) (bytes : List UInt8) :
    addBits code (b :: bytes) = addBits (code * 64 + (b.toNat - 128)) bytes := List.foldl_cons ..

theorem continuationBytes_eq_some {bytes : List UInt8} {code v : ℕ} :
    continuationBytes bytes code = some v ↔ (∀ b ∈ bytes, Continues b) ∧ v = addBits code bytes := by
  induction bytes generalizing code with
  | nil => simp [continuationBytes, addBits, eq_comm]
  | cons b bytes ih =>
    rw [continuationBytes_cons, List.forall_mem_cons, addBits_cons]
    by_cases hb : 128 ≤ b.toNat ∧ b.toNat < 192
    · rw [if_pos hb, ih]
      constructor
      · intro ⟨hbytes, hv⟩
        exact ⟨⟨hb, hbytes⟩, hv⟩
      · intro ⟨⟨_, hbytes⟩, hv⟩
        exact ⟨hbytes, hv⟩
    · rw [if_neg hb]
      constructor
      · intro h
        exact absurd h (by simp)
      · intro ⟨⟨hcontinues, _⟩, _⟩
        exact absurd hcontinues hb

theorem decodeRest_eq_some {need code v : ℕ} {rest : List UInt8} :
    decodeRest need code rest = some v ↔ need ≤ rest.length ∧
      (∀ b ∈ rest.take need, Continues b) ∧ v = addBits code (rest.take need) ∧
      ¬((need = 1 ∧ v < 0x80) ∨ (need = 2 ∧ v < 0x800) ∨ (need = 3 ∧ v < 0x10000)) ∧
      ¬(v > 0x10FFFF ∨ (v ≥ 0xD800 ∧ v ≤ 0xDFFF)) := by
  unfold decodeRest
  by_cases hshort : need > rest.length
  · rw [if_pos hshort]
    constructor
    · intro h
      exact absurd h (by simp)
    · intro ⟨hle, _⟩
      omega
  · rw [if_neg hshort, Option.bind_eq_some_iff]
    constructor
    · rintro ⟨w, hw, h⟩
      obtain ⟨hcontinues, hbits⟩ := continuationBytes_eq_some.mp hw
      by_cases hlong : (need = 1 ∧ w < 0x80) ∨ (need = 2 ∧ w < 0x800) ∨ (need = 3 ∧ w < 0x10000)
      · rw [if_pos hlong] at h
        exact absurd h (by simp)
      · rw [if_neg hlong] at h
        by_cases hrange : w > 0x10FFFF ∨ (w ≥ 0xD800 ∧ w ≤ 0xDFFF)
        · rw [if_pos hrange] at h
          exact absurd h (by simp)
        · rw [if_neg hrange] at h
          obtain rfl := Option.some.inj h
          exact ⟨Nat.le_of_not_lt hshort, hcontinues, hbits, hlong, hrange⟩
    · intro ⟨_, hcontinues, hbits, hlong, hrange⟩
      refine ⟨v, continuationBytes_eq_some.mpr ⟨hcontinues, hbits⟩, ?_⟩
      rw [if_neg hlong, if_neg hrange]

/-- A number that is a code point and no surrogate is that of a character. -/
theorem exists_char {code : ℕ} (h : ¬(code > 0x10FFFF ∨ (code ≥ 0xD800 ∧ code ≤ 0xDFFF))) :
    ∃ c : Char, c.toNat = code := by
  have hvalid : code.isValidChar := by
    unfold Nat.isValidChar
    omega
  exact ⟨Char.ofNatAux code hvalid, rfl⟩

theorem toNat_scalar (c : Char) :
    ¬(c.toNat > 0x10FFFF ∨ (c.toNat ≥ 0xD800 ∧ c.toNat ≤ 0xDFFF)) := by
  have hvalid : c.toNat.isValidChar := c.valid
  unfold Nat.isValidChar at hvalid
  omega

private theorem ofNat_of_eq {n : ℕ} {b : UInt8} (h : n = b.toNat) : UInt8.ofNat n = b := by
  rw [h, UInt8.ofNat_toNat]

private theorem toNat_ofNat_of_lt {n : ℕ} (h : n < 256) : (UInt8.ofNat n).toNat = n := by
  rw [UInt8.toNat_ofNat']
  omega

/-- What is decoded after a lead byte is a character. -/
theorem exists_encodeChar {byte : UInt8} {rest : List UInt8} {need code v : ℕ}
    (hbyte : ¬byte.toNat < 0x80) (hlead : leadByte byte.toNat = some (need, code))
    (hrest : decodeRest need code rest = some v) :
    ∃ c : Char, byte :: rest = String.utf8EncodeChar c ++ rest.drop need := by
  obtain ⟨hlength, hcontinues, hbits, hlong, hrange⟩ := decodeRest_eq_some.mp hrest
  obtain ⟨c, hc⟩ := exists_char hrange
  refine ⟨c, ?_⟩
  have hval : c.val.toNat = c.toNat := rfl
  have hlt := byte.toNat_lt
  rw [leadByte_eq _ hlt (by omega)] at hlead
  unfold String.utf8EncodeChar
  simp only [hval, hc]
  split_ifs at hlead with h1 h2 h3 h4
  · obtain ⟨rfl, rfl⟩ := Prod.mk.inj (Option.some.inj hlead)
    obtain ⟨x, tail, rfl⟩ := List.exists_cons_of_length_pos hlength
    have htake : (x :: tail).take 1 = [x] := rfl
    rw [htake, List.forall_mem_cons] at hcontinues
    rw [htake, addBits_cons, addBits_nil] at hbits
    obtain ⟨⟨hx, hx'⟩, _⟩ := hcontinues
    rw [if_neg (by omega), if_pos (by omega)]
    have hfirst : UInt8.ofNat (v / 64 % 32 + 192) = byte := ofNat_of_eq (by omega)
    have hsecond : UInt8.ofNat (v % 64 + 128) = x := ofNat_of_eq (by omega)
    rw [hfirst, hsecond]
    rfl
  · obtain ⟨rfl, rfl⟩ := Prod.mk.inj (Option.some.inj hlead)
    obtain ⟨x, y, tail, rfl⟩ : ∃ x y tail, rest = x :: y :: tail := by
      rcases rest with _ | ⟨x, _ | ⟨y, tail⟩⟩
      · simp at hlength
      · simp at hlength
      · exact ⟨x, y, tail, rfl⟩
    have htake : (x :: y :: tail).take 2 = [x, y] := rfl
    rw [htake, List.forall_mem_cons, List.forall_mem_cons] at hcontinues
    rw [htake, addBits_cons, addBits_cons, addBits_nil] at hbits
    obtain ⟨⟨hx, hx'⟩, ⟨hy, hy'⟩, _⟩ := hcontinues
    rw [if_neg (by omega), if_neg (by omega), if_pos (by omega)]
    have hfirst : UInt8.ofNat (v / 4096 % 16 + 224) = byte := ofNat_of_eq (by omega)
    have hsecond : UInt8.ofNat (v / 64 % 64 + 128) = x := ofNat_of_eq (by omega)
    have hthird : UInt8.ofNat (v % 64 + 128) = y := ofNat_of_eq (by omega)
    rw [hfirst, hsecond, hthird]
    rfl
  · obtain ⟨rfl, rfl⟩ := Prod.mk.inj (Option.some.inj hlead)
    obtain ⟨x, y, z, tail, rfl⟩ : ∃ x y z tail, rest = x :: y :: z :: tail := by
      rcases rest with _ | ⟨x, _ | ⟨y, _ | ⟨z, tail⟩⟩⟩
      · simp at hlength
      · simp at hlength
      · simp at hlength
      · exact ⟨x, y, z, tail, rfl⟩
    have htake : (x :: y :: z :: tail).take 3 = [x, y, z] := rfl
    rw [htake, List.forall_mem_cons, List.forall_mem_cons, List.forall_mem_cons] at hcontinues
    rw [htake, addBits_cons, addBits_cons, addBits_cons, addBits_nil] at hbits
    obtain ⟨⟨hx, hx'⟩, ⟨hy, hy'⟩, ⟨hz, hz'⟩, _⟩ := hcontinues
    rw [if_neg (by omega), if_neg (by omega), if_neg (by omega)]
    have hfirst : UInt8.ofNat (v / 262144 % 8 + 240) = byte := ofNat_of_eq (by omega)
    have hsecond : UInt8.ofNat (v / 4096 % 64 + 128) = x := ofNat_of_eq (by omega)
    have hthird : UInt8.ofNat (v / 64 % 64 + 128) = y := ofNat_of_eq (by omega)
    have hfourth : UInt8.ofNat (v % 64 + 128) = z := ofNat_of_eq (by omega)
    rw [hfirst, hsecond, hthird, hfourth]
    rfl

/-- The bytes of a character that is not ASCII are decoded to it. -/
theorem decode_encodeChar {byte : UInt8} {rest tail : List UInt8} {c : Char}
    (hbyte : ¬byte.toNat < 0x80) (h : byte :: rest = String.utf8EncodeChar c ++ tail) :
    ∃ need code, leadByte byte.toNat = some (need, code) ∧
      decodeRest need code rest = some c.toNat ∧ rest.drop need = tail := by
  have hrange := toNat_scalar c
  have hval : c.val.toNat = c.toNat := rfl
  have hlt := byte.toNat_lt
  rw [leadByte_eq _ hlt (by omega)]
  unfold String.utf8EncodeChar at h
  simp only [hval] at h
  split_ifs at h with h1 h2 h3
  · obtain ⟨rfl, _⟩ := List.cons.inj h
    rw [toNat_ofNat_of_lt (by omega)] at hbyte
    omega
  · obtain ⟨rfl, rfl⟩ := List.cons.inj h
    rw [toNat_ofNat_of_lt (by omega), if_neg (by omega), if_pos (by omega)]
    refine ⟨_, _, rfl, decodeRest_eq_some.mpr ⟨by simp, ?_, ?_, by omega, hrange⟩, rfl⟩
    · show ∀ b ∈ [_], Continues b
      rw [List.forall_mem_cons]
      refine ⟨?_, by simp⟩
      unfold Continues
      rw [toNat_ofNat_of_lt (by omega)]
      omega
    · show _ = addBits _ [_]
      rw [addBits_cons, addBits_nil, toNat_ofNat_of_lt (by omega)]
      omega
  · obtain ⟨rfl, rfl⟩ := List.cons.inj h
    rw [toNat_ofNat_of_lt (by omega), if_neg (by omega), if_neg (by omega), if_pos (by omega)]
    refine ⟨_, _, rfl, decodeRest_eq_some.mpr ⟨by simp, ?_, ?_, by omega, hrange⟩, rfl⟩
    · show ∀ b ∈ [_, _], Continues b
      rw [List.forall_mem_cons, List.forall_mem_cons]
      refine ⟨?_, ?_, by simp⟩ <;> unfold Continues <;> rw [toNat_ofNat_of_lt (by omega)] <;> omega
    · show _ = addBits _ [_, _]
      rw [addBits_cons, addBits_cons, addBits_nil, toNat_ofNat_of_lt (by omega),
        toNat_ofNat_of_lt (by omega)]
      omega
  · obtain ⟨rfl, rfl⟩ := List.cons.inj h
    rw [toNat_ofNat_of_lt (by omega), if_neg (by omega), if_neg (by omega), if_neg (by omega),
      if_pos (by omega)]
    refine ⟨_, _, rfl, decodeRest_eq_some.mpr ⟨by simp, ?_, ?_, by omega, hrange⟩, rfl⟩
    · show ∀ b ∈ [_, _, _], Continues b
      rw [List.forall_mem_cons, List.forall_mem_cons, List.forall_mem_cons]
      refine ⟨?_, ?_, ?_, by simp⟩ <;> unfold Continues <;> rw [toNat_ofNat_of_lt (by omega)] <;>
        omega
    · show _ = addBits _ [_, _, _]
      rw [addBits_cons, addBits_cons, addBits_cons, addBits_nil, toNat_ofNat_of_lt (by omega),
        toNat_ofNat_of_lt (by omega), toNat_ofNat_of_lt (by omega)]
      omega

end Characters

section Texts

/-- A well-formed span that is not empty starts with the bytes of a character. -/
theorem wellFormedUtf8_cons {byte : UInt8} {rest : List UInt8} :
    WellFormedUtf8 (byte :: rest) ↔
      ∃ c tail, byte :: rest = String.utf8EncodeChar c ++ tail ∧ WellFormedUtf8 tail := by
  constructor
  · rintro ⟨text, htext⟩
    cases text with
    | nil => exact absurd htext (by simp)
    | cons c text => exact ⟨c, Utf8.encode text, htext.symm, text, rfl⟩
  · rintro ⟨c, tail, heq, text, rfl⟩
    exact ⟨c :: text, heq.symm⟩

theorem validateUtf8Loop_iff {n : ℕ} {bytes : List UInt8} (h : bytes.length < n) :
    validateUtf8Loop n bytes = true ↔ WellFormedUtf8 bytes := by
  induction n generalizing bytes with
  | zero => omega
  | succ n ih =>
    cases bytes with
    | nil => exact ⟨fun _ => ⟨[], rfl⟩, fun _ => rfl⟩
    | cons byte rest =>
      rw [List.length_cons] at h
      rw [validateUtf8Loop_cons, wellFormedUtf8_cons]
      by_cases hascii : byte.toNat < 0x80
      · rw [if_pos hascii, ih (by omega)]
        have hscalar : ¬(byte.toNat > 0x10FFFF ∨ (byte.toNat ≥ 0xD800 ∧ byte.toNat ≤ 0xDFFF)) := by
          omega
        obtain ⟨char, hchar⟩ := exists_char hscalar
        constructor
        · intro hrest
          refine ⟨char, rest, ?_, hrest⟩
          rw [Utf8.encodeChar_of_ascii (by omega), Utf8.byte, hchar, UInt8.ofNat_toNat]
          rfl
        · rintro ⟨c, tail, heq, htail⟩
          rcases Nat.lt_or_ge c.toNat 128 with hc | hc
          · rw [Utf8.encodeChar_of_ascii hc] at heq
            obtain ⟨_, rfl⟩ := List.cons.inj heq
            exact htail
          · obtain ⟨first, others, hencode⟩ :=
              List.exists_cons_of_ne_nil (String.utf8EncodeChar_ne_nil (c := c))
            have hle := Utf8.le_of_mem_encodeChar hc (hencode ▸ List.mem_cons_self)
            rw [hencode] at heq
            obtain ⟨rfl, _⟩ := List.cons.inj heq
            omega
      · rw [if_neg hascii]
        constructor
        · intro htrue
          cases hlead : leadByte byte.toNat with
          | none => simp [hlead] at htrue
          | some lead =>
            obtain ⟨need, code⟩ := lead
            cases hdecode : decodeRest need code rest with
            | none => simp [hlead, hdecode] at htrue
            | some v =>
              simp only [hlead, hdecode] at htrue
              obtain ⟨c, hc⟩ := exists_encodeChar hascii hlead hdecode
              refine ⟨c, rest.drop need, hc, (ih ?_).mp htrue⟩
              rw [List.length_drop]
              omega
        · rintro ⟨c, tail, heq, htail⟩
          obtain ⟨need, code, hlead, hdecode, rfl⟩ := decode_encodeChar hascii heq
          simp only [hlead, hdecode]
          refine (ih ?_).mpr htail
          rw [List.length_drop]
          omega

/-- String validation never reads outside of the span, and accepts exactly the encodings of
texts. -/
theorem validateUtf8_wellFormed (view : List UInt8) :
    validateUtf8At view (view.length + 1) 0 = some (validateUtf8 view) ∧
      (validateUtf8 view = true ↔ WellFormedUtf8 view) := by
  constructor
  · exact validateUtf8At_eq (Nat.zero_le _) (by omega)
  · exact validateUtf8Loop_iff (Nat.lt_succ_self _)

end Texts

end Protocyte
