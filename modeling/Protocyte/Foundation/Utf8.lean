import Mathlib.Data.List.Induction
import Mathlib.Tactic.Common

/-! UTF-8 text as bytes. Below 128 the bytes are the ASCII characters, so text can be searched and
split at ASCII characters before or after it is encoded. -/
namespace Foundation.Utf8

def encode (text : List Char) : List UInt8 := text.flatMap String.utf8EncodeChar

/-- The byte of an ASCII character. -/
def byte (c : Char) : UInt8 := UInt8.ofNat c.toNat

def Ascii (text : List Char) : Prop := ∀ c ∈ text, c.toNat < 128

theorem all_iff_ascii (text : List Char) :
    (text.all fun c => decide (c.toNat < 128)) = true ↔ Ascii text := by
  simp [Ascii]

instance : DecidablePred Ascii := fun text => decidable_of_iff _ (all_iff_ascii text)

theorem forall_byte {P : UInt8 → Prop} (h : ∀ n < 256, P (UInt8.ofNat n)) (b : UInt8) : P b := by
  have hbyte := h b.toNat b.toNat_lt
  rwa [UInt8.ofNat_toNat] at hbyte

theorem forall_ascii {P : Char → Prop} (h : ∀ n < 128, P (Char.ofNat n)) (c : Char)
    (hc : c.toNat < 128) : P c := by
  have hchar := h c.toNat hc
  rwa [Char.ofNat_toNat] at hchar

section Characters

variable {c d : Char}

theorem encodeChar_of_ascii (h : c.toNat < 128) : String.utf8EncodeChar c = [byte c] := by
  unfold String.utf8EncodeChar
  have hle : c.val.toNat ≤ 0x7f := by
    have hval : c.val.toNat = c.toNat := rfl
    omega
  simp only [if_pos hle]
  rfl

theorem le_of_mem_encodeChar (h : 128 ≤ c.toNat) {b : UInt8} (hb : b ∈ String.utf8EncodeChar c) :
    128 ≤ b.toNat := by
  have hval : c.val.toNat = c.toNat := rfl
  unfold String.utf8EncodeChar at hb
  simp only at hb
  split_ifs at hb with h1 h2 h3
  · omega
  all_goals
    simp only [List.mem_cons, List.not_mem_nil, or_false] at hb
    rcases hb with rfl | hb
    · simp only [UInt8.toNat_ofNat']
      omega
  · rw [hb]
    simp only [UInt8.toNat_ofNat']
    omega
  · rcases hb with rfl | rfl <;> simp only [UInt8.toNat_ofNat'] <;> omega
  · rcases hb with rfl | rfl | rfl <;> simp only [UInt8.toNat_ofNat'] <;> omega

theorem toNat_byte (h : c.toNat < 128) : (byte c).toNat = c.toNat := by
  unfold byte
  rw [UInt8.toNat_ofNat']
  omega

theorem byte_inj (hc : c.toNat < 128) (hd : d.toNat < 128) : byte c = byte d ↔ c = d := by
  constructor
  · intro h
    have heq := congrArg UInt8.toNat h
    rw [toNat_byte hc, toNat_byte hd] at heq
    exact Char.toNat_inj.mp heq
  · rintro rfl
    rfl

theorem notMem_encodeChar (hc : 128 ≤ c.toNat) (hd : d.toNat < 128) :
    byte d ∉ String.utf8EncodeChar c := by
  intro h
  have hle := le_of_mem_encodeChar hc h
  rw [toNat_byte hd] at hle
  omega

end Characters

section Texts

variable {text rest : List Char} {c d : Char}

@[simp] theorem encode_nil : encode [] = [] := rfl

@[simp] theorem encode_cons (c : Char) (text : List Char) :
    encode (c :: text) = String.utf8EncodeChar c ++ encode text := rfl

@[simp] theorem encode_append (text rest : List Char) :
    encode (text ++ rest) = encode text ++ encode rest := List.flatMap_append

@[simp] theorem encode_flatten (texts : List (List Char)) :
    encode texts.flatten = texts.flatMap encode := by
  induction texts with
  | nil => rfl
  | cons text texts ih => rw [List.flatten_cons, encode_append, ih, List.flatMap_cons]

theorem encode_of_ascii (h : Ascii text) : encode text = text.map byte := by
  induction text with
  | nil => rfl
  | cons c text ih =>
    rw [encode_cons, encodeChar_of_ascii (h c List.mem_cons_self),
      ih fun d hd => h d (List.mem_cons_of_mem _ hd)]
    rfl

theorem length_encode_of_ascii (h : Ascii text) : (encode text).length = text.length := by
  rw [encode_of_ascii h, List.length_map]

theorem ascii_of_encode (h : ∀ b ∈ encode text, b.toNat < 128) : Ascii text := by
  intro c hc
  by_contra hforeign
  have hne : String.utf8EncodeChar c ≠ [] := String.utf8EncodeChar_ne_nil
  have hmem := List.head_mem hne
  have hle := le_of_mem_encodeChar (Nat.le_of_not_lt hforeign) hmem
  have hlt := h _ (List.mem_flatMap.mpr ⟨c, hc, hmem⟩)
  omega

/-- `bytes.decode("utf-8")` -/
def decode (bytes : List UInt8) : Option (List Char) :=
  bytes.toByteArray.utf8Decode?.map Array.toList

/-- The characters of an ASCII literal, read off its bytes. -/
def asciiText (s : String) : List Char :=
  s.toByteArray.data.toList.map fun b => Char.ofNat b.toNat

theorem encode_toList (s : String) : encode s.toList = s.toByteArray.data.toList := by
  rw [← String.utf8Encode_toList, List.utf8Encode]
  simp [encode]

theorem encode_inj {text rest : List Char} (h : encode text = encode rest) :
    text = rest := by
  have hbytes : (String.ofList text).toByteArray = (String.ofList rest).toByteArray := by
    apply ByteArray.ext
    apply Array.toList_inj.mp
    rw [← encode_toList, ← encode_toList, String.toList_ofList, String.toList_ofList, h]
  have hstring := congrArg String.toList (String.toByteArray_inj.mp hbytes)
  rwa [String.toList_ofList, String.toList_ofList] at hstring

theorem toList_eq_asciiText {s : String}
    (h : (s.toByteArray.data.toList.all fun b => decide (b.toNat < 128)) = true) :
    s.toList = asciiText s := by
  have hascii : Ascii s.toList := by
    apply ascii_of_encode
    rw [encode_toList]
    exact fun b hb => of_decide_eq_true (List.all_eq_true.mp h b hb)
  unfold asciiText
  rw [← encode_toList, encode_of_ascii hascii, List.map_map]
  symm
  apply List.map_congr_left (g := id) _ |>.trans (List.map_id _)
  intro c hc
  show Char.ofNat (byte c).toNat = c
  rw [toNat_byte (hascii c hc), Char.ofNat_toNat]

theorem Ascii.take (h : Ascii text) (n : ℕ) : Ascii (text.take n) :=
  fun c hc => h c (List.mem_of_mem_take hc)

theorem encode_take_of_ascii (h : Ascii text) (n : ℕ) :
    encode (text.take n) = (encode text).take n := by
  rw [encode_of_ascii h, encode_of_ascii (h.take n), List.map_take]

theorem takeWhile_encode (hd : d.toNat < 128) (text : List Char) :
    (encode text).takeWhile (· ≠ byte d) = encode (text.takeWhile (· ≠ d)) := by
  induction text with
  | nil => rfl
  | cons c text ih =>
    rw [encode_cons, List.takeWhile_cons]
    rcases Nat.lt_or_ge c.toNat 128 with hc | hc
    · rw [encodeChar_of_ascii hc, List.singleton_append, List.takeWhile_cons]
      by_cases heq : c = d
      · simp [heq]
      · have hne : byte c ≠ byte d := fun h => heq ((byte_inj hc hd).mp h)
        simp only [ne_eq, hne, not_false_eq_true, decide_true, if_true, heq]
        rw [ih, encode_cons, encodeChar_of_ascii hc]
        rfl
    · have hne : c ≠ d := by
        rintro rfl
        omega
      have hall : ∀ b ∈ String.utf8EncodeChar c, decide (b ≠ byte d) = true := by
        intro b hb
        have hbne : b ≠ byte d := by
          rintro rfl
          exact notMem_encodeChar hc hd hb
        simp [hbne]
      rw [List.takeWhile_append_of_pos hall, ih]
      simp [hne]

theorem mem_encode_iff (hd : d.toNat < 128) : byte d ∈ encode text ↔ d ∈ text := by
  constructor
  · intro h
    obtain ⟨c, hc, hbyte⟩ := List.mem_flatMap.mp h
    rcases Nat.lt_or_ge c.toNat 128 with hascii | hforeign
    · rw [encodeChar_of_ascii hascii, List.mem_singleton] at hbyte
      rwa [(byte_inj hd hascii).mp hbyte]
    · exact absurd hbyte (notMem_encodeChar hforeign hd)
  · intro h
    refine List.mem_flatMap.mpr ⟨d, h, ?_⟩
    rw [encodeChar_of_ascii hd]
    exact List.mem_cons_self

/-- The last byte of a text is an ASCII one only when its last character is. -/
theorem encode_concat_inj (hd : d.toNat < 128) {bytes : List UInt8} {c : Char} :
    encode (text ++ [c]) = bytes ++ [byte d] ↔ c = d ∧ encode text = bytes := by
  rw [encode_append, encode_cons, encode_nil, List.append_nil]
  rcases Nat.lt_or_ge c.toNat 128 with hc | hc
  · rw [encodeChar_of_ascii hc, List.append_singleton_inj]
    rw [byte_inj hc hd]
    exact and_comm
  · constructor
    · intro h
      have hlast : byte d ∈ String.utf8EncodeChar c := by
        have hne : String.utf8EncodeChar c ≠ [] := String.utf8EncodeChar_ne_nil
        have hget := congrArg List.getLast? h
        rw [List.getLast?_append, List.getLast?_concat, List.getLast?_eq_some_getLast hne,
          Option.some_or] at hget
        exact Option.some.inj hget ▸ List.getLast_mem hne
      exact absurd hlast (notMem_encodeChar hc hd)
    · rintro ⟨rfl, -⟩
      omega

theorem encode_suffix_iff (hrest : Ascii rest) : encode rest <:+ encode text ↔ rest <:+ text := by
  constructor
  · induction rest using List.reverseRecOn generalizing text with
    | nil => exact fun _ => List.nil_suffix
    | append_singleton rest d ih =>
      have hd : d.toNat < 128 := hrest d (by simp)
      have hrest' : Ascii rest := fun c hc => hrest c (by simp [hc])
      rintro ⟨bytes, hbytes⟩
      rw [encode_append, encode_cons, encode_nil, encodeChar_of_ascii hd, List.append_nil,
        ← List.append_assoc] at hbytes
      rcases List.eq_nil_or_concat text with rfl | ⟨text, c, rfl⟩
      · simp at hbytes
      · rw [List.concat_eq_append] at hbytes ⊢
        obtain ⟨rfl, htext⟩ := (encode_concat_inj hd).mp hbytes.symm
        obtain ⟨front, rfl⟩ := ih hrest' ⟨bytes, htext.symm⟩
        exact ⟨front, by simp⟩
  · rintro ⟨front, rfl⟩
    rw [encode_append]
    exact List.suffix_append _ _

theorem encode_eq_iff (hrest : Ascii rest) : encode rest = encode text ↔ rest = text := by
  constructor
  · intro h
    obtain ⟨front, rfl⟩ := (encode_suffix_iff hrest).mp ⟨[], h⟩
    rw [encode_append, List.self_eq_append_left] at h
    cases front with
    | nil => rfl
    | cons c front =>
      rw [encode_cons, List.append_eq_nil_iff] at h
      exact absurd h.1 String.utf8EncodeChar_ne_nil
  · rintro rfl
    rfl

theorem getLast?_encode (hd : d.toNat < 128) :
    (encode text).getLast? = some (byte d) ↔ text.getLast? = some d := by
  rcases List.eq_nil_or_concat text with rfl | ⟨text, c, rfl⟩
  · simp
  · rw [List.concat_eq_append, List.getLast?_concat, List.getLast?_eq_some_iff]
    constructor
    · rintro ⟨bytes, h⟩
      rw [((encode_concat_inj hd).mp h).1]
    · intro h
      exact ⟨_, (encode_concat_inj hd).mpr ⟨Option.some.inj h, rfl⟩⟩

end Texts

end Foundation.Utf8
