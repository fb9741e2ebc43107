import Protocyte.Foundation.Computation
import Protocyte.Paths.Generated
import Mathlib.Tactic.Linarith

/-! The CMake functions declare the paths the plugin writes. -/
namespace Protocyte.Paths

open Foundation Foundation.Computation

section Bytes

/-- What the two sides do with one byte. -/
def BytesAgree (byte : UInt8) : Prop :=
  Utf8.Ascii (hexByte byte) ∧ Utf8.Ascii ((hexByte byte).map Char.toUpper) ∧
    hexValue (Utf8.encode (hexByte byte)) = byte.toNat ∧
    toUpper (Utf8.encode (hexByte byte)) = Utf8.encode ((hexByte byte).map Char.toUpper) ∧
    (byteIsSafe byte.toNat = true →
      (Char.ofNat byte.toNat).toNat < 128 ∧ Utf8.byte (Char.ofNat byte.toNat) = byte)

instance : DecidablePred BytesAgree := fun _ =>
  inferInstanceAs (Decidable (_ ∧ _ ∧ _ ∧ _ ∧ _))

theorem bytesAgree (byte : UInt8) : BytesAgree byte := by
  apply Utf8.forall_byte
  decide +kernel

theorem byteIsSafe_eq (byte : UInt8) :
    byteIsSafe byte.toNat = decide (byte ∈ safeGeneratedPathBytes) := by
  have hranges : safeGeneratedPathBytes.map UInt8.toNat =
      List.range' 65 26 ++ List.range' 97 26 ++ List.range' 48 10 ++ [46, 95, 45] := by
    decide +kernel
  have hmem : byte ∈ safeGeneratedPathBytes ↔
      byte.toNat ∈ safeGeneratedPathBytes.map UInt8.toNat := by
    rw [List.mem_map]
    constructor
    · exact fun h => ⟨byte, h, rfl⟩
    · rintro ⟨other, hother, heq⟩
      rwa [← UInt8.toNat_inj.mp heq]
  rw [Bool.eq_iff_iff, decide_eq_true_iff, hmem, hranges]
  simp only [byteIsSafe, List.mem_append, List.mem_range'_1, List.mem_cons, List.not_mem_nil,
    or_false, Bool.or_eq_true, Bool.and_eq_true, decide_eq_true_eq, beq_iff_eq]
  omega

theorem char_of_safe {byte : UInt8} (h : byte ∈ safeGeneratedPathBytes) :
    (Char.ofNat byte.toNat).toNat < 128 ∧ Utf8.byte (Char.ofNat byte.toNat) = byte := by
  apply (bytesAgree byte).2.2.2.2
  rw [byteIsSafe_eq]
  exact decide_eq_true h

theorem length_encode_hexByte (byte : UInt8) : (Utf8.encode (hexByte byte)).length = 2 :=
  Utf8.length_encode_of_ascii (bytesAgree byte).1

/-- Both sides name a file by the same digest of 64 characters. -/
theorem digest_agrees (sha256 : Sha256) (bytes : List UInt8) :
    ∃ digest : List Char, (hexdigest (sha256.digest bytes)).map Char.toUpper = digest ∧
      toUpper (Utf8.encode (hexdigest (sha256.digest bytes))) = Utf8.encode digest ∧
      Utf8.Ascii digest ∧ digest.length = 64 := by
  refine ⟨_, rfl, ?_, ?_, ?_⟩
  · unfold hexdigest toUpper Utf8.encode
    induction sha256.digest bytes with
    | nil => rfl
    | cons byte rest ih =>
      have hbyte := (bytesAgree byte).2.2.2.1
      unfold toUpper Utf8.encode at hbyte
      simp only [List.flatMap_cons, List.flatMap_append, List.map_append] at ih ⊢
      rw [ih, hbyte]
  · intro c hc
    obtain ⟨d, hd, rfl⟩ := List.mem_map.mp hc
    obtain ⟨byte, -, hbyte⟩ := List.mem_flatMap.mp hd
    exact (bytesAgree byte).2.1 _ (List.mem_map.mpr ⟨d, hbyte, rfl⟩)
  · rw [List.length_map, length_hexdigest, sha256.length_digest]

end Bytes

section Devices

variable (unicode : Uppercase)

theorem deviceNames_eq : deviceNames = windowsReservedPathNames.map Utf8.encode := by
  decide +kernel

private theorem all_reserved : ∀ name ∈ windowsReservedPathNames,
    (name.all fun c => decide (c.toNat < 128) && decide (c ∉ ['F', 'I', 'S'])) = true := by
  decide +kernel

theorem ascii_reserved {name : List Char} (h : name ∈ windowsReservedPathNames) {c : Char}
    (hc : c ∈ name) : c.toNat < 128 ∧ c ∉ ['F', 'I', 'S'] := by
  have hchar := List.all_eq_true.mp (all_reserved name h) c hc
  rwa [Bool.and_eq_true, decide_eq_true_eq, decide_eq_true_eq] at hchar

theorem exists_of_asciiUppercase {c : Char} {text : List Char} (h : asciiUppercase c = some text) :
    ∃ d ∈ text, d ∈ ['F', 'I', 'S'] := by
  unfold asciiUppercase at h
  split at h <;> cases h <;> simp

/-- What upper case does to one ASCII character. -/
def UpperAgrees (c : Char) : Prop :=
  c.toUpper.toNat < 128 ∧
    toUpper (String.utf8EncodeChar c) = String.utf8EncodeChar c.toUpper

instance : DecidablePred UpperAgrees := fun _ => inferInstanceAs (Decidable (_ ∧ _))

theorem upperAgrees {c : Char} (hc : c.toNat < 128) : UpperAgrees c := by
  apply Utf8.forall_ascii _ c hc
  decide +kernel

theorem upper_of_ascii {text : List Char} (h : Utf8.Ascii text) :
    unicode.upper text = text.map Char.toUpper := by
  unfold Uppercase.upper
  induction text with
  | nil => rfl
  | cons c text ih =>
    rw [List.flatMap_cons, if_pos (h c List.mem_cons_self),
      ih fun d hd => h d (List.mem_cons_of_mem _ hd)]
    rfl

theorem toUpper_encode {text : List Char} (h : Utf8.Ascii text) :
    toUpper (Utf8.encode text) = Utf8.encode (text.map Char.toUpper) := by
  induction text with
  | nil => rfl
  | cons c text ih =>
    rw [Utf8.encode_cons, List.map_cons, Utf8.encode_cons,
      ← ih fun d hd => h d (List.mem_cons_of_mem _ hd),
      ← (upperAgrees (h c List.mem_cons_self)).2]
    unfold toUpper
    rw [List.map_append]

theorem toUpper_of_foreign {byte : UInt8} {text : List UInt8} (hbyte : byte ∈ text)
    (h : 128 ≤ byte.toNat) : byte ∈ toUpper text := by
  refine List.mem_map.mpr ⟨byte, hbyte, ?_⟩
  rw [if_neg (by omega)]

/-- A name with characters beyond ASCII is no device name on either side. -/
theorem device_agrees (stem : List Char) :
    toUpper (Utf8.encode stem) ∈ deviceNames ↔
      unicode.upper stem ∈ windowsReservedPathNames := by
  rw [deviceNames_eq, List.mem_map]
  by_cases hascii : Utf8.Ascii stem
  · rw [toUpper_encode hascii, upper_of_ascii unicode hascii]
    constructor
    · rintro ⟨name, hname, heq⟩
      have hname' : Utf8.Ascii name := fun c hc => (ascii_reserved hname hc).1
      rwa [← (Utf8.encode_eq_iff hname').mp heq]
    · exact fun h => ⟨_, h, rfl⟩
  · unfold Utf8.Ascii at hascii
    push Not at hascii
    obtain ⟨c, hc, hforeign⟩ := hascii
    constructor
    · rintro ⟨name, hname, heq⟩
      obtain ⟨byte, hbyte⟩ := List.exists_mem_of_ne_nil _ (String.utf8EncodeChar_ne_nil (c := c))
      have hmem : byte ∈ Utf8.encode name := by
        rw [heq]
        exact toUpper_of_foreign (List.mem_flatMap.mpr ⟨c, hc, hbyte⟩)
          (Utf8.le_of_mem_encodeChar hforeign hbyte)
      have hname' : Utf8.Ascii name := fun d hd => (ascii_reserved hname hd).1
      rw [Utf8.encode_of_ascii hname'] at hmem
      obtain ⟨d, hd, rfl⟩ := List.mem_map.mp hmem
      have hle := Utf8.le_of_mem_encodeChar hforeign hbyte
      rw [Utf8.toNat_byte (hname' d hd)] at hle
      exact absurd (hname' d hd) (by omega)
    · intro hname
      have hchars : ∀ c ∈ unicode.upper stem, c.toNat < 128 ∧ c ∉ ['F', 'I', 'S'] :=
        fun c hc => ascii_reserved hname hc
      have hexists : ∃ d ∈ unicode.upper stem, 128 ≤ d.toNat ∨ d ∈ ['F', 'I', 'S'] := by
        unfold Uppercase.upper
        cases htable : asciiUppercase c with
        | some text =>
          obtain ⟨d, hd, hletter⟩ := exists_of_asciiUppercase htable
          refine ⟨d, List.mem_flatMap.mpr ⟨c, hc, ?_⟩, .inr hletter⟩
          rw [if_neg (by omega), htable]
          exact hd
        | none =>
          obtain ⟨d, hd, hlarge⟩ := unicode.foreign c hforeign htable
          refine ⟨d, List.mem_flatMap.mpr ⟨c, hc, ?_⟩, .inl hlarge⟩
          rw [if_neg (by omega), htable]
          exact hd
      obtain ⟨d, hd, hlarge | hletter⟩ := hexists
      · have hlt := (hchars d hd).1
        omega
      · exact absurd hletter (hchars d hd).2

theorem decide_device_agrees (stem : List Char) :
    decide (toUpper (Utf8.encode stem) ∈ deviceNames) =
      windowsReservedPathNames.contains (unicode.upper stem) := by
  rw [Bool.eq_iff_iff, decide_eq_true_iff, List.contains_iff_mem]
  exact device_agrees unicode stem

end Devices

section Segments

variable (sha256 : Sha256) (unicode : Uppercase)

theorem take_drop_hex (segment : List UInt8) (index : ℕ) (h : index < segment.length) :
    ((hex segment).drop (2 * index)).take 2 = Utf8.encode (hexByte segment[index]) := by
  induction segment generalizing index with
  | nil => cases h
  | cons byte segment ih =>
    have hlength := length_encode_hexByte byte
    cases index with
    | zero =>
      show (Utf8.encode (hexByte byte) ++ hex segment).take 2 = _
      rw [← hlength, List.take_left]
      rfl
    | succ index =>
      have hdrop : (hex (byte :: segment)).drop (2 * (index + 1)) =
          (hex segment).drop (2 * index) := by
        show (Utf8.encode (hexByte byte) ++ hex segment).drop (2 * (index + 1)) = _
        rw [show 2 * (index + 1) = (Utf8.encode (hexByte byte)).length + 2 * index by omega,
          List.drop_append]
        simp
      rw [hdrop, ih index (by simpa using h)]
      rfl

theorem length_hex (segment : List UInt8) : (hex segment).length = 2 * segment.length := by
  induction segment with
  | nil => rfl
  | cons byte segment ih =>
    show (Utf8.encode (hexByte byte) ++ hex segment).length = _
    rw [List.length_append, length_encode_hexByte, ih, List.length_cons]
    omega

theorem mem_of_isSafe {escapeFirst escapeLastDot : Bool} {last index : ℕ} {byte : UInt8}
    (h : isSafe escapeFirst escapeLastDot last index byte = true) :
    byte ∈ safeGeneratedPathBytes := by
  unfold isSafe at h
  split_ifs at h
  exact of_decide_eq_true h

theorem ascii_segmentPart (escapeFirst escapeLastDot : Bool) (last index : ℕ) (byte : UInt8) :
    Utf8.Ascii (segmentPart escapeFirst escapeLastDot last index byte) := by
  intro c hc
  unfold segmentPart at hc
  split_ifs at hc with hsafe
  · rw [List.mem_singleton.mp hc]
    exact (char_of_safe (mem_of_isSafe hsafe)).1
  · rcases List.mem_cons.mp hc with rfl | hc
    · decide
    · exact (bytesAgree byte).2.1 c hc

theorem appendByte_eq (segment : List UInt8) (escapeFirst escapeLastDot : Bool)
    (normalized : List UInt8) {index : ℕ} (h : index < segment.length) :
    appendByte segment (hex segment) escapeFirst escapeLastDot (2 * segment.length - 2) normalized
        (2 * index) =
      .ok (normalized ++ Utf8.encode
        (segmentPart escapeFirst escapeLastDot (segment.length - 1) index segment[index])) := by
  have hhex : substring (hex segment) (2 * index) 2 =
      .ok (Utf8.encode (hexByte segment[index])) := by
    have hlength := length_hex segment
    unfold substring
    rw [if_neg (by omega), if_neg (by omega)]
    exact congrArg Except.ok (take_drop_hex segment index h)
  have hchar : substring segment index 1 = .ok [segment[index]] := by
    unfold substring
    rw [if_neg (by omega), if_neg (by omega), List.drop_eq_getElem_cons h]
    rfl
  have hagree := bytesAgree segment[index]
  have hlast : 2 * index = 2 * segment.length - 2 ↔ index = segment.length - 1 := by omega
  have hindex : 2 * index / 2 = index := by omega
  unfold appendByte
  rw [except_bind_of_ok hhex]
  simp only [hagree.2.2.1, byteIsSafe_eq, hagree.2.2.2.1, hlast, hindex]
  show (if isSafe escapeFirst escapeLastDot (segment.length - 1) index segment[index] = true then
    _ else _) = _
  unfold segmentPart
  split_ifs with hsafe
  · have hbyte := char_of_safe (mem_of_isSafe hsafe)
    have hencode : Utf8.encode [Char.ofNat segment[index].toNat] = [segment[index]] := by
      rw [Utf8.encode_cons, Utf8.encodeChar_of_ascii hbyte.1, hbyte.2]
      rfl
    rw [except_bind_of_ok hchar, hencode]
    rfl
  · rfl

theorem normalizeBytes_eq (segment : List UInt8) (escapeFirst escapeLastDot : Bool) :
    normalizeBytes segment escapeFirst escapeLastDot =
      .ok (Utf8.encode (segment.mapIdx
        (segmentPart escapeFirst escapeLastDot (segment.length - 1))).flatten) := by
  rcases eq_or_ne segment [] with rfl | hne
  · rfl
  have hpos : 0 < segment.length := List.length_pos_iff.mpr hne
  have hget : ∀ index (h : index < segment.length), segment.getD index 0 = segment[index] := by
    intro index h
    simp [h]
  have hparts : segment.mapIdx (segmentPart escapeFirst escapeLastDot (segment.length - 1)) =
      (List.range segment.length).map fun index =>
        segmentPart escapeFirst escapeLastDot (segment.length - 1) index (segment.getD index 0) := by
    apply List.ext_getElem
    · simp
    · intro index hleft hright
      have hindex : index < segment.length := by simpa using hleft
      rw [List.getElem_mapIdx, List.getElem_map, List.getElem_range, hget index hindex]
  unfold normalizeBytes
  simp only [length_hex]
  rw [if_pos (by omega), show (2 * segment.length - 2) / 2 + 1 = segment.length by omega,
    List.foldlM_map]
  rw [foldlM_append (g := fun index => Utf8.encode (segmentPart escapeFirst escapeLastDot
    (segment.length - 1) index (segment.getD index 0)))]
  · rw [hparts, Utf8.encode_flatten, List.flatMap_map, List.nil_append]
  · intro index hindex normalized
    have hlt := List.mem_range.mp hindex
    rw [hget index hlt]
    exact appendByte_eq segment escapeFirst escapeLastDot normalized hlt

theorem substring_fromStart (text : List UInt8) (length : ℕ) :
    substring text 0 length = .ok (text.take length) := by
  unfold substring
  rw [if_neg (by omega), if_neg (by omega)]
  rfl

theorem ascii_parts (segment : List UInt8) (escapeFirst escapeLastDot : Bool) :
    Utf8.Ascii (segment.mapIdx
      (segmentPart escapeFirst escapeLastDot (segment.length - 1))).flatten := by
  intro c hc
  obtain ⟨part, hpart, hc⟩ := List.mem_flatten.mp hc
  obtain ⟨index, hindex, rfl⟩ := List.mem_mapIdx.mp hpart
  exact ascii_segmentPart _ _ _ _ _ c hc

theorem segment_agrees (segment : List Char) {maxBytes : ℕ} (hmax : 65 ≤ maxBytes) :
    protocyteNormalizeGeneratedSegment sha256 (Utf8.encode segment) maxBytes =
        .ok (Utf8.encode (normalizeGeneratedSegment sha256 unicode segment maxBytes)) ∧
      Utf8.Ascii (normalizeGeneratedSegment sha256 unicode segment maxBytes) := by
  have hdot : ('.' : Char).toNat < 128 := by decide
  obtain ⟨digest, hplugin, hcmake, hdigest, hlength⟩ := digest_agrees sha256 (Utf8.encode segment)
  unfold protocyteNormalizeGeneratedSegment normalizeGeneratedSegment
  simp only [Utf8.takeWhile_encode hdot, decide_device_agrees unicode, Utf8.getLast?_encode hdot, hplugin,
    hcmake, Utf8.length_encode_of_ascii hdigest, hlength]
  rw [except_bind_of_ok (normalizeBytes_eq _ _ _)]
  have hascii := ascii_parts (Utf8.encode segment)
    (windowsReservedPathNames.contains (unicode.upper (segment.takeWhile (· ≠ '.'))))
    (decide (segment.getLast? = some '.'))
  generalize ((Utf8.encode segment).mapIdx _).flatten = normalized at hascii ⊢
  rw [Utf8.length_encode_of_ascii hascii]
  rcases Nat.lt_or_ge maxBytes normalized.length with hlong | hfits
  · obtain ⟨stop, hstop⟩ := Int.eq_ofNat_of_zero_le (show 0 ≤ (maxBytes : ℤ) - 64 - 1 by omega)
    rw [if_pos hlong, if_neg (by omega)]
    have hcut : ((maxBytes : ℤ) - (64 : ℕ) - 1) = stop := hstop
    rw [hcut, except_bind_of_ok (substring_fromStart _ stop), sliceTo, if_pos (by omega)]
    refine ⟨?_, ?_⟩
    · rw [Utf8.encode_append, Utf8.encode_cons, Utf8.encodeChar_of_ascii (by decide),
        Int.toNat_natCast, Utf8.encode_take_of_ascii hascii]
      rfl
    · intro c hc
      rcases List.mem_append.mp hc with hc | hc
      · exact hascii c (List.mem_of_mem_take hc)
      · rcases List.mem_cons.mp hc with rfl | hc
        · decide
        · exact hdigest c hc
  · rw [if_neg (by omega), if_pos hfits]
    exact ⟨rfl, hascii⟩

end Segments

section Names

variable (sha256 : Sha256) (unicode : Uppercase)

theorem removeSuffix_append {α : Type} [DecidableEq α] (front suffix : List α) :
    removeSuffix suffix (front ++ suffix) = front := by
  unfold removeSuffix
  rw [if_pos (by simp), List.length_append, Nat.add_sub_cancel, List.take_left]

theorem removeSuffix_of_not {α : Type} [DecidableEq α] {suffix text : List α}
    (h : ¬suffix <:+ text) : removeSuffix suffix text = text := by
  unfold removeSuffix
  rw [if_neg (by simpa using h)]

theorem removeSuffix_encode {suffix : List Char} (hsuffix : Utf8.Ascii suffix) (text : List Char) :
    removeSuffix (Utf8.encode suffix) (Utf8.encode text) =
      Utf8.encode (removeSuffix suffix text) := by
  by_cases h : suffix <:+ text
  · obtain ⟨front, rfl⟩ := h
    rw [Utf8.encode_append, removeSuffix_append, removeSuffix_append]
  · have hbytes : ¬Utf8.encode suffix <:+ Utf8.encode text :=
      fun hbytes => h ((Utf8.encode_suffix_iff hsuffix).mp hbytes)
    rw [removeSuffix_of_not h, removeSuffix_of_not hbytes]

/-- The normalized segments, the last one with room for the suffix of the file. -/
def joinSegments : List (List Char) → List Char
  | [] => []
  | [segment] => normalizeGeneratedSegment sha256 unicode segment maxGeneratedFileStemBytes
  | segment :: rest =>
    normalizeGeneratedSegment sha256 unicode segment maxGeneratedPathComponentBytes ++
      '/' :: joinSegments rest

theorem joinSegments_cons (segment : List Char) {rest : List (List Char)} (hne : rest ≠ []) :
    joinSegments sha256 unicode (segment :: rest) =
      normalizeGeneratedSegment sha256 unicode segment maxGeneratedPathComponentBytes ++
        '/' :: joinSegments sha256 unicode rest := by
  cases rest with
  | nil => exact absurd rfl hne
  | cons next rest => rfl

theorem intercalate_eq_joinSegments {segments : List (List Char)} (hne : segments ≠ []) :
    ['/'].intercalate (segments.mapIdx fun index segment =>
      normalizeGeneratedSegment sha256 unicode segment
        (if index = segments.length - 1 then maxGeneratedFileStemBytes
          else maxGeneratedPathComponentBytes)) = joinSegments sha256 unicode segments := by
  induction segments with
  | nil => exact absurd rfl hne
  | cons segment rest ih =>
    cases rest with
    | nil => simp [joinSegments]
    | cons next rest =>
      have hindex : ∀ index, index + 1 = (segment :: next :: rest).length - 1 ↔
          index = (next :: rest).length - 1 := by
        intro index
        simp only [List.length_cons]
        omega
      have hfirst : 0 ≠ (segment :: next :: rest).length - 1 := by
        simp only [List.length_cons]
        omega
      rw [joinSegments_cons sha256 unicode segment (by simp), ← ih (by simp), List.mapIdx_cons,
        List.intercalate_cons_of_ne_nil (by simp), if_neg hfirst]
      simp only [hindex, List.append_assoc, List.singleton_append]

theorem ascii_joinSegments (segments : List (List Char)) :
    Utf8.Ascii (joinSegments sha256 unicode segments) := by
  induction segments with
  | nil => exact fun c hc => absurd hc List.not_mem_nil
  | cons segment rest ih =>
    cases rest with
    | nil => exact (segment_agrees sha256 unicode segment (by decide)).2
    | cons next rest =>
      intro c hc
      rcases List.mem_append.mp hc with hc | hc
      · exact (segment_agrees sha256 unicode segment (by decide)).2 c hc
      · rcases List.mem_cons.mp hc with rfl | hc
        · decide
        · exact ih c hc

theorem idxOf?_append_cons {α : Type} [DecidableEq α] {a : α} {front : List α} (rest : List α)
    (h : a ∉ front) : (front ++ a :: rest).idxOf? a = some front.length := by
  induction front with
  | nil => simp [List.idxOf?_cons]
  | cons b front ih =>
    have hb : (b == a) = false := by
      rw [beq_eq_false_iff_ne]
      rintro rfl
      exact h List.mem_cons_self
    rw [List.cons_append, List.idxOf?_cons, hb, ih fun ha => h (List.mem_cons_of_mem _ ha)]
    rfl

theorem normalizeSegments_last {remaining : List UInt8} (normalized : List UInt8)
    (h : Utf8.byte '/' ∉ remaining) {segment : List UInt8}
    (hsegment : protocyteNormalizeGeneratedSegment sha256 remaining (255 - 14) = .ok segment) :
    normalizeSegments sha256 remaining normalized = .ok (normalized ++ segment) := by
  rw [normalizeSegments]
  split
  · rw [except_bind_of_ok hsegment]
    rfl
  · rename_i separator hfind
    rw [List.idxOf?_eq_none_iff.mpr h] at hfind
    cases hfind

theorem normalizeSegments_separator {front rest : List UInt8} (normalized : List UInt8)
    (h : Utf8.byte '/' ∉ front) {segment : List UInt8}
    (hsegment : protocyteNormalizeGeneratedSegment sha256 front 255 = .ok segment) :
    normalizeSegments sha256 (front ++ Utf8.byte '/' :: rest) normalized =
      normalizeSegments sha256 rest (normalized ++ segment ++ [Utf8.byte '/']) := by
  rw [normalizeSegments]
  split
  · rename_i hfind
    rw [idxOf?_append_cons rest h] at hfind
    cases hfind
  · rename_i separator hfind
    rw [idxOf?_append_cons rest h] at hfind
    cases hfind
    have hsubstring : substring (front ++ Utf8.byte '/' :: rest) 0 front.length = .ok front := by
      rw [substring_fromStart, List.take_left]
    have hrest : (front ++ Utf8.byte '/' :: rest).drop (front.length + 1) = rest := by
      rw [← List.drop_drop, List.drop_left]
      rfl
    rw [except_bind_of_ok hsubstring, except_bind_of_ok hsegment, hrest]

/-- The loop over the segments, from the text it has normalized already. -/
theorem normalizeSegments_encode (path : List Char) (normalized : List UInt8) :
    normalizeSegments sha256 (Utf8.encode path) normalized =
      .ok (normalized ++ Utf8.encode (joinSegments sha256 unicode (path.splitOn '/'))) := by
  have hslash : ('/' : Char).toNat < 128 := by decide
  induction hn : path.length using Nat.strongRecOn generalizing path normalized with
  | ind n ih =>
    by_cases hmem : '/' ∈ path
    · obtain ⟨front, rest, rfl, hfront⟩ := List.eq_append_cons_of_mem hmem
      have hbyte : Utf8.byte '/' ∉ Utf8.encode front := fun h =>
        hfront ((Utf8.mem_encode_iff hslash).mp h)
      have hencode : Utf8.encode (front ++ '/' :: rest) =
          Utf8.encode front ++ Utf8.byte '/' :: Utf8.encode rest := by
        rw [Utf8.encode_append, Utf8.encode_cons, Utf8.encodeChar_of_ascii hslash]
        rfl
      have hlt : rest.length < n := by
        rw [List.length_append, List.length_cons] at hn
        omega
      have hsegment := (segment_agrees sha256 unicode front (show 65 ≤ 255 by decide)).1
      rw [hencode, normalizeSegments_separator sha256 normalized hbyte hsegment,
        ih _ hlt rest _ rfl, List.splitOn_append_cons_self_of_not_mem hfront]
      rw [joinSegments_cons sha256 unicode front (List.splitOn_ne_nil '/' rest),
        Utf8.encode_append, Utf8.encode_cons, Utf8.encodeChar_of_ascii hslash]
      simp only [List.append_assoc]
      rfl
    · have hbyte : Utf8.byte '/' ∉ Utf8.encode path := fun h =>
        hmem ((Utf8.mem_encode_iff hslash).mp h)
      have hsegment := (segment_agrees sha256 unicode path (show 65 ≤ 255 - 14 by decide)).1
      rw [normalizeSegments_last sha256 normalized hbyte hsegment,
        List.splitOn_eq_singleton hmem]
      rfl

theorem path_agrees (path : List Char) :
    normalizeSegments sha256 (Utf8.encode path) [] =
        .ok (Utf8.encode (normalizeGeneratedPath sha256 unicode path)) ∧
      Utf8.Ascii (normalizeGeneratedPath sha256 unicode path) := by
  have hjoin := intercalate_eq_joinSegments sha256 unicode (List.splitOn_ne_nil '/' path)
  unfold normalizeGeneratedPath
  rw [hjoin]
  exact ⟨normalizeSegments_encode sha256 unicode path [], ascii_joinSegments sha256 unicode _⟩

/-- The part of a text before its last separator, on both sides. -/
theorem directory_agrees {normalized : List Char} (hascii : Utf8.Ascii normalized)
    (length : ℕ) :
    (directory (normalized ++ ".protocyte".toList) = [] ∨
        (directory (normalized ++ ".protocyte".toList)).length ≤ length) ↔
      (match findReverse (Utf8.encode normalized) (Utf8.byte '/') with
        | none => false
        | some separator =>
          decide (length < ((Utf8.encode normalized).take separator).length)) = false := by
  have hslash : ('/' : Char).toNat < 128 := by decide
  unfold directory findReverse
  rw [List.reverse_append]
  have hsuffix : ∀ c ∈ ".protocyte".toList.reverse, decide (c ≠ '/') = true :=
    List.all_eq_true.mp (by decide)
  rw [List.dropWhile_append_of_pos hsuffix, Utf8.encode_of_ascii hascii, ← List.map_reverse]
  by_cases hmem : '/' ∈ normalized.reverse
  · obtain ⟨back, front, hreverse, hback⟩ := List.eq_append_cons_of_mem hmem
    have hback' : ∀ c ∈ back, decide (c ≠ '/') = true := by
      intro c hc
      have hne : c ≠ '/' := by
        rintro rfl
        exact hback hc
      exact decide_eq_true hne
    have hbytes : Utf8.byte '/' ∉ back.map Utf8.byte := by
      intro h
      obtain ⟨c, hc, heq⟩ := List.mem_map.mp h
      have hc' : c ∈ normalized := List.mem_reverse.mp (by simp [hreverse, hc])
      rw [(Utf8.byte_inj (hascii c hc') hslash).mp heq] at hc
      exact hback hc
    have hlength : normalized.length = back.length + (front.length + 1) := by
      rw [← List.length_reverse, hreverse, List.length_append, List.length_cons]
    rw [hreverse, List.dropWhile_append_of_pos hback', List.map_append, List.map_cons,
      idxOf?_append_cons _ hbytes]
    simp only [List.length_map, Option.map_some, List.length_take, hlength]
    rw [List.dropWhile_cons_of_neg (by simp), List.tail_cons, List.length_reverse,
      decide_eq_false_iff_not]
    constructor
    · rintro (hnil | hle)
      · rw [List.reverse_eq_nil_iff] at hnil
        rw [hnil, List.length_nil]
        omega
      · omega
    · exact fun h => .inr (by omega)
  · have hbytes : Utf8.byte '/' ∉ normalized.reverse.map Utf8.byte := by
      intro h
      obtain ⟨c, hc, heq⟩ := List.mem_map.mp h
      rw [(Utf8.byte_inj (hascii c (List.mem_reverse.mp hc)) hslash).mp heq] at hc
      exact hmem hc
    have hnone : normalized.reverse.dropWhile (· ≠ '/') = [] := by
      apply List.dropWhile_eq_nil_iff.mpr
      intro c hc
      have hne : c ≠ '/' := by
        rintro rfl
        exact hmem hc
      exact decide_eq_true hne
    rw [hnone, List.idxOf?_eq_none_iff.mpr hbytes]
    simp

theorem map_separator {text : List Char} (hascii : Utf8.Ascii text) :
    (Utf8.encode text).map (fun byte => if byte = Utf8.byte '/' then Utf8.byte '_' else byte) =
      Utf8.encode (text.map fun c => if c = '/' then '_' else c) ∧
      Utf8.Ascii (text.map fun c => if c = '/' then '_' else c) := by
  have hascii' : Utf8.Ascii (text.map fun c => if c = '/' then '_' else c) := by
    intro c hc
    obtain ⟨d, hd, rfl⟩ := List.mem_map.mp hc
    split_ifs
    · decide
    · exact hascii d hd
  refine ⟨?_, hascii'⟩
  rw [Utf8.encode_of_ascii hascii, Utf8.encode_of_ascii hascii', List.map_map, List.map_map]
  apply List.map_congr_left
  intro c hc
  show (if Utf8.byte c = Utf8.byte '/' then _ else _) = Utf8.byte (if c = '/' then '_' else c)
  simp only [Utf8.byte_inj (hascii c hc) (show ('/' : Char).toNat < 128 by decide)]
  split_ifs <;> rfl

/-- Both sides keep the path under the budgets in force, or shorten it to the digest. -/
theorem budgeted_agrees {normalized digest : List Char} (hascii : Utf8.Ascii normalized)
    {path : ℕ} (hpath : path ≤ 79) (directoryBudget : ℕ)
    {small : Prop} [Decidable small] (hsmall : small ↔ path < 79) (e : ValueError)
    (e' : CMakeError) :
    (if decide ((normalized ++ ".protocyte".toList ++ ".hpp".toList).length ≤ path) &&
          decide (directory (normalized ++ ".protocyte".toList) = [] ∨
            (directory (normalized ++ ".protocyte".toList)).length ≤ directoryBudget) then
        Except.ok (normalized ++ ".protocyte".toList)
      else if small then Except.error e
      else Except.ok (sliceTo (normalized.map fun c => if c = '/' then '_' else c)
          ((path : ℤ) - (14 : ℕ) - (1 : ℕ) - (64 : ℕ)) ++ '~' :: digest ++
            ".protocyte".toList)).toOption.map Utf8.encode =
      (if decide (path < (Utf8.encode normalized ++ Utf8.encode ".protocyte".toList ++
            Utf8.encode ".hpp".toList).length) ||
          (match findReverse (Utf8.encode normalized) (Utf8.byte '/') with
            | none => false
            | some separator =>
              decide (directoryBudget < ((Utf8.encode normalized).take separator).length)) then
        if (path : ℤ) - (14 : ℕ) - (64 : ℕ) - 1 < 0 then Except.error e'
        else (do
          let readablePrefix ← substring
            ((Utf8.encode normalized).map fun byte =>
              if byte = Utf8.byte '/' then Utf8.byte '_' else byte) 0
            ((path : ℤ) - (14 : ℕ) - (64 : ℕ) - 1)
          pure (readablePrefix ++ Utf8.byte '~' :: Utf8.encode digest ++
            Utf8.encode ".protocyte".toList))
      else pure (Utf8.encode normalized ++ Utf8.encode ".protocyte".toList)).toOption := by
  have hlength : (Utf8.encode normalized ++ Utf8.encode ".protocyte".toList ++
      Utf8.encode ".hpp".toList).length =
        (normalized ++ ".protocyte".toList ++ ".hpp".toList).length := by
    rw [List.length_append, List.length_append, List.length_append, List.length_append,
      Utf8.length_encode_of_ascii hascii, Utf8.length_encode_of_ascii (by decide),
      Utf8.length_encode_of_ascii (by decide)]
  have hdirectory := directory_agrees hascii directoryBudget
  obtain ⟨hreadable, hreadableAscii⟩ := map_separator hascii
  rw [hlength]
  by_cases hfits : (normalized ++ ".protocyte".toList ++ ".hpp".toList).length ≤ path ∧
      (directory (normalized ++ ".protocyte".toList) = [] ∨
        (directory (normalized ++ ".protocyte".toList)).length ≤ directoryBudget)
  · have hexceeds := hdirectory.mp hfits.2
    have hboth := Bool.and_eq_true_iff.mpr ⟨decide_eq_true hfits.1, decide_eq_true hfits.2⟩
    rw [if_pos hboth, hexceeds, Bool.or_false,
      if_neg (fun h => not_lt.mpr hfits.1 (of_decide_eq_true h))]
    show some (Utf8.encode _) = some _
    rw [Utf8.encode_append]
  · have hexceeds : (decide (path < (normalized ++ ".protocyte".toList ++ ".hpp".toList).length) ||
        (match findReverse (Utf8.encode normalized) (Utf8.byte '/') with
          | none => false
          | some separator =>
            decide (directoryBudget < ((Utf8.encode normalized).take separator).length))) =
          true := by
      rw [Bool.or_eq_true, decide_eq_true_iff]
      by_cases hlong : path < (normalized ++ ".protocyte".toList ++ ".hpp".toList).length
      · exact .inl hlong
      · right
        rw [← Bool.not_eq_false, ← hdirectory]
        exact fun h => hfits ⟨not_lt.mp hlong, h⟩
    have hnot : ¬(decide ((normalized ++ ".protocyte".toList ++ ".hpp".toList).length ≤ path) &&
        decide (directory (normalized ++ ".protocyte".toList) = [] ∨
          (directory (normalized ++ ".protocyte".toList)).length ≤ directoryBudget)) = true := by
      intro h
      obtain ⟨hshort, hdepth⟩ := Bool.and_eq_true_iff.mp h
      exact hfits ⟨of_decide_eq_true hshort, of_decide_eq_true hdepth⟩
    rw [if_neg hnot, if_pos hexceeds]
    by_cases hless : path < 79
    · rw [if_pos (hsmall.mpr hless), if_pos (by omega)]
      rfl
    · have heq : path = 79 := by omega
      subst heq
      rw [if_neg (fun h => hless (hsmall.mp h)), if_neg (by norm_num)]
      have hcut : ((79 : ℕ) : ℤ) - (14 : ℕ) - (64 : ℕ) - 1 = ((0 : ℕ) : ℤ) := by norm_num
      have hcut' : ((79 : ℕ) : ℤ) - (14 : ℕ) - (1 : ℕ) - (64 : ℕ) = ((0 : ℕ) : ℤ) := by norm_num
      rw [hcut, hcut', hreadable, except_bind_of_ok (substring_fromStart _ 0)]
      show some (Utf8.encode _) = some _
      rw [Utf8.encode_append, Utf8.encode_append, Utf8.encode_cons,
        Utf8.encodeChar_of_ascii (by decide)]
      rfl

/-- The CMake functions and the plugin fail together, or name the same file. -/
theorem generatedFileBase_agrees (protoName : List Char)
    (maxOutputPathBytes maxOutputDirectoryBytes : Option ℕ) :
    (generatedFileBase sha256 unicode protoName maxOutputPathBytes
        maxOutputDirectoryBytes).toOption.map Utf8.encode =
      (protocyteNormalizeGeneratedPath sha256 (Utf8.encode protoName) maxOutputPathBytes
        maxOutputDirectoryBytes).toOption := by
  obtain ⟨hpath, hascii⟩ := path_agrees sha256 unicode (removeSuffix ".proto".toList protoName)
  obtain ⟨digest, hplugin, hcmake, hdigest, hlength⟩ :=
    digest_agrees sha256 (Utf8.encode protoName)
  have hmin : ∀ a b : ℕ, (if a < b then a else b) = min a b := by
    intro a b
    split_ifs <;> omega
  unfold generatedFileBase protocyteNormalizeGeneratedPath
  rw [removeSuffix_encode (by decide), except_bind_of_ok hpath]
  simp only [hplugin, hcmake, Utf8.length_encode_of_ascii hdigest, hlength, hmin]
  generalize normalizeGeneratedPath sha256 unicode (removeSuffix ".proto".toList protoName) =
    normalized at hascii ⊢
  cases maxOutputPathBytes with
  | none =>
    cases maxOutputDirectoryBytes with
    | none =>
      show some (Utf8.encode _) = some _
      rw [Utf8.encode_append]
    | some directoryBytes =>
      exact budgeted_agrees hascii le_rfl _ (by simp) _ _
  | some pathBytes =>
    have hsmall : (∃ bytes ∈ some pathBytes, bytes < minHashedGeneratedFilePathBytes) ↔
        min 79 pathBytes < 79 := by
      have hbytes : minHashedGeneratedFilePathBytes = 79 := rfl
      rw [hbytes]
      simp
    cases maxOutputDirectoryBytes with
    | none => exact budgeted_agrees hascii (min_le_left _ _) _ hsmall _ _
    | some directoryBytes => exact budgeted_agrees hascii (min_le_left _ _) _ hsmall _ _

end Names

end Protocyte.Paths
