import Protocyte.Paths.Agreement

/-! What a segment of a generated path says about the segment it was made from: the escapes can be
undone, and a digest stands out by the bytes that would be read before it. -/
namespace Protocyte.Paths

open Foundation

/-- The escape of a byte, without its mark. -/
def upperHex (byte : UInt8) : List Char := (hexByte byte).map Char.toUpper

/-- The upper case digits of a digest. -/
def upperDigest (sha256 : Sha256) (bytes : List UInt8) : List Char :=
  (hexdigest (sha256.digest bytes)).map Char.toUpper

/-- Text that spells bytes: safe ones stand for themselves, and any can be escaped. -/
inductive Spells : List UInt8 → List Char → Prop
  | nil : Spells [] []
  | safe {byte : UInt8} {bytes : List UInt8} {text : List Char} (h : byte ∈ safeGeneratedPathBytes)
      (rest : Spells bytes text) : Spells (byte :: bytes) (Char.ofNat byte.toNat :: text)
  | escape (byte : UInt8) {bytes : List UInt8} {text : List Char} (rest : Spells bytes text) :
      Spells (byte :: bytes) ('~' :: (upperHex byte ++ text))

/-- The characters of a portable path, besides the separator. -/
def isPathCharacter (c : Char) : Bool := c.isAlphanum || ['.', '_', '-', '~'].contains c

section Bytes

/-- What is known of the spelling of one byte. -/
def ByteSpelling (byte : UInt8) : Prop :=
  (∃ a b, upperHex byte = [a, b]) ∧ (upperHex byte).all Char.isAlphanum = true ∧
    (byteIsSafe byte.toNat = true → isPathCharacter (Char.ofNat byte.toNat) = true ∧
      Char.ofNat byte.toNat ≠ '~' ∧ (Char.ofNat byte.toNat = '.' ↔ byte = Utf8.byte '.'))

theorem upperHex_eq (byte : UInt8) :
    upperHex byte =
      [(hexDigit (byte.toNat / 16)).toUpper, (hexDigit (byte.toNat % 16)).toUpper] := rfl

private theorem byteSpelling_fixed : ∀ n < 256,
    (upperHex (UInt8.ofNat n)).all Char.isAlphanum = true ∧
      (byteIsSafe (UInt8.ofNat n).toNat = true →
        isPathCharacter (Char.ofNat (UInt8.ofNat n).toNat) = true ∧
        Char.ofNat (UInt8.ofNat n).toNat ≠ '~' ∧
        (Char.ofNat (UInt8.ofNat n).toNat = '.' ↔ UInt8.ofNat n = Utf8.byte '.')) := by
  decide +kernel

theorem byteSpelling (byte : UInt8) : ByteSpelling byte := by
  have hfixed := byteSpelling_fixed byte.toNat byte.toNat_lt
  rw [UInt8.ofNat_toNat] at hfixed
  exact ⟨⟨_, _, upperHex_eq byte⟩, hfixed⟩

theorem alphanum_upperHex {byte : UInt8} {c : Char} (h : c ∈ upperHex byte) :
    c.isAlphanum = true := List.all_eq_true.mp (byteSpelling byte).2.1 c h

theorem safe_spelling {byte : UInt8} (h : byte ∈ safeGeneratedPathBytes) :
    isPathCharacter (Char.ofNat byte.toNat) = true ∧ Char.ofNat byte.toNat ≠ '~' ∧
      (Char.ofNat byte.toNat = '.' ↔ byte = Utf8.byte '.') := by
  apply (byteSpelling byte).2.2
  rw [byteIsSafe_eq]
  exact decide_eq_true h

private theorem upperDigit_inj : ∀ m < 16, ∀ n < 16,
    (hexDigit m).toUpper = (hexDigit n).toUpper → m = n := by
  decide +kernel

theorem upperHex_inj {a b : UInt8} (h : upperHex a = upperHex b) : a = b := by
  rw [upperHex_eq, upperHex_eq] at h
  obtain ⟨hhigh, hlow⟩ := List.cons.inj h
  have ha := a.toNat_lt
  have hb := b.toNat_lt
  have hdiv := upperDigit_inj _ (by omega) _ (by omega) hhigh
  have hmod := upperDigit_inj _ (by omega) _ (by omega) (List.cons.inj hlow).1
  apply UInt8.toNat_inj.mp
  omega

theorem ne_tilde_of_alphanum {c : Char} (h : c.isAlphanum = true) : c ≠ '~' := by
  rintro rfl
  exact absurd h (by decide)

end Bytes

section Spelling

variable {bytes others : List UInt8} {text : List Char}

/-- A text spells bytes in at most one way. -/
theorem Spells.unique (h : Spells bytes text) (h' : Spells others text) : bytes = others := by
  induction h generalizing others with
  | nil =>
    cases h'
    rfl
  | @safe byte bytes text hsafe rest ih =>
    generalize htext : Char.ofNat byte.toNat :: text = whole at h'
    cases h' with
    | nil => exact absurd htext (by simp)
    | safe hother rest' =>
      obtain ⟨hchar, rfl⟩ := List.cons.inj htext
      have hbyte := congrArg Utf8.byte hchar
      rw [(char_of_safe hsafe).2, (char_of_safe hother).2] at hbyte
      rw [hbyte, ih rest']
    | escape other rest' => exact absurd (List.cons.inj htext).1 (safe_spelling hsafe).2.1
  | @escape byte bytes text rest ih =>
    generalize htext : '~' :: (upperHex byte ++ text) = whole at h'
    cases h' with
    | nil => exact absurd htext (by simp)
    | safe hother rest' => exact absurd (List.cons.inj htext).1.symm (safe_spelling hother).2.1
    | escape other rest' =>
      have happend := (List.cons.inj htext).2
      obtain ⟨hhex, rfl⟩ := List.append_inj happend rfl
      rw [upperHex_inj hhex, ih rest']

/-- The mark of an escape splits what is spelled. -/
theorem Spells.split {front back : List Char} (h : Spells bytes (front ++ '~' :: back)) :
    ∃ first rest, bytes = first ++ rest ∧ Spells first front ∧ Spells rest ('~' :: back) := by
  generalize htext : front ++ '~' :: back = text at h
  induction h generalizing front with
  | nil => exact absurd htext (by simp)
  | @safe byte bytes text hsafe rest ih =>
    cases front with
    | nil => exact absurd (List.cons.inj htext).1.symm (safe_spelling hsafe).2.1
    | cons c front =>
      obtain ⟨rfl, htail⟩ := List.cons.inj htext
      obtain ⟨first, last, rfl, hfirst, hlast⟩ := ih htail
      exact ⟨byte :: first, last, rfl, .safe hsafe hfirst, hlast⟩
  | @escape byte bytes text rest ih =>
    obtain ⟨a, b, hhex⟩ := (byteSpelling byte).1
    have hdigits : ∀ c ∈ [a, b], c ≠ '~' := by
      rw [← hhex]
      exact fun c hc => ne_tilde_of_alphanum (alphanum_upperHex hc)
    have ha : a ≠ '~' := hdigits a (by simp)
    have hb : b ≠ '~' := hdigits b (by simp)
    rw [hhex] at htext
    rcases front with _ | ⟨c, _ | ⟨d, _ | ⟨e, front⟩⟩⟩
    · obtain ⟨_, hback⟩ := List.cons.inj htext
      refine ⟨[], byte :: bytes, rfl, .nil, ?_⟩
      have hspells := Spells.escape byte rest
      rwa [hhex, ← hback] at hspells
    · exact absurd (List.cons.inj (List.cons.inj htext).2).1.symm ha
    · exact absurd (List.cons.inj (List.cons.inj (List.cons.inj htext).2).2).1.symm hb
    · simp only [List.cons_append, List.nil_append, List.cons.injEq] at htext
      obtain ⟨rfl, rfl, rfl, htail⟩ := htext
      obtain ⟨first, last, rfl, hfirst, hlast⟩ := ih htail
      have hspells := Spells.escape byte hfirst
      rw [hhex] at hspells
      exact ⟨byte :: first, last, rfl, hspells, hlast⟩

/-- Without an escape, a text spells its own bytes. -/
theorem Spells.eq_of_notMem (h : Spells bytes text) (hmark : '~' ∉ text) :
    bytes = text.map Utf8.byte := by
  induction h with
  | nil => rfl
  | safe hsafe rest ih =>
    rw [List.map_cons, (char_of_safe hsafe).2, ih fun hmem => hmark (List.mem_cons_of_mem _ hmem)]
  | escape byte rest ih => exact absurd List.mem_cons_self hmark

theorem Spells.characters (h : Spells bytes text) : ∀ c ∈ text, isPathCharacter c = true := by
  induction h with
  | nil => simp
  | safe hsafe rest ih => exact List.forall_mem_cons.mpr ⟨(safe_spelling hsafe).1, ih⟩
  | escape byte rest ih =>
    intro c hc
    rcases List.mem_cons.mp hc with rfl | hc
    · decide
    · rcases List.mem_append.mp hc with hc | hc
      · unfold isPathCharacter
        rw [alphanum_upperHex hc]
        rfl
      · exact ih c hc

theorem Spells.ne_nil (h : Spells bytes text) (hne : bytes ≠ []) : text ≠ [] := by
  cases h with
  | nil => exact absurd rfl hne
  | safe _ _ => exact List.cons_ne_nil _ _
  | escape _ _ => exact List.cons_ne_nil _ _

end Spelling

section Escaping

variable {sha256 : Sha256} {unicode : Uppercase} {segment : List Char} {maxBytes : ℕ}

/-- The segment with its escapes, however long. -/
def escapedSegment (unicode : Uppercase) (segment : List Char) : List Char :=
  ((Utf8.encode segment).mapIdx (segmentPart
    (windowsReservedPathNames.contains (unicode.upper (segment.takeWhile (· ≠ '.'))))
    (decide (segment.getLast? = some '.')) ((Utf8.encode segment).length - 1))).flatten

theorem normalizeGeneratedSegment_eq (hmax : 65 ≤ maxBytes) :
    normalizeGeneratedSegment sha256 unicode segment maxBytes =
      if (escapedSegment unicode segment).length ≤ maxBytes then escapedSegment unicode segment
      else (escapedSegment unicode segment).take (maxBytes - 65) ++
        '~' :: upperDigest sha256 (Utf8.encode segment) := by
  have hlength : ((hexdigest (sha256.digest (Utf8.encode segment))).map Char.toUpper).length =
      64 := by
    rw [List.length_map, length_hexdigest, sha256.length_digest]
  have hcut : (maxBytes : ℤ) - (64 : ℕ) - 1 = ((maxBytes - 65 : ℕ) : ℤ) := by omega
  have hslice : ∀ text : List Char, sliceTo text ((maxBytes - 65 : ℕ) : ℤ) =
      text.take (maxBytes - 65) := by
    intro text
    unfold sliceTo
    rw [if_pos (Int.natCast_nonneg _), Int.toNat_natCast]
  unfold normalizeGeneratedSegment
  simp only [hlength, hcut, hslice]
  rfl

theorem segmentPart_cases (escapeFirst escapeLastDot : Bool) (last index : ℕ) (byte : UInt8) :
    segmentPart escapeFirst escapeLastDot last index byte = [Char.ofNat byte.toNat] ∧
        isSafe escapeFirst escapeLastDot last index byte = true ∨
      segmentPart escapeFirst escapeLastDot last index byte = '~' :: upperHex byte := by
  unfold segmentPart
  split_ifs with hsafe
  · exact .inl ⟨rfl, hsafe⟩
  · exact .inr rfl

theorem spells_mapIdx {bytes : List UInt8} {part : ℕ → UInt8 → List Char}
    (h : ∀ index byte, part index byte = [Char.ofNat byte.toNat] ∧
      byte ∈ safeGeneratedPathBytes ∨ part index byte = '~' :: upperHex byte) :
    Spells bytes (bytes.mapIdx part).flatten := by
  induction bytes generalizing part with
  | nil => exact .nil
  | cons byte bytes ih =>
    rw [List.mapIdx_cons, List.flatten_cons]
    have hrest := ih fun index => h (index + 1)
    rcases h 0 byte with ⟨hpart, hsafe⟩ | hpart
    · rw [hpart]
      exact .safe hsafe hrest
    · rw [hpart]
      exact .escape byte hrest

theorem spells_escapedSegment (unicode : Uppercase) (segment : List Char) :
    Spells (Utf8.encode segment) (escapedSegment unicode segment) := by
  apply spells_mapIdx
  intro index byte
  rcases segmentPart_cases (windowsReservedPathNames.contains
    (unicode.upper (segment.takeWhile (· ≠ '.')))) (decide (segment.getLast? = some '.'))
    ((Utf8.encode segment).length - 1) index byte with ⟨hpart, hsafe⟩ | hpart
  · exact .inl ⟨hpart, mem_of_isSafe hsafe⟩
  · exact .inr hpart

theorem encode_ne_nil (h : segment ≠ []) : Utf8.encode segment ≠ [] := by
  obtain ⟨c, rest, rfl⟩ := List.exists_cons_of_ne_nil h
  rw [Utf8.encode_cons]
  exact List.append_ne_nil_of_left_ne_nil String.utf8EncodeChar_ne_nil _

theorem alphanum_upperDigest {bytes : List UInt8} {c : Char} (h : c ∈ upperDigest sha256 bytes) :
    c.isAlphanum = true := by
  obtain ⟨d, hd, rfl⟩ := List.mem_map.mp h
  obtain ⟨byte, _, hbyte⟩ := List.mem_flatMap.mp hd
  exact alphanum_upperHex (List.mem_map.mpr ⟨d, hbyte, rfl⟩)

theorem length_upperDigest (bytes : List UInt8) : (upperDigest sha256 bytes).length = 64 := by
  unfold upperDigest
  rw [List.length_map, length_hexdigest, sha256.length_digest]

/-- What precedes the first dot of a spelling without an escape in it. -/
theorem Spells.stem {bytes : List UInt8} {text : List Char} (h : Spells bytes text)
    (hmark : '~' ∉ text.takeWhile (· ≠ '.')) :
    (∀ byte ∈ bytes.takeWhile (· ≠ Utf8.byte '.'), byte ∈ safeGeneratedPathBytes) ∧
      (text.takeWhile (· ≠ '.')).map Utf8.byte = bytes.takeWhile (· ≠ Utf8.byte '.') := by
  induction h with
  | nil => simp
  | @safe byte bytes text hsafe rest ih =>
    have hdot := (safe_spelling hsafe).2.2
    by_cases hbyte : byte = Utf8.byte '.'
    · have hchar := hdot.mpr hbyte
      rw [List.takeWhile_cons_of_neg (p := fun c => decide (c ≠ '.')) (by simp [hchar]),
        List.takeWhile_cons_of_neg (p := fun b => decide (b ≠ Utf8.byte '.')) (by simp [hbyte])]
      simp
    · have hchar : Char.ofNat byte.toNat ≠ '.' := fun heq => hbyte (hdot.mp heq)
      have hpos := List.takeWhile_cons_of_pos (p := fun c => decide (c ≠ '.')) (l := text)
        (decide_eq_true hchar)
      rw [hpos, List.mem_cons, not_or] at hmark
      obtain ⟨hbytes, htext⟩ := ih hmark.2
      rw [hpos, List.takeWhile_cons_of_pos (p := fun b => decide (b ≠ Utf8.byte '.'))
        (decide_eq_true hbyte), List.map_cons, htext, (char_of_safe hsafe).2]
      exact ⟨List.forall_mem_cons.mpr ⟨hsafe, hbytes⟩, rfl⟩
  | escape byte rest ih =>
    rw [List.takeWhile_cons_of_pos (p := fun c => decide (c ≠ '.')) (by decide)] at hmark
    exact absurd List.mem_cons_self hmark

private theorem reserved_shape : ∀ name ∈ windowsReservedPathNames, name ≠ [] ∧ '~' ∉ name := by
  decide +kernel

private theorem upper_tilde : Char.toUpper '~' = '~' := by decide

theorem notMem_of_reserved {text : List Char}
    (h : text.map Char.toUpper ∈ windowsReservedPathNames) : text ≠ [] ∧ '~' ∉ text := by
  obtain ⟨hne, hmark⟩ := reserved_shape _ h
  constructor
  · rintro rfl
    exact hne rfl
  · intro hmem
    exact hmark (List.mem_map.mpr ⟨'~', hmem, upper_tilde⟩)

theorem escapedSegment_of_device (hne : segment ≠ [])
    (h : unicode.upper (segment.takeWhile (· ≠ '.')) ∈ windowsReservedPathNames) :
    ∃ rest, escapedSegment unicode segment = '~' :: rest := by
  obtain ⟨byte, bytes, hbytes⟩ := List.exists_cons_of_ne_nil (encode_ne_nil hne)
  unfold escapedSegment
  rw [hbytes, List.contains_iff_mem.mpr h, List.mapIdx_cons, List.flatten_cons]
  have hpart : segmentPart true (decide (segment.getLast? = some '.'))
      ((byte :: bytes).length - 1) 0 byte = '~' :: upperHex byte := by
    unfold segmentPart isSafe
    simp [upperHex]
  rw [hpart]
  exact ⟨_, rfl⟩

/-- A segment whose stem is a device name has its first byte escaped. -/
theorem device_escapedSegment (unicode : Uppercase) (segment : List Char) :
    ((escapedSegment unicode segment).takeWhile (· ≠ '.')).map Char.toUpper ∉
      windowsReservedPathNames := by
  intro hreserved
  obtain ⟨hne, hmark⟩ := notMem_of_reserved hreserved
  obtain ⟨hsafe, hbytes⟩ := (spells_escapedSegment unicode segment).stem hmark
  rw [Utf8.takeWhile_encode (by decide)] at hsafe hbytes
  have hascii : Utf8.Ascii (segment.takeWhile (· ≠ '.')) := by
    apply Utf8.ascii_of_encode
    intro byte hbyte
    have hchar := char_of_safe (hsafe byte hbyte)
    rw [← hchar.2, Utf8.toNat_byte hchar.1]
    exact hchar.1
  have hescaped : Utf8.Ascii ((escapedSegment unicode segment).takeWhile (· ≠ '.')) := by
    intro c hc
    exact ascii_parts _ _ _ c ((List.takeWhile_prefix _).subset hc)
  have hstem : (escapedSegment unicode segment).takeWhile (· ≠ '.') =
      segment.takeWhile (· ≠ '.') := by
    rw [← Utf8.encode_of_ascii hescaped] at hbytes
    exact (Utf8.encode_eq_iff hescaped).mp hbytes
  rw [hstem, ← upper_of_ascii unicode hascii] at hreserved
  have hsegment : segment ≠ [] := by
    rintro rfl
    rw [hstem] at hne
    exact hne rfl
  -- the first byte is escaped, so the stem starts with the mark
  obtain ⟨rest, hrest⟩ := escapedSegment_of_device hsegment hreserved
  rw [hrest, List.takeWhile_cons_of_pos (p := fun c => decide (c ≠ '.')) (by decide)] at hmark
  exact hmark List.mem_cons_self

theorem getLast?_escape {text : List Char} {byte : UInt8}
    (h : text = '~' :: upperHex byte) (front : List Char) :
    (front ++ text).getLast? ≠ some '.' := by
  obtain ⟨a, b, hhex⟩ := (byteSpelling byte).1
  have hmem : b ∈ upperHex byte := by
    rw [hhex]
    simp
  have hb := alphanum_upperHex hmem
  rw [h, hhex]
  intro hlast
  rw [List.getLast?_append] at hlast
  simp only [List.getLast?_cons_cons, List.getLast?_singleton, Option.some_or,
    Option.some.injEq] at hlast
  rw [hlast] at hb
  exact absurd hb (by decide)

/-- The last dot of a segment is escaped. -/
theorem getLast?_escapedSegment (unicode : Uppercase) (segment : List Char) :
    (escapedSegment unicode segment).getLast? ≠ some '.' := by
  unfold escapedSegment
  rcases List.eq_nil_or_concat (Utf8.encode segment) with hnil | ⟨bytes, byte, hbytes⟩
  · rw [hnil]
    simp
  · rw [List.concat_eq_append] at hbytes
    rw [hbytes, List.mapIdx_concat, List.flatten_append, List.flatten_singleton]
    rcases segmentPart_cases (windowsReservedPathNames.contains
      (unicode.upper (segment.takeWhile (· ≠ '.')))) (decide (segment.getLast? = some '.'))
      ((bytes ++ [byte]).length - 1) bytes.length byte with ⟨hpart, hsafe⟩ | hpart
    · rw [hpart, List.getLast?_concat]
      intro hlast
      have hbyte := (safe_spelling (mem_of_isSafe hsafe)).2.2.mp (Option.some.inj hlast)
      have hdot : segment.getLast? = some '.' := by
        rw [← Utf8.getLast?_encode (by decide), hbytes, List.getLast?_concat, hbyte]
      unfold isSafe at hsafe
      simp [hdot] at hsafe
    · exact getLast?_escape hpart _

/-- A mark after the first part of a text is in the stem or behind it. -/
theorem stem_cut (text back : List Char) (n : ℕ) :
    '~' ∈ (text.take n ++ '~' :: back).takeWhile (· ≠ '.') ∨
      (text.take n ++ '~' :: back).takeWhile (· ≠ '.') = text.takeWhile (· ≠ '.') := by
  rw [List.takeWhile_append]
  split_ifs with hwhole
  · left
    rw [List.takeWhile_cons_of_pos (p := fun c => decide (c ≠ '.')) (by decide)]
    simp
  · right
    rw [← List.take_takeWhile]
    apply List.take_of_length_le
    by_contra hlong
    apply hwhole
    rw [← List.take_takeWhile, List.length_take, List.length_take]
    have hle := (List.takeWhile_prefix (l := text) (· ≠ '.')).length_le
    omega

end Escaping

end Protocyte.Paths
