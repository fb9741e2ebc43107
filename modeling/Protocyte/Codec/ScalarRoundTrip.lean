import Protocyte.Codec.Scalar

/-! Varints and scalars through a reader and a writer: which bytes are read as a varint, and that
what is written is the shortest of them and is read back. -/
namespace Protocyte
open Foundation Foundation.Computation Foundation.Base128
open Foundation.Wire (Varint)

/-- Bytes that continue, at most nine of them, and a last one that does not. A tenth byte has one
bit only. -/
structure VarintBytes (front : List UInt8) (last : UInt8) : Prop where
  continues : ∀ b ∈ front, 128 ≤ b.toNat
  ends : last.toNat < 128
  length : front.length + 1 ≤ 10
  tenth : front.length + 1 = 10 → last.toNat ≤ 1

section Varints

variable {front bs xs : List UInt8} {last : UInt8} {v : ℕ}

theorem varint_iff : Varint (front ++ [last]) v ↔
    VarintBytes front last ∧ v = groupSum (front ++ [last]) := by
  have hlength : (front ++ [last]).length = front.length + 1 := by simp
  unfold Varint
  rw [hlength]
  constructor
  · intro ⟨hnumeral, hle, hlt⟩
    obtain ⟨front', last', heq, hcontinues, hends, hv⟩ := numeral_iff.mp hnumeral
    obtain ⟨rfl, rfl⟩ := List.append_singleton_inj.mp heq
    refine ⟨⟨hcontinues, hends, hle, ?_⟩, hv⟩
    intro hten
    have hlow := hnumeral.bounds.1
    have hnine : front.length = 9 := by omega
    rw [hnine] at hlow
    omega
  · intro ⟨hbytes, hv⟩
    have hnumeral : Numeral (front ++ [last]) v :=
      numeral_iff.mpr ⟨front, last, rfl, hbytes.continues, hbytes.ends, hv⟩
    refine ⟨hnumeral, hbytes.length, ?_⟩
    have hhigh := hnumeral.bounds.2
    rcases Nat.lt_or_ge front.length 9 with hshort | hlong
    · have hlt := hnumeral.lt_pow
      rw [hlength] at hlt
      exact Nat.lt_trans hlt (Nat.lt_of_le_of_lt
        (Nat.pow_le_pow_right (by decide) (by omega : front.length + 1 ≤ 9)) (by decide))
    · have hnine : front.length = 9 := by
        have hle := hbytes.length
        omega
      have hone := hbytes.tenth (by omega)
      rw [hnine] at hhigh
      omega

theorem readVarint_ok_iff {r r' : Reader} :
    readVarint r = .ok v r' ↔ ∃ front last xs, r.rest = front ++ last :: xs ∧
      VarintBytes front last ∧ v = groupSum (front ++ [last]) ∧
      r' = r.advance (front.length + 1) := by
  rw [readVarint_eq_ok]
  constructor
  · rintro ⟨bs, xs, hrest, hvarint, rfl⟩
    obtain ⟨front, last, rfl, _⟩ := numeral_iff.mp hvarint.1
    obtain ⟨hbytes, hv⟩ := varint_iff.mp hvarint
    exact ⟨front, last, xs, by simpa using hrest, hbytes, hv, by simp⟩
  · rintro ⟨front, last, xs, hrest, hbytes, hv, rfl⟩
    exact ⟨front ++ [last], xs, by simpa using hrest, varint_iff.mpr ⟨hbytes, hv⟩, by simp⟩

theorem encode_le_of_readVarint {r r' : Reader} (h : readVarint r = .ok v r') :
    (encode v).length ≤ r.rest.length - r'.rest.length := by
  obtain ⟨bs, xs, hrest, hvarint, rfl⟩ := readVarint_eq_ok.mp h
  have hle := hvarint.encode_length_le
  rw [Reader.rest_advance, hrest, List.length_drop, List.length_append]
  omega

end Varints

/-- A varint is read from the bytes that end one, as the sum of their groups. What is written for
a 64-bit value is the shortest such encoding of it, of the computed size, and every scalar is read
back from what its own function writes. -/
theorem scalar_round_trip :
    (∀ (r r' : Reader) (v : ℕ), readVarint r = .ok v r' ↔ ∃ front last xs,
      r.rest = front ++ last :: xs ∧ VarintBytes front last ∧ v = groupSum (front ++ [last]) ∧
      r' = r.advance (front.length + 1)) ∧
    (∀ v : BitVec 64, ∃ bytes : List UInt8, bytes.length = varintSize v.toNat ∧
      (∀ (σ : Type) [Writer σ] [LawfulWriter σ],
        Writes (writeVarint v.toNat : EStateM Error σ Unit) bytes) ∧
      (∀ (r : Reader) (xs : List UInt8), r.rest = bytes ++ xs →
        readVarint r = .ok v.toNat (r.advance bytes.length)) ∧
      ∀ r r' : Reader, readVarint r = .ok v.toNat r' →
        bytes.length ≤ r.rest.length - r'.rest.length) ∧
    ∀ (t : ScalarType) (value : t.Value), ∃ bytes : List UInt8,
      (∀ (σ : Type) [Writer σ] [LawfulWriter σ],
        Writes (writeScalar t value : EStateM Error σ Unit) bytes) ∧
      ∀ (r : Reader) (xs : List UInt8), r.rest = bytes ++ xs →
        readScalar t r = .ok value (r.advance bytes.length) := by
  refine ⟨fun r r' v => readVarint_ok_iff, ?_, ?_⟩
  · intro v
    refine ⟨encode v.toNat, (varintSize_eq v.isLt).symm, ?_, ?_, ?_⟩
    · intro σ _ _
      exact writes_varint v.isLt
    · intro r xs hrest
      exact readVarint_of_varint (Foundation.Wire.varint_encode v.isLt) hrest
    · intro r r' h
      exact encode_le_of_readVarint h
  · intro t value
    refine ⟨scalarBytes t value, ?_, ?_⟩
    · intro σ _ _
      exact writes_scalar t value
    · intro r xs hrest
      exact readScalar_scalarBytes t value hrest

theorem scalar_round_trip_300 :
    readVarint (.slice { data := [0xAC, 0x02] }) =
      .ok 300 ((Reader.slice { data := [0xAC, 0x02] }).advance 2) :=
  (scalar_round_trip.1 _ _ _).mpr
    ⟨[0xAC], 0x02, [], rfl,
      ⟨List.forall_mem_singleton.mpr (by decide), by decide, by decide, by decide⟩, by decide, rfl⟩

end Protocyte
