import Protocyte.Foundation.Utf8
import Mathlib.Data.Nat.Notation
import Mathlib.Tactic.Common

/-! Digests of byte strings and the hexadecimal text they are shown in. -/
namespace Foundation

/-- The digest function, of which only the length of its results is known. -/
structure Sha256 where
  digest : List UInt8 → List UInt8
  length_digest : ∀ bytes, (digest bytes).length = 32

def hexDigit (n : ℕ) : Char := Char.ofNat (if n < 10 then 48 + n else 87 + n)

/-- The two lower case hexadecimal digits of a byte. -/
def hexByte (byte : UInt8) : List Char := [hexDigit (byte.toNat / 16), hexDigit (byte.toNat % 16)]

def hexdigest (bytes : List UInt8) : List Char := bytes.flatMap hexByte

theorem isAlphanum_hexByte (byte : UInt8) : (hexByte byte).all Char.isAlphanum = true := by
  apply Utf8.forall_byte (P := fun b => (hexByte b).all Char.isAlphanum = true)
  decide +kernel

theorem isAlphanum_of_mem_hexdigest {bytes : List UInt8} {c : Char} (h : c ∈ hexdigest bytes) :
    c.isAlphanum = true := by
  obtain ⟨byte, _, hc⟩ := List.mem_flatMap.mp h
  exact List.all_eq_true.mp (isAlphanum_hexByte byte) c hc

@[simp] theorem length_hexdigest (bytes : List UInt8) :
    (hexdigest bytes).length = 2 * bytes.length := by
  induction bytes with
  | nil => rfl
  | cons byte bytes ih =>
    show (hexByte byte ++ hexdigest bytes).length = _
    rw [List.length_append, ih, List.length_cons]
    show 2 + _ = _
    omega

private theorem hexDigit_inj : ∀ m < 16, ∀ n < 16, hexDigit m = hexDigit n → m = n := by
  decide +kernel

theorem hexByte_inj {a b : UInt8} (h : hexByte a = hexByte b) : a = b := by
  obtain ⟨hhigh, hlow⟩ := List.cons.inj h
  have ha := a.toNat_lt
  have hb := b.toNat_lt
  have hdiv := hexDigit_inj _ (by omega) _ (by omega) hhigh
  have hmod := hexDigit_inj _ (by omega) _ (by omega) (List.cons.inj hlow).1
  apply UInt8.toNat_inj.mp
  omega

theorem hexdigest_inj {bytes others : List UInt8} (h : hexdigest bytes = hexdigest others) :
    bytes = others := by
  induction bytes generalizing others with
  | nil =>
    cases others with
    | nil => rfl
    | cons other others => exact absurd h (by simp [hexdigest, hexByte])
  | cons byte bytes ih =>
    cases others with
    | nil => exact absurd h (by simp [hexdigest, hexByte])
    | cons other others =>
      have happend : hexByte byte ++ hexdigest bytes = hexByte other ++ hexdigest others := h
      obtain ⟨hbyte, hbytes⟩ := List.append_inj happend rfl
      rw [hexByte_inj hbyte, ih hbytes]

end Foundation
