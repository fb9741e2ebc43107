import Mathlib.Data.Nat.Notation
import Mathlib.Tactic.Common
import Mathlib.Tactic.Ring

/-! Fixed-width little-endian numerals. -/
namespace Foundation.LittleEndian

def ofBytes : List UInt8 → ℕ
  | [] => 0
  | b :: bs => b.toNat + 256 * ofBytes bs

/-- The `k` low bytes of a value, least significant first. -/
def toBytes : ℕ → ℕ → List UInt8
  | 0, _ => []
  | k + 1, v => UInt8.ofNat (v % 256) :: toBytes k (v / 256)

@[simp] theorem length_toBytes (k v : ℕ) : (toBytes k v).length = k := by
  induction k generalizing v with
  | zero => rfl
  | succ k ih => simp [toBytes, ih]

theorem toBytes_ofBytes (bs : List UInt8) : toBytes bs.length (ofBytes bs) = bs := by
  induction bs with
  | nil => rfl
  | cons b bs ih =>
    have hb := b.toNat_lt
    have hm : (b.toNat + 256 * ofBytes bs) % 256 = b.toNat := by omega
    have hd : (b.toNat + 256 * ofBytes bs) / 256 = ofBytes bs := by omega
    simp [toBytes, ofBytes, hm, hd, ih]

theorem ofBytes_toBytes (k : ℕ) {v : ℕ} (h : v < 256 ^ k) : ofBytes (toBytes k v) = v := by
  induction k generalizing v with
  | zero =>
    have : v = 0 := by simpa using h
    simp [toBytes, ofBytes, this]
  | succ k ih =>
    have hd : v / 256 < 256 ^ k := by
      rw [Nat.div_lt_iff_lt_mul (by omega)]
      simpa [Nat.pow_succ] using h
    have hb : (UInt8.ofNat (v % 256)).toNat = v % 256 := by simp
    rw [toBytes, ofBytes, ih hd, hb]
    omega

end Foundation.LittleEndian
