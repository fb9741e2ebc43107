import Mathlib.Data.Nat.Notation
import Mathlib.Tactic.Common
import Mathlib.Tactic.Ring

/-! Base-128 numerals, least significant group first: every byte but the last carries the
continuation bit. Padded numerals (high groups equal to zero) denote the same value as the
shortest one, which `encode` produces. -/
namespace Foundation.Base128

/-- `Numeral bs v`: the bytes `bs` are one numeral of value `v`, padded or not. -/
inductive Numeral : List UInt8 → ℕ → Prop
  | last (b : UInt8) (h : b.toNat < 128) : Numeral [b] b.toNat
  | more (b : UInt8) {bs : List UInt8} {v : ℕ} (h : 128 ≤ b.toNat) (t : Numeral bs v) :
      Numeral (b :: bs) (b.toNat - 128 + 128 * v)

/-- The first argument only bounds the recursion; `v` groups are always enough. -/
def encodeAux : ℕ → ℕ → List UInt8
  | 0, v => [UInt8.ofNat v]
  | n + 1, v =>
    if v < 128 then [UInt8.ofNat v] else UInt8.ofNat (v % 128 + 128) :: encodeAux n (v / 128)

/-- The shortest numeral of a value. -/
def encode (v : ℕ) : List UInt8 := encodeAux v v

private theorem encodeAux_fuel (v : ℕ) :
    ∀ n m : ℕ, v ≤ n → v ≤ m → encodeAux n v = encodeAux m v := by
  induction v using Nat.strongRecOn with
  | ind v ih =>
    intro n m hn hm
    cases n with
    | zero =>
      have hv : v = 0 := by omega
      cases m <;> simp [encodeAux, hv]
    | succ n =>
      cases m with
      | zero =>
        have hv : v = 0 := by omega
        simp [encodeAux, hv]
      | succ m =>
        simp only [encodeAux]
        split
        · rfl
        · rw [ih (v / 128) (by omega) n m (by omega) (by omega)]

theorem encode_of_lt {v : ℕ} (h : v < 128) : encode v = [UInt8.ofNat v] := by
  cases v with
  | zero => rfl
  | succ n => simp [encode, encodeAux, h]

theorem encode_of_ge {v : ℕ} (h : 128 ≤ v) :
    encode v = UInt8.ofNat (v % 128 + 128) :: encode (v / 128) := by
  obtain ⟨n, rfl⟩ : ∃ n, v = n + 1 := ⟨v - 1, by omega⟩
  rw [encode, encodeAux, if_neg (by omega), encode,
    encodeAux_fuel ((n + 1) / 128) n _ (by omega) (Nat.le_refl _)]

theorem encode_ne_nil (v : ℕ) : encode v ≠ [] := by
  by_cases h : v < 128
  · simp [encode_of_lt h]
  · simp [encode_of_ge (by omega : 128 ≤ v)]

theorem numeral_encode (v : ℕ) : Numeral (encode v) v := by
  induction v using Nat.strongRecOn with
  | ind v ih =>
    by_cases h : v < 128
    · rw [encode_of_lt h]
      have hb : (UInt8.ofNat v).toNat = v := by simp; omega
      simpa only [hb] using Numeral.last (UInt8.ofNat v) (by omega)
    · rw [encode_of_ge (by omega)]
      have hb : (UInt8.ofNat (v % 128 + 128)).toNat = v % 128 + 128 := by simp; omega
      have hm := Numeral.more (UInt8.ofNat (v % 128 + 128)) (by omega) (ih (v / 128) (by omega))
      have hv : v % 128 + 128 - 128 + 128 * (v / 128) = v := by omega
      rwa [hb, hv] at hm

theorem Numeral.ne_nil {bs : List UInt8} {v : ℕ} (h : Numeral bs v) : bs ≠ [] := by
  cases h <;> simp

theorem Numeral.length_pos {bs : List UInt8} {v : ℕ} (h : Numeral bs v) : 0 < bs.length :=
  List.length_pos_iff.mpr h.ne_nil

/-- No numeral of a value is shorter than its encoding. -/
theorem Numeral.encode_length_le {bs : List UInt8} {v : ℕ} (h : Numeral bs v) :
    (encode v).length ≤ bs.length := by
  induction h with
  | last b h => simp [encode_of_lt h]
  | @more b bs v hb t ih =>
    have hlt := b.toNat_lt
    by_cases hv : b.toNat - 128 + 128 * v < 128
    · simp [encode_of_lt hv]
    · have hd : (b.toNat - 128 + 128 * v) / 128 = v := by omega
      rw [encode_of_ge (by omega), hd]
      simpa using ih

/-- The value of a numeral is bounded by the number of its groups. -/
theorem Numeral.lt_pow {bs : List UInt8} {v : ℕ} (h : Numeral bs v) : v < 128 ^ bs.length := by
  induction h with
  | last b h => simpa using h
  | @more b bs v hb t ih =>
    have hlt := b.toNat_lt
    rw [List.length_cons, Nat.pow_succ]
    omega

/-- A value below `128 ^ (k + 1)` has an encoding of at most `k + 1` bytes. -/
theorem encode_length_le (k : ℕ) {v : ℕ} (h : v < 128 ^ (k + 1)) : (encode v).length ≤ k + 1 := by
  induction k generalizing v with
  | zero => simp [encode_of_lt (by simpa using h)]
  | succ k ih =>
    by_cases hv : v < 128
    · simp [encode_of_lt hv]
    · have hd : v / 128 < 128 ^ (k + 1) := by
        rw [Nat.div_lt_iff_lt_mul (by omega)]
        simpa [Nat.pow_succ] using h
      rw [encode_of_ge (by omega), List.length_cons]
      have := ih hd
      omega

/-- Numerals are self-delimiting: a byte string starts with at most one. -/
theorem Numeral.unique {bs cs xs ys : List UInt8} {v w : ℕ} (hb : Numeral bs v)
    (hc : Numeral cs w) (h : bs ++ xs = cs ++ ys) : bs = cs ∧ v = w := by
  induction hb generalizing cs w with
  | last b hlt =>
    cases hc with
    | last c hc =>
      obtain ⟨rfl, -⟩ := List.cons.inj h
      exact ⟨rfl, rfl⟩
    | more c hc t =>
      obtain ⟨rfl, -⟩ := List.cons.inj h
      omega
  | more b hle t ih =>
    cases hc with
    | last c hc =>
      obtain ⟨rfl, -⟩ := List.cons.inj h
      omega
    | more c hc u =>
      obtain ⟨rfl, htail⟩ := List.cons.inj h
      obtain ⟨rfl, rfl⟩ := ih u htail
      exact ⟨rfl, rfl⟩

section Groups

/-- The groups of the bytes at their places, whatever their continuation bits. -/
def groupSum (bs : List UInt8) : ℕ := (bs.mapIdx fun i b => b.toNat % 128 * 128 ^ i).sum

private theorem sum_mapIdx_shift (bs : List UInt8) (e : ℕ) :
    (bs.mapIdx fun i b => b.toNat % 128 * 128 ^ (i + e)).sum = groupSum bs * 128 ^ e := by
  induction bs generalizing e with
  | nil => exact (Nat.zero_mul _).symm
  | cons b bs ih =>
    have hshift : (bs.mapIdx fun i b => b.toNat % 128 * 128 ^ (i + 1 + e)).sum =
        groupSum bs * 128 ^ (1 + e) := by
      rw [← ih (1 + e)]
      simp only [Nat.add_assoc]
    rw [groupSum, List.mapIdx_cons, List.sum_cons, List.mapIdx_cons, List.sum_cons, hshift, ih 1]
    ring

theorem groupSum_cons (b : UInt8) (bs : List UInt8) :
    groupSum (b :: bs) = b.toNat % 128 + 128 * groupSum bs := by
  have hshift := sum_mapIdx_shift bs 1
  rw [groupSum, List.mapIdx_cons, List.sum_cons, hshift]
  ring

/-- A numeral is made of bytes that continue and a last one that does not. -/
theorem numeral_iff {bs : List UInt8} {v : ℕ} :
    Numeral bs v ↔ ∃ front last, bs = front ++ [last] ∧ (∀ b ∈ front, 128 ≤ b.toNat) ∧
      last.toNat < 128 ∧ v = groupSum bs := by
  constructor
  · intro h
    induction h with
    | last b h =>
      refine ⟨[], b, rfl, by simp, h, ?_⟩
      rw [groupSum_cons, Nat.mod_eq_of_lt h]
      rfl
    | @more b bs v hb t ih =>
      obtain ⟨front, last, rfl, hfront, hlast, rfl⟩ := ih
      refine ⟨b :: front, last, rfl, List.forall_mem_cons.mpr ⟨hb, hfront⟩, hlast, ?_⟩
      have hlt := b.toNat_lt
      rw [groupSum_cons]
      omega
  · rintro ⟨front, last, rfl, hfront, hlast, rfl⟩
    induction front with
    | nil =>
      have hvalue : groupSum [last] = last.toNat := by
        rw [groupSum_cons, Nat.mod_eq_of_lt hlast]
        rfl
      rw [List.nil_append, hvalue]
      exact .last last hlast
    | cons b front ih =>
      obtain ⟨hb, hfront⟩ := List.forall_mem_cons.mp hfront
      have hlt := b.toNat_lt
      have hmod : b.toNat % 128 = b.toNat - 128 := by omega
      rw [List.cons_append, groupSum_cons, hmod]
      exact .more b hb (ih hfront)

/-- The value of a numeral lies between the multiples its last group stands for. -/
theorem Numeral.bounds {front : List UInt8} {last : UInt8} {v : ℕ}
    (h : Numeral (front ++ [last]) v) :
    last.toNat * 128 ^ front.length ≤ v ∧ v < (last.toNat + 1) * 128 ^ front.length := by
  induction front generalizing v with
  | nil =>
    cases h with
    | last _ _ => simp
    | more _ _ t => exact absurd rfl t.ne_nil
  | cons b front ih =>
    generalize hbs : b :: front ++ [last] = bs at h
    cases h with
    | last c hc => simp at hbs
    | @more c bs w hc t =>
      obtain ⟨rfl, rfl⟩ := List.cons.inj hbs
      obtain ⟨hlow, hhigh⟩ := ih t
      have hlt := b.toNat_lt
      rw [List.length_cons, Nat.pow_succ, ← Nat.mul_assoc, ← Nat.mul_assoc]
      omega

end Groups

end Foundation.Base128
