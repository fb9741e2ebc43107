import Protocyte.Foundation.Base128
import Protocyte.Foundation.LittleEndian

/-! The protobuf record grammar, as relations between bytes and record trees. Padded numerals
are accepted; `Tree.encode` is the canonical form. Groups nest within a budget. -/
namespace Foundation.Wire
open Base128 LittleEndian

def maxNumber : ℕ := 2 ^ 29 - 1

/-- One record: a number and a value of one of the wire kinds, groups carrying their members. -/
inductive Tree
  | varint (number value : ℕ)
  | fixed64 (number value : ℕ)
  | bytes (number : ℕ) (payload : List UInt8)
  | group (number : ℕ) (members : List Tree)
  | fixed32 (number value : ℕ)

namespace Tree

def number : Tree → ℕ
  | varint n _ | fixed64 n _ | bytes n _ | group n _ | fixed32 n _ => n

/-- The wire type in the record's key. -/
def code : Tree → ℕ
  | varint .. => 0
  | fixed64 .. => 1
  | bytes .. => 2
  | group .. => 3
  | fixed32 .. => 5

end Tree

/-- The canonical key of a number and a wire type; type 4 closes a group. -/
def key (number code : ℕ) : List UInt8 := encode (8 * number + code)

mutual
/-- What follows the key in the canonical form. -/
def Tree.body : Tree → List UInt8
  | .varint _ v => encode v
  | .fixed64 _ v => toBytes 8 v
  | .bytes _ p => encode p.length ++ p
  | .group n ts => encodeAll ts ++ key n 4
  | .fixed32 _ v => toBytes 4 v

def encodeAll : List Tree → List UInt8
  | [] => []
  | t :: ts => key t.number t.code ++ (t.body ++ encodeAll ts)
end

def Tree.encode (t : Tree) : List UInt8 := key t.number t.code ++ t.body

@[simp] theorem encodeAll_nil : encodeAll [] = [] := by simp [encodeAll]

theorem encodeAll_cons (t : Tree) (ts : List Tree) :
    encodeAll (t :: ts) = t.encode ++ encodeAll ts := by
  simp [encodeAll, Tree.encode]

theorem encodeAll_append (ts us : List Tree) :
    encodeAll (ts ++ us) = encodeAll ts ++ encodeAll us := by
  induction ts with
  | nil => simp
  | cons t ts ih => simp [encodeAll_cons, ih]

theorem encodeAll_singleton (t : Tree) : encodeAll [t] = t.encode := by
  simp [encodeAll_cons]

/-- A 64-bit varint of at most ten groups. -/
def Varint (bs : List UInt8) (v : ℕ) : Prop := Numeral bs v ∧ bs.length ≤ 10 ∧ v < 2 ^ 64

def Key (bs : List UInt8) (number code : ℕ) : Prop :=
  Varint bs (8 * number + code) ∧ 0 < number ∧ number ≤ maxNumber ∧ code < 8

inductive Leaf : ℕ → ℕ → List UInt8 → Tree → Prop
  | varint {n v : ℕ} {bs : List UInt8} (h : Varint bs v) : Leaf n 0 bs (.varint n v)
  | fixed64 {n : ℕ} {bs : List UInt8} (h : bs.length = 8) : Leaf n 1 bs (.fixed64 n (ofBytes bs))
  | bytes {n : ℕ} {ls payload : List UInt8} (h : Varint ls payload.length) :
      Leaf n 2 (ls ++ payload) (.bytes n payload)
  | fixed32 {n : ℕ} {bs : List UInt8} (h : bs.length = 4) : Leaf n 5 bs (.fixed32 n (ofBytes bs))

/-- The members of group `n` through its end key; `B` accepts what follows a member's key. -/
inductive Members (B : ℕ → ℕ → List UInt8 → Tree → Prop) (n : ℕ) : List UInt8 → List Tree → Prop
  | close {es : List UInt8} (h : Key es n 4) : Members B n es []
  | member {m c : ℕ} {ks bs cs : List UInt8} {t : Tree} {ts : List Tree} (hk : Key ks m c)
      (hb : B m c bs t) (ht : Members B n cs ts) : Members B n (ks ++ (bs ++ cs)) (t :: ts)

/-- What follows the key of a record whose groups nest at most `d` deep. -/
def Body : ℕ → ℕ → ℕ → List UInt8 → Tree → Prop
  | 0, n, c, bs, t => Leaf n c bs t
  | d + 1, n, c, bs, t => Leaf n c bs t ∨
      (c = 3 ∧ ∃ ts, t = .group n ts ∧ Members (Body d) n bs ts)

inductive Records (B : ℕ → ℕ → List UInt8 → Tree → Prop) : List UInt8 → List Tree → Prop
  | nil : Records B [] []
  | cons {m c : ℕ} {ks bs cs : List UInt8} {t : Tree} {ts : List Tree} (hk : Key ks m c)
      (hb : B m c bs t) (ht : Records B cs ts) : Records B (ks ++ (bs ++ cs)) (t :: ts)

theorem varint_encode {v : ℕ} (h : v < 2 ^ 64) : Varint (encode v) v :=
  ⟨numeral_encode v, encode_length_le 9 (Nat.lt_of_lt_of_le h (by decide)), h⟩

theorem Varint.encode_length_le {bs : List UInt8} {v : ℕ} (h : Varint bs v) :
    (encode v).length ≤ bs.length := h.1.encode_length_le

theorem Varint.unique {bs cs xs ys : List UInt8} {v w : ℕ} (hb : Varint bs v) (hc : Varint cs w)
    (h : bs ++ xs = cs ++ ys) : bs = cs ∧ v = w := hb.1.unique hc.1 h

theorem Key.length_pos {ks : List UInt8} {n c : ℕ} (h : Key ks n c) : 0 < ks.length :=
  h.1.1.length_pos

theorem key_canonical {n c : ℕ} (hn : 0 < n) (hm : n ≤ maxNumber) (hc : c < 8) :
    Key (key n c) n c := by
  refine ⟨varint_encode ?_, hn, hm, hc⟩
  unfold maxNumber at hm
  omega

theorem Key.canonical {ks : List UInt8} {n c : ℕ} (h : Key ks n c) : Key (key n c) n c :=
  key_canonical h.2.1 h.2.2.1 h.2.2.2

theorem Key.length_key_le {ks : List UInt8} {n c : ℕ} (h : Key ks n c) :
    (key n c).length ≤ ks.length := h.1.encode_length_le

theorem Key.unique {ks ls xs ys : List UInt8} {n c m e : ℕ} (hk : Key ks n c) (hl : Key ls m e)
    (h : ks ++ xs = ls ++ ys) : ks = ls ∧ n = m ∧ c = e := by
  obtain ⟨rfl, hv⟩ := hk.1.unique hl.1 h
  have := hk.2.2.2
  have := hl.2.2.2
  exact ⟨rfl, by omega, by omega⟩

theorem Leaf.number_code {n c : ℕ} {bs : List UInt8} {t : Tree} (h : Leaf n c bs t) :
    t.number = n ∧ t.code = c := by
  cases h <;> exact ⟨rfl, rfl⟩

theorem Leaf.code_lt {n c : ℕ} {bs : List UInt8} {t : Tree} (h : Leaf n c bs t) : c < 8 := by
  cases h <;> omega

theorem leaf_fixed64 (n : ℕ) {v : ℕ} (h : v < 2 ^ 64) : Leaf n 1 (toBytes 8 v) (.fixed64 n v) := by
  have hl := Leaf.fixed64 (n := n) (length_toBytes 8 v)
  rwa [ofBytes_toBytes 8 (Nat.lt_of_lt_of_le h (by decide))] at hl

theorem leaf_fixed32 (n : ℕ) {v : ℕ} (h : v < 2 ^ 32) : Leaf n 5 (toBytes 4 v) (.fixed32 n v) := by
  have hl := Leaf.fixed32 (n := n) (length_toBytes 4 v)
  rwa [ofBytes_toBytes 4 (Nat.lt_of_lt_of_le h (by decide))] at hl

theorem Leaf.canonical {n c : ℕ} {bs : List UInt8} {t : Tree} (h : Leaf n c bs t) :
    Leaf n c t.body t ∧ t.body.length ≤ bs.length := by
  cases h with
  | varint h => exact ⟨.varint (varint_encode h.2.2), h.encode_length_le⟩
  | @fixed64 bs h =>
    have hb : toBytes 8 (ofBytes bs) = bs := h ▸ toBytes_ofBytes bs
    refine ⟨?_, by simp [Tree.body, h]⟩
    simpa only [Tree.body, hb] using Leaf.fixed64 (n := n) h
  | @bytes ls payload h =>
    refine ⟨.bytes (varint_encode h.2.2), ?_⟩
    simpa [Tree.body] using h.encode_length_le
  | @fixed32 bs h =>
    have hb : toBytes 4 (ofBytes bs) = bs := h ▸ toBytes_ofBytes bs
    refine ⟨?_, by simp [Tree.body, h]⟩
    simpa only [Tree.body, hb] using Leaf.fixed32 (n := n) h

theorem Leaf.unique {n c : ℕ} {bs cs xs ys : List UInt8} {t u : Tree} (hb : Leaf n c bs t)
    (hc : Leaf n c cs u) (h : bs ++ xs = cs ++ ys) : bs = cs ∧ t = u := by
  cases hb with
  | varint hv =>
    cases hc with
    | varint hw =>
      obtain ⟨rfl, rfl⟩ := hv.unique hw h
      exact ⟨rfl, rfl⟩
  | fixed64 hl =>
    cases hc with
    | fixed64 hm =>
      obtain ⟨rfl, -⟩ := List.append_inj h (by omega)
      exact ⟨rfl, rfl⟩
  | bytes hv =>
    cases hc with
    | bytes hw =>
      rw [List.append_assoc, List.append_assoc] at h
      obtain ⟨rfl, hl⟩ := hv.unique hw h
      obtain ⟨rfl, -⟩ := List.append_inj (List.append_cancel_left h) hl
      exact ⟨rfl, rfl⟩
  | fixed32 hl =>
    cases hc with
    | fixed32 hm =>
      obtain ⟨rfl, -⟩ := List.append_inj h (by omega)
      exact ⟨rfl, rfl⟩

theorem members_iff {B : ℕ → ℕ → List UInt8 → Tree → Prop} {n : ℕ} {cs : List UInt8}
    {ts : List Tree} :
    Members B n cs ts ↔ ∃ bs es, cs = bs ++ es ∧ Records B bs ts ∧ Key es n 4 := by
  constructor
  · intro h
    induction h with
    | close h => exact ⟨[], _, rfl, .nil, h⟩
    | member hk hb _ ih =>
      obtain ⟨bs, es, rfl, hr, he⟩ := ih
      exact ⟨_, es, by simp, .cons hk hb hr, he⟩
  · rintro ⟨bs, es, rfl, hr, he⟩
    induction hr with
    | nil => exact .close he
    | cons hk hb _ ih => simpa using Members.member hk hb ih

theorem Records.append {B : ℕ → ℕ → List UInt8 → Tree → Prop} {xs ys : List UInt8}
    {ts us : List Tree} (hx : Records B xs ts) (hy : Records B ys us) :
    Records B (xs ++ ys) (ts ++ us) := by
  induction hx with
  | nil => simpa using hy
  | cons hk hb _ ih => simpa using Records.cons hk hb ih

theorem Records.singleton {B : ℕ → ℕ → List UInt8 → Tree → Prop} {m c : ℕ} {ks bs : List UInt8}
    {t : Tree} (hk : Key ks m c) (hb : B m c bs t) : Records B (ks ++ bs) [t] := by
  simpa using Records.cons hk hb .nil

theorem Records.mono {B C : ℕ → ℕ → List UInt8 → Tree → Prop} {xs : List UInt8} {ts : List Tree}
    (hBC : ∀ m c bs t, B m c bs t → C m c bs t) (h : Records B xs ts) : Records C xs ts := by
  induction h with
  | nil => exact .nil
  | cons hk hb _ ih => exact .cons hk (hBC _ _ _ _ hb) ih

/-- The properties of `B` that its sequences inherit. -/
structure Canonical (B : ℕ → ℕ → List UInt8 → Tree → Prop) : Prop where
  number_code {n c : ℕ} {bs : List UInt8} {t : Tree} : B n c bs t → t.number = n ∧ t.code = c
  body {n c : ℕ} {bs : List UInt8} {t : Tree} : B n c bs t → B n c t.body t
  length_le {n c : ℕ} {bs : List UInt8} {t : Tree} : B n c bs t → t.body.length ≤ bs.length
  unique {n c : ℕ} {bs cs xs ys : List UInt8} {t u : Tree} :
    B n c bs t → B n c cs u → bs ++ xs = cs ++ ys → bs = cs ∧ t = u

variable {B : ℕ → ℕ → List UInt8 → Tree → Prop}

theorem Records.canonical (hB : Canonical B) {xs : List UInt8} {ts : List Tree}
    (h : Records B xs ts) : Records B (encodeAll ts) ts := by
  induction h with
  | nil => simpa using Records.nil
  | cons hk hb _ ih =>
    obtain ⟨hn, hc⟩ := hB.number_code hb
    simpa [encodeAll, hn, hc] using Records.cons hk.canonical (hB.body hb) ih

theorem Records.number_le (hB : Canonical B) {xs : List UInt8} {t : Tree} {ts : List Tree}
    (h : Records B xs (t :: ts)) : t.number ≤ maxNumber := by
  cases h with
  | cons hk hb _ =>
    rw [(hB.number_code hb).1]
    exact hk.2.2.1

theorem Records.length_le (hB : Canonical B) {xs : List UInt8} {ts : List Tree}
    (h : Records B xs ts) : (encodeAll ts).length ≤ xs.length := by
  induction h with
  | nil => simp
  | cons hk hb _ ih =>
    obtain ⟨hn, hc⟩ := hB.number_code hb
    have hkl := hk.length_key_le
    have hbl := hB.length_le hb
    simp only [encodeAll, hn, hc, List.length_append]
    omega

/-- Every record has a key. -/
theorem Records.length_trees_le {xs : List UInt8} {ts : List Tree} (h : Records B xs ts) :
    ts.length ≤ xs.length := by
  induction h with
  | nil => simp
  | cons hk _ _ ih =>
    have := hk.length_pos
    simp only [List.length_cons, List.length_append]
    omega

theorem Records.split {xs : List UInt8} {ts us : List Tree} (h : Records B xs (ts ++ us)) :
    ∃ ys zs, xs = ys ++ zs ∧ Records B ys ts ∧ Records B zs us := by
  induction ts generalizing xs with
  | nil => exact ⟨[], xs, rfl, .nil, h⟩
  | cons t ts ih =>
    cases h with
    | cons hk hb ht =>
      obtain ⟨ys, zs, rfl, hy, hz⟩ := ih ht
      exact ⟨_, zs, by simp, .cons hk hb hy, hz⟩

/-- The parts of a canonical sequence are canonical. -/
theorem Records.canonical_parts (hB : Canonical B) {xs ys : List UInt8} {ts us : List Tree}
    (hx : Records B xs ts) (hy : Records B ys us) (h : xs ++ ys = encodeAll (ts ++ us)) :
    xs = encodeAll ts ∧ ys = encodeAll us := by
  have hxl := hx.length_le hB
  have hyl := hy.length_le hB
  rw [encodeAll_append] at h
  have hl := congrArg List.length h
  simp only [List.length_append] at hl
  exact List.append_inj h (by omega)

/-- The end key of a group differs from every member's key. -/
theorem Members.unique (hB : Canonical B) (h4 : ∀ n bs t, ¬ B n 4 bs t) {n : ℕ}
    {xs ys us vs : List UInt8} {ts ss : List Tree} (hx : Members B n xs ts)
    (hy : Members B n ys ss) (h : xs ++ us = ys ++ vs) : xs = ys ∧ ts = ss := by
  induction hx generalizing ys ss with
  | close hk =>
    cases hy with
    | close hl =>
      obtain ⟨rfl, -, -⟩ := hk.unique hl h
      exact ⟨rfl, rfl⟩
    | member hl hb _ =>
      rw [List.append_assoc] at h
      obtain ⟨-, -, rfl⟩ := hk.unique hl h
      exact absurd hb (h4 _ _ _)
  | member hk hb _ ih =>
    cases hy with
    | close hl =>
      rw [List.append_assoc] at h
      obtain ⟨-, -, rfl⟩ := hk.unique hl h
      exact absurd hb (h4 _ _ _)
    | member hl hc ht =>
      simp only [List.append_assoc] at h
      obtain ⟨rfl, rfl, rfl⟩ := hk.unique hl h
      have h' := List.append_cancel_left h
      obtain ⟨rfl, rfl⟩ := hB.unique hb hc h'
      obtain ⟨rfl, rfl⟩ := ih ht (List.append_cancel_left h')
      exact ⟨rfl, rfl⟩

/-- A byte string is a sequence of records in at most one way. -/
theorem Records.unique (hB : Canonical B) {xs : List UInt8} {ts ss : List Tree}
    (hx : Records B xs ts) (hy : Records B xs ss) : ts = ss := by
  induction hx generalizing ss with
  | nil =>
    generalize hz : ([] : List UInt8) = zs at hy
    cases hy with
    | nil => rfl
    | cons hl _ _ =>
      have := hl.length_pos
      simp [List.nil_eq] at hz
      simp [hz.1] at this
  | @cons m c ks bs cs t ts hk hb _ ih =>
    generalize hz : ks ++ (bs ++ cs) = zs at hy
    cases hy with
    | nil =>
      have := hk.length_pos
      simp at hz
      simp [hz.1] at this
    | cons hl hc ht =>
      obtain ⟨rfl, rfl, rfl⟩ := hk.unique hl hz
      have h' := List.append_cancel_left hz
      obtain ⟨rfl, rfl⟩ := hB.unique hb hc h'
      obtain rfl := List.append_cancel_left h'
      rw [ih ht]

/-- The same records at the head of a byte string take the same bytes. -/
theorem Records.prefix_unique (hB : Canonical B) {xs ys us vs : List UInt8} {ts : List Tree}
    (hx : Records B xs ts) (hy : Records B ys ts) (h : xs ++ us = ys ++ vs) : xs = ys := by
  induction hx generalizing ys with
  | nil => cases hy; rfl
  | cons hk hb _ ih =>
    cases hy with
    | cons hl hc ht =>
      simp only [List.append_assoc] at h
      obtain ⟨rfl, rfl, rfl⟩ := hk.unique hl h
      have h' := List.append_cancel_left h
      obtain ⟨rfl, -⟩ := hB.unique hb hc h'
      rw [ih ht (List.append_cancel_left h')]

theorem Leaf.body {n c : ℕ} {bs : List UInt8} {t : Tree} (d : ℕ) (h : Leaf n c bs t) :
    Body d n c bs t := by
  cases d with
  | zero => exact h
  | succ d => exact Or.inl h

theorem not_leaf_three {n : ℕ} {bs : List UInt8} {t : Tree} : ¬ Leaf n 3 bs t := by
  intro h; cases h

theorem not_body_four (d n : ℕ) (bs : List UInt8) (t : Tree) : ¬ Body d n 4 bs t := by
  cases d with
  | zero => intro h; cases h
  | succ d =>
    rintro (h | ⟨h, -⟩)
    · cases h
    · omega

theorem body_canonical (d : ℕ) : Canonical (Body d) := by
  induction d with
  | zero =>
    exact ⟨Leaf.number_code, fun h => h.canonical.1, fun h => h.canonical.2, Leaf.unique⟩
  | succ d ih =>
    refine ⟨?_, ?_, ?_, ?_⟩
    · rintro n c bs t (h | ⟨rfl, ts, rfl, -⟩)
      · exact h.number_code
      · exact ⟨rfl, rfl⟩
    · rintro n c bs t (h | ⟨rfl, ts, rfl, hm⟩)
      · exact h.canonical.1.body _
      · obtain ⟨xs, es, -, hr, he⟩ := members_iff.mp hm
        exact Or.inr ⟨rfl, ts, rfl, members_iff.mpr
          ⟨_, _, by simp [Tree.body], hr.canonical ih, he.canonical⟩⟩
    · rintro n c bs t (h | ⟨rfl, ts, rfl, hm⟩)
      · exact h.canonical.2
      · obtain ⟨xs, es, rfl, hr, he⟩ := members_iff.mp hm
        have hxl := hr.length_le ih
        have hel := he.length_key_le
        simp only [Tree.body, List.length_append]
        omega
    · rintro n c bs cs xs ys t u (hb | ⟨rfl, ts, rfl, hm⟩) (hc | ⟨hc, us, rfl, hu⟩) h
      · exact hb.unique hc h
      · subst hc; exact absurd hb not_leaf_three
      · exact absurd hc not_leaf_three
      · obtain ⟨rfl, rfl⟩ := hm.unique ih (not_body_four d) hu h
        exact ⟨rfl, rfl⟩

/-- A record of canonical parts. -/
theorem Body.records {d n c : ℕ} {t : Tree} (hn : 0 < n) (hm : n ≤ maxNumber)
    (h : Body d n c t.body t) : Records (Body d) t.encode [t] := by
  obtain ⟨rfl, rfl⟩ := (body_canonical d).number_code h
  refine Records.singleton (key_canonical hn hm ?_) h
  cases t <;> simp [Tree.code]

theorem Body.succ {d n c : ℕ} {bs : List UInt8} {t : Tree} (h : Body d n c bs t) :
    Body (d + 1) n c bs t := by
  induction d generalizing n c bs t with
  | zero => exact Or.inl h
  | succ d ih =>
    rcases h with h | ⟨rfl, ts, rfl, hm⟩
    · exact Or.inl h
    · obtain ⟨xs, es, rfl, hr, he⟩ := members_iff.mp hm
      exact Or.inr ⟨rfl, ts, rfl,
        members_iff.mpr ⟨xs, es, rfl, hr.mono fun _ _ _ _ => ih, he⟩⟩

theorem Body.mono {d e n c : ℕ} {bs : List UInt8} {t : Tree} (hde : d ≤ e)
    (h : Body d n c bs t) : Body e n c bs t := by
  induction hde with
  | refl => exact h
  | step _ ih => exact ih.succ

end Foundation.Wire
