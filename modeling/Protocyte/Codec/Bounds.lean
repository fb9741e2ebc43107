import Protocyte.Codec.Parse

/-! What a parse is given besides its bytes: memory, the limits of its context, the counts its reader
allows, and the room of what it fills. A parse that is charged no more than that does not run out. -/
namespace Protocyte
open Foundation.Computation

variable {O P T α : Type}

namespace Reader

variable {budget : Budget} {r r' : Reader} {m n : ℕ}

/-- So many more may be counted. -/
def Allows (budget : Budget) (count : ℕ) : Reader → Prop
  | slice _ => True
  | parseBudget _ _ maxRep maxMap rep map =>
    match budget with
    | .repeatedElements => rep + count ≤ maxRep
    | .mapEntries => map + count ≤ maxMap
  | limited inner _ | ref inner => inner.Allows budget count
  | staged _ budgetReader => budgetReader.Allows budget count

theorem Allows.mono (h : r.Allows budget n) (hmn : m ≤ n) : r.Allows budget m := by
  induction r with
  | slice r => trivial
  | parseBudget inner remaining maxRep maxMap rep map _ =>
    cases budget with
    | repeatedElements | mapEntries => exact Nat.le_trans (Nat.add_le_add_left hmn _) h
  | limited inner remaining ih | ref inner ih | staged s inner ih => exact ih h

theorem allows_advance (r : Reader) (k : ℕ) :
    (r.advance k).Allows budget n ↔ r.Allows budget n := by
  induction r with
  | slice r | parseBudget inner remaining maxRep maxMap rep map _ | staged s inner _ => exact Iff.rfl
  | limited inner remaining ih | ref inner ih => exact ih

/-- A count is refused only where it is not allowed, and is charged to its own budget. -/
theorem consume_allows (budget : Budget) (count f : ℕ) (r : Reader) :
    Exits (consume budget count f r)
      (fun _ r' => ∀ budget' n, r.Allows budget' (count + n) → r'.Allows budget' n)
      (fun _ _ => ¬r.Allows budget count) := by
  induction r with
  | slice r => exact fun _ _ h => h
  | parseBudget inner remaining maxRep maxMap rep map _ =>
    cases budget with
    | repeatedElements =>
      unfold consume
      by_cases h : rep > maxRep ∨ count > maxRep - rep
      · simp only [if_pos h]
        intro hle
        have hle : rep + count ≤ maxRep := hle
        omega
      · simp only [if_neg h]
        intro budget' n hn
        cases budget' with
        | repeatedElements =>
          have hn : rep + (count + n) ≤ maxRep := hn
          change rep + count + n ≤ maxRep
          omega
        | mapEntries =>
          have hn : map + (count + n) ≤ maxMap := hn
          change map + n ≤ maxMap
          omega
    | mapEntries =>
      unfold consume
      by_cases h : map > maxMap ∨ count > maxMap - map
      · simp only [if_pos h]
        intro hle
        have hle : map + count ≤ maxMap := hle
        omega
      · simp only [if_neg h]
        intro budget' n hn
        cases budget' with
        | repeatedElements =>
          have hn : rep + (count + n) ≤ maxRep := hn
          change rep + n ≤ maxRep
          omega
        | mapEntries =>
          have hn : map + (count + n) ≤ maxMap := hn
          change map + count + n ≤ maxMap
          omega
  | limited inner remaining ih =>
    unfold consume
    cases h : consume budget count f inner with
    | ok u inner' => exact fun budget' n hn => ih.ok h budget' n hn
    | error e inner' => exact ih.error h
  | ref inner ih =>
    unfold consume
    cases h : consume budget count f inner with
    | ok u inner' => exact fun budget' n hn => ih.ok h budget' n hn
    | error e inner' => exact ih.error h
  | staged s inner ih =>
    unfold consume
    cases h : consume budget count f inner with
    | ok u inner' => exact fun budget' n hn => ih.ok h budget' n hn
    | error e inner' => exact ih.error h

/-- A wrapper without counts of its own allows what its reader does. -/
theorem allows_wrapped {k : ℕ} {i : Reader} {a : ℕ} {s : SliceReader}
    (h : Moved (limited i a) r k ∨ Moved (ref i) r k ∨ Moved (staged s i) r k)
    (hr : r.Allows budget n) : r.wrapped.Allows budget n := by
  cases r with
  | slice r | limited j m | ref j | staged s' j => exact hr
  | parseBudget j a' b' c' d' e' => rcases h with h | h | h <;> cases h.uncounted

end Reader

/-- The limits a parse reads in its context, and the room it needs in what it fills. -/
structure Bounds where
  limits : Limits
  room : Prop

namespace Bounds

/-- Where there is room, so many are no more than the maximum. -/
def Within (B : Bounds) (size maximum : ℕ) : Prop := B.room → size ≤ maximum

/-- So many bytes of unknown fields are within the limit. -/
abbrev Stores (B : Bounds) (size : ℕ) : Prop := B.Within size B.limits.maxUnknownFieldBytes

variable {B : Bounds} {m n : ℕ} {ctx ctx' : Context} {r r' : Reader}

theorem Within.mono {maximum : ℕ} (h : B.Within n maximum) (hmn : m ≤ n) : B.Within m maximum :=
  fun hroom => Nat.le_trans hmn (h hroom)

/-- Enough for a parse that counts no more than `count`. -/
structure Suffice (B : Bounds) (count : ℕ) (ctx : Context) (r : Reader) : Prop where
  room : B.room
  limits : ctx.limits = B.limits
  grants : ctx.AlwaysGrants
  message_le : r.rest.length ≤ B.limits.maxMessageBytes
  string_le : r.rest.length ≤ B.limits.maxStringBytes
  allows (budget : Reader.Budget) : r.Allows budget count

theorem Suffice.mono (h : B.Suffice n ctx r) (hmn : m ≤ n) : B.Suffice m ctx r :=
  { h with allows := fun budget => (h.allows budget).mono hmn }

/-- The context needs the same limits and the same memory, whatever its levels. -/
theorem Suffice.congr_ctx (h : B.Suffice n ctx r) (hl : ctx'.limits = ctx.limits)
    (hg : ctx.AlwaysGrants → ctx'.AlwaysGrants) : B.Suffice n ctx' r :=
  { h with limits := hl.trans h.limits, grants := hg h.grants }

/-- The error of a parse that nests too deep, or that the bounds do not suffice for. -/
def Blocks (B : Bounds) (count : ℕ) (ctx : Context) (r : Reader) (e : Error) : Prop :=
  e.code = .recursionLimit ∨ e.IsLimit ∧ ¬B.Suffice count ctx r

variable {e e' : Error}

theorem Blocks.congr_code (h : B.Blocks n ctx r e) (hc : e'.code = e.code) :
    B.Blocks n ctx r e' := by
  unfold Blocks Error.IsLimit at h ⊢
  rw [hc]
  exact h

theorem Blocks.imp {B' : Bounds} (h : B.Blocks m ctx r e)
    (hs : B'.Suffice n ctx' r' → B.Suffice m ctx r) : B'.Blocks n ctx' r' e := by
  rcases h with h | ⟨h, hn⟩
  · exact .inl h
  · exact .inr ⟨h, fun hc => hn (hs hc)⟩

/-- The parse `t` is `s` past `k` bytes, and has counted no more than `count`. -/
structure Took (B : Bounds) (count : ℕ) (s : Parse O) (t : Parse P) (k : ℕ) : Prop where
  moved : s.reader.Moved t.reader k
  suffice (n : ℕ) (h : B.Suffice (count + n) s.ctx s.reader) : B.Suffice n t.ctx t.reader

namespace Took

variable {s : Parse O} {t : Parse P} {u : Parse T} {j k : ℕ}

theorem intro (hm : s.reader.Moved t.reader k) (hl : t.ctx.limits = s.ctx.limits)
    (hg : s.ctx.AlwaysGrants → t.ctx.AlwaysGrants)
    (ha : ∀ budget n, s.reader.Allows budget (m + n) → t.reader.Allows budget n) :
    B.Took m s t k where
  moved := hm
  suffice n h := by
    have hle : t.reader.rest.length ≤ s.reader.rest.length := by
      rw [hm.rest, List.length_drop]
      exact Nat.sub_le _ _
    exact { room := h.room, limits := hl.trans h.limits, grants := hg h.grants,
            message_le := Nat.le_trans hle h.message_le, string_le := Nat.le_trans hle h.string_le,
            allows := fun budget => ha budget n (h.allows budget) }

/-- A step that allocates at most. -/
theorem spent (h : s.ctx.Spent t.ctx) (hr : t.reader = s.reader) : B.Took m s t 0 := by
  refine intro ?_ h.limits h.alwaysGrants fun budget n ha => ?_
  · rw [hr]
    exact .refl _
  · rw [hr]
    exact ha.mono (Nat.le_add_left n m)

theorem refl (s : Parse O) : B.Took m s s 0 := spent (.refl _) rfl

theorem advance {r : Reader} (hk : k ≤ s.reader.rest.length) (hr : r = s.reader.advance k) :
    B.Took m s { s with reader := r } k := by
  subst hr
  refine intro (.advance hk) rfl id fun budget n ha => ?_
  exact (Reader.allows_advance _ _).mpr (ha.mono (Nat.le_add_left n m))

theorem trans (h : B.Took m s t j) (h' : B.Took n t u k) : B.Took (m + n) s u (j + k) where
  moved := h.moved.trans h'.moved
  suffice i hi := h'.suffice i (h.suffice (n + i) (by rwa [← Nat.add_assoc]))

theorem mono (h : B.Took m s t k) (hmn : m ≤ n) : B.Took n s t k where
  moved := h.moved
  suffice i hi := h.suffice i (hi.mono (Nat.add_le_add_right hmn i))

/-- A parse through a wrapper, seen from the reader in it. -/
theorem unwrap {r : Reader} (h : B.Took m { s with reader := r } t j)
    (hstart : ∀ i, B.Suffice i s.ctx s.reader → B.Suffice i s.ctx r)
    (hmoved : s.reader.Moved t.reader.wrapped k)
    (hallows : ∀ budget i, t.reader.Allows budget i → t.reader.wrapped.Allows budget i) :
    B.Took m s { t with reader := t.reader.wrapped } k where
  moved := hmoved
  suffice i hi := by
    have ht := h.suffice i (hstart _ hi)
    have hle : t.reader.wrapped.rest.length ≤ s.reader.rest.length := by
      rw [hmoved.rest, List.length_drop]
      exact Nat.sub_le _ _
    exact { ht with
            message_le := Nat.le_trans hle hi.message_le
            string_le := Nat.le_trans hle hi.string_le
            allows := fun budget => hallows budget i (ht.allows budget) }

end Took

end Bounds

end Protocyte
