import Protocyte.Names.Identifier
import Mathlib.Data.List.TakeWhile

/-! Portable identifiers: what a spelling is made of, and which ways of putting spellings together
keep it an identifier without a leading or a double underscore. -/
namespace Protocyte.Names

open Foundation

/-- No two underscores stand side by side. -/
def Spaced (text : Text) : Prop := text.IsChain fun a b => ¬(a = '_' ∧ b = '_')

/-- Text that can stand inside a portable identifier. -/
structure Fragment (text : Text) : Prop where
  parts : ∀ c ∈ text, isIdentifierPart c = true
  spaced : Spaced text

/-- Text that is a portable identifier unless it is a keyword. -/
structure Plain (text : Text) : Prop extends Fragment text where
  head : ∃ c ∈ text.head?, c.isAlpha = true

instance (text : Text) : Decidable (Spaced text) :=
  inferInstanceAs (Decidable (text.IsChain fun a b => ¬(a = '_' ∧ b = '_')))

theorem fragment_iff (text : Text) :
    (text.all isIdentifierPart = true ∧ Spaced text) ↔ Fragment text :=
  ⟨fun h => ⟨List.all_eq_true.mp h.1, h.2⟩, fun h => ⟨List.all_eq_true.mpr h.parts, h.spaced⟩⟩

instance (text : Text) : Decidable (Fragment text) := decidable_of_iff _ (fragment_iff text)

theorem plain_iff (text : Text) :
    (Fragment text ∧ text.head?.any Char.isAlpha = true) ↔ Plain text := by
  rw [Option.any_eq_true]
  exact ⟨fun h => ⟨h.1, h.2⟩, fun h => ⟨h.toFragment, h.head⟩⟩

instance (text : Text) : Decidable (Plain text) := decidable_of_iff _ (plain_iff text)

section Characters

theorem isIdentifierPart_of_isAlpha {c : Char} (h : c.isAlpha = true) :
    isIdentifierPart c = true := by
  simp [isIdentifierPart, Char.isAlphanum, h]

theorem ne_underscore_of_isAlpha {c : Char} (h : c.isAlpha = true) : c ≠ '_' := by
  rintro rfl
  exact absurd h (by decide)

theorem ne_underscore_of_isAlphanum {c : Char} (h : c.isAlphanum = true) : c ≠ '_' := by
  rintro rfl
  exact absurd h (by decide)

end Characters

section Fragments

variable {a b t : Text}

theorem spaced_iff : Spaced t ↔ ¬['_', '_'] <:+: t := by
  unfold Spaced
  induction t with
  | nil => simp
  | cons c t ih =>
    rw [List.isChain_cons, ih, List.infix_cons_iff, not_or]
    apply and_congr _ Iff.rfl
    cases t with
    | nil => simp
    | cons d t => simp [List.cons_prefix_cons, eq_comm]

theorem Fragment.append (ha : Fragment a) (hb : Fragment b)
    (h : a.getLast? ≠ some '_' ∨ b.head? ≠ some '_') : Fragment (a ++ b) where
  parts := fun c hc => (List.mem_append.mp hc).elim (ha.parts c) (hb.parts c)
  spaced := by
    apply List.isChain_append.mpr ⟨ha.spaced, hb.spaced, _⟩
    rintro c hc d hd ⟨rfl, rfl⟩
    rcases h with h | h
    · exact h hc
    · exact h hd

theorem Fragment.left (h : Fragment (a ++ b)) : Fragment a where
  parts := fun c hc => h.parts c (List.mem_append_left _ hc)
  spaced := (List.isChain_append.mp h.spaced).1

theorem Fragment.right (h : Fragment (a ++ b)) : Fragment b where
  parts := fun c hc => h.parts c (List.mem_append_right _ hc)
  spaced := (List.isChain_append.mp h.spaced).2.1

theorem Fragment.of_alphanum (h : ∀ c ∈ t, c.isAlphanum = true) : Fragment t where
  parts := fun c hc => by simp [isIdentifierPart, h c hc]
  spaced := by
    induction t with
    | nil => exact List.isChain_nil
    | cons c t ih =>
      rw [Spaced, List.isChain_cons]
      constructor
      · rintro d - ⟨rfl, -⟩
        exact ne_underscore_of_isAlphanum (h '_' List.mem_cons_self) rfl
      · exact ih fun d hd => h d (List.mem_cons_of_mem c hd)

theorem Plain.ne_nil (h : Plain t) : t ≠ [] := by
  rintro rfl
  obtain ⟨c, hc, _⟩ := h.head
  simp at hc

theorem Plain.head_ne (h : Plain t) : t.head? ≠ some '_' := by
  intro heq
  obtain ⟨c, hc, halpha⟩ := h.head
  rw [heq, Option.mem_some_iff] at hc
  exact ne_underscore_of_isAlpha halpha hc.symm

theorem Plain.append (ha : Plain a) (hb : Fragment b)
    (h : a.getLast? ≠ some '_' ∨ b.head? ≠ some '_') : Plain (a ++ b) where
  toFragment := ha.toFragment.append hb h
  head := by
    obtain ⟨c, hc, halpha⟩ := ha.head
    exact ⟨c, by rw [List.head?_append_of_ne_nil _ ha.ne_nil]; exact hc, halpha⟩

/-- A plain spelling can follow any fragment that starts with a letter. -/
theorem Plain.append_plain (ha : Plain a) (hb : Plain b) : Plain (a ++ b) :=
  ha.append hb.toFragment (.inr hb.head_ne)

theorem cppIdentifierMatches_iff :
    cppIdentifierMatches t = true ↔
      (∃ c ∈ t.head?, c.isAlpha = true ∨ c = '_') ∧ ∀ c ∈ t, isIdentifierPart c = true := by
  cases t with
  | nil => simp [cppIdentifierMatches]
  | cons c t =>
    simp only [cppIdentifierMatches, Bool.and_eq_true, Bool.or_eq_true, beq_iff_eq,
      List.all_eq_true, List.head?_cons, Option.mem_some_iff, exists_eq_left', List.forall_mem_cons]
    constructor
    · intro ⟨hhead, hparts⟩
      refine ⟨hhead, ?_, hparts⟩
      rcases hhead with halpha | rfl
      · exact isIdentifierPart_of_isAlpha halpha
      · decide
    · intro ⟨hhead, _, hparts⟩
      exact ⟨hhead, hparts⟩

theorem isPortableIdentifier_iff :
    isPortableIdentifier t = true ↔ Plain t ∧ t ∉ cppKeywords := by
  unfold isPortableIdentifier
  have hkeyword : (!cppKeywords.contains t) = true ↔ t ∉ cppKeywords := by
    rw [Bool.not_eq_true', ← Bool.not_eq_true, List.contains_iff_mem]
  rw [Bool.and_eq_true, Bool.and_eq_true, Bool.and_eq_true, cppIdentifierMatches_iff, hkeyword,
    decide_eq_true_eq, Bool.not_eq_true', decide_eq_false_iff_not, ← spaced_iff]
  constructor
  · intro ⟨⟨⟨⟨⟨c, hc, hstart⟩, hparts⟩, hkeyword⟩, hhead⟩, hspaced⟩
    refine ⟨⟨⟨hparts, hspaced⟩, c, hc, ?_⟩, hkeyword⟩
    rcases hstart with halpha | rfl
    · exact halpha
    · exact absurd hc hhead
  · intro ⟨hplain, hkeyword⟩
    obtain ⟨c, hc, halpha⟩ := hplain.head
    exact ⟨⟨⟨⟨⟨c, hc, .inl halpha⟩, hplain.parts⟩, hkeyword⟩, hplain.head_ne⟩, hplain.spaced⟩

theorem Plain.of_portable (h : isPortableIdentifier t = true) : Plain t :=
  (isPortableIdentifier_iff.mp h).1

end Fragments

section Stems

variable {t : Text}

/-- A plain spelling that ends in another character than an underscore. -/
structure Word (text : Text) : Prop extends Plain text where
  last : text.getLast? ≠ some '_'

/-- Text that is a word once its trailing underscores are removed. -/
def Stem (text : Text) : Prop := Word (rstripUnderscores text)

theorem word_iff (text : Text) : (Plain text ∧ text.getLast? ≠ some '_') ↔ Word text :=
  ⟨fun h => ⟨h.1, h.2⟩, fun h => ⟨h.toPlain, h.last⟩⟩

instance (text : Text) : Decidable (Word text) := decidable_of_iff _ (word_iff text)

theorem rstripUnderscores_eq (t : Text) :
    ∃ n, t = rstripUnderscores t ++ List.replicate n '_' := by
  refine ⟨(t.reverse.takeWhile (· == '_')).length, ?_⟩
  have hsplit := List.takeWhile_append_dropWhile (p := (· == '_')) (l := t.reverse)
  have hunderscores : t.reverse.takeWhile (· == '_') =
      List.replicate (t.reverse.takeWhile (· == '_')).length '_' := by
    apply List.eq_replicate_iff.mpr ⟨rfl, _⟩
    intro c hc
    exact beq_iff_eq.mp (List.mem_takeWhile_imp (p := (· == '_')) hc)
  have hreverse := congrArg List.reverse hsplit
  rw [List.reverse_append, List.reverse_reverse, hunderscores, List.reverse_replicate] at hreverse
  exact hreverse.symm

theorem getLast?_rstripUnderscores (t : Text) : (rstripUnderscores t).getLast? ≠ some '_' := by
  unfold rstripUnderscores
  rw [List.getLast?_reverse]
  intro h
  have hhead := List.head?_dropWhile_not (fun c => c == '_') t.reverse
  rw [h] at hhead
  exact absurd hhead (by decide)

theorem rstripUnderscores_append_underscore (t : Text) :
    rstripUnderscores (t ++ ['_']) = rstripUnderscores t := by
  unfold rstripUnderscores
  rw [List.reverse_append]
  rfl

theorem Word.stem (h : Word t) : Stem t := by
  unfold Stem
  have heq : rstripUnderscores t = t := by
    unfold rstripUnderscores
    have hhead : t.reverse.head? ≠ some '_' := by
      rw [List.head?_reverse]
      exact h.last
    cases hr : t.reverse with
    | nil => rw [List.reverse_eq_nil_iff.mp hr]; rfl
    | cons c rest =>
      have hc : ¬(c == '_') = true := by
        intro heq
        rw [hr, beq_iff_eq.mp heq] at hhead
        exact hhead rfl
      rw [List.dropWhile_cons_of_neg (p := (· == '_')) hc, ← hr, List.reverse_reverse]
  rwa [heq]

theorem Plain.stem (h : Plain t) : Stem t := by
  obtain ⟨n, hn⟩ := rstripUnderscores_eq t
  have hfragment : Fragment (rstripUnderscores t) := by
    have hall := h.toFragment
    rw [hn] at hall
    exact hall.left
  refine ⟨⟨hfragment, ?_⟩, getLast?_rstripUnderscores t⟩
  cases hr : rstripUnderscores t with
  | nil =>
    rw [hr, List.nil_append] at hn
    obtain ⟨c, hc, halpha⟩ := h.head
    rw [hn] at hc
    have hmem := List.mem_of_mem_head? hc
    rw [List.eq_of_mem_replicate hmem] at halpha
    exact absurd halpha (by decide)
  | cons d rest =>
    obtain ⟨c, hc, halpha⟩ := h.head
    rw [hn, hr] at hc
    exact ⟨c, hc, halpha⟩

theorem Stem.append_underscore (h : Stem t) : Stem (t ++ ['_']) := by
  unfold Stem
  rwa [rstripUnderscores_append_underscore]

end Stems

section Spellings

variable {a b : Text}

private theorem word_of_keywordSpelling : ∀ s ∈ cppKeywordSpellings,
    (s.toByteArray.data.toList.all fun b => decide (b.toNat < 128)) = true ∧
      Word (Utf8.asciiText s) ∧ (Utf8.asciiText s).length ≤ 16 := by
  decide +kernel

theorem word_of_mem_cppKeywords {k : Text} (h : k ∈ cppKeywords) : Word k ∧ k.length ≤ 16 := by
  obtain ⟨s, hs, rfl⟩ := List.mem_map.mp h
  obtain ⟨hascii, hword⟩ := word_of_keywordSpelling s hs
  rwa [Utf8.toList_eq_asciiText hascii]

theorem plain_encodedIdentifier (name : Text) : Plain (encodedIdentifier name) := by
  have hleading : Plain cppReservedIdentifierPrefix := by decide
  have hhex : ∀ c ∈ hexdigest (Utf8.encode name), c.isAlphanum = true :=
    fun c hc => isAlphanum_of_mem_hexdigest hc
  apply hleading.append (Fragment.of_alphanum hhex)
  right
  intro h
  exact ne_underscore_of_isAlphanum (hhex '_' (List.mem_of_mem_head? h)) rfl

theorem plain_cppIdentifier (name : Text) : Plain (cppIdentifier name) := by
  unfold cppIdentifier
  split_ifs with hmatch hkeyword hreserved
  · exact plain_encodedIdentifier name
  · have hword := (word_of_mem_cppKeywords (List.contains_iff_mem.mp hkeyword)).1
    exact hword.toPlain.append (by decide) (.inl hword.last)
  · exact plain_encodedIdentifier name
  · rw [not_or, not_or] at hreserved
    obtain ⟨hhead, hspaced, _⟩ := hreserved
    rw [Bool.not_eq_false] at hmatch
    obtain ⟨⟨c, hc, hstart⟩, hparts⟩ := cppIdentifierMatches_iff.mp hmatch
    refine ⟨⟨hparts, spaced_iff.mpr hspaced⟩, c, hc, ?_⟩
    rcases hstart with halpha | rfl
    · exact halpha
    · exact absurd hc hhead

theorem word_cppEmittedDerivableIdentifier (h : Plain a) :
    Word (cppEmittedDerivableIdentifier a) := by
  have hsuffix : Word cppDerivableIdentifierSuffix := by decide
  unfold cppEmittedDerivableIdentifier
  split_ifs with hlast
  · refine ⟨h.append_plain hsuffix.toPlain, ?_⟩
    rw [List.getLast?_append_of_ne_nil _ hsuffix.ne_nil]
    exact hsuffix.last
  · exact ⟨h, hlast⟩

theorem word_cppDerivableIdentifier (name : Text) : Word (cppDerivableIdentifier name) :=
  word_cppEmittedDerivableIdentifier (plain_cppIdentifier name)

theorem plain_cppDerivableIdentifier (name : Text) : Plain (cppDerivableIdentifier name) :=
  (word_cppDerivableIdentifier name).toPlain

end Spellings

end Protocyte.Names
