import Protocyte.Names.Portable

/-! Different schema names have different C++ spellings: the escape of a keyword, the encoding and
the names that stay as they are do not meet. -/
namespace Protocyte.Names

open Foundation

section Spellings

variable {name other spelling : Text}

theorem encodedIdentifier_inj (h : encodedIdentifier name = encodedIdentifier other) :
    name = other := by
  have hdigits := List.append_cancel_left h
  exact Utf8.encode_inj (hexdigest_inj hdigits)

theorem length_cppReservedIdentifierPrefix : cppReservedIdentifierPrefix.length = 18 := by decide

/-- An encoded name is longer than any keyword, escaped or not. -/
theorem length_encodedIdentifier (name : Text) : 18 ≤ (encodedIdentifier name).length := by
  unfold encodedIdentifier
  rw [List.length_append, length_cppReservedIdentifierPrefix]
  omega

/-- The three ways to spell a name, told apart by how the spelling looks. -/
inductive Spelled (name spelling : Text) : Prop
  | encoded (h : spelling = encodedIdentifier name)
  | keyword (h : name ∈ cppKeywords) (escaped : spelling = name ++ ['_'])
  | plain (h : spelling = name) (keyword : name ∉ cppKeywords)
      (prefixed : ¬cppReservedIdentifierPrefix <+: name) (escaped : name ∉ keywordEscapedIdentifiers)

theorem spelled_cppIdentifier (name : Text) : Spelled name (cppIdentifier name) := by
  unfold cppIdentifier
  split_ifs with hmatch hkeyword hreserved
  · exact .encoded rfl
  · exact .keyword (List.contains_iff_mem.mp hkeyword) rfl
  · exact .encoded rfl
  · rw [List.contains_iff_mem] at hkeyword
    rw [List.contains_iff_mem, not_or, not_or, not_or] at hreserved
    exact .plain rfl hkeyword hreserved.2.2.1 hreserved.2.2.2

theorem not_keyword_of_encoded (h : other ∈ cppKeywords)
    (heq : encodedIdentifier name = other ++ ['_']) : False := by
  have hlength := length_encodedIdentifier name
  have hkeyword := (word_of_mem_cppKeywords h).2
  rw [heq, List.length_append, List.length_singleton] at hlength
  omega

/-- A spelling tells the name. -/
theorem Spelled.unique (h : Spelled name spelling) (h' : Spelled other spelling) : name = other := by
  cases h with
  | encoded h =>
    cases h' with
    | encoded h' => exact encodedIdentifier_inj (h.symm.trans h')
    | keyword hkeyword escaped =>
      exact (not_keyword_of_encoded hkeyword (h.symm.trans escaped)).elim
    | plain h' _ prefixed _ => exact absurd ⟨_, h.symm.trans h'⟩ prefixed
  | keyword hkeyword escaped =>
    cases h' with
    | encoded h' => exact (not_keyword_of_encoded hkeyword (h'.symm.trans escaped)).elim
    | keyword _ escaped' => exact List.append_cancel_right (escaped.symm.trans escaped')
    | plain h' _ _ hescaped =>
      have hmem : name ++ ['_'] ∈ keywordEscapedIdentifiers := List.mem_map_of_mem hkeyword
      rw [← escaped, h'] at hmem
      exact absurd hmem hescaped
  | plain h _ prefixed hescaped =>
    cases h' with
    | encoded h' => exact absurd ⟨_, h'.symm.trans h⟩ prefixed
    | keyword hkeyword escaped =>
      have hmem : other ++ ['_'] ∈ keywordEscapedIdentifiers := List.mem_map_of_mem hkeyword
      rw [← escaped, h] at hmem
      exact absurd hmem hescaped
    | plain h' => exact h.symm.trans h'

theorem notMem_cppKeywords_cppIdentifier (name : Text) : cppIdentifier name ∉ cppKeywords := by
  intro hmem
  obtain ⟨hword, hle⟩ := word_of_mem_cppKeywords hmem
  have hspelled := spelled_cppIdentifier name
  cases hspelled with
  | encoded h =>
    have hlength := length_encodedIdentifier name
    rw [h] at hle
    omega
  | keyword hkeyword escaped =>
    apply hword.last
    rw [escaped, List.getLast?_concat]
  | plain h keyword =>
    rw [h] at hmem
    exact keyword hmem

end Spellings

/-- The spelling of a name is a portable identifier that no other name has. -/
theorem cppIdentifier_injective :
    Function.Injective cppIdentifier ∧
      ∀ name, isPortableIdentifier (cppIdentifier name) = true := by
  constructor
  · intro name other h
    have hspelled := spelled_cppIdentifier name
    rw [h] at hspelled
    exact hspelled.unique (spelled_cppIdentifier other)
  · intro name
    exact isPortableIdentifier_iff.mpr
      ⟨plain_cppIdentifier name, notMem_cppKeywords_cppIdentifier name⟩

end Protocyte.Names
