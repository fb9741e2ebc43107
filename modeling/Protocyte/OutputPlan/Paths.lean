import Protocyte.Paths.Portable
import Protocyte.Foundation.Digest

/-! The paths of an output plan: the generated files, relative to their root, and the directories, as
an unchanged file system projects them. -/
namespace Protocyte.OutputPlan

open Foundation

abbrev Text := List Char

inductive CoordinatorError
  | failed (message : String) (context : Text)
  /-- `relative.parts[0]` of a path that has no parts. -/
  | index
deriving DecidableEq, Repr

abbrev Result := Except CoordinatorError

def failed {α : Type} (message : String) (context : Text) : Result α :=
  .error (.failed message context)

/-- `str.casefold`, which folds one character after the other. Only separators and dots fold to
separators and dots. -/
structure Casefolding where
  fold : Char → Text
  fold_slash : fold '/' = ['/']
  fold_dot : fold '.' = ['.']
  notMem_slash : ∀ c, c ≠ '/' → '/' ∉ fold c

namespace Casefolding

def text (casefolding : Casefolding) (value : Text) : Text := value.flatMap casefolding.fold

end Casefolding

section Relative

/-- `value.replace("\\", "/")` -/
def replaceBackslashes (value : Text) : Text := value.map fun c => if c = '\\' then '/' else c

/-- `PurePosixPath(value).parts` of a relative path -/
def posixParts (value : Text) : List Text :=
  (value.splitOn '/').filter fun part => part ≠ [] ∧ part ≠ ['.']

/-- `relative.as_posix()` of a path that has parts -/
def asPosix (parts : List Text) : Text := ['/'].intercalate parts

def generatedSuffixes : List Text :=
  [".protocyte.cpp".toList, ".protocyte.hpp".toList, "/runtime.hpp".toList]

variable (casefolding : Casefolding)

def validateRelativePath (value : Text) : Result Text :=
  let value := replaceBackslashes value
  let parts := posixParts value
  if value = [] || value.head? = some '/' || parts.any [[], ['.'], ['.', '.']].contains then
    failed "output plan contains an unsafe generated path" value
  else
    match parts with
    | [] => .error .index
    | first :: _ =>
      if casefolding.text first = ".protocyte".toList ||
          !generatedSuffixes.any fun suffix => suffix.isSuffixOf (casefolding.text value) then
        failed "output plan contains an unsafe generated path" value
      else .ok (asPosix parts)

/-- A runtime header that stands in the root itself, however the path there is written. -/
def BareRuntime (value : Text) : Prop :=
  (posixParts (replaceBackslashes value)).map casefolding.text = ["runtime.hpp".toList]

instance (value : Text) : Decidable (BareRuntime casefolding value) :=
  inferInstanceAs (Decidable (_ = _))

end Relative

section Closure

variable {casefolding : Casefolding}

theorem fold_append (a b : Text) :
    casefolding.text (a ++ b) = casefolding.text a ++ casefolding.text b :=
  List.flatMap_append

theorem slash_notMem_text {value : Text} (h : '/' ∉ value) : '/' ∉ casefolding.text value := by
  intro hmem
  obtain ⟨c, hc, hfold⟩ := List.mem_flatMap.mp hmem
  exact casefolding.notMem_slash c (fun heq => h (heq ▸ hc)) hfold

theorem fold_separated (front last : Text) : casefolding.text (front ++ '/' :: last) =
    casefolding.text front ++ '/' :: casefolding.text last := by
  rw [fold_append]
  show _ ++ (casefolding.fold '/' ++ casefolding.text last) = _
  rw [casefolding.fold_slash]
  rfl

/-- What follows the last separator. -/
theorem takeWhile_reverse {front last : Text} (h : '/' ∉ last) :
    (front ++ '/' :: last).reverse.takeWhile (· ≠ '/') = last.reverse := by
  have hlast : ∀ c ∈ last.reverse, decide (c ≠ '/') = true := by
    intro c hc
    apply decide_eq_true
    rintro rfl
    exact h (List.mem_reverse.mp hc)
  rw [List.reverse_append, List.reverse_cons, List.append_assoc, List.takeWhile_append_of_pos hlast]
  simp

/-- A suffix without a separator is one of the last component. -/
theorem suffix_separated {suffix front last : Text} (h : '/' ∉ suffix) :
    suffix <:+ front ++ '/' :: last ↔ suffix <:+ last := by
  constructor
  · intro ⟨rest, heq⟩
    rcases List.append_eq_append_iff.mp heq with ⟨middle, -, hmiddle⟩ | ⟨middle, -, hmiddle⟩
    · cases middle with
      | nil =>
        rw [List.nil_append] at hmiddle
        exact absurd (hmiddle ▸ List.mem_cons_self) h
      | cons c middle =>
        exact absurd (by rw [hmiddle]; simp) h
    · cases middle with
      | nil =>
        rw [List.nil_append] at hmiddle
        exact absurd (hmiddle ▸ List.mem_cons_self) h
      | cons c middle =>
        rw [List.cons_append] at hmiddle
        exact ⟨middle, (List.cons.inj hmiddle).2.symm⟩
  · exact fun hsuffix => hsuffix.trans ⟨front ++ ['/'], by simp⟩

theorem slash_suffix_separated {name front last : Text} (hname : '/' ∉ name) (hlast : '/' ∉ last) :
    '/' :: name <:+ front ++ '/' :: last ↔ name = last := by
  constructor
  · intro ⟨rest, heq⟩
    have hname' := @takeWhile_reverse rest name hname
    rw [heq, takeWhile_reverse hlast] at hname'
    exact (List.reverse_inj.mp hname').symm
  · rintro rfl
    exact ⟨front, rfl⟩

theorem asPosix_concat {init : List Text} (h : init ≠ []) (last : Text) :
    asPosix (init ++ [last]) = asPosix init ++ '/' :: last := by
  unfold asPosix
  induction init with
  | nil => exact absurd rfl h
  | cons first init ih =>
    cases init with
    | nil =>
      rw [List.singleton_append, List.intercalate_cons_cons, List.intercalate_singleton,
        List.intercalate_singleton, List.append_assoc, List.singleton_append]
    | cons second init =>
      rw [List.cons_append, List.intercalate_cons_of_ne_nil (by simp),
        List.intercalate_cons_of_ne_nil (by simp), ih (by simp)]
      simp

/-- The last component of a path has one of the suffixes, or is a runtime header below another
component. -/
theorem generatedSuffixes_iff {init : List Text} {last : Text} (hlast : '/' ∉ last) :
    (generatedSuffixes.any fun suffix =>
        suffix.isSuffixOf (casefolding.text (asPosix (init ++ [last])))) = true ↔
      ".protocyte.cpp".toList <:+ casefolding.text last ∨
        ".protocyte.hpp".toList <:+ casefolding.text last ∨
          ("runtime.hpp".toList = casefolding.text last ∧ init ≠ []) := by
  have hcpp : '/' ∉ ".protocyte.cpp".toList := by decide
  have hhpp : '/' ∉ ".protocyte.hpp".toList := by decide
  have hruntime : '/' ∉ "runtime.hpp".toList := by decide
  have hslash : "/runtime.hpp".toList = '/' :: "runtime.hpp".toList := by decide
  have hfold := @slash_notMem_text casefolding last hlast
  unfold generatedSuffixes
  simp only [List.any_cons, List.any_nil, Bool.or_false, Bool.or_eq_true, List.isSuffixOf_iff_suffix]
  rw [hslash]
  by_cases hinit : init = []
  · have hasPosix : asPosix (init ++ [last]) = last := by
      rw [hinit]
      exact List.intercalate_singleton
    rw [hasPosix]
    have hnot : ¬ '/' :: "runtime.hpp".toList <:+ casefolding.text last :=
      fun h => hfold (h.subset List.mem_cons_self)
    simp only [hnot, hinit, ne_eq, not_true, and_false, or_false]
  · rw [asPosix_concat hinit, fold_separated, suffix_separated hcpp, suffix_separated hhpp,
      slash_suffix_separated hruntime hfold]
    simp only [hinit, ne_eq, not_false_iff, and_true]

/-- A character of a path is a separator or in one of its components. -/
private theorem mem_asPosix_iff {parts : List Text} {part : Text} {c : Char} (hpart : part ∈ parts)
    (hc : c ∈ part) : c ∈ asPosix parts := by
  unfold asPosix
  induction parts with
  | nil => exact absurd hpart List.not_mem_nil
  | cons first rest ih =>
    cases rest with
    | nil =>
      rw [List.intercalate_singleton, ← List.mem_singleton.mp hpart]
      exact hc
    | cons second rest =>
      rw [List.intercalate_cons_cons]
      rcases List.mem_cons.mp hpart with rfl | hpart
      · exact List.mem_append_left _ (List.mem_append_left _ hc)
      · exact List.mem_append_right _ (ih hpart)

private theorem head?_asPosix {first : Text} (hne : first ≠ []) (rest : List Text) :
    (asPosix (first :: rest)).head? = first.head? := by
  unfold asPosix
  cases rest with
  | nil => rw [List.intercalate_singleton]
  | cons second rest =>
    rw [List.intercalate_cons_cons, List.append_assoc, List.head?_append_of_ne_nil _ hne]

theorem posixParts_asPosix {parts : List Text} (hne : parts ≠ [])
    (hparts : ∀ part ∈ parts, '/' ∉ part ∧ part ≠ [] ∧ part ≠ ['.']) :
    posixParts (asPosix parts) = parts := by
  unfold posixParts asPosix
  rw [List.splitOn_intercalate _ (fun part hpart => (hparts part hpart).1) hne]
  apply List.filter_eq_self.mpr
  intro part hpart
  exact decide_eq_true (hparts part hpart).2

theorem mem_posixParts {value part : Text} (h : part ∈ posixParts value) :
    '/' ∉ part ∧ part ≠ [] ∧ part ≠ ['.'] := by
  obtain ⟨hsplit, hpart⟩ := List.mem_filter.mp h
  exact ⟨Paths.notMem_of_mem_splitOn hsplit, of_decide_eq_true hpart⟩

theorem mem_of_mem_posixParts {value part : Text} {c : Char} (h : part ∈ posixParts value)
    (hc : c ∈ part) : c ∈ value := by
  have hvalue : asPosix (value.splitOn '/') = value := List.intercalate_splitOn '/'
  rw [← hvalue]
  exact mem_asPosix_iff (List.mem_filter.mp h).1 hc

/-- What the checks ask of a path whose backslashes are replaced. -/
structure SafePath (casefolding : Casefolding) (value : Text) : Prop where
  ne_nil : value ≠ []
  relative : value.head? ≠ some '/'
  parts : ∀ part ∈ posixParts value, part ≠ ['.', '.']
  first : ∃ first, (posixParts value).head? = some first ∧
    casefolding.text first ≠ ".protocyte".toList
  suffixes : (generatedSuffixes.any fun suffix =>
    suffix.isSuffixOf (casefolding.text value)) = true

theorem validateRelativePath_eq_ok {value relative : Text} :
    validateRelativePath casefolding value = .ok relative ↔
      SafePath casefolding (replaceBackslashes value) ∧
        relative = asPosix (posixParts (replaceBackslashes value)) := by
  have hdots : (posixParts (replaceBackslashes value)).any [[], ['.'], ['.', '.']].contains = true ↔
      ∃ part ∈ posixParts (replaceBackslashes value), part = ['.', '.'] := by
    rw [List.any_eq_true]
    constructor
    · intro ⟨part, hpart, hcontains⟩
      obtain ⟨-, hne, hdot⟩ := mem_posixParts hpart
      refine ⟨part, hpart, ?_⟩
      simpa [hne, hdot] using List.contains_iff_mem.mp hcontains
    · intro ⟨part, hpart, heq⟩
      refine ⟨part, hpart, ?_⟩
      rw [heq]
      decide
  unfold validateRelativePath
  simp only [Bool.or_eq_true, decide_eq_true_eq, hdots]
  split_ifs with hunsafe'
  · refine iff_of_false (by simp [failed]) ?_
    intro ⟨hsafe, _⟩
    rcases hunsafe' with (hnil | hhead) | ⟨part, hpart, hdots⟩
    · exact hsafe.ne_nil hnil
    · exact hsafe.relative hhead
    · exact hsafe.parts part hpart hdots
  · push Not at hunsafe'
    obtain ⟨⟨hnil, hhead⟩, hparts⟩ := hunsafe'
    cases hsplit : posixParts (replaceBackslashes value) with
    | nil =>
      refine iff_of_false (by simp) ?_
      intro ⟨hsafe, _⟩
      obtain ⟨first, hfirst, -⟩ := hsafe.first
      rw [hsplit] at hfirst
      exact absurd hfirst (by simp)
    | cons first rest =>
      dsimp only
      rw [hsplit] at hparts
      split_ifs with hcheck
      · refine iff_of_false (by simp [failed]) ?_
        intro ⟨hsafe, _⟩
        obtain ⟨first', hfirst, hne⟩ := hsafe.first
        rw [hsplit] at hfirst
        rw [← Option.some.inj hfirst] at hne
        rcases hcheck with hreserved | hsuffix
        · exact hne hreserved
        · rw [hsafe.suffixes] at hsuffix
          exact absurd hsuffix Bool.false_ne_true
      · rw [not_or, Bool.not_eq_true', Bool.not_eq_false] at hcheck
        rw [Except.ok.injEq]
        constructor
        · rintro rfl
          refine ⟨⟨hnil, hhead, ?_, ⟨first, ?_, hcheck.1⟩, hcheck.2⟩, rfl⟩
          · rw [hsplit]
            exact hparts
          · rw [hsplit]
            rfl
        · exact fun h => h.2.symm

/-- The last component of a path with one of the suffixes is a part of it. -/
private theorem SafePath.exists_last {value : Text} (h : SafePath casefolding value) :
    ∃ before init last, value = asPosix (before ++ [last]) ∧ '/' ∉ last ∧
      posixParts value = init ++ [last] := by
  have hne : value.splitOn '/' ≠ [] := List.splitOn_ne_nil _ _
  have hsplit := (List.dropLast_append_getLast hne).symm
  have hvalue : asPosix (value.splitOn '/') = value := List.intercalate_splitOn '/'
  set last := (value.splitOn '/').getLast hne
  have hlast : '/' ∉ last := Paths.notMem_of_mem_splitOn (List.getLast_mem hne)
  have hwhole : value = asPosix ((value.splitOn '/').dropLast ++ [last]) := by
    rw [← hsplit]
    exact hvalue.symm
  have hsuffixes := h.suffixes
  rw [hwhole, generatedSuffixes_iff hlast] at hsuffixes
  have hlong : 11 ≤ (casefolding.text last).length := by
    rcases hsuffixes with hcpp | hhpp | ⟨hruntime, -⟩
    · exact le_trans (by decide) hcpp.length_le
    · exact le_trans (by decide) hhpp.length_le
    · rw [← hruntime]
      decide
  have hpart : last ≠ [] ∧ last ≠ ['.'] := by
    constructor
    · intro hnil
      rw [hnil] at hlong
      exact absurd hlong (by simp [Casefolding.text])
    · intro hdot
      have hfold : casefolding.text ['.'] = ['.'] := by
        show casefolding.fold '.' ++ [] = ['.']
        rw [casefolding.fold_dot]
        rfl
      rw [hdot, hfold] at hlong
      exact absurd hlong (by decide)
  refine ⟨_, (value.splitOn '/').dropLast.filter fun part => part ≠ [] ∧ part ≠ ['.'], last, hwhole,
    hlast, ?_⟩
  unfold posixParts
  rw [hsplit, List.filter_append, List.dropLast_concat, List.filter_singleton]
  simp [hpart]

/-- Once normalised, a path with one of the suffixes keeps it, but for a runtime header left alone. -/
theorem SafePath.normalized_iff {value : Text} (h : SafePath casefolding value) :
    SafePath casefolding (asPosix (posixParts value)) ↔
      (posixParts value).map casefolding.text ≠ ["runtime.hpp".toList] := by
  obtain ⟨before, init, last, hvalue, hlast, hparts⟩ := h.exists_last
  have hsame : posixParts (asPosix (posixParts value)) = posixParts value := by
    apply posixParts_asPosix
    · rw [hparts]
      simp
    · exact fun part hpart => mem_posixParts hpart
  have hsuffixes := h.suffixes
  rw [hvalue, generatedSuffixes_iff hlast] at hsuffixes
  have hbare : (posixParts value).map casefolding.text = ["runtime.hpp".toList] ↔
      "runtime.hpp".toList = casefolding.text last ∧ init = [] := by
    rw [hparts, List.map_append]
    cases init with
    | nil => simp [eq_comm]
    | cons first init => simp
  have hshort : ∀ suffix : Text, 12 ≤ suffix.length → suffix <:+ casefolding.text last →
      "runtime.hpp".toList ≠ casefolding.text last := by
    intro suffix hlength hsuffix heq
    have hle := hlength.trans hsuffix.length_le
    rw [← heq] at hle
    exact absurd hle (by decide)
  rw [ne_eq, hbare]
  constructor
  · intro hsafe hruntime
    have hsuffixes' := hsafe.suffixes
    rw [hparts, generatedSuffixes_iff hlast] at hsuffixes'
    rcases hsuffixes' with hcpp | hhpp | hinit
    · exact hshort _ (by decide) hcpp hruntime.1
    · exact hshort _ (by decide) hhpp hruntime.1
    · exact hinit.2 hruntime.2
  · intro hnot
    obtain ⟨first, hfirst, hreserved⟩ := h.first
    obtain ⟨rest, hrest⟩ : ∃ rest, posixParts value = first :: rest := by
      cases hcases : posixParts value with
      | nil => rw [hcases] at hfirst; exact absurd hfirst (by simp)
      | cons other rest =>
        rw [hcases] at hfirst
        exact ⟨rest, by rw [Option.some.inj hfirst]⟩
    obtain ⟨hslash, hne, -⟩ := mem_posixParts (hrest ▸ List.mem_cons_self : first ∈ posixParts value)
    have hhead : (asPosix (posixParts value)).head? = first.head? := by
      rw [hrest]
      exact head?_asPosix hne rest
    refine ⟨?_, ?_, ?_, ?_, ?_⟩
    · intro hnil
      rw [hnil, List.head?_nil] at hhead
      exact hne (List.head?_eq_none_iff.mp hhead.symm)
    · rw [hhead]
      exact fun heq => hslash (List.mem_of_mem_head? heq)
    · rw [hsame]
      exact h.parts
    · rw [hsame]
      exact ⟨first, hfirst, hreserved⟩
    · rw [hparts, generatedSuffixes_iff hlast]
      rcases hsuffixes with hcpp | hhpp | ⟨hruntime, -⟩
      · exact .inl hcpp
      · exact .inr (.inl hhpp)
      · exact .inr (.inr ⟨hruntime, fun hinit => hnot ⟨hruntime, hinit⟩⟩)

private theorem mem_of_mem_asPosix {parts : List Text} {c : Char} (hc : c ∈ asPosix parts) :
    c = '/' ∨ ∃ part ∈ parts, c ∈ part := by
  unfold asPosix at hc
  induction parts with
  | nil => exact absurd hc List.not_mem_nil
  | cons first rest ih =>
    cases rest with
    | nil =>
      rw [List.intercalate_singleton] at hc
      exact .inr ⟨first, List.mem_cons_self, hc⟩
    | cons second rest =>
      rw [List.intercalate_cons_cons] at hc
      rcases List.mem_append.mp hc with hc | hc
      · rcases List.mem_append.mp hc with hc | hc
        · exact .inr ⟨first, List.mem_cons_self, hc⟩
        · exact .inl (List.mem_singleton.mp hc)
      · rcases ih hc with heq | ⟨part, hpart, hc⟩
        · exact .inl heq
        · exact .inr ⟨part, List.mem_cons_of_mem _ hpart, hc⟩

theorem replaceBackslashes_of_notMem {value : Text} (h : '\\' ∉ value) :
    replaceBackslashes value = value := by
  have hid : ∀ c ∈ value, (if c = '\\' then '/' else c) = id c := by
    intro c hc
    apply if_neg
    rintro rfl
    exact h hc
  unfold replaceBackslashes
  rw [List.map_congr_left hid, List.map_id]

theorem backslash_notMem (value : Text) : '\\' ∉ replaceBackslashes value := by
  intro h
  obtain ⟨c, -, hc⟩ := List.mem_map.mp h
  split_ifs at hc with heq
  · exact absurd hc (by decide)
  · exact heq hc

/-- The path that is stored passes the checks again, unless it is a runtime header in the root. -/
theorem validateRelativePath_again {value relative : Text}
    (h : validateRelativePath casefolding value = .ok relative) (relative' : Text) :
    validateRelativePath casefolding relative = .ok relative' ↔
      relative' = relative ∧ ¬BareRuntime casefolding value := by
  obtain ⟨hsafe, rfl⟩ := validateRelativePath_eq_ok.mp h
  have hclean : replaceBackslashes (asPosix (posixParts (replaceBackslashes value))) =
      asPosix (posixParts (replaceBackslashes value)) := by
    apply replaceBackslashes_of_notMem
    intro hmem
    rcases mem_of_mem_asPosix hmem with heq | ⟨part, hpart, hc⟩
    · exact absurd heq (by decide)
    · exact backslash_notMem value (mem_of_mem_posixParts hpart hc)
  have hsame : posixParts (asPosix (posixParts (replaceBackslashes value))) =
      posixParts (replaceBackslashes value) := by
    apply posixParts_asPosix
    · intro hnil
      obtain ⟨first, hfirst, -⟩ := hsafe.first
      rw [hnil] at hfirst
      exact absurd hfirst (by simp)
    · exact fun part hpart => mem_posixParts hpart
  rw [validateRelativePath_eq_ok, hclean, hsame, hsafe.normalized_iff, and_comm]
  rfl

end Closure

end Protocyte.OutputPlan
