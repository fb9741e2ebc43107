import Protocyte.Constants.Completeness
import Protocyte.Constants.Conformance

/-! Two requests with the same declarations in different orders: names mean the same constants, so
both are accepted or neither is, with the same values. -/
namespace Protocyte.Constants

open Foundation

variable {F : Type}

structure SameMessage (m m' : Message F) : Prop where
  owner : m.toOwner = m'.toOwner
  isMapEntry : m.isMapEntry = m'.isMapEntry
  constants : ∀ constant, constant ∈ m.constants ↔ constant ∈ m'.constants
  fields : ∀ field, field ∈ m.fields ↔ field ∈ m'.fields

/-- The same packages and messages with the same members, in any order and spread over the files
in any way. -/
structure SameDeclarations (s s' : Schema F) : Prop where
  packages : ∀ package constant,
    constant ∈ constantsOfPackage s.files package ↔ constant ∈ constantsOfPackage s'.files package
  messages : ∀ m ∈ s.messages, ∃ m' ∈ s'.messages, SameMessage m m'
  messages' : ∀ m' ∈ s'.messages, ∃ m ∈ s.messages, SameMessage m m'

theorem SameMessage.symm {m m' : Message F} (h : SameMessage m m') : SameMessage m' m where
  owner := h.owner.symm
  isMapEntry := h.isMapEntry.symm
  constants constant := (h.constants constant).symm
  fields field := (h.fields field).symm

namespace SameDeclarations

theorem symm {s s' : Schema F} (h : SameDeclarations s s') : SameDeclarations s' s where
  packages package constant := (h.packages package constant).symm
  messages m' hm' := by
    obtain ⟨m, hm, hsame⟩ := h.messages' m' hm'
    exact ⟨m, hm, hsame.symm⟩
  messages' m hm := by
    obtain ⟨m', hm', hsame⟩ := h.messages m hm
    exact ⟨m', hm', hsame.symm⟩

variable {s s' : Schema F} (h : SameDeclarations s s')

section Lookup

include h

theorem packageTarget (package name : String) :
    s.packageTarget package name = s'.packageTarget package name := by
  unfold Schema.packageTarget Schema.packageConstant
  rw [find_eq_of_mem_iff (s'.packageNames package) (h.packages package) name]

/-- A full name stands for corresponding messages. -/
theorem message {fullName : String} {m : Message F} (hm : s.message fullName = some m) :
    ∃ m', s'.message fullName = some m' ∧ m' ∈ s'.messages ∧ SameMessage m m' := by
  obtain ⟨m', hm', hsame⟩ := h.messages m (List.mem_of_find?_eq_some hm)
  refine ⟨m', ?_, hm', hsame⟩
  rw [← s.message_fullName hm, hsame.owner]
  exact s'.message_of_mem hm'

theorem message_none {fullName : String} (hm : s.message fullName = none) :
    s'.message fullName = none := by
  cases hm' : s'.message fullName with
  | none => rfl
  | some m' =>
    obtain ⟨m, hfound, -, -⟩ := h.symm.message hm'
    rw [hm] at hfound
    cases hfound

omit h in
theorem target_eq {m m' : Message F} (hm' : m' ∈ s'.messages) (hsame : SameMessage m m')
    (name : String) : m.target name = m'.target name := by
  unfold Message.target
  rw [find_eq_of_mem_iff (s'.constantNames m' hm') hsame.constants name, hsame.owner]

theorem scopedTarget (fullName name : String) :
    s.scopedTarget fullName name = s'.scopedTarget fullName name := by
  unfold Schema.scopedTarget
  cases hm : s.message fullName with
  | none => rw [h.message_none hm]
  | some m =>
    obtain ⟨m', hfound, hm', hsame⟩ := h.message hm
    rw [hfound]
    exact target_eq hm' hsame name

theorem findMessage (owner : Owner) (scope : String) :
    match s.findMessage owner scope with
    | some m => ∃ m', s'.findMessage owner scope = some m' ∧ m' ∈ s'.messages ∧ SameMessage m m'
    | none => s'.findMessage owner scope = none := by
  unfold Schema.findMessage
  cases hm : s.message scope with
  | some m =>
    obtain ⟨m', hfound, hm', hsame⟩ := h.message hm
    exact ⟨m', by rw [hfound], hm', hsame⟩
  | none =>
    rw [h.message_none hm]
    simp only
    split_ifs with hpackage
    · rfl
    · cases hrelative : s.message s!"{owner.package}.{scope}" with
      | none => exact h.message_none hrelative
      | some m => exact h.message hrelative

theorem findConstant (py : Python F) (owner : Owner) (name : String) :
    s.findConstant py owner name = s'.findConstant py owner name := by
  unfold Schema.findConstant
  cases splitLast name with
  | none =>
    simp only [h.packageTarget]
    have hscoped : (fun scope => s.scopedTarget scope name)
        = fun scope => s'.scopedTarget scope name :=
      funext fun scope => h.scopedTarget scope name
    rw [hscoped]
  | some split =>
    obtain ⟨scope, last⟩ := split
    simp only [h.packageTarget]
    have hmessage := h.findMessage owner scope
    cases hm : s.findMessage owner scope with
    | none =>
      rw [hm] at hmessage
      rw [hmessage]
    | some m =>
      rw [hm] at hmessage
      obtain ⟨m', hfound, hm', hsame⟩ := hmessage
      rw [hfound]
      simp only [target_eq hm' hsame]

/-- A name means the same constant in a scope. -/
theorem find (py : Python F) : s.find py = s'.find py := by
  have hpackage : ∀ package name,
      s.findPackageConstant py package name = s'.findPackageConstant py package name := by
    intro package name
    unfold Schema.findPackageConstant
    simp only [h.packageTarget]
  funext scope name
  cases scope with
  | package package => exact hpackage package name
  | message owner =>
    rw [Schema.find, Schema.find, h.findConstant]
    cases s'.findConstant py owner name with
    | error e => rfl
    | ok found =>
      cases found with
      | none => exact hpackage owner.package name
      | some target => rfl

end Lookup

end SameDeclarations

theorem mem_packageTargets {s : Schema F} {t : Target F} :
    t ∈ s.packageTargets ↔ ∃ package, ∃ constant ∈ constantsOfPackage s.files package,
      t = ⟨.package package constant.name, .package package, constant⟩ := by
  unfold Schema.packageTargets
  rw [List.mem_flatMap]
  constructor
  · rintro ⟨package, -, ht⟩
    obtain ⟨constant, hconstant, heq⟩ := List.mem_map.mp ht
    exact ⟨package, constant, hconstant, heq.symm⟩
  · rintro ⟨package, constant, hconstant, heq⟩
    refine ⟨package, ?_, List.mem_map.mpr ⟨constant, hconstant, heq.symm⟩⟩
    obtain ⟨file, hfile, -⟩ := List.mem_flatMap.mp hconstant
    obtain ⟨hmem, hpackage⟩ := List.mem_filter.mp hfile
    apply List.mem_eraseDups.mpr
    exact List.mem_map.mpr ⟨file, hmem, by simpa using hpackage⟩

namespace SameDeclarations

variable {py : Python F} {s s' : Schema F}

theorem references (h : SameDeclarations s s') : References py s = References py s' := by
  unfold References
  rw [h.find py]

theorem needed (h : SameDeclarations s s') {t : Target F} (ht : Needed py s t) :
    Needed py s' t := by
  induction ht with
  | ofPackage t ht =>
    obtain ⟨package, constant, hconstant, heq⟩ := mem_packageTargets.mp ht
    apply Needed.ofPackage
    exact mem_packageTargets.mpr
      ⟨package, constant, (h.packages package constant).mp hconstant, heq⟩
  | ofMessage m t hm hentry ht =>
    obtain ⟨m', hm', hsame⟩ := h.messages m hm
    apply Needed.ofMessage m' t hm' (hsame.isMapEntry.symm.trans hentry)
    obtain ⟨constant, hconstant, heq⟩ := List.mem_map.mp ht
    apply List.mem_map.mpr
    refine ⟨constant, (hsame.constants constant).mp hconstant, ?_⟩
    rw [← hsame.owner]
    exact heq
  | ofArray m field name t hm hentry hfield hname hfind =>
    obtain ⟨m', hm', hsame⟩ := h.messages m hm
    apply Needed.ofArray m' field name t hm' (hsame.isMapEntry.symm.trans hentry)
      ((hsame.fields field).mp hfield)
    · unfold arrayLabel
      rw [← hsame.owner]
      exact hname
    · rw [← h.find py, ← hsame.owner]
      exact hfind
  | reference t u _ href ih =>
    rw [h.references] at href
    exact .reference t u ih href

end SameDeclarations

namespace SameDeclarations

variable {py : Python F} {s s' : Schema F}

theorem names_eq {m m' : Message F} (hsame : SameMessage m m') (field : ArrayField) :
    arrayLabel m field = arrayLabel m' field := by
  unfold arrayLabel
  rw [hsame.owner]

theorem awaits (h : SameDeclarations s s') {stack : Stack F} {t : Target F}
    (ht : Awaits py s stack t) : Awaits py s' stack t := by
  induction ht with
  | declared t ht => exact .declared t (h.needed ht)
  | array m field activation name t hm hentry hfield hlabel htext hmoment hname hfind =>
    obtain ⟨m', hm', hsame⟩ := h.messages m hm
    rw [names_eq hsame field] at hlabel hname
    rw [h.find py, hsame.owner] at hfind
    exact .array m' field activation name t hm' (hsame.isMapEntry.symm.trans hentry)
      ((hsame.fields field).mp hfield) hlabel htext hmoment hname hfind
  | reference t u outer activation name _ hparses hmoment hname hfind ih =>
    rw [h.find py] at hfind
    exact .reference t u outer activation name ih hparses hmoment hname hfind

theorem active (h : SameDeclarations s s') {stack : Stack F} (hactive : Active py s stack) :
    Active py s' stack := by
  cases hactive with
  | constant t outer activation ht hparses => exact .constant t outer activation (h.awaits ht) hparses
  | array m field activation hm hentry hfield hlabel htext =>
    obtain ⟨m', hm', hsame⟩ := h.messages m hm
    rw [names_eq hsame field] at hlabel
    exact .array m' field activation hm' (hsame.isMapEntry.symm.trans hentry)
      ((hsame.fields field).mp hfield) hlabel htext

end SameDeclarations

section Acceptance

variable {py : Python F} {exhausted : Interpreter F} {s s' : Schema F}

end Acceptance

section Frames

/-- The frames CPython keeps for a name or a number in parentheses: `parse` and the twelve levels
below it, thirteen more for every parenthesis, and for a name its lookup. -/
def Activation.frames (activation : Activation F) : ℕ :=
  13 + 13 * (activation.text.toList.takeWhile (· = '(')).length +
    match activation.moment with
    | .parsing => 0
    | .asking _ => 3
    | .answered _ => 3

theorem constantsOfPackage_single (constants : List (Constant ℚ)) (package : String) :
    constantsOfPackage [⟨"demo", constants⟩] package = if package = "demo" then constants else [] := by
  unfold constantsOfPackage
  by_cases h : package = "demo"
  · simp [h]
  · simp [h, Ne.symm h]

theorem packageNames_single {constants : List (Constant ℚ)}
    (h : (constants.map Constant.name).Nodup) (package : String) :
    ((constantsOfPackage [⟨"demo", constants⟩] package).map Constant.name).Nodup := by
  rw [constantsOfPackage_single]
  split
  · exact h
  · exact List.nodup_nil

theorem names_noMessages : (([] : List (Message ℚ)).map fun m => m.fullName).Nodup :=
  List.nodup_nil

theorem constantNames_noMessages :
    ∀ m ∈ ([] : List (Message ℚ)), (m.constants.map Constant.name).Nodup :=
  fun _ hm => absurd hm List.not_mem_nil

/-- A request of one file with these constants. -/
def single (constants : List (Constant ℚ)) (h : (constants.map Constant.name).Nodup) : Schema ℚ :=
  ⟨[⟨"demo", constants⟩], [], packageNames_single h, names_noMessages, constantNames_noMessages⟩

end Frames

end Protocyte.Constants
