import Protocyte.Foundation.NameScope
import Protocyte.Foundation.Dictionary
import Protocyte.Names.Portable
import Mathlib.Data.Char
import Mathlib.Data.List.Lex
import Mathlib.Data.Prod.Lex
import Mathlib.Data.Nat.Find

/-! Scopes of emitted names. A request asks for one stem, from which all its members are rendered;
the stem given is the first candidate whose rendered members all fit into the scope. -/
namespace Protocyte.Names

open Foundation

inductive CppNameKind where
  | cppNamespace
  | type
  | typeAlias
  | fieldAccessor
  | constant
  | enumValue
  | oneofCaseType
  | oneofCaseValue
  | publicFunction
  | privateStorage
  | implementation
deriving DecidableEq, Repr

/-- What tells overloads apart: `fn/1`, `fn/0/const`, `fn/2/static`, `private:name`. -/
inductive Signature where
  | fn (arity : ℕ)
  | fnConst (arity : ℕ)
  | fnStatic (arity : ℕ)
  | privateFn (name : Text)
deriving DecidableEq, Repr

/-- How a member's name is made from a stem: `{name}` between two texts, or a suffix set off by
underscores. -/
inductive Shape where
  | template (before after : Text)
  | suffix (text : Text)
deriving DecidableEq

structure EmittedNameMember where
  shape : Shape := .template [] []
  kind : CppNameKind := .implementation
  signature : Option Signature := none
deriving DecidableEq

def Shape.render (stem : Text) : Shape → Text
  | .template before after => before ++ stem ++ after
  | .suffix text =>
    if stem.getLast? = some '_' then stem ++ text ++ ['_'] else stem ++ ['_'] ++ text

def EmittedNameMember.render (member : EmittedNameMember) (stem : Text) : Text :=
  member.shape.render stem

structure EmittedNameUse where
  owner : Text
  kind : CppNameKind
  signature : Option Signature
deriving DecidableEq

/-- Both uses are functions, with different signatures. -/
def Overloads (a b : EmittedNameUse) : Prop :=
  a.signature ≠ none ∧ b.signature ≠ none ∧ a.signature ≠ b.signature

instance (a b : EmittedNameUse) : Decidable (Overloads a b) :=
  inferInstanceAs (Decidable (a.signature ≠ none ∧ b.signature ≠ none ∧ a.signature ≠ b.signature))

structure EmittedNameScope where
  label : Text
  names : NameScope (fun name => isPortableIdentifier name = true) Overloads

/-- Failures of the allocation: a name of a scope that is taken (with the two owners), a name that
is no identifier, and names that were not allocated. -/
inductive AllocationError where
  | valueError (label name owner existing : Text)
  | keyError (name : Text)
  | assertionError (owner : Text) (missing : List String)
deriving DecidableEq

namespace EmittedNameScope

def empty (label : Text) : EmittedNameScope := ⟨label, .empty⟩

/-- `self.uses.get(name, ())` -/
def get (scope : EmittedNameScope) (name : Text) : List EmittedNameUse :=
  (scope.names.uses.filter fun u => u.1 = name).map Prod.snd

def canAdd (scope : EmittedNameScope) (name : Text) (use : EmittedNameUse)
    (staged : List EmittedNameUse) : Bool :=
  if isPortableIdentifier name = false then false
  else
    let existing := scope.get name ++ staged
    if existing = [] then true
    else if use.signature = none then false
    else existing.all fun item =>
      decide (item.signature ≠ none) && decide (item.signature ≠ use.signature)

def canAddStaged (scope : EmittedNameScope) :
    List (Text × EmittedNameUse) → List (Text × EmittedNameUse) → Bool
  | _, [] => true
  | staged, (name, use) :: rendered =>
    if scope.canAdd name use ((staged.filter fun u => u.1 = name).map Prod.snd) = false then false
    else scope.canAddStaged (staged ++ [(name, use)]) rendered

def canAddAll (scope : EmittedNameScope) (rendered : List (Text × EmittedNameUse)) : Bool :=
  scope.canAddStaged [] rendered

variable {scope : EmittedNameScope} {name : Text} {use : EmittedNameUse}

theorem mem_get {item : EmittedNameUse} : item ∈ scope.get name ↔ (name, item) ∈ scope.names.uses := by
  unfold get
  simp

theorem canAdd_iff {staged : List EmittedNameUse} :
    scope.canAdd name use staged = true ↔
      isPortableIdentifier name = true ∧ ∀ item ∈ scope.get name ++ staged, Overloads item use := by
  unfold canAdd
  simp only
  split_ifs with hportable hempty hsignature
  · simp [hportable]
  · rw [Bool.not_eq_false] at hportable
    rw [hempty]
    simp [hportable]
  · constructor
    · exact fun h => absurd h (by decide)
    · intro ⟨_, hall⟩
      obtain ⟨item, hitem⟩ := List.exists_mem_of_ne_nil _ hempty
      exact absurd hsignature (hall item hitem).2.1
  · rw [Bool.not_eq_false] at hportable
    rw [List.all_eq_true]
    constructor
    · intro h
      refine ⟨hportable, ?_⟩
      intro item hitem
      have hboth := h item hitem
      rw [Bool.and_eq_true, decide_eq_true_eq, decide_eq_true_eq] at hboth
      exact ⟨hboth.1, hsignature, hboth.2⟩
    · intro ⟨_, h⟩ item hitem
      rw [Bool.and_eq_true, decide_eq_true_eq, decide_eq_true_eq]
      exact ⟨(h item hitem).1, (h item hitem).2.2⟩

private theorem canAddStaged_iff {rendered staged : List (Text × EmittedNameUse)} :
    scope.canAddStaged staged rendered = true ↔
      (∀ u ∈ rendered, isPortableIdentifier u.1 = true) ∧
        rendered.Pairwise (Compatible Overloads) ∧
        ∀ v ∈ scope.names.uses ++ staged, ∀ u ∈ rendered, Compatible Overloads v u := by
  induction rendered generalizing staged with
  | nil => simp [canAddStaged]
  | cons u rendered ih =>
    obtain ⟨name, use⟩ := u
    rw [canAddStaged]
    have hfirst : scope.canAdd name use ((staged.filter fun u => u.1 = name).map Prod.snd) = true ↔
        isPortableIdentifier name = true ∧
          ∀ v ∈ scope.names.uses ++ staged, Compatible Overloads v (name, use) := by
      rw [canAdd_iff]
      apply and_congr Iff.rfl
      constructor
      · rintro h ⟨n, item⟩ hitem (rfl : n = name)
        apply h
        rcases List.mem_append.mp hitem with hitem | hitem
        · exact List.mem_append_left _ (mem_get.mpr hitem)
        · exact List.mem_append_right _ (by simpa using hitem)
      · intro h item hitem
        apply h (name, item) _ rfl
        rcases List.mem_append.mp hitem with hitem | hitem
        · exact List.mem_append_left _ (mem_get.mp hitem)
        · exact List.mem_append_right _ (by simpa using hitem)
    split_ifs with hcan
    · rw [← Bool.not_eq_true, hfirst] at hcan
      constructor
      · exact fun h => absurd h (by decide)
      · intro ⟨hvalid, hpairwise, hapart⟩
        exact absurd ⟨hvalid _ List.mem_cons_self,
          fun v hv => hapart v hv _ List.mem_cons_self⟩ hcan
    · rw [Bool.not_eq_false, hfirst] at hcan
      rw [ih, List.forall_mem_cons, List.pairwise_cons]
      constructor
      · intro ⟨hvalid, hpairwise, hapart⟩
        refine ⟨⟨hcan.1, hvalid⟩, ⟨?_, hpairwise⟩, ?_⟩
        · intro u hu
          exact hapart (name, use) (by simp) u hu
        · intro v hv
          apply List.forall_mem_cons.mpr ⟨hcan.2 v hv, _⟩
          intro u hu
          exact hapart v (by rw [← List.append_assoc]; exact List.mem_append_left _ hv) u hu
      · intro ⟨⟨_, hvalid⟩, ⟨hnew, hpairwise⟩, hapart⟩
        refine ⟨hvalid, hpairwise, ?_⟩
        intro v hv u hu
        rw [← List.append_assoc] at hv
        rcases List.mem_append.mp hv with hv | hv
        · exact hapart v hv u (List.mem_cons_of_mem _ hu)
        · rw [List.mem_singleton.mp hv]
          exact hnew u hu

theorem canAddAll_iff {rendered : List (Text × EmittedNameUse)} :
    scope.canAddAll rendered = true ↔ scope.names.Admits rendered := by
  unfold canAddAll
  rw [canAddStaged_iff, List.append_nil]
  exact ⟨fun h => ⟨h.1, h.2.1, h.2.2⟩, fun h => ⟨h.valid_of_mem, h.compatible, h.apart⟩⟩

theorem admits_of_canAdd (h : scope.canAdd name use [] = true) :
    scope.names.Admits [(name, use)] := by
  apply canAddAll_iff.mp
  unfold canAddAll canAddStaged canAddStaged
  rw [List.filter_nil, List.map_nil, h]
  rfl

def reserve (scope : EmittedNameScope) (name : Text) (use : EmittedNameUse) :
    Except AllocationError EmittedNameScope :=
  if use ∈ scope.get name then .ok scope
  else if h : scope.canAdd name use [] = true then
    .ok ⟨scope.label, scope.names.add [(name, use)] (admits_of_canAdd h)⟩
  else
    match scope.get name with
    | existing :: _ => .error (.valueError scope.label name use.owner existing.owner)
    | [] => .error (.keyError name)

end EmittedNameScope

end Protocyte.Names
