import Protocyte.Constants.Names
import Protocyte.Constants.Resolution
import Mathlib.Logic.Relation

/-! The graph of constant references, and the values that solve all definitions at once. -/
namespace Protocyte.Constants

open Foundation

variable {F : Type}

section Uniqueness

theorem find_of_nodup {α β : Type} [DecidableEq β] {f : α → β} {l : List α} (h : (l.map f).Nodup)
    {a : α} (ha : a ∈ l) : l.find? (fun x => f x = f a) = some a := by
  induction l with
  | nil => cases ha
  | cons b l ih =>
    rw [List.map_cons, List.nodup_cons] at h
    rw [List.find?_cons]
    cases List.mem_cons.mp ha with
    | inl heq => simp [heq]
    | inr hmem =>
      have hne : f b ≠ f a := fun heq => h.1 (heq ▸ List.mem_map_of_mem hmem)
      simp only [hne, decide_false]
      exact ih h.2 hmem

/-- A list agrees on every name with a list of uniquely named members that has the same
members. -/
theorem find_eq_of_mem_iff {α β : Type} [DecidableEq β] {f : α → β} {l l' : List α}
    (h' : (l'.map f).Nodup) (hmem : ∀ a, a ∈ l ↔ a ∈ l') (b : β) :
    l.find? (fun x => f x = b) = l'.find? (fun x => f x = b) := by
  cases hfind : l.find? fun x => f x = b with
  | some a =>
    have hb : f a = b := by simpa using List.find?_some hfind
    have ha := (hmem a).mp (List.mem_of_find?_eq_some hfind)
    rw [← hb]
    exact (find_of_nodup h' ha).symm
  | none =>
    symm
    rw [List.find?_eq_none] at hfind ⊢
    exact fun a ha => hfind a ((hmem a).mpr ha)

end Uniqueness

namespace Schema

variable (s : Schema F)

/-- The constant of an identity. -/
def target : ConstantId → Option (Target F)
  | .package package name => s.packageTarget package name
  | .message message name => s.scopedTarget message name

/-- A constant that the request declares. -/
def Canonical (t : Target F) : Prop := s.target t.id = some t

theorem canonical_unique {s : Schema F} {t u : Target F} (ht : s.Canonical t)
    (hu : s.Canonical u) (h : t.id = u.id) : t = u := by
  unfold Canonical at ht hu
  rw [h, hu] at ht
  exact (Option.some.inj ht).symm

theorem canonical_package {package name : String} {t : Target F}
    (h : s.packageTarget package name = some t) : s.Canonical t := by
  have hid : t.id = .package package name := by
    obtain ⟨constant, -, rfl⟩ := Option.map_eq_some_iff.mp h
    rfl
  unfold Canonical
  rw [hid]
  exact h

theorem message_fullName {fullName : String} {m : Message F} (h : s.message fullName = some m) :
    m.fullName = fullName := by
  simpa using List.find?_some h

theorem canonical_message {fullName name : String} {m : Message F} {t : Target F}
    (hm : s.message fullName = some m) (h : m.target name = some t) : s.Canonical t := by
  have hid : t.id = .message m.fullName name := by
    obtain ⟨constant, -, rfl⟩ := Option.map_eq_some_iff.mp h
    rfl
  unfold Canonical
  rw [hid, s.message_fullName hm, target, scopedTarget, hm]
  exact h

theorem canonical_findPackageConstant {py : Python F} {package name : String} {t : Target F}
    (h : s.findPackageConstant py package name = .ok t) : s.Canonical t := by
  unfold findPackageConstant at h
  simp only at h
  split at h
  · rename_i target htarget
    have heq : target = t := Except.ok.inj h
    rw [heq] at htarget
    split at htarget
    · exact s.canonical_package htarget
    · exact s.canonical_package htarget
  · cases h

theorem findMessage_message {owner : Owner} {scope : String} {m : Message F}
    (h : s.findMessage owner scope = some m) : ∃ fullName, s.message fullName = some m := by
  unfold findMessage at h
  split at h
  · rename_i found hfound
    exact ⟨scope, by rw [hfound, Option.some.inj h]⟩
  · split at h
    · cases h
    · exact ⟨_, h⟩

theorem canonical_findConstant {py : Python F} {owner : Owner} {name : String} {t : Target F}
    (h : s.findConstant py owner name = .ok (some t)) : s.Canonical t := by
  unfold findConstant at h
  split at h
  · split at h
    · cases h
    · split at h
      · cases h
      · rename_i m hm
        split at h
        · cases h
        · rename_i target htarget
          obtain ⟨fullName, hmessage⟩ := s.findMessage_message hm
          have heq : target = t := Option.some.inj (Except.ok.inj h)
          exact s.canonical_message hmessage (heq ▸ htarget)
  · split at h
    · rename_i target htarget
      have heq : target = t := Option.some.inj (Except.ok.inj h)
      obtain ⟨scope, -, hscope⟩ := List.exists_of_findSome?_eq_some htarget
      obtain ⟨m, hm, hfound⟩ := Option.bind_eq_some_iff.mp hscope
      exact s.canonical_message hm (heq ▸ hfound)
    · split at h <;> cases h

theorem canonical_find {py : Python F} {scope : Scope} {name : String} {t : Target F}
    (h : s.find py scope name = .ok t) : s.Canonical t := by
  cases scope with
  | package package => exact s.canonical_findPackageConstant h
  | message owner =>
    rw [find] at h
    cases hfound : s.findConstant py owner name with
    | error e =>
      rw [hfound] at h
      cases h
    | ok found =>
      rw [hfound] at h
      cases found with
      | some target =>
        have heq : target = t := Except.ok.inj h
        exact s.canonical_findConstant (heq ▸ hfound)
      | none => exact s.canonical_findPackageConstant h

theorem canonical_packageTargets {t : Target F} (h : t ∈ packageTargets s) : s.Canonical t := by
  obtain ⟨package, -, hmem⟩ := List.mem_flatMap.mp h
  obtain ⟨constant, hconstant, rfl⟩ := List.mem_map.mp hmem
  refine s.canonical_package (?_ : s.packageTarget package constant.name = _)
  unfold packageTarget packageConstant
  rw [find_of_nodup (s.packageNames package) hconstant]
  rfl

theorem message_of_mem {m : Message F} (h : m ∈ s.messages) : s.message m.fullName = some m :=
  find_of_nodup s.messageNames h

theorem canonical_targets {m : Message F} (hm : m ∈ s.messages) {t : Target F}
    (h : t ∈ m.targets) : s.Canonical t := by
  obtain ⟨constant, hconstant, rfl⟩ := List.mem_map.mp h
  refine s.canonical_message (s.message_of_mem hm) (?_ : m.target constant.name = _)
  unfold Message.target
  rw [find_of_nodup (s.constantNames m hm) hconstant]
  rfl

end Schema

section Graph

variable (py : Python F) (s : Schema F)

def Target.names (t : Target F) : List String :=
  match t.constant.definition with
  | .literal _ => []
  | .expr text => referencedNames py t.constant.fullName text

/-- The definition of one constant refers to another by a name that resolves to it. -/
def References (t u : Target F) : Prop := ∃ name ∈ t.names py, s.find py t.scope name = .ok u

/-- The values of names in a scope, from the values of constants. -/
def environment (values : ConstantId → Result (TypedValue F)) (scope : Scope) : Environment F :=
  fun name => do
    let target ← s.find py scope name
    values target.id

/-- The value a definition has where every constant has a value. -/
def Target.evaluate (values : ConstantId → Result (TypedValue F)) (t : Target F) :
    Result (TypedValue F) :=
  match t.constant.definition with
  | .literal value => coerceLiteral py t.constant.fullName t.constant.kind value
  | .expr text => do
    let parsed ← (parseExpression py t.constant.fullName text).eval
      (environment py s values t.scope)
    coerceExpressionValue py t.constant.fullName t.constant.kind parsed

def arrayLabel (m : Message F) (field : ArrayField) : String := s!"{m.fullName}.{field.name}"

/-- The bound an array field has where every constant has a value. -/
def evaluateArray (values : ConstantId → Result (TypedValue F)) (m : Message F)
    (field : ArrayField) : Result ℕ := do
  let value ← (parseExpression py (arrayLabel m field) field.arrayExpr).eval
    (environment py s values (.message m.toOwner))
  arrayBound py (arrayLabel m field) field value

/-- The constants a request resolves: those it declares and those it refers to. -/
inductive Needed : Target F → Prop
  | ofPackage (t : Target F) : t ∈ s.packageTargets → Needed t
  | ofMessage (m : Message F) (t : Target F) : m ∈ s.messages → m.isMapEntry = false →
      t ∈ m.targets → Needed t
  | ofArray (m : Message F) (field : ArrayField) (name : String) (t : Target F) :
      m ∈ s.messages → m.isMapEntry = false → field ∈ m.fields →
      name ∈ referencedNames py (arrayLabel m field) field.arrayExpr →
      s.find py (.message m.toOwner) name = .ok t → Needed t
  | reference (t u : Target F) : Needed t → References py s t u → Needed u

/-- Values under which every definition has the value of its constant and every array a bound. -/
structure Solves (values : ConstantId → TypedValue F) : Prop where
  constants : ∀ t, Needed py s t →
    t.evaluate py s (fun id => .ok (values id)) = .ok (values t.id)
  arrays : ∀ m ∈ s.messages, m.isMapEntry = false → ∀ field ∈ m.fields,
    ∃ bound, evaluateArray py s (fun id => .ok (values id)) m field = .ok bound

/-- No cycle of references, and no chain of more constants than the maximum depth. -/
structure WellFounded : Prop where
  acyclic : ∀ t, Needed py s t → ¬ Relation.TransGen (References py s) t t
  short : ∀ chain : List (Target F), chain.IsChain (References py s) →
    (∀ t ∈ chain, Needed py s t) → chain.length ≤ maxConstantDependencyDepth

def Activation.Parses (activation : Activation F) (t : Target F) : Prop :=
  activation.label = t.constant.fullName ∧ t.constant.definition = .expr activation.text

/-- The parsers of a stack wait for a constant: the outermost is the parser of a constant or of an
array bound, and each asks for the constant of the next inner one. -/
inductive Awaits : Stack F → Target F → Prop
  | declared (t : Target F) : Needed py s t → Awaits [] t
  | array (m : Message F) (field : ArrayField) (activation : Activation F) (name : String)
      (t : Target F) : m ∈ s.messages → m.isMapEntry = false → field ∈ m.fields →
      activation.label = arrayLabel m field → activation.text = field.arrayExpr →
      activation.moment = .asking name →
      name ∈ referencedNames py (arrayLabel m field) field.arrayExpr →
      s.find py (.message m.toOwner) name = .ok t → Awaits [activation] t
  | reference (t u : Target F) (outer : Stack F) (activation : Activation F) (name : String) :
      Awaits outer t → activation.Parses t → activation.moment = .asking name →
      name ∈ t.names py → s.find py t.scope name = .ok u → Awaits (activation :: outer) u

/-- The stacks a walk along the references can build. -/
inductive Active : Stack F → Prop
  | constant (t : Target F) (outer : Stack F) (activation : Activation F) :
      Awaits py s outer t → activation.Parses t → Active (activation :: outer)
  | array (m : Message F) (field : ArrayField) (activation : Activation F) :
      m ∈ s.messages → m.isMapEntry = false → field ∈ m.fields →
      activation.label = arrayLabel m field → activation.text = field.arrayExpr →
      Active [activation]

/-- The error of a parser whose evaluation the interpreter has no stack for. -/
def StopsAt (exhausted : Interpreter F) (e : ProtocyteError) : Prop :=
  ∃ activation outer r, Active py s (activation :: outer) ∧
    exhausted (activation :: outer) r = true ∧
    reject activation.label recursionMessage = (.error e : Result Unit)

variable {py s}

theorem Needed.canonical {t : Target F} (h : Needed py s t) : s.Canonical t := by
  cases h with
  | ofPackage t h => exact s.canonical_packageTargets h
  | ofMessage m t hm _ h => exact s.canonical_targets hm h
  | ofArray m field name t _ _ _ _ h => exact s.canonical_find h
  | reference t u _ h =>
    obtain ⟨name, -, hfind⟩ := h
    exact s.canonical_find hfind

theorem environment_mono {values values' : ConstantId → Result (TypedValue F)}
    (h : ∀ id v, values id = .ok v → values' id = .ok v) (scope : Scope) (name : String)
    (v : TypedValue F) (hv : environment py s values scope name = .ok v) :
    environment py s values' scope name = .ok v := by
  unfold environment at hv ⊢
  cases hfind : s.find py scope name with
  | error e =>
    rw [hfind] at hv
    cases hv
  | ok target =>
    rw [hfind] at hv
    exact h target.id v hv

/-- A definition keeps its value when more constants get one. -/
theorem Target.evaluate_mono {values values' : ConstantId → Result (TypedValue F)}
    (h : ∀ id v, values id = .ok v → values' id = .ok v) {t : Target F} {v : TypedValue F}
    (hv : t.evaluate py s values = .ok v) : t.evaluate py s values' = .ok v := by
  unfold Target.evaluate at hv ⊢
  cases hdef : t.constant.definition with
  | literal value =>
    rw [hdef] at hv
    exact hv
  | expr text =>
    rw [hdef] at hv
    simp only at hv ⊢
    cases heval : (parseExpression py t.constant.fullName text).eval
        (environment py s values t.scope) with
    | error e =>
      rw [heval] at hv
      cases hv
    | ok parsed =>
      rw [heval] at hv
      rw [(Query.eval_mono (environment_mono h t.scope) heval).1]
      exact hv

end Graph

end Protocyte.Constants
