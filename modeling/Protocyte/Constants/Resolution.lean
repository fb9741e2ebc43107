import Protocyte.Constants.Expression

/-! The declared constants of a request and the memoised walk that resolves them and the array
bounds. -/
namespace Protocyte.Constants

open Foundation

inductive Definition (F : Type) where
  | literal (value : Literal F)
  | expr (text : String)

structure Constant (F : Type) where
  name : String
  fullName : String
  kind : ConstantKind
  definition : Definition F

/-- A field with an array bound given by an expression. -/
structure ArrayField where
  name : String
  arrayExpr : String
  arrayFixed : Bool
  defaultByteSize : Option ℕ

/-- What the lookup of a name in a message uses of it: its package and the full names of the
messages around it, the nearest first. -/
structure Owner where
  fullName : String
  package : String
  enclosing : List String
deriving DecidableEq, Repr

structure Message (F : Type) extends Owner where
  isMapEntry : Bool
  constants : List (Constant F)
  fields : List ArrayField

structure File (F : Type) where
  package : String
  constants : List (Constant F)

def constantsOfPackage {F : Type} (files : List (File F)) (package : String) : List (Constant F) :=
  (files.filter fun file => file.package = package).flatMap File.constants

/-- The files and messages of a request. The checks before resolution reject two constants of one
name in a package or in a message, and two messages of one name. -/
structure Schema (F : Type) where
  files : List (File F)
  messages : List (Message F)
  packageNames : ∀ package, ((constantsOfPackage files package).map Constant.name).Nodup
  messageNames : (messages.map fun m => m.fullName).Nodup
  constantNames : ∀ m ∈ messages, (m.constants.map Constant.name).Nodup

/-- The identity of a constant. -/
inductive ConstantId where
  | package (package name : String)
  | message (message name : String)
deriving DecidableEq, Repr

/-- Where the names of an expression are looked up. -/
inductive Scope where
  | package (package : String)
  | message (owner : Owner)
deriving DecidableEq, Repr

/-- A constant with its identity and the scope of its expression. -/
structure Target (F : Type) where
  id : ConstantId
  scope : Scope
  constant : Constant F

/-- A name split at its last dot. -/
def splitLast (name : String) : Option (String × String) :=
  match name.toList.reverse.dropWhile (· ≠ '.') with
  | [] => none
  | _ :: scope =>
    some (String.ofList scope.reverse,
      String.ofList (name.toList.reverse.takeWhile (· ≠ '.')).reverse)

def Message.target {F : Type} (m : Message F) (name : String) : Option (Target F) :=
  (m.constants.find? fun constant => constant.name = name).map fun constant =>
    ⟨.message m.fullName name, .message m.toOwner, constant⟩

namespace Schema

variable {F : Type} (s : Schema F)

def packageConstant (package name : String) : Option (Constant F) :=
  (constantsOfPackage s.files package).find? fun constant => constant.name = name

def message (fullName : String) : Option (Message F) :=
  s.messages.find? fun m => m.fullName = fullName

def packageTarget (package name : String) : Option (Target F) :=
  (s.packageConstant package name).map fun constant =>
    ⟨.package package name, .package package, constant⟩

/-- `constants_by_message.get(full_name, {}).get(name)`. -/
def scopedTarget (fullName name : String) : Option (Target F) :=
  (s.message fullName).bind fun m => m.target name

def findMessage (owner : Owner) (scope : String) : Option (Message F) :=
  match s.message scope with
  | some m => some m
  | none => if owner.package = "" then none else s.message s!"{owner.package}.{scope}"

/-- `find_constant`: `none` stands for a constant of a package. -/
def findConstant (py : Python F) (owner : Owner) (name : String) : Result (Option (Target F)) :=
  match splitLast name with
  | some (scope, last) =>
    match s.packageTarget scope last with
    | some _ => .ok none
    | none =>
      match s.findMessage owner scope with
      | none => reject owner.fullName s!"unknown constant scope {py.repr scope}"
      | some m =>
        match m.target last with
        | none => reject owner.fullName s!"unknown constant {py.repr name}"
        | some target => .ok (some target)
  | none =>
    match (owner.fullName :: owner.enclosing).findSome? fun scope => s.scopedTarget scope name with
    | some target => .ok (some target)
    | none =>
      match s.packageTarget owner.package name with
      | some _ => .ok none
      | none => reject owner.fullName s!"unknown constant {py.repr name}"

def findPackageConstant (py : Python F) (package name : String) : Result (Target F) :=
  let target :=
    match splitLast name with
    | some (scope, last) => s.packageTarget scope last
    | none => s.packageTarget package name
  match target with
  | some target => .ok target
  | none =>
    reject (if package = "" then "<root>" else package)
      s!"unknown package constant {py.repr name}"

/-- The constant a name means in a scope. -/
def find (py : Python F) : Scope → String → Result (Target F)
  | .package package, name => s.findPackageConstant py package name
  | .message owner, name => do
    match ← s.findConstant py owner name with
    | some target => return target
    | none => s.findPackageConstant py owner.package name

end Schema

def maxConstantDependencyDepth : ℕ := 32

inductive Status (F : Type) where
  | visiting
  | done (value : TypedValue F) (depth : ℕ)

/-- The state of the walk: the mark of each constant, the dependency depths the constants in
progress have seen, and the array bounds found. -/
structure Resolution (F : Type) where
  status : ConstantId → Option (Status F)
  childDepths : List ℕ
  arrayMax : String × String → Option ℕ

namespace Resolution

variable {F : Type}

def initial : Resolution F := ⟨fun _ => none, [], fun _ => none⟩

def mark (r : Resolution F) (id : ConstantId) (status : Status F) : Resolution F :=
  { r with status := fun other => if other = id then some status else r.status other }

def enter (r : Resolution F) (id : ConstantId) : Resolution F :=
  { r.mark id .visiting with childDepths := 0 :: r.childDepths }

def leave (r : Resolution F) (id : ConstantId) (value : TypedValue F) (depth : ℕ) : Resolution F :=
  { r.mark id (.done value depth) with childDepths := r.childDepths.tail }

/-- `record_constant_dependency`. -/
def record (r : Resolution F) (id : ConstantId) : Resolution F :=
  match r.childDepths, r.status id with
  | seen :: outer, some (.done _ depth) => { r with childDepths := max seen depth :: outer }
  | _, _ => r

def setArrayMax (r : Resolution F) (field : String × String) (value : ℕ) : Resolution F :=
  { r with arrayMax := fun other => if other = field then some value else r.arrayMax other }

end Resolution

/-- What a parser is doing: it reads on, its name is being resolved, or the value of the name is on
its way back. -/
inductive Moment where
  | parsing
  | asking (name : String)
  | answered (name : String)

/-- A parser on the interpreter's stack, with the values its names have had. Together with the mark
of every constant these say which calls are still to return. -/
structure Activation (F : Type) where
  label : String
  text : String
  answers : List (TypedValue F)
  moment : Moment

/-- The parsers that have not returned, the innermost first. -/
abbrev Stack (F : Type) := List (Activation F)

/-- Whether the interpreter raises `RecursionError` at a moment of the innermost parser. Outside
every parser it has room. -/
abbrev Interpreter (F : Type) := Stack F → Resolution F → Bool

abbrev ResolverM (F : Type) := StateT (Resolution F) Result

/-- The lookups of names while a constant is resolved. -/
abbrev Lookup (F : Type) := Stack F → Scope → String → ResolverM F (TypedValue F)

def recursionMessage : String := "expression evaluation exceeds safe recursion depth"

section Walk

variable {F : Type} (py : Python F) (exhausted : Interpreter F) (s : Schema F)

/-- The innermost parser turns a `RecursionError` into an error of its own. -/
def proceed (outer : Stack F) (activation : Activation F) : ResolverM F Unit := fun r =>
  if exhausted (activation :: outer) r then reject activation.label recursionMessage
  else .ok ((), r)

/-- `self._resolve_name(name)` of the parser of `text`. -/
def resolveName (outer : Stack F) (label text : String)
    (lookup : Stack F → String → ResolverM F (TypedValue F)) (answers : List (TypedValue F))
    (name : String) : ResolverM F (TypedValue F) := do
  proceed exhausted outer ⟨label, text, answers, .asking name⟩
  let value ← lookup (⟨label, text, answers, .asking name⟩ :: outer) name
  proceed exhausted outer ⟨label, text, answers, .answered name⟩
  return value

/-- `_ExprParser(text, resolve_name, label).parse()` while the parsers of `outer` wait for it. -/
def parse (outer : Stack F) (label text : String)
    (lookup : Stack F → String → ResolverM F (TypedValue F)) : ResolverM F (TypedValue F) :=
  (parseExpression py label text).run (resolveName exhausted outer label text lookup)
    (fun answers => proceed exhausted outer ⟨label, text, answers, .parsing⟩) []

def constantValue (outer : Stack F) (lookup : Stack F → String → ResolverM F (TypedValue F))
    (constant : Constant F) : ResolverM F (TypedValue F) :=
  match constant.definition with
  | .literal value => StateT.lift (coerceLiteral py constant.fullName constant.kind value)
  | .expr text => do
    let parsed ← parse py exhausted outer constant.fullName text lookup
    StateT.lift (coerceExpressionValue py constant.fullName constant.kind parsed)

def nestingMessage : String :=
  s!"constant dependency nesting exceeds maximum depth of {maxConstantDependencyDepth}"

/-- `resolve_constant` and `resolve_package_constant`. The walk below a constant is absent at the
maximum depth. A failure ends the whole resolution, so what it undoes is not seen. -/
def resolveConstant (below : Option (Lookup F)) (outer : Stack F) (target : Target F) :
    ResolverM F (TypedValue F) := fun r =>
  match r.status target.id with
  | some .visiting => reject target.constant.fullName "constant expression cycle detected"
  | some (.done value _) => .ok (value, r)
  | none =>
    match below with
    | none => reject target.constant.fullName nestingMessage
    | some lookup => do
      let (value, r) ← constantValue py exhausted outer (fun stack => lookup stack target.scope)
        target.constant (r.enter target.id)
      let depth := r.childDepths.headD 0 + 1
      if depth > maxConstantDependencyDepth then reject target.constant.fullName nestingMessage
      else .ok (value, r.leave target.id value depth)

/-- `resolve_constant` followed by `record_constant_dependency`. -/
def resolveDependency (below : Option (Lookup F)) (outer : Stack F) (target : Target F) :
    ResolverM F (TypedValue F) := do
  let value ← resolveConstant py exhausted below outer target
  modify fun r => r.record target.id
  return value

def lookupPackageConstant (below : Option (Lookup F)) (outer : Stack F) (package name : String) :
    ResolverM F (TypedValue F) := do
  let target ← StateT.lift (s.findPackageConstant py package name)
  resolveDependency py exhausted below outer target

def lookupConstant (below : Option (Lookup F)) (outer : Stack F) (owner : Owner) (name : String) :
    ResolverM F (TypedValue F) := do
  match ← StateT.lift (s.findConstant py owner name) with
  | none => lookupPackageConstant py exhausted s below outer owner.package name
  | some target => resolveDependency py exhausted below outer target

def lookupName (below : Option (Lookup F)) (outer : Stack F) :
    Scope → String → ResolverM F (TypedValue F)
  | .package package, name => lookupPackageConstant py exhausted s below outer package name
  | .message owner, name => lookupConstant py exhausted s below outer owner name

/-- The lookups with so many levels below `_MAX_CONSTANT_DEPENDENCY_DEPTH` left. -/
def lookupBelow : ℕ → Option (Lookup F)
  | 0 => none
  | levels + 1 => some (lookupName py exhausted s (lookupBelow levels))

/-- The lookups at the start, with every level left. -/
def topLevel : Option (Lookup F) := lookupBelow py exhausted s maxConstantDependencyDepth

def validateArrayDefaultByteSize (label : String) (field : ArrayField) (arrayMax : Int) :
    Result Unit :=
  match field.defaultByteSize with
  | none => .ok ()
  | some size =>
    if field.arrayFixed ∧ (size : Int) ≠ arrayMax then
      reject label "default value size must match fixed protocyte.array max"
    else if !field.arrayFixed ∧ (size : Int) > arrayMax then
      reject label "default value size exceeds protocyte.array max"
    else .ok ()

/-- The bound of an array field from the value of its expression. -/
def arrayBound (label : String) (field : ArrayField) (value : TypedValue F) : Result ℕ := do
  match ← coerceExpressionValue py label (.numeric (.integer .uint32)) value with
  | .number (.integer _ numeric) =>
    if numeric ≤ 0 then
      reject label "protocyte.array.expr must resolve to a positive integer"
    else
      validateArrayDefaultByteSize label field numeric
      return numeric.toNat
  | _ => reject label "protocyte.array.expr must resolve to a positive integer"

def resolveArray (m : Message F) (field : ArrayField) : ResolverM F Unit := do
  let label := s!"{m.fullName}.{field.name}"
  let value ← parse py exhausted [] label field.arrayExpr fun stack =>
    lookupName py exhausted s (topLevel py exhausted s) stack (.message m.toOwner)
  let bound ← StateT.lift (arrayBound py label field value)
  modify fun r => r.setArrayMax (m.fullName, field.name) bound

/-- The packages in the order of their first file. -/
def Schema.packages : List String := (s.files.map File.package).eraseDups

def Schema.packageTargets : List (Target F) :=
  s.packages.flatMap fun package =>
    (constantsOfPackage s.files package).map fun constant =>
      ⟨.package package constant.name, .package package, constant⟩

def Message.targets (m : Message F) : List (Target F) :=
  m.constants.map fun constant => ⟨.message m.fullName constant.name, .message m.toOwner, constant⟩

def resolveMessage (m : Message F) : ResolverM F Unit := do
  m.targets.forM fun target => do
    let _ ← resolveConstant py exhausted (topLevel py exhausted s) [] target
  m.fields.forM fun field => resolveArray py exhausted s m field

/-- `_resolve_constants_and_arrays`. -/
def resolveConstantsAndArrays : ResolverM F Unit := do
  s.packageTargets.forM fun target => do
    let _ ← resolveConstant py exhausted (topLevel py exhausted s) [] target
  (s.messages.filter fun m => !m.isMapEntry).forM fun m => resolveMessage py exhausted s m

/-- The result of a request: every mark and bound, or the error. -/
def resolve : Result (Resolution F) := do
  let (_, r) ← resolveConstantsAndArrays py exhausted s .initial
  return r

end Walk

end Protocyte.Constants
