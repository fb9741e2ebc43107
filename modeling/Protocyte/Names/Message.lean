import Protocyte.Names.Requests
import Mathlib.Data.List.Dedup

/-! The allocation of the names of messages. -/
namespace Protocyte.Names

open Foundation

abbrev EmittedNames := Dictionary String Text

/-- `names.update(items)` -/
def EmittedNames.update (names : EmittedNames) (items : List (String × Text)) : EmittedNames :=
  items.foldl (fun names item => names.set item.1 item.2) names

def emittedNames (items : List (String × Text)) : EmittedNames :=
  EmittedNames.update Dictionary.empty items

structure EmittedNameAllocator where
  scopes : Dictionary Text EmittedNameScope

def EmittedNameAllocator.empty : EmittedNameAllocator := ⟨Dictionary.empty⟩

def EmittedNameAllocator.scope (allocator : EmittedNameAllocator) (label : Text) :
    EmittedNameScope :=
  (allocator.scopes.get? label).getD (.empty label)

/-- The allocator once the scope of a label has been filled. -/
def EmittedNameAllocator.store (allocator : EmittedNameAllocator) (label : Text)
    (scope : EmittedNameScope) : EmittedNameAllocator :=
  ⟨allocator.scopes.set label scope⟩

/-- `allocated[owner]` -/
def lookup (stems : Dictionary Text PlainName) (owner : Text) : Except AllocationError PlainName :=
  match stems.get? owner with
  | some stem => .ok stem
  | none => .error (.keyError owner)

/-- The rendered names of keyed members. -/
def renderMembers (members : List (String × EmittedNameMember)) (stem : PlainName) :
    List (String × Text) :=
  members.map fun member => (member.1, member.2.render stem.1)

section Reserving

def reserveAll (scope : EmittedNameScope) :
    List (Text × EmittedNameUse) → Except AllocationError EmittedNameScope
  | [] => .ok scope
  | (name, use) :: rest => do
    let scope ← scope.reserve name use
    reserveAll scope rest

/-- The names a message class reserves, in the order it reserves them. -/
def reservedNames (className : Text) (message : MessageModel) : List (Text × EmittedNameUse) :=
  [(className, ⟨message.fullName ++ ":injected-class-name".toList, .type, none⟩),
   ("Context".toList, ⟨message.fullName ++ ":context-alias".toList, .typeAlias, none⟩)] ++
    (if message.fields = [] then []
    else [("FieldNumber".toList, ⟨message.fullName ++ ":field-number-type".toList, .type, none⟩)]) ++
    messagePublicFunctions.map fun function =>
      (function.1.toList, ⟨message.fullName ++ (":public:".toList ++ function.1.toList),
        .publicFunction, some function.2⟩)

end Reserving

section Api

variable (sha256 : Sha256)

/-- A declaration with the names emitted for it. -/
structure Named (α : Type) where
  item : α
  emitted : EmittedNames

def nameNestedEnum (stems : Dictionary Text PlainName) (enum : EnumModel) :
    Except AllocationError (Named EnumModel) := do
  let stem ← lookup stems (nestedEnumOwner enum)
  .ok ⟨enum, emittedNames (("alias", stem.1) :: renderMembers (enumHelperNameMembers enum) stem)⟩

/-- `_allocate_alias_template_parameter` -/
def allocateAliasTemplateParameter (label aliasName : Text) :
    Except AllocationError (EmittedNameScope × PlainName) := do
  let scope ← (EmittedNameScope.empty label).reserve aliasName
    ⟨label ++ ":alias".toList, .typeAlias, none⟩
  let allocation := scope.allocate sha256 [aliasTemplateRequest label]
  let stem ← lookup allocation.stems (aliasTemplateRequest label).owner
  .ok (allocation.scope, stem)

structure NamedNested where
  item : MessageModel
  emitted : EmittedNames
  aliasScope : EmittedNameScope

def nameNestedMessage (stems : Dictionary Text PlainName) (nested : MessageModel) :
    Except AllocationError NamedNested := do
  let stem ← lookup stems (nestedMessageOwner nested)
  let (scope, parameter) ← allocateAliasTemplateParameter sha256
    (tagged "nested-alias-template:" nested.fullName) stem.1
  .ok ⟨nested, emittedNames [("alias", stem.1), ("alias_config", parameter.1)], scope⟩

def nameConstant (stems : Dictionary Text PlainName) (constant : ConstantModel) :
    Except AllocationError (ConstantModel × PlainName) := do
  let stem ← lookup stems (constantOwner constant)
  .ok (constant, stem)

def nameField (message : MessageModel) (stems : Dictionary Text PlainName) (item : FieldModel) :
    Except AllocationError NamedField := do
  let stem ← lookup stems (fieldOwner message item)
  .ok ⟨item, stem⟩

end Api

section Oneofs

variable (sha256 : Sha256)

/-- The names of a oneof's API, with the values of its case type. -/
structure OneofApi where
  oneof : OneofModel
  caseType : PlainName
  api : PlainName
  caseScope : EmittedNameScope
  caseValues : List (FieldModel × PlainName)

def allocateOneofCase (message : MessageModel) (oneof : OneofModel) (fields : List NamedField) :
    Except AllocationError (EmittedNameScope × List (FieldModel × PlainName)) := do
  let scope ← (EmittedNameScope.empty
      (tagged "oneof-case:" (childPath message.fullName oneof.name))).reserve "none".toList
    ⟨childPath message.fullName oneof.name ++ ":none".toList, .oneofCaseValue, none⟩
  let members := oneofFields oneof fields
  let allocation := scope.allocate sha256 (members.map (oneofValueRequest message))
  let values ← members.mapM fun field => do
    let stem ← lookup allocation.stems (oneofValueOwner message field)
    .ok (field.item, stem)
  .ok (allocation.scope, values)

def nameOneofApi (message : MessageModel) (fields : List NamedField)
    (stems : Dictionary Text PlainName) (oneof : OneofModel) : Except AllocationError OneofApi := do
  let caseType ← lookup stems (oneofCaseTypeOwner message oneof)
  let api ← lookup stems (oneofApiOwner message oneof)
  let (scope, values) ← allocateOneofCase sha256 message oneof fields
  .ok ⟨oneof, caseType, api, scope, values⟩

/-- The names of a oneof's storage, with those of the members of its union. -/
structure OneofStorage where
  caseStorage : PlainName
  storageType : PlainName
  storage : PlainName
  unionScope : EmittedNameScope
  storages : List (FieldModel × PlainName)

def nameOneofStorage (message : MessageModel) (fields : List NamedField)
    (stems : Dictionary Text PlainName) (oneof : OneofModel) :
    Except AllocationError OneofStorage := do
  let caseStorage ← lookup stems (oneofCaseStorageOwner message oneof)
  let storageType ← lookup stems (oneofTypeOwner message oneof)
  let storage ← lookup stems (oneofContainerOwner message oneof)
  let scope := EmittedNameScope.empty
    (tagged "oneof-storage:" (childPath message.fullName oneof.name))
  let members := oneofFields oneof fields
  let allocation := scope.allocate sha256 (members.map (oneofStorageRequest message))
  let storages ← members.mapM fun field => do
    let stem ← lookup allocation.stems (oneofStorageOwner message field)
    .ok (field.item, stem)
  .ok ⟨caseStorage, storageType, storage, allocation.scope, storages⟩

structure OneofNames where
  api : OneofApi
  storage : OneofStorage

def OneofNames.emitted (names : OneofNames) : EmittedNames :=
  emittedNames
    [("case_type", names.api.caseType.1), ("case_accessor", names.api.api.1 ++ "_case".toList),
     ("clear", "clear_".toList ++ names.api.api.1), ("case_storage", names.storage.caseStorage.1),
     ("storage_type", names.storage.storageType.1), ("storage", names.storage.storage.1)]

/-- What the oneofs add to the names of a field. -/
def oneofFieldNames (oneofs : List OneofNames) (item : FieldModel) : List (String × Text) :=
  oneofs.flatMap fun names =>
    ((names.api.caseValues.filter fun value => value.1.name = item.name).map fun value =>
      ("oneof_case", value.2.1)) ++
    (names.storage.storages.filter fun value => value.1.name = item.name).flatMap fun value =>
      [("oneof_storage", value.2.1), ("oneof_case_type", names.api.caseType.1),
       ("oneof_case_storage", names.storage.caseStorage.1),
       ("oneof_container", names.storage.storage.1),
       ("oneof_clear", "clear_".toList ++ names.api.api.1)]

end Oneofs

section Private

/-- The storage and the functions every field of a message knows. -/
structure PrivateNames where
  contextStorage : PlainName
  unknownStorage : PlainName
  functions : List (String × PlainName)

def PrivateNames.items (names : PrivateNames) : List (String × Text) :=
  [("context_storage", names.contextStorage.1), ("unknown_storage", names.unknownStorage.1)] ++
    names.functions.map fun function => (function.1, function.2.1)

def namePrivate (message : MessageModel) (stems : Dictionary Text PlainName) :
    Except AllocationError PrivateNames := do
  let contextStorage ← lookup stems (contextStorageOwner message)
  let unknownStorage ← lookup stems (unknownStorageOwner message)
  let functions ← message.privateFunctions.mapM fun function => do
    let stem ← lookup stems (privateFunctionOwner message function.name)
    .ok (function.name, stem)
  .ok ⟨contextStorage, unknownStorage, functions⟩

/-- A field with the items its own storage adds to its names. -/
structure StoredField where
  field : NamedField
  storage : List (String × Text)

def nameFieldStorage (message : MessageModel) (stems : Dictionary Text PlainName)
    (field : NamedField) : Except AllocationError StoredField :=
  if field.item.oneofIndex ≠ none then .ok ⟨field, []⟩
  else do
    let storage ← lookup stems (fieldStorageOwner message field)
    match stems.get? (fieldPresenceOwner message field) with
    | none => .ok ⟨field, [("storage", storage.1)]⟩
    | some presence => .ok ⟨field, [("storage", storage.1), ("presence_storage", presence.1)]⟩

end Private

section Implementation

variable (sha256 : Sha256)

/-- The names of a field: those of the class, the locals of its implementation and, for a map, the
names of the key and the value. -/
structure FieldNames where
  item : FieldModel
  cppName : PlainName
  emitted : EmittedNames
  implementation : EmittedNames
  mapMembers : List (Named MapMember)

def implementationItems (stem : PlainName) : List (String × Text) :=
  fieldImplementationNameTemplates.map fun template =>
    ("implementation:" ++ template.1, template.2.render stem.1)

def allocateMapMember (message : MessageModel) (shared : PrivateNames) (item : FieldModel)
    (allocator : EmittedNameAllocator) (member : MapMember) :
    Except AllocationError (EmittedNameAllocator × Named MapMember) := do
  let request := mapMemberRequest message item member
  let allocation := (allocator.scope request.owner).allocate sha256 [request]
  let stem ← lookup allocation.stems request.owner
  .ok (allocator.store request.owner allocation.scope,
    ⟨member, emittedNames (shared.items ++ implementationItems stem ++
      [("storage", stem.1 ++ ['_'])])⟩)

def allocateMapMembers (message : MessageModel) (shared : PrivateNames) (item : FieldModel) :
    EmittedNameAllocator → List MapMember →
      Except AllocationError (EmittedNameAllocator × List (Named MapMember))
  | allocator, [] => .ok (allocator, [])
  | allocator, member :: members => do
    let (allocator, named) ← allocateMapMember sha256 message shared item allocator member
    let (allocator, rest) ← allocateMapMembers message shared item allocator members
    .ok (allocator, named :: rest)

/-- All class names of a field. -/
def fieldEmittedNames (shared : PrivateNames) (oneofs : List OneofNames) (stored : StoredField) :
    EmittedNames :=
  let field := stored.field
  emittedNames (renderMembers (fieldPublicNameMembers field.item) field.cppName ++
    [("number", field.cppName.1)] ++ oneofFieldNames oneofs field.item ++ stored.storage ++
    shared.items)

def allocateFieldImplementations (message : MessageModel) (shared : PrivateNames)
    (oneofs : List OneofNames) (stems : Dictionary Text PlainName) :
    EmittedNameAllocator → List StoredField →
      Except AllocationError (EmittedNameAllocator × List FieldNames)
  | allocator, [] => .ok (allocator, [])
  | allocator, stored :: rest => do
    let item := stored.field.item
    let stem ← lookup stems (implementationOwner message item)
    let (allocator, members) ← allocateMapMembers sha256 message shared item allocator
      item.mapMembers
    let (allocator, names) ← allocateFieldImplementations message shared oneofs stems allocator rest
    .ok (allocator, ⟨item, stored.field.cppName, fieldEmittedNames shared oneofs stored,
      emittedNames (implementationItems stem), members⟩ :: names)

def allocateMessageImplementationNames (message : MessageModel) (shared : PrivateNames)
    (oneofs : List OneofNames) (allocator : EmittedNameAllocator) (fields : List StoredField) :
    Except AllocationError (EmittedNameAllocator × List FieldNames) :=
  let label := tagged "implementation:" message.fullName
  let allocation := (allocator.scope label).allocate sha256
    (fields.map fun stored => implementationRequest message stored.field)
  allocateFieldImplementations sha256 message shared oneofs allocation.stems
    (allocator.store label allocation.scope) fields

end Implementation

section Required

/-- What `_require_emitted_names` is asked: an owner, the names it has and those it must have. -/
structure Requirement where
  owner : Text
  names : List String
  required : List String

def Requirement.check (requirement : Requirement) : Except AllocationError Unit :=
  let missing := (requirement.required.dedup.filter fun name =>
    name ∉ requirement.names).insertionSort (· ≤ ·)
  if missing = [] then .ok () else .error (.assertionError requirement.owner missing)

def checkRequirements : List Requirement → Except AllocationError Unit
  | [] => .ok ()
  | requirement :: rest => do
    requirement.check
    checkRequirements rest

def privateNameKeys (message : MessageModel) : List String :=
  ["context_storage", "unknown_storage"] ++ message.privateFunctions.map PrivateFunction.name

def implementationNameKeys : List String :=
  fieldImplementationNameTemplates.map fun template => "implementation:" ++ template.1

def fieldRequirements (message : MessageModel) (names : FieldNames) : List Requirement :=
  let item := names.item
  let path := childPath message.fullName item.name
  let storageKeys :=
    if item.oneofIndex ≠ none then
      ["oneof_case", "oneof_storage", "oneof_case_type", "oneof_case_storage", "oneof_container",
       "oneof_clear"]
    else "storage" :: if item.hasPresenceStorage then ["presence_storage"] else []
  ⟨path, names.emitted.keys ++ names.implementation.keys,
    "number" :: (fieldPublicNameMembers item).map Prod.fst ++ privateNameKeys message ++
      implementationNameKeys ++ storageKeys⟩ ::
    names.mapMembers.map fun member =>
      ⟨childPath path member.item.name, member.emitted.keys,
        privateNameKeys message ++ implementationNameKeys ++ ["storage"]⟩

def enumRequirement (names : Named EnumModel) : Requirement :=
  ⟨names.item.fullName, names.emitted.keys,
    "alias" :: (enumHelperNameMembers names.item).map Prod.fst⟩

def nestedRequirement (names : NamedNested) : Requirement :=
  ⟨names.item.fullName, names.emitted.keys, ["alias", "alias_config"]⟩

def oneofRequirement (message : MessageModel) (names : OneofNames) : Requirement :=
  ⟨childPath message.fullName names.api.oneof.name, names.emitted.keys,
    ["case_type", "case_accessor", "clear", "case_storage", "storage_type", "storage"]⟩

def messageRequirement (message : MessageModel) (emitted : EmittedNames) : Requirement :=
  ⟨message.fullName, emitted.keys,
    "context_alias" :: privateNameKeys message ++ messagePublicFunctions.map Prod.fst ++
      if message.fields = [] then [] else ["field_number_type"]⟩

end Required

section Message

variable (sha256 : Sha256)

structure ApiNames where
  enums : List (Named EnumModel)
  nested : List NamedNested
  constants : List (ConstantModel × PlainName)
  fields : List NamedField

def nameApi (message : MessageModel) (stems : Dictionary Text PlainName) :
    Except AllocationError ApiNames := do
  let enums ← message.nestedEnums.mapM (nameNestedEnum stems)
  let nested ← message.declaredMessages.mapM (nameNestedMessage sha256 stems)
  let constants ← message.constants.mapM (nameConstant stems)
  let fields ← message.fields.mapM (nameField message stems)
  .ok ⟨enums, nested, constants, fields⟩

structure StorageNames where
  shared : PrivateNames
  fields : List StoredField
  oneofs : List OneofNames

def nameStorage (message : MessageModel) (fields : List NamedField) (apis : List OneofApi)
    (stems : Dictionary Text PlainName) : Except AllocationError StorageNames := do
  let shared ← namePrivate message stems
  let stored ← fields.mapM (nameFieldStorage message stems)
  let oneofs ← apis.mapM fun api => do
    let storage ← nameOneofStorage sha256 message fields stems api.oneof
    .ok ⟨api, storage⟩
  .ok ⟨shared, stored, oneofs⟩

def nameTemplate (message : MessageModel) (stems : Dictionary Text PlainName)
    (template : TemplateName) : Except AllocationError (String × PlainName) := do
  let stem ← lookup stems (templateOwner message template.name)
  .ok (template.name, stem)

/-- The message's own names. -/
def messageEmittedNames (message : MessageModel) (shared : PrivateNames) : EmittedNames :=
  emittedNames ([("context_alias", "Context".toList)] ++
    (if message.fields = [] then [] else [("field_number_type", "FieldNumber".toList)]) ++
    messagePublicFunctions.map (fun function => (function.1, function.1.toList)) ++ shared.items)

/-- The names of one message. The stems are those granted in the scope of the class for its API,
its oneofs, its private members and its template parameters. -/
structure MessageNames where
  message : MessageModel
  emitted : EmittedNames
  api : ApiNames
  fields : List FieldNames
  oneofs : List OneofNames
  templates : List (String × PlainName)
  classScope : EmittedNameScope
  apiStems : Dictionary Text PlainName
  oneofStems : Dictionary Text PlainName
  privateStems : Dictionary Text PlainName
  templateStems : Dictionary Text PlainName

def MessageNames.requirements (names : MessageNames) : List Requirement :=
  messageRequirement names.message names.emitted :: names.api.enums.map enumRequirement ++
    names.api.nested.map nestedRequirement ++
    names.fields.flatMap (fieldRequirements names.message) ++
    names.oneofs.map (oneofRequirement names.message)

/-- The names allocated once those the class reserves are in its scope. -/
def allocateClassMembers (allocator : EmittedNameAllocator) (scope : EmittedNameScope)
    (message : MessageModel) : Except AllocationError (EmittedNameAllocator × MessageNames) := do
  let api := scope.allocate sha256 (classRequests message)
  let apiNames ← nameApi sha256 message api.stems
  let oneofs := api.scope.allocate sha256 (oneofRequests message)
  let oneofApis ← message.oneofs.mapM (nameOneofApi sha256 message apiNames.fields oneofs.stems)
  let privates := oneofs.scope.allocate sha256 (privateRequests message apiNames.fields)
  let storage ← nameStorage sha256 message apiNames.fields oneofApis privates.stems
  let (allocator, fields) ← allocateMessageImplementationNames sha256 message storage.shared
    storage.oneofs allocator storage.fields
  let templates := privates.scope.allocate sha256 (templateNames.map (templateRequest message))
  let templateStems ← templateNames.mapM (nameTemplate message templates.stems)
  .ok (allocator.store (tagged "message:" message.fullName) templates.scope,
    { message := message
      emitted := messageEmittedNames message storage.shared
      api := apiNames
      fields := fields
      oneofs := storage.oneofs
      templates := templateStems
      classScope := templates.scope
      apiStems := api.stems
      oneofStems := oneofs.stems
      privateStems := privates.stems
      templateStems := templates.stems })

def allocateMessageClassNames (allocator : EmittedNameAllocator) (className : Text)
    (message : MessageModel) : Except AllocationError (EmittedNameAllocator × MessageNames) := do
  let scope ← reserveAll (allocator.scope (tagged "message:" message.fullName))
    (reservedNames className message)
  let (allocator, names) ← allocateClassMembers sha256 allocator scope message
  checkRequirements names.requirements
  .ok (allocator, names)

end Message

section Messages

variable (sha256 : Sha256)

def typeOwner (fullName : Text) : Text := tagged "type:" fullName

/-- A constant of a file. -/
abbrev ConstantId := Text × Text

/-- The names written back into the types, by owner, and into the constants. -/
structure NamespaceNames where
  types : Dictionary Text PlainName
  constants : Dictionary ConstantId PlainName

/-- The C++ name a message has once the namespaces are allocated. -/
def messageCppName (names : NamespaceNames) (message : MessageModel) : PlainName :=
  (names.types.get? (typeOwner message.fullName)).getD message.cppName

def allocateMessages (names : NamespaceNames) :
    EmittedNameAllocator → List MessageModel →
      Except AllocationError (EmittedNameAllocator × List MessageNames)
  | allocator, [] => .ok (allocator, [])
  | allocator, message :: messages => do
    let (allocator, messageNames) ← allocateMessageClassNames sha256 allocator
      (messageCppName names message).1 message
    let (allocator, rest) ← allocateMessages names allocator messages
    .ok (allocator, messageNames :: rest)

end Messages

end Protocyte.Names
