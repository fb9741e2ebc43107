import Protocyte.Names.Members

/-! The requests for the names of one message: those of its API, of its oneofs, of its private
members, of the locals of its implementation and of its template parameters. -/
namespace Protocyte.Names

open Foundation

/-- A field under the stem its API was given. -/
structure NamedField where
  item : FieldModel
  cppName : PlainName

/-- Owners of different kinds begin with different tags. -/
def tagged (tag : String) (text : Text) : Text := tag.toList ++ text

section Fit

/-- The stem itself fits, whatever stem is granted. -/
theorem membersFit_single (kind : CppNameKind) (signature : Option Signature) :
    MembersFit [⟨.template [] [], kind, signature⟩] where
  nonempty := List.cons_ne_nil _ _
  fits := by
    intro member hmember
    rw [List.mem_singleton.mp hmember]
    exact ⟨.inl rfl, show Follows [] by decide⟩
  distinct := List.pairwise_singleton _ _

theorem membersFit_type : MembersFit [⟨.template [] [], .type, none⟩] :=
  membersFit_single .type none

theorem stem_cppIdentifier (name : Text) : Stem (cppIdentifier name) :=
  (plain_cppIdentifier name).stem

/-- The preferred stems are words, apart from the underscores they end in. -/
theorem stem_cppDerivableIdentifier (name : Text) : Stem (cppDerivableIdentifier name) :=
  (plain_cppDerivableIdentifier name).stem

theorem stem_plainName (name : PlainName) : Stem name.1 := name.2.stem

theorem stem_append (name : PlainName) (text : String) (h : Fragment text.toList)
    (hhead : text.toList.head? ≠ some '_') : Stem (name.1 ++ text.toList) :=
  (name.2.append h (.inr hhead)).stem

theorem stem_trailing (name : PlainName) : Stem (name.1 ++ ['_']) :=
  name.2.stem.append_underscore

theorem stem_presence (name : PlainName) : Stem ("has_".toList ++ name.1 ++ ['_']) := by
  have hleading : Plain "has_".toList := by decide
  exact (hleading.append_plain name.2).stem.append_underscore

theorem stem_caseType (name : PlainName) : Stem (name.1 ++ "Case".toList) :=
  stem_append name "Case" (by decide) (by decide)

theorem stem_storageType (name : PlainName) : Stem (name.1 ++ "Storage".toList) :=
  stem_append name "Storage" (by decide) (by decide)

theorem stem_caseStorage (name : Text) :
    Stem (cppDerivableIdentifier name ++ "_case_".toList) := by
  have hword := word_cppDerivableIdentifier name
  exact (hword.toPlain.append (by decide) (.inl hword.last)).stem

theorem stem_oneofStorage (name : Text) : Stem (cppDerivableIdentifier name ++ ['_']) :=
  (stem_cppDerivableIdentifier name).append_underscore

theorem stem_implementation (name : PlainName) : Stem (cppEmittedDerivableIdentifier name.1) :=
  (word_cppEmittedDerivableIdentifier name.2).stem

end Fit

section Api

def nestedEnumOwner (enum : EnumModel) : Text := tagged "nested-enum:" enum.fullName

/-- The alias of a nested enumeration, and the helpers named after it. -/
def nestedEnumRequest (enum : EnumModel) : EmittedNameRequest where
  owner := nestedEnumOwner enum
  preferred := cppIdentifier enum.name
  members := ⟨.template [] [], .typeAlias, none⟩ :: (enumHelperNameMembers enum).map Prod.snd
  priority := 20
  stem := stem_cppIdentifier enum.name
  membersFit := membersFit_enumHelperNameMembers .typeAlias enum

def nestedMessageOwner (nested : MessageModel) : Text := tagged "nested-message:" nested.fullName

/-- The alias of a nested message. -/
def nestedMessageRequest (nested : MessageModel) : EmittedNameRequest where
  owner := nestedMessageOwner nested
  preferred := cppIdentifier nested.name
  members := [⟨.template [] [], .typeAlias, none⟩]
  priority := 20
  stem := stem_cppIdentifier nested.name
  membersFit := membersFit_single .typeAlias none

def constantOwner (constant : ConstantModel) : Text := tagged "constant:" constant.fullName

def constantRequest (priority : ℕ) (constant : ConstantModel) : EmittedNameRequest where
  owner := constantOwner constant
  preferred := constant.cppName.1
  members := [⟨.template [] [], .constant, none⟩]
  priority := priority
  stem := stem_plainName constant.cppName
  membersFit := membersFit_single .constant none

def fieldOwner (message : MessageModel) (item : FieldModel) : Text :=
  tagged "field:" (childPath message.fullName item.name)

/-- The public names of a field. They are granted before those of other declarations. -/
def fieldRequest (message : MessageModel) (item : FieldModel) : EmittedNameRequest where
  owner := fieldOwner message item
  preferred := item.cppName.1
  members := (fieldPublicNameMembers item).map Prod.snd
  priority := 10
  stem := stem_plainName item.cppName
  membersFit := membersFit_fieldPublicNameMembers item

/-- The nested messages that are declared as such. -/
def MessageModel.declaredMessages (message : MessageModel) : List MessageModel :=
  message.nestedMessages.filter fun nested => !nested.isMapEntry

/-- All names that the declarations of a message have in its class. -/
def classRequests (message : MessageModel) : List EmittedNameRequest :=
  message.nestedEnums.map nestedEnumRequest ++
    message.declaredMessages.map nestedMessageRequest ++
    message.constants.map (constantRequest 30) ++ message.fields.map (fieldRequest message)

end Api

section Oneofs

def oneofCaseTypeOwner (message : MessageModel) (oneof : OneofModel) : Text :=
  tagged "oneof-case-type:" (childPath message.fullName oneof.name)

def oneofCaseTypeRequest (message : MessageModel) (oneof : OneofModel) : EmittedNameRequest where
  owner := oneofCaseTypeOwner message oneof
  preferred := oneof.cppName.1 ++ "Case".toList
  members := [⟨.template [] [], .oneofCaseType, none⟩]
  stem := stem_caseType oneof.cppName
  membersFit := membersFit_single .oneofCaseType none

def oneofApiOwner (message : MessageModel) (oneof : OneofModel) : Text :=
  tagged "oneof-api:" (childPath message.fullName oneof.name)

/-- `{name}_case` and `clear_{name}` -/
def oneofApiMembers : List EmittedNameMember :=
  [⟨around "" "_case", .publicFunction, some (.fnConst 0)⟩,
   ⟨around "clear_" "", .publicFunction, some (.fn 0)⟩]

theorem membersFit_oneofApi : MembersFit oneofApiMembers := by
  decide

def oneofApiRequest (message : MessageModel) (oneof : OneofModel) : EmittedNameRequest where
  owner := oneofApiOwner message oneof
  preferred := cppDerivableIdentifier oneof.name
  members := oneofApiMembers
  stem := stem_cppDerivableIdentifier oneof.name
  membersFit := membersFit_oneofApi

def oneofRequests (message : MessageModel) : List EmittedNameRequest :=
  message.oneofs.flatMap fun oneof =>
    [oneofCaseTypeRequest message oneof, oneofApiRequest message oneof]

/-- The members of a oneof. -/
def oneofFields (oneof : OneofModel) (fields : List NamedField) : List NamedField :=
  fields.filter fun field => field.item.oneofIndex = some oneof.index

def oneofValueOwner (message : MessageModel) (field : NamedField) : Text :=
  tagged "oneof-value:" (childPath message.fullName field.item.name)

/-- The value of the case enumeration that stands for a member. -/
def oneofValueRequest (message : MessageModel) (field : NamedField) : EmittedNameRequest where
  owner := oneofValueOwner message field
  preferred := field.cppName.1
  members := [⟨.template [] [], .oneofCaseValue, none⟩]
  stem := stem_plainName field.cppName
  membersFit := membersFit_single .oneofCaseValue none

def oneofStorageOwner (message : MessageModel) (field : NamedField) : Text :=
  tagged "oneof-storage:" (childPath message.fullName field.item.name)

/-- What a member is called in the union of its oneof. -/
def oneofStorageRequest (message : MessageModel) (field : NamedField) : EmittedNameRequest where
  owner := oneofStorageOwner message field
  preferred := field.cppName.1 ++ ['_']
  members := [⟨.template [] [], .privateStorage, none⟩]
  stem := stem_trailing field.cppName
  membersFit := membersFit_single .privateStorage none

end Oneofs

section Private

/-- `f"private:{message.full_name}:{kind}{name}{part}"` -/
def privateOwner (message : MessageModel) (kind : String) (name : Text) (part : String) : Text :=
  tagged "private:" message.fullName ++ kind.toList ++ name ++ part.toList

/-- A private data member. -/
def privateStorageRequest (owner preferred : Text) (stem : Stem preferred) : EmittedNameRequest where
  owner := owner
  preferred := preferred
  members := [⟨.template [] [], .privateStorage, none⟩]
  stem := stem
  membersFit := membersFit_single .privateStorage none

def contextStorageOwner (message : MessageModel) : Text :=
  privateOwner message ":context-storage" [] ""

def unknownStorageOwner (message : MessageModel) : Text :=
  privateOwner message ":unknown-storage" [] ""

def privateFunctionOwner (message : MessageModel) (name : String) : Text :=
  privateOwner message ":function:" name.toList ""

def fieldStorageOwner (message : MessageModel) (field : NamedField) : Text :=
  privateOwner message ":field:" field.item.name ":storage"

def fieldPresenceOwner (message : MessageModel) (field : NamedField) : Text :=
  privateOwner message ":field:" field.item.name ":presence"

def oneofCaseStorageOwner (message : MessageModel) (oneof : OneofModel) : Text :=
  privateOwner message ":oneof:" oneof.name ":case"

def oneofTypeOwner (message : MessageModel) (oneof : OneofModel) : Text :=
  privateOwner message ":oneof:" oneof.name ":type"

def oneofContainerOwner (message : MessageModel) (oneof : OneofModel) : Text :=
  privateOwner message ":oneof:" oneof.name ":storage"

theorem stem_contextStorage : Stem "ctx_".toList := Plain.stem (by decide)

theorem stem_unknownStorage : Stem "unknown_fields_".toList := Plain.stem (by decide)

/-- A private function, called what it prefers to be called. -/
structure PrivateFunction where
  name : String
  stem : Stem name.toList

theorem stem_privateFunction {name : String} (h : name ∈ messagePrivateFunctions) :
    Stem name.toList := by
  apply Plain.stem
  revert name
  decide

/-- The private functions of a message: only one with oneofs has the last of them. -/
def MessageModel.privateFunctions (message : MessageModel) : List PrivateFunction :=
  (messagePrivateFunctions.attach.filter fun name =>
    !(decide (name.1 = "destroy_at_") && decide (message.oneofs = []))).map fun name =>
    ⟨name.1, stem_privateFunction name.2⟩

def privateFunctionRequest (message : MessageModel) (function : PrivateFunction) :
    EmittedNameRequest where
  owner := privateFunctionOwner message function.name
  preferred := function.name.toList
  members := [⟨.template [] [], .implementation, some (.privateFn function.name.toList)⟩]
  stem := function.stem
  membersFit := membersFit_single .implementation (some (.privateFn function.name.toList))

/-- The presence of a message is that of its storage. -/
def FieldModel.hasPresenceStorage (item : FieldModel) : Bool :=
  item.hasExplicitPresence && decide (item.kind ≠ .message)

def fieldStorageRequest (message : MessageModel) (field : NamedField) : EmittedNameRequest :=
  privateStorageRequest (fieldStorageOwner message field) (field.cppName.1 ++ ['_'])
    (stem_trailing field.cppName)

def fieldPresenceRequest (message : MessageModel) (field : NamedField) : EmittedNameRequest :=
  privateStorageRequest (fieldPresenceOwner message field)
    ("has_".toList ++ field.cppName.1 ++ ['_']) (stem_presence field.cppName)

/-- The members of a oneof have no storage of their own. -/
def fieldPrivateRequests (message : MessageModel) (field : NamedField) : List EmittedNameRequest :=
  if field.item.oneofIndex ≠ none then []
  else fieldStorageRequest message field ::
    if field.item.hasPresenceStorage then [fieldPresenceRequest message field] else []

def oneofTypeRequest (message : MessageModel) (oneof : OneofModel) : EmittedNameRequest where
  owner := oneofTypeOwner message oneof
  preferred := oneof.cppName.1 ++ "Storage".toList
  members := [⟨.template [] [], .type, none⟩]
  stem := stem_storageType oneof.cppName
  membersFit := membersFit_type

/-- The case, the union and its type. -/
def oneofPrivateRequests (message : MessageModel) (oneof : OneofModel) : List EmittedNameRequest :=
  [privateStorageRequest (oneofCaseStorageOwner message oneof)
     (cppDerivableIdentifier oneof.name ++ "_case_".toList) (stem_caseStorage oneof.name),
   oneofTypeRequest message oneof,
   privateStorageRequest (oneofContainerOwner message oneof)
     (cppDerivableIdentifier oneof.name ++ ['_']) (stem_oneofStorage oneof.name)]

def privateRequests (message : MessageModel) (fields : List NamedField) : List EmittedNameRequest :=
  [privateStorageRequest (contextStorageOwner message) "ctx_".toList stem_contextStorage,
   privateStorageRequest (unknownStorageOwner message) "unknown_fields_".toList
     stem_unknownStorage] ++
    message.privateFunctions.map (privateFunctionRequest message) ++
    fields.flatMap (fieldPrivateRequests message) ++
    message.oneofs.flatMap (oneofPrivateRequests message)

end Private

section Implementation

def implementationMembers : List EmittedNameMember :=
  fieldImplementationNameTemplates.map fun template => ⟨template.2, .implementation, none⟩

/-- The key and the value of a map have a storage of their own as well. -/
def mapMemberImplementationMembers : List EmittedNameMember :=
  implementationMembers ++ [⟨around "" "_", .implementation, none⟩]

theorem membersFit_implementation : MembersFit implementationMembers := by
  decide +kernel

theorem membersFit_mapMemberImplementation : MembersFit mapMemberImplementationMembers := by
  decide +kernel

def implementationOwner (message : MessageModel) (item : FieldModel) : Text :=
  tagged "implementation:" (childPath message.fullName item.name)

def implementationRequest (message : MessageModel) (field : NamedField) : EmittedNameRequest where
  owner := implementationOwner message field.item
  preferred := cppEmittedDerivableIdentifier field.cppName.1
  members := implementationMembers
  stem := stem_implementation field.cppName
  membersFit := membersFit_implementation

def mapMemberOwner (message : MessageModel) (item : FieldModel) (member : MapMember) : Text :=
  childPath (implementationOwner message item) member.name

def mapMemberRequest (message : MessageModel) (item : FieldModel) (member : MapMember) :
    EmittedNameRequest where
  owner := mapMemberOwner message item member
  preferred := cppEmittedDerivableIdentifier member.cppName.1
  members := mapMemberImplementationMembers
  stem := stem_implementation member.cppName
  membersFit := membersFit_mapMemberImplementation

end Implementation

section Templates

structure TemplateName where
  name : String
  stem : Stem name.toList

theorem stem_templateName {name : String}
    (h : name ∈ ["Config", "Reader", "Writer", "Value", "T"]) : Stem name.toList := by
  apply Plain.stem
  revert name
  decide

/-- The template parameters of the member functions. -/
def templateNames : List TemplateName :=
  ["Config", "Reader", "Writer", "Value", "T"].attach.map fun name =>
    ⟨name.1, stem_templateName name.2⟩

def templateOwner (message : MessageModel) (name : String) : Text :=
  tagged "template:" message.fullName ++ ':' :: name.toList

def templateRequest (message : MessageModel) (template : TemplateName) : EmittedNameRequest where
  owner := templateOwner message template.name
  preferred := template.name.toList
  members := [⟨.template [] [], .implementation, none⟩]
  stem := template.stem
  membersFit := membersFit_single .implementation none

theorem stem_nestedConfig : Stem "NestedConfig".toList := Plain.stem (by decide)

/-- The parameter of the alias template of a nested message. -/
def aliasTemplateRequest (label : Text) : EmittedNameRequest where
  owner := label ++ ":parameter".toList
  preferred := "NestedConfig".toList
  members := [⟨.template [] [], .implementation, none⟩]
  stem := stem_nestedConfig
  membersFit := membersFit_single .implementation none

end Templates

end Protocyte.Names
