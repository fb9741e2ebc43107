import Protocyte.Foundation.Computation
import Protocyte.Names.Message
import Protocyte.Names.Owners
import Mathlib.Data.List.Forall2

/-! Once a class has reserved its names, the allocation of its message returns: every owner looked
up has been granted a stem, and every name required has been emitted. -/
namespace Protocyte.Names

open Foundation Foundation.Computation

section Keys

variable {names : EmittedNames} {items : List (String × Text)} {key : String}

theorem mem_keys_update :
    key ∈ (names.update items).keys ↔ key ∈ names.keys ∨ key ∈ items.map Prod.fst := by
  unfold EmittedNames.update
  induction items generalizing names with
  | nil => simp
  | cons item items ih =>
    rw [List.foldl_cons, ih, List.map_cons, List.mem_cons, Dictionary.mem_keys_iff,
      Dictionary.mem_keys_iff]
    simp only [Dictionary.get?_set]
    constructor
    · rintro (⟨text, htext⟩ | hkey)
      · by_cases heq : key = item.1
        · exact .inr (.inl heq)
        · rw [if_neg heq] at htext
          exact .inl ⟨text, htext⟩
      · exact .inr (.inr hkey)
    · intro h
      by_cases heq : key = item.1
      · exact .inl ⟨item.2, if_pos heq⟩
      · rcases h with ⟨text, htext⟩ | hkey | hkey
        · exact .inl ⟨text, by rw [if_neg heq, htext]⟩
        · exact absurd hkey heq
        · exact .inr hkey

@[simp] theorem mem_keys_emittedNames :
    key ∈ (emittedNames items).keys ↔ key ∈ items.map Prod.fst := by
  unfold emittedNames
  rw [mem_keys_update]
  simp [Dictionary.keys, Dictionary.empty]

@[simp] theorem map_fst_renderMembers (members : List (String × EmittedNameMember))
    (stem : PlainName) : (renderMembers members stem).map Prod.fst = members.map Prod.fst := by
  simp [renderMembers]

@[simp] theorem map_fst_implementationItems (stem : PlainName) :
    (implementationItems stem).map Prod.fst = implementationNameKeys := by
  simp [implementationItems, implementationNameKeys]

end Keys

section Requirements

/-- The names a requirement asks for are there. -/
def Requirement.Met (requirement : Requirement) : Prop :=
  ∀ name ∈ requirement.required, name ∈ requirement.names

theorem Requirement.Met.check {requirement : Requirement} (h : requirement.Met) :
    requirement.check = .ok () := by
  unfold Requirement.check
  have hmissing : (requirement.required.dedup.filter fun name =>
      name ∉ requirement.names) = [] := by
    apply List.filter_eq_nil_iff.mpr
    intro name hname
    simpa using h name (List.mem_dedup.mp hname)
  simp only [hmissing, List.insertionSort_nil, if_true]

theorem checkRequirements_of_met {requirements : List Requirement}
    (h : ∀ requirement ∈ requirements, requirement.Met) :
    checkRequirements requirements = .ok () := by
  induction requirements with
  | nil => rfl
  | cons requirement rest ih =>
    obtain ⟨hfirst, hrest⟩ := List.forall_mem_cons.mp h
    rw [checkRequirements, except_bind_of_ok hfirst.check]
    exact ih hrest

end Requirements

section Lookups

variable {sha256 : Sha256} {stems : Dictionary Text PlainName} {owner : Text}

theorem lookup_yields (h : ∃ stem, stems.get? owner = some stem) :
    Yields (lookup stems owner) fun stem => stems.get? owner = some stem := by
  obtain ⟨stem, hstem⟩ := h
  unfold lookup
  rw [hstem]
  exact Yields.ok rfl

/-- The stems of a batch of requests in some scope. -/
def Granted (stems : Dictionary Text PlainName) (requests : List EmittedNameRequest) : Prop :=
  ∀ request ∈ requests, ∃ stem, stems.get? request.owner = some stem

theorem granted_allocate (sha256 : Sha256) (scope : EmittedNameScope) (requests : List EmittedNameRequest) :
    Granted (scope.allocate sha256 requests).stems requests :=
  fun _ h => EmittedNameScope.get?_allocate h

theorem Granted.lookup {requests : List EmittedNameRequest} (h : Granted stems requests)
    {request : EmittedNameRequest} (hmem : request ∈ requests) :
    Yields (lookup stems request.owner) fun stem => stems.get? request.owner = some stem :=
  lookup_yields (h request hmem)

end Lookups

section Api

variable {sha256 : Sha256} {scope : EmittedNameScope} {message : MessageModel}

theorem reserve_empty {label name : Text} {use : EmittedNameUse}
    (h : isPortableIdentifier name = true) :
    Yields ((EmittedNameScope.empty label).reserve name use) fun _ => True := by
  have hadd : (EmittedNameScope.empty label).canAdd name use [] = true := by
    rw [EmittedNameScope.canAdd_iff]
    exact ⟨h, by simp [EmittedNameScope.get, EmittedNameScope.empty]⟩
  unfold EmittedNameScope.reserve
  rw [if_neg (by simp [EmittedNameScope.get, EmittedNameScope.empty]), dif_pos hadd]
  exact Yields.ok trivial

theorem allocateAliasTemplateParameter_yields {label aliasName : Text}
    (h : isPortableIdentifier aliasName = true) :
    Yields (allocateAliasTemplateParameter sha256 label aliasName) fun _ => True := by
  unfold allocateAliasTemplateParameter
  apply (reserve_empty h).bind
  intro scope _
  apply ((granted_allocate sha256 scope _).lookup List.mem_cons_self).bind
  intro stem _
  exact Yields.ok trivial

theorem nameNestedEnum_yields {enum : EnumModel} (h : enum ∈ message.nestedEnums) :
    Yields (nameNestedEnum (scope.allocate sha256 (classRequests message)).stems enum)
      fun named => (enumRequirement named).Met := by
  have hmem : nestedEnumRequest enum ∈ classRequests message := by
    unfold classRequests
    simp only [List.mem_append]
    exact .inl (.inl (.inl (List.mem_map_of_mem h)))
  unfold nameNestedEnum
  apply ((granted_allocate sha256 scope _).lookup hmem).bind
  intro stem _
  apply Yields.ok
  intro key hkey
  show key ∈ (emittedNames _).keys
  rw [mem_keys_emittedNames, List.map_cons, map_fst_renderMembers]
  exact hkey

/-- The alias of a nested message is portable: it stands in the scope of the class. -/
theorem nameNestedMessage_yields (hvalid : message.Valid) {nested : MessageModel}
    (h : nested ∈ message.declaredMessages) :
    Yields (nameNestedMessage sha256 (scope.allocate sha256 (classRequests message)).stems nested)
      fun named => (nestedRequirement named).Met := by
  have hmem : nestedMessageRequest nested ∈ classRequests message := by
    unfold classRequests
    simp only [List.mem_append]
    exact .inl (.inl (.inr (List.mem_map_of_mem h)))
  obtain ⟨stem, hstem, huses⟩ := EmittedNameScope.records_allocate sha256 scope
    (classRequests_owners hvalid) hmem
  have hportable : isPortableIdentifier stem.1 = true := by
    have huse := huses _ (List.mem_map.mpr ⟨_, List.mem_cons_self, rfl⟩)
    have hvalid := (scope.allocate sha256 (classRequests message)).scope.names.valid_of_mem _ huse
    have hrender : (Shape.template [] []).render stem.1 = stem.1 := List.append_nil _
    rwa [EmittedNameMember.render, hrender] at hvalid
  unfold nameNestedMessage
  apply ((granted_allocate sha256 scope _).lookup hmem).bind
  intro found hfound
  obtain rfl := Option.some.inj (hstem.symm.trans hfound)
  apply (allocateAliasTemplateParameter_yields hportable).bind
  rintro ⟨aliasScope, parameter⟩ _
  apply Yields.ok
  intro key hkey
  show key ∈ (emittedNames _).keys
  rw [mem_keys_emittedNames]
  exact hkey

theorem nameField_yields {item : FieldModel} (h : item ∈ message.fields) :
    Yields (nameField message (scope.allocate sha256 (classRequests message)).stems item)
      fun field => field.item = item := by
  have hmem : fieldRequest message item ∈ classRequests message := by
    unfold classRequests
    simp only [List.mem_append]
    exact .inr (List.mem_map_of_mem h)
  unfold nameField
  apply ((granted_allocate sha256 scope _).lookup hmem).bind
  intro stem _
  exact Yields.ok rfl

theorem nameConstant_yields {constant : ConstantModel} (h : constant ∈ message.constants) :
    Yields (nameConstant (scope.allocate sha256 (classRequests message)).stems constant)
      fun _ => True := by
  have hmem : constantRequest 30 constant ∈ classRequests message := by
    unfold classRequests
    simp only [List.mem_append]
    exact .inl (.inr (List.mem_map_of_mem h))
  unfold nameConstant
  apply ((granted_allocate sha256 scope _).lookup hmem).bind
  intro stem _
  exact Yields.ok trivial

/-- The API of a message has all its names; its fields are those of the message, in order. -/
structure ApiNames.Complete (message : MessageModel) (names : ApiNames) : Prop where
  enums : ∀ named ∈ names.enums, (enumRequirement named).Met
  nested : ∀ named ∈ names.nested, (nestedRequirement named).Met
  fields : names.fields.map NamedField.item = message.fields

theorem nameApi_yields (hvalid : message.Valid) :
    Yields (nameApi sha256 message (scope.allocate sha256 (classRequests message)).stems)
      (ApiNames.Complete message) := by
  unfold nameApi
  apply (Yields.mapM fun enum henum => nameNestedEnum_yields henum).bind
  intro enums henums
  apply (Yields.mapM fun nested hnested => nameNestedMessage_yields hvalid hnested).bind
  intro nested hnested
  apply (Yields.mapM fun constant hconstant => nameConstant_yields hconstant).bind
  intro constants _
  apply (Yields.mapM fun item hitem => nameField_yields hitem).bind
  intro fields hfields
  apply Yields.ok
  constructor
  · intro named hnamed
    obtain ⟨_, _, hmet⟩ := Yields.exists_of_forall₂' henums hnamed
    exact hmet
  · intro named hnamed
    obtain ⟨_, _, hmet⟩ := Yields.exists_of_forall₂' hnested hnamed
    exact hmet
  · exact (Yields.map_eq_of_forall₂ (f := id) hfields).trans (List.map_id _)

end Api

section Oneofs

variable {sha256 : Sha256} {message : MessageModel} {oneof : OneofModel}
  {fields : List NamedField} {scope : EmittedNameScope}

/-- The members of a oneof all have values of its case type. -/
def OneofApi.Complete (fields : List NamedField) (oneof : OneofModel) (names : OneofApi) : Prop :=
  names.oneof = oneof ∧ ∀ field ∈ oneofFields oneof fields,
    ∃ value ∈ names.caseValues, value.1 = field.item

theorem allocateOneofCase_yields :
    Yields (allocateOneofCase sha256 message oneof fields) fun result =>
      ∀ field ∈ oneofFields oneof fields, ∃ value ∈ result.2, value.1 = field.item := by
  unfold allocateOneofCase
  apply (reserve_empty (by decide)).bind
  intro scope _
  have hvalues : ∀ field ∈ oneofFields oneof fields, Yields (do
      let stem ← lookup (scope.allocate sha256
        ((oneofFields oneof fields).map (oneofValueRequest message))).stems
        (oneofValueOwner message field)
      .ok (field.item, stem)) fun value : FieldModel × PlainName => value.1 = field.item := by
    intro field hfield
    apply ((granted_allocate sha256 scope _).lookup (List.mem_map_of_mem hfield)).bind
    intro stem _
    exact Yields.ok rfl
  apply (Yields.mapM hvalues).bind
  intro values hvalues
  exact Yields.ok fun field hfield => Yields.exists_of_forall₂ hvalues hfield

theorem nameOneofApi_yields (h : oneof ∈ message.oneofs) :
    Yields (nameOneofApi sha256 message fields
      (scope.allocate sha256 (oneofRequests message)).stems oneof) (OneofApi.Complete fields oneof) := by
  have hmem : oneofCaseTypeRequest message oneof ∈ oneofRequests message ∧
      oneofApiRequest message oneof ∈ oneofRequests message := by
    constructor
    · exact List.mem_flatMap.mpr ⟨oneof, h, List.mem_cons_self⟩
    · exact List.mem_flatMap.mpr ⟨oneof, h, List.mem_cons_of_mem _ List.mem_cons_self⟩
  unfold nameOneofApi
  apply ((granted_allocate sha256 scope _).lookup hmem.1).bind
  intro caseType _
  apply ((granted_allocate sha256 scope _).lookup hmem.2).bind
  intro api _
  apply allocateOneofCase_yields.bind
  rintro ⟨caseScope, values⟩ hvalues
  exact Yields.ok ⟨rfl, hvalues⟩

def OneofStorage.Complete (fields : List NamedField) (oneof : OneofModel) (names : OneofStorage) :
    Prop :=
  ∀ field ∈ oneofFields oneof fields, ∃ value ∈ names.storages, value.1 = field.item

theorem nameOneofStorage_yields (h : oneof ∈ message.oneofs) :
    Yields (nameOneofStorage sha256 message fields
      (scope.allocate sha256 (privateRequests message fields)).stems oneof)
      (OneofStorage.Complete fields oneof) := by
  have hmem : ∀ request ∈ oneofPrivateRequests message oneof,
      request ∈ privateRequests message fields := by
    intro request hrequest
    unfold privateRequests
    simp only [List.mem_append]
    exact .inr (List.mem_flatMap.mpr ⟨oneof, h, hrequest⟩)
  unfold nameOneofStorage
  apply ((granted_allocate sha256 scope _).lookup (hmem _ List.mem_cons_self)).bind
  intro caseStorage _
  apply ((granted_allocate sha256 scope _).lookup
    (hmem _ (List.mem_cons_of_mem _ List.mem_cons_self))).bind
  intro storageType _
  apply ((granted_allocate sha256 scope _).lookup
    (hmem _ (List.mem_cons_of_mem _ (List.mem_cons_of_mem _ List.mem_cons_self)))).bind
  intro storage _
  have hstorages : ∀ field ∈ oneofFields oneof fields, Yields (do
      let stem ← lookup ((EmittedNameScope.empty
        (tagged "oneof-storage:" (childPath message.fullName oneof.name))).allocate sha256
          ((oneofFields oneof fields).map (oneofStorageRequest message))).stems
        (oneofStorageOwner message field)
      .ok (field.item, stem)) fun value : FieldModel × PlainName => value.1 = field.item := by
    intro field hfield
    apply ((granted_allocate sha256 _ _).lookup (List.mem_map_of_mem hfield)).bind
    intro stem _
    exact Yields.ok rfl
  apply (Yields.mapM hstorages).bind
  intro storages hstorages
  exact Yields.ok fun field hfield => Yields.exists_of_forall₂ hstorages hfield

theorem oneofRequirement_met (names : OneofNames) : (oneofRequirement message names).Met := by
  intro key hkey
  show key ∈ (emittedNames _).keys
  rw [mem_keys_emittedNames]
  exact hkey

/-- The keys a member of a oneof must have. -/
theorem mem_oneofFieldNames {oneofs : List OneofNames} {names : OneofNames} {field : NamedField}
    (hnames : names ∈ oneofs) (hapi : names.api.Complete fields oneof)
    (hstorage : names.storage.Complete fields oneof) (hfield : field ∈ oneofFields oneof fields) :
    ∀ key ∈ ["oneof_case", "oneof_storage", "oneof_case_type", "oneof_case_storage",
      "oneof_container", "oneof_clear"],
      key ∈ (oneofFieldNames oneofs field.item).map Prod.fst := by
  obtain ⟨value, hvalue, hvalueItem⟩ := hapi.2 field hfield
  obtain ⟨storage, hstorage, hstorageItem⟩ := hstorage field hfield
  have hsubset : ("oneof_case", value.2.1) :: [("oneof_storage", storage.2.1),
      ("oneof_case_type", names.api.caseType.1), ("oneof_case_storage", names.storage.caseStorage.1),
      ("oneof_container", names.storage.storage.1),
      ("oneof_clear", "clear_".toList ++ names.api.api.1)] ⊆ oneofFieldNames oneofs field.item := by
    intro item hitem
    refine List.mem_flatMap.mpr ⟨names, hnames, List.mem_append.mpr ?_⟩
    rcases List.mem_cons.mp hitem with rfl | hitem
    · left
      refine List.mem_map.mpr ⟨value, List.mem_filter.mpr ⟨hvalue, ?_⟩, rfl⟩
      rw [hvalueItem]
      exact decide_eq_true rfl
    · right
      refine List.mem_flatMap.mpr ⟨storage, List.mem_filter.mpr ⟨hstorage, ?_⟩, hitem⟩
      rw [hstorageItem]
      exact decide_eq_true rfl
  intro key hkey
  exact List.map_subset Prod.fst hsubset hkey

end Oneofs

section Private

variable {sha256 : Sha256} {message : MessageModel} {fields : List NamedField}
  {scope : EmittedNameScope}

theorem namePrivate_yields :
    Yields (namePrivate message (scope.allocate sha256 (privateRequests message fields)).stems)
      fun names => names.items.map Prod.fst = privateNameKeys message := by
  have hmem : ∀ function ∈ message.privateFunctions,
      privateFunctionRequest message function ∈ privateRequests message fields := by
    intro function hfunction
    unfold privateRequests
    simp only [List.mem_append]
    exact .inl (.inl (.inr (List.mem_map_of_mem hfunction)))
  unfold namePrivate
  apply ((granted_allocate sha256 scope _).lookup (List.mem_cons_self)).bind
  intro contextStorage _
  apply ((granted_allocate sha256 scope _).lookup
    (List.mem_cons_of_mem _ List.mem_cons_self)).bind
  intro unknownStorage _
  have hfunctions : ∀ function ∈ message.privateFunctions, Yields (do
      let stem ← lookup (scope.allocate sha256 (privateRequests message fields)).stems
        (privateFunctionOwner message function.name)
      .ok (function.name, stem)) fun item : String × PlainName => item.1 = function.name := by
    intro function hfunction
    apply ((granted_allocate sha256 scope _).lookup (hmem function hfunction)).bind
    intro stem _
    exact Yields.ok rfl
  apply (Yields.mapM hfunctions).bind
  intro functions hfunctions
  apply Yields.ok
  have hnames := Yields.map_eq_of_forall₂ hfunctions
  unfold PrivateNames.items privateNameKeys
  rw [List.map_append, List.map_map, ← hnames]
  rfl

/-- A field outside of the oneofs has its storage and, with presence, that of its presence. -/
def StoredField.Complete (field : NamedField) (stored : StoredField) : Prop :=
  stored.field = field ∧ (field.item.oneofIndex = none →
    ∀ key ∈ "storage" :: if field.item.hasPresenceStorage then ["presence_storage"] else [],
      key ∈ stored.storage.map Prod.fst)

theorem nameFieldStorage_yields {field : NamedField} (h : field ∈ fields) :
    Yields (nameFieldStorage message
      (scope.allocate sha256 (privateRequests message fields)).stems field)
      (StoredField.Complete field) := by
  have hmem : ∀ request ∈ fieldPrivateRequests message field,
      request ∈ privateRequests message fields := by
    intro request hrequest
    unfold privateRequests
    simp only [List.mem_append]
    exact .inl (.inr (List.mem_flatMap.mpr ⟨field, h, hrequest⟩))
  unfold nameFieldStorage
  by_cases honeof : field.item.oneofIndex ≠ none
  · rw [if_pos honeof]
    exact Yields.ok ⟨rfl, fun hnone => absurd hnone honeof⟩
  · rw [if_neg honeof]
    unfold fieldPrivateRequests at hmem
    rw [if_neg honeof] at hmem
    apply ((granted_allocate sha256 scope _).lookup (hmem _ List.mem_cons_self)).bind
    intro storage _
    cases hpresence : (scope.allocate sha256 (privateRequests message fields)).stems.get?
        (fieldPresenceOwner message field) with
    | some presence =>
      refine Yields.ok ⟨rfl, ?_⟩
      intro _ key hkey
      show key ∈ ["storage", "presence_storage"]
      split_ifs at hkey
      · exact hkey
      · exact List.mem_cons.mpr (.inl (List.mem_singleton.mp hkey))
    | none =>
      refine Yields.ok ⟨rfl, ?_⟩
      intro _ key hkey
      split_ifs at hkey with hhas
      · rw [if_pos hhas] at hmem
        obtain ⟨stem, hstem⟩ := granted_allocate sha256 scope _ _
          (hmem _ (List.mem_cons_of_mem _ List.mem_cons_self))
        exact absurd (hstem.symm.trans hpresence) (by simp)
      · exact hkey

end Private

section Allocators

variable {allocator other third : EmittedNameAllocator} {label : Text} {scope : EmittedNameScope}

theorem EmittedNameAllocator.scope_store_of_ne {label' : Text} (h : label' ≠ label) :
    (allocator.store label scope).scope label' = allocator.scope label' := by
  unfold store EmittedNameAllocator.scope
  rw [Dictionary.get?_set_of_ne h]

/-- The scopes of the message classes are the same. -/
def SameClasses (allocator other : EmittedNameAllocator) : Prop :=
  ∀ fullName, other.scope (tagged "message:" fullName) =
    allocator.scope (tagged "message:" fullName)

theorem SameClasses.refl (allocator : EmittedNameAllocator) : SameClasses allocator allocator :=
  fun _ => rfl

theorem SameClasses.trans (h : SameClasses allocator other) (h' : SameClasses other third) :
    SameClasses allocator third :=
  fun fullName => (h' fullName).trans (h fullName)

theorem sameClasses_store (text : Text) :
    SameClasses allocator (allocator.store (tagged "implementation:" text) scope) :=
  fun _ => EmittedNameAllocator.scope_store_of_ne (tagged_ne 0 (by decide) (by decide))

end Allocators

section Implementation

variable {sha256 : Sha256} {message : MessageModel} {shared : PrivateNames}
  {oneofs : List OneofNames} {item : FieldModel}

/-- The names of the key or the value of a map. -/
def MemberComplete (message : MessageModel) (named : Named MapMember) : Prop :=
  ∀ key ∈ privateNameKeys message ++ implementationNameKeys ++ ["storage"],
    key ∈ named.emitted.keys

theorem allocateMapMember_yields (hshared : shared.items.map Prod.fst = privateNameKeys message)
    (allocator : EmittedNameAllocator) (member : MapMember) :
    Yields (allocateMapMember sha256 message shared item allocator member) fun result =>
      SameClasses allocator result.1 ∧ MemberComplete message result.2 := by
  unfold allocateMapMember
  simp only
  apply ((granted_allocate sha256 _ _).lookup List.mem_cons_self).bind
  intro stem _
  refine Yields.ok ⟨?_, ?_⟩
  · have howner : (mapMemberRequest message item member).owner = tagged "implementation:"
        (childPath (childPath message.fullName item.name) member.name) := by
      show childPath (tagged _ _) _ = _
      simp [childPath, tagged]
    rw [howner]
    exact sameClasses_store _
  · intro key hkey
    show key ∈ (emittedNames _).keys
    rw [mem_keys_emittedNames, List.map_append, List.map_append, hshared,
      map_fst_implementationItems]
    exact hkey

theorem allocateMapMembers_yields (hshared : shared.items.map Prod.fst = privateNameKeys message)
    (allocator : EmittedNameAllocator) (members : List MapMember) :
    Yields (allocateMapMembers sha256 message shared item allocator members) fun result =>
      SameClasses allocator result.1 ∧ ∀ named ∈ result.2, MemberComplete message named := by
  induction members generalizing allocator with
  | nil => exact Yields.ok ⟨SameClasses.refl _, by simp⟩
  | cons member members ih =>
    rw [allocateMapMembers]
    apply (allocateMapMember_yields hshared allocator member).bind
    rintro ⟨next, named⟩ ⟨hnext, hnamed⟩
    apply (ih next).bind
    rintro ⟨last, rest⟩ ⟨hlast, hrest⟩
    exact Yields.ok ⟨hnext.trans hlast, List.forall_mem_cons.mpr ⟨hnamed, hrest⟩⟩

/-- The names of a field, made from what was stored for it. -/
structure FieldNames.Made (message : MessageModel) (shared : PrivateNames)
    (oneofs : List OneofNames) (stored : StoredField) (names : FieldNames) : Prop where
  item : names.item = stored.field.item
  cppName : names.cppName = stored.field.cppName
  emitted : names.emitted = fieldEmittedNames shared oneofs stored
  implementation : ∀ key ∈ implementationNameKeys, key ∈ names.implementation.keys
  mapMembers : ∀ named ∈ names.mapMembers, MemberComplete message named

theorem allocateFieldImplementations_yields
    (hshared : shared.items.map Prod.fst = privateNameKeys message)
    {stems : Dictionary Text PlainName} (allocator : EmittedNameAllocator)
    {fields : List StoredField} (hstems : Granted stems (fields.map fun stored =>
      implementationRequest message stored.field)) :
    Yields (allocateFieldImplementations sha256 message shared oneofs stems allocator fields)
      fun result => SameClasses allocator result.1 ∧
        List.Forall₂ (FieldNames.Made message shared oneofs) fields result.2 := by
  induction fields generalizing allocator with
  | nil => exact Yields.ok ⟨SameClasses.refl _, .nil⟩
  | cons stored fields ih =>
    rw [allocateFieldImplementations]
    simp only
    obtain ⟨hfirst, hrest⟩ := List.forall_mem_cons.mp hstems
    apply (lookup_yields hfirst).bind
    intro stem _
    apply (allocateMapMembers_yields hshared allocator _).bind
    rintro ⟨next, members⟩ ⟨hnext, hmembers⟩
    apply (ih next hrest).bind
    rintro ⟨last, names⟩ ⟨hlast, hnames⟩
    refine Yields.ok ⟨hnext.trans hlast, .cons ⟨rfl, rfl, rfl, ?_, hmembers⟩ hnames⟩
    intro key hkey
    rwa [mem_keys_emittedNames, map_fst_implementationItems]

theorem allocateMessageImplementationNames_yields
    (hshared : shared.items.map Prod.fst = privateNameKeys message)
    (allocator : EmittedNameAllocator) (fields : List StoredField) :
    Yields (allocateMessageImplementationNames sha256 message shared oneofs allocator fields)
      fun result => SameClasses allocator result.1 ∧
        List.Forall₂ (FieldNames.Made message shared oneofs) fields result.2 := by
  unfold allocateMessageImplementationNames
  simp only
  apply (allocateFieldImplementations_yields hshared _ (granted_allocate sha256 _ _)).mono
  rintro result ⟨hclasses, hnames⟩
  exact ⟨(sameClasses_store _).trans hclasses, hnames⟩

end Implementation

section Fields

variable {message : MessageModel} {shared : PrivateNames} {oneofs : List OneofNames}
  {fields : List NamedField} {names : FieldNames} {stored : StoredField}

/-- A member of a oneof finds its oneof among those named. -/
def OneofsNamed (message : MessageModel) (fields : List NamedField) (oneofs : List OneofNames) :
    Prop :=
  ∀ oneof ∈ message.oneofs, ∃ names ∈ oneofs,
    names.api.Complete fields oneof ∧ names.storage.Complete fields oneof

theorem mem_fieldEmittedNames {key : String} :
    key ∈ (fieldEmittedNames shared oneofs stored).keys ↔
      key ∈ (fieldPublicNameMembers stored.field.item).map Prod.fst ∨ key = "number" ∨
        key ∈ (oneofFieldNames oneofs stored.field.item).map Prod.fst ∨
        key ∈ stored.storage.map Prod.fst ∨ key ∈ shared.items.map Prod.fst := by
  unfold fieldEmittedNames
  rw [mem_keys_emittedNames]
  simp only [List.map_append, List.mem_append, map_fst_renderMembers, List.map_cons, List.map_nil,
    List.mem_singleton, or_assoc]

theorem fieldRequirements_met (hvalid : message.Valid)
    (hfields : fields.map NamedField.item = message.fields)
    (hshared : shared.items.map Prod.fst = privateNameKeys message)
    (honeofs : OneofsNamed message fields oneofs) (hmem : stored.field ∈ fields)
    (hstored : stored.Complete stored.field) (hmade : names.Made message shared oneofs stored) :
    ∀ requirement ∈ fieldRequirements message names, requirement.Met := by
  unfold fieldRequirements
  simp only
  refine List.forall_mem_cons.mpr ⟨?_, ?_⟩
  · intro key hkey
    show key ∈ names.emitted.keys ++ names.implementation.keys
    rw [List.mem_append, hmade.emitted, mem_fieldEmittedNames]
    simp only [hmade.item, List.cons_append, List.mem_cons, List.mem_append] at hkey
    rcases hkey with rfl | ((hpublic | hprivate) | himplementation) | hstorage
    · exact .inl (.inr (.inl rfl))
    · exact .inl (.inl hpublic)
    · exact .inl (.inr (.inr (.inr (.inr (hshared ▸ hprivate)))))
    · exact .inr (hmade.implementation key himplementation)
    · left
      cases hindex : stored.field.item.oneofIndex with
      | none =>
        rw [if_neg (by simp [hindex])] at hstorage
        exact .inr (.inr (.inr (.inl (hstored.2 hindex key hstorage))))
      | some index =>
        rw [if_pos (by simp [hindex])] at hstorage
        have hitem : stored.field.item ∈ message.fields :=
          hfields ▸ List.mem_map_of_mem hmem
        obtain ⟨oneof, honeof, rfl⟩ := hvalid.oneofOf _ hitem index hindex
        obtain ⟨named, hnamed, hapi, hunion⟩ := honeofs oneof honeof
        have hfield : stored.field ∈ oneofFields oneof fields :=
          List.mem_filter.mpr ⟨hmem, decide_eq_true hindex⟩
        exact .inr (.inr (.inl (mem_oneofFieldNames hnamed hapi hunion hfield key hstorage)))
  · intro requirement hrequirement
    obtain ⟨named, hnamed, rfl⟩ := List.mem_map.mp hrequirement
    exact hmade.mapMembers named hnamed

end Fields

section Class

variable {sha256 : Sha256} {message : MessageModel}

structure StorageNames.Complete (message : MessageModel) (fields : List NamedField)
    (names : StorageNames) : Prop where
  shared : names.shared.items.map Prod.fst = privateNameKeys message
  stored : List.Forall₂ StoredField.Complete fields names.fields
  oneofs : OneofsNamed message fields names.oneofs

theorem nameStorage_yields {fields : List NamedField} {apis : List OneofApi}
    (hapis : List.Forall₂ (OneofApi.Complete fields) message.oneofs apis)
    (scope : EmittedNameScope) :
    Yields (nameStorage sha256 message fields apis
      (scope.allocate sha256 (privateRequests message fields)).stems)
      (StorageNames.Complete message fields) := by
  unfold nameStorage
  apply namePrivate_yields.bind
  intro shared hshared
  apply (Yields.mapM fun field hfield => nameFieldStorage_yields hfield).bind
  intro stored hstored
  have honeofs : ∀ api ∈ apis, Yields (do
      let storage ← nameOneofStorage sha256 message fields
        (scope.allocate sha256 (privateRequests message fields)).stems api.oneof
      .ok (⟨api, storage⟩ : OneofNames)) fun names : OneofNames =>
        names.api = api ∧ names.storage.Complete fields api.oneof := by
    intro api hapi
    obtain ⟨oneof, honeof, hcomplete⟩ := Yields.exists_of_forall₂' hapis hapi
    rw [hcomplete.1]
    apply (nameOneofStorage_yields honeof).bind
    intro storage hstorage
    exact Yields.ok ⟨rfl, hstorage⟩
  apply (Yields.mapM honeofs).bind
  intro oneofs honeofs
  refine Yields.ok ⟨hshared, hstored, ?_⟩
  intro oneof honeof
  obtain ⟨api, hapi, hcomplete⟩ := Yields.exists_of_forall₂ hapis honeof
  obtain ⟨names, hnames, rfl, hstorage⟩ := Yields.exists_of_forall₂ honeofs hapi
  rw [hcomplete.1] at hstorage
  exact ⟨names, hnames, hcomplete, hstorage⟩

/-- Names of a message that nothing required is missing from, and that stand in the scope of its
class. -/
structure MessageNames.Complete (message : MessageModel) (names : MessageNames) : Prop where
  message_eq : names.message = message
  requirements : ∀ requirement ∈ names.requirements, requirement.Met
  api : ∀ request ∈ classRequests message,
    Allocation.Records ⟨names.classScope, names.apiStems⟩ request
  oneofs : ∀ request ∈ oneofRequests message,
    Allocation.Records ⟨names.classScope, names.oneofStems⟩ request
  members : ∀ request ∈ privateRequests message names.api.fields,
    Allocation.Records ⟨names.classScope, names.privateStems⟩ request
  templates : ∀ request ∈ templateNames.map (templateRequest message),
    Allocation.Records ⟨names.classScope, names.templateStems⟩ request

theorem messageRequirement_met {shared : PrivateNames}
    (hshared : shared.items.map Prod.fst = privateNameKeys message) :
    (messageRequirement message (messageEmittedNames message shared)).Met := by
  intro key hkey
  show key ∈ (emittedNames _).keys
  rw [mem_keys_emittedNames, List.map_append, List.map_append, List.map_append, hshared,
    List.map_map]
  unfold messageRequirement at hkey
  simp only [List.mem_cons, List.mem_append, List.cons_append] at hkey ⊢
  rcases hkey with rfl | (hprivate | hpublic) | hfields
  · exact .inl (.inl (.inl (by simp)))
  · exact .inr hprivate
  · exact .inl (.inr hpublic)
  · refine .inl (.inl (.inr ?_))
    split_ifs at hfields ⊢ with hnil
    · exact hfields
    · exact hfields

/-- A scope that only grows keeps what was recorded in it. -/
theorem Allocation.Records.grow {state : Allocation} {scope : EmittedNameScope}
    {request : EmittedNameRequest} (h : state.Records request)
    (hsubset : ∀ u ∈ state.scope.names.uses, u ∈ scope.names.uses) :
    Allocation.Records ⟨scope, state.stems⟩ request := by
  obtain ⟨stem, hstem, huses⟩ := h
  exact ⟨stem, hstem, fun u hu => hsubset u (huses u hu)⟩

theorem nameTemplate_yields (scope : EmittedNameScope) {template : TemplateName}
    (h : template ∈ templateNames) :
    Yields (nameTemplate message
      (scope.allocate sha256 (templateNames.map (templateRequest message))).stems template)
      fun _ => True := by
  unfold nameTemplate
  apply ((granted_allocate sha256 scope _).lookup
    (List.mem_map_of_mem (f := templateRequest message) h)).bind
  intro stem _
  exact Yields.ok trivial

section Grown

variable {scope later : EmittedNameScope} {requests : List EmittedNameRequest}
variable {granted : Allocation}

theorem uses_grown (h : scope.allocate sha256 requests = granted) :
    ∀ u ∈ scope.names.uses, u ∈ granted.scope.names.uses := by
  subst h
  exact fun u hu => EmittedNameScope.uses_allocate hu

theorem records_grown (h : scope.allocate sha256 requests = granted)
    (howners : (requests.map (·.owner)).Nodup)
    (hsubset : ∀ u ∈ granted.scope.names.uses, u ∈ later.names.uses) :
    ∀ request ∈ requests, Allocation.Records ⟨later, granted.stems⟩ request := by
  subst h
  intro request hrequest
  exact (EmittedNameScope.records_allocate sha256 scope howners hrequest).grow hsubset

end Grown

/-- What is demanded of a class is there once its parts are complete. -/
theorem MessageNames.requirements_met (hvalid : message.Valid) {names : MessageNames}
    {storage : StorageNames} (hmessage : names.message = message)
    (hemitted : names.emitted = messageEmittedNames message storage.shared)
    (hapi : names.api.Complete message) (hstorage : storage.Complete message names.api.fields)
    (hmade : List.Forall₂ (FieldNames.Made message storage.shared storage.oneofs) storage.fields
      names.fields) : ∀ requirement ∈ names.requirements, requirement.Met := by
  intro requirement hrequirement
  unfold MessageNames.requirements at hrequirement
  rw [hmessage, hemitted] at hrequirement
  simp only [List.mem_cons, List.mem_append, List.cons_append] at hrequirement
  rcases hrequirement with rfl | ((henum | hnested) | hfield) | honeof
  · exact messageRequirement_met hstorage.shared
  · obtain ⟨named, hnamed, rfl⟩ := List.mem_map.mp henum
    exact hapi.enums named hnamed
  · obtain ⟨named, hnamed, rfl⟩ := List.mem_map.mp hnested
    exact hapi.nested named hnamed
  · obtain ⟨made, hnames, hrequirement⟩ := List.mem_flatMap.mp hfield
    obtain ⟨stored, hstored, hmade⟩ := Yields.exists_of_forall₂' hmade hnames
    obtain ⟨field, hfield, hcomplete⟩ := Yields.exists_of_forall₂' hstorage.stored hstored
    obtain rfl := hcomplete.1
    exact fieldRequirements_met hvalid hapi.fields hstorage.shared hstorage.oneofs hfield
      hcomplete hmade requirement hrequirement
  · obtain ⟨named, _, rfl⟩ := List.mem_map.mp honeof
    exact oneofRequirement_met named

theorem allocateClassMembers_yields (sha256 : Sha256) (hvalid : message.Valid)
    (allocator : EmittedNameAllocator) (scope : EmittedNameScope) :
    Yields (allocateClassMembers sha256 allocator scope message) fun result =>
      (∀ fullName, fullName ≠ message.fullName →
        result.1.scope (tagged "message:" fullName) =
          allocator.scope (tagged "message:" fullName)) ∧
      result.2.Complete message := by
  unfold allocateClassMembers
  simp only
  -- the four states of the scope of the class
  generalize hpublic : scope.allocate sha256 (classRequests message) = granted
  apply (hpublic ▸ nameApi_yields hvalid).bind
  intro api hapi
  generalize honeofs : granted.scope.allocate sha256 (oneofRequests message) = cases
  apply (Yields.mapM fun oneof honeof => honeofs ▸ nameOneofApi_yields honeof).bind
  intro apis hapis
  generalize hprivate : cases.scope.allocate sha256 (privateRequests message api.fields) = members
  apply (hprivate ▸ nameStorage_yields hapis cases.scope).bind
  intro storage hstorage
  apply (allocateMessageImplementationNames_yields hstorage.shared allocator _).bind
  rintro ⟨next, fields⟩ ⟨hclasses, hmade⟩
  generalize htemplate : members.scope.allocate sha256
    (templateNames.map (templateRequest message)) = parameters
  apply (Yields.mapM fun template hmem => htemplate ▸ nameTemplate_yields members.scope hmem).bind
  intro templates _
  have hnames : (api.fields.map fun field => field.item.name).Nodup := by
    have hmap : (api.fields.map fun field => field.item.name) = message.fields.map (·.name) := by
      rw [← hapi.fields, List.map_map]
      rfl
    rw [hmap]
    exact hvalid.fields
  have hcases := uses_grown honeofs
  have hmembers := uses_grown hprivate
  have hparameters := uses_grown htemplate
  refine Yields.ok ⟨?_, rfl, ?_, ?_, ?_, ?_, ?_⟩
  · intro fullName hne
    rw [← hclasses fullName]
    exact EmittedNameAllocator.scope_store_of_ne fun heq => hne (tagged_inj.mp heq)
  · exact MessageNames.requirements_met hvalid rfl rfl hapi hstorage hmade
  · exact records_grown hpublic (classRequests_owners hvalid) fun u hu =>
      hparameters u (hmembers u (hcases u hu))
  · exact records_grown honeofs (oneofRequests_owners hvalid) fun u hu =>
      hparameters u (hmembers u hu)
  · exact records_grown hprivate (privateRequests_owners hvalid hnames) hparameters
  · exact records_grown htemplate templateRequests_owners fun u hu => hu

end Class

end Protocyte.Names
