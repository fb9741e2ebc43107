import Protocyte.Descriptors.Discoverable

/-! What the discovery does depends on no order: of the files, of the declarations in them, or of the
fields. -/
namespace Protocyte.Descriptors

open Foundation Relation

section Reordering

mutual

/-- The same message with its declarations in another order. -/
inductive DescriptorProto.Reordered : DescriptorProto → DescriptorProto → Prop
  | intro (name : Text) {field field' : List FieldDescriptorProto}
      {nestedType nestedType' : List DescriptorProto} {enumType enumType' : List EnumDescriptorProto}
      {extension extension' : List FieldDescriptorProto} {extensionRange extensionRange' : List (ℤ × ℤ)}
      {oneofDecl oneofDecl' : List Text} {reservedRange reservedRange' : List (ℤ × ℤ)}
      {reservedName reservedName' : List Text}
      (fields : field.Perm field') (messages : ReorderedMessages nestedType nestedType')
      (enums : enumType.Perm enumType') (extensions : extension.Perm extension')
      (extensionRanges : extensionRange.Perm extensionRange') (oneofs : oneofDecl.Perm oneofDecl')
      (reservedRanges : reservedRange.Perm reservedRange')
      (reservedNames : reservedName.Perm reservedName') :
      DescriptorProto.Reordered
        ⟨name, field, nestedType, enumType, extension, extensionRange, oneofDecl, reservedRange,
          reservedName⟩
        ⟨name, field', nestedType', enumType', extension', extensionRange', oneofDecl',
          reservedRange', reservedName'⟩

inductive ReorderedMessages : List DescriptorProto → List DescriptorProto → Prop
  | nil : ReorderedMessages [] []
  | cons {message message' : DescriptorProto} {messages messages' : List DescriptorProto}
      (head : DescriptorProto.Reordered message message')
      (tail : ReorderedMessages messages messages') :
      ReorderedMessages (message :: messages) (message' :: messages')
  | swap (message other : DescriptorProto) (messages : List DescriptorProto) :
      ReorderedMessages (message :: other :: messages) (other :: message :: messages)
  | trans {messages messages' messages'' : List DescriptorProto}
      (left : ReorderedMessages messages messages') (right : ReorderedMessages messages' messages'') :
      ReorderedMessages messages messages''

end

structure FileDescriptorProto.Reordered (file file' : FileDescriptorProto) : Prop where
  name : file.name = file'.name
  package : file.package = file'.package
  dependency : file.dependency.Perm file'.dependency
  messageType : ReorderedMessages file.messageType file'.messageType
  enumType : file.enumType.Perm file'.enumType
  service : file.service.Perm file'.service
  extension : file.extension.Perm file'.extension
  protoSyntax : file.protoSyntax = file'.protoSyntax
  edition : file.edition = file'.edition

/-- The same descriptor files, and what is in them, in another order. -/
def Reordered (files files' : List FileDescriptorProto) : Prop :=
  ∃ between, files.Perm between ∧ List.Forall₂ FileDescriptorProto.Reordered between files'

end Reordering

section Views

theorem setOf_mem_congr {α : Type} {l l' : List α} (h : l.Perm l') : {a | a ∈ l} = {a | a ∈ l'} :=
  Set.ext fun _ => h.mem_iff

theorem DescriptorProto.Reordered.name_eq {message message' : DescriptorProto}
    (h : message.Reordered message') : message.name = message'.name := by
  cases h
  rfl

theorem ReorderedMessages.names : {messages messages' : List DescriptorProto} →
    ReorderedMessages messages messages' →
      (messages.map DescriptorProto.name).Perm (messages'.map DescriptorProto.name)
  | _, _, .nil => .refl _
  | _, _, .cons head tail => by
    rw [List.map_cons, List.map_cons, head.name_eq]
    exact tail.names.cons _
  | _, _, .swap _ _ _ => .swap _ _ _
  | _, _, .trans left right => left.names.trans right.names

theorem eq_nil_congr {α : Type} {l l' : List α} (h : l.Perm l') : l = [] ↔ l' = [] := by
  rw [← List.length_eq_zero_iff, ← List.length_eq_zero_iff, h.length_eq]

theorem messageView_congr {path : List Text} {message message' : DescriptorProto}
    (fields : message.field.Perm message'.field)
    (messages : (message.nestedType.map DescriptorProto.name).Perm
      (message'.nestedType.map DescriptorProto.name))
    (enums : message.enumType.Perm message'.enumType)
    (extensions : message.extension.Perm message'.extension)
    (extensionRanges : message.extensionRange.Perm message'.extensionRange)
    (oneofs : message.oneofDecl.Perm message'.oneofDecl)
    (reservedRanges : message.reservedRange.Perm message'.reservedRange)
    (reservedNames : message.reservedName.Perm message'.reservedName) :
    messageView (path, message) = messageView (path, message') := by
  have hnested := messages.append (enums.map EnumDescriptorProto.name)
  have hrestricted : message.Restricted = message'.Restricted := by
    unfold DescriptorProto.Restricted
    simp only [ne_eq, eq_nil_congr oneofs, eq_nil_congr extensionRanges,
      eq_nil_congr reservedRanges, eq_nil_congr reservedNames]
  unfold messageView
  simp only [setOf_mem_congr fields, setOf_mem_congr extensions, setOf_mem_congr hnested,
    hrestricted]

mutual

/-- What a message and those in it say, listed in the order of the walk. -/
theorem DescriptorProto.Reordered.views {message message' : DescriptorProto} (scope : List Text) :
    message.Reordered message' →
      ((message.walk scope).map messageView).Perm ((message'.walk scope).map messageView)
  | .intro name fields messages enums extensions extensionRanges oneofs reservedRanges
      reservedNames => by
    rw [DescriptorProto.walk, DescriptorProto.walk, List.map_cons, List.map_cons]
    have hview : messageView (scope ++ [name], ⟨name, _, _, _, _, _, _, _, _⟩) =
        messageView (scope ++ [name], ⟨name, _, _, _, _, _, _, _, _⟩) :=
      messageView_congr fields messages.names enums extensions extensionRanges oneofs
        reservedRanges reservedNames
    rw [hview]
    exact (messages.views (scope ++ [name])).cons _

theorem ReorderedMessages.views (scope : List Text) : {messages messages' : List DescriptorProto} →
    ReorderedMessages messages messages' →
      ((walkMessages scope messages).map messageView).Perm
        ((walkMessages scope messages').map messageView)
  | _, _, .nil => .refl _
  | _, _, .cons head tail => by
    rw [walkMessages, walkMessages, List.map_append, List.map_append]
    exact (head.views scope).append (tail.views scope)
  | _, _, .swap message other messages => by
    simp only [walkMessages, List.map_append]
    exact List.perm_append_comm_assoc _ _ _
  | _, _, .trans left right => (left.views scope).trans (right.views scope)

end

mutual

theorem DescriptorProto.Reordered.typeNames {message message' : DescriptorProto}
    (scope : List Text) : message.Reordered message' →
      (messageTypeNames scope message).Perm (messageTypeNames scope message')
  | .intro name _ messages enums _ _ _ _ _ => by
    rw [messageTypeNames, messageTypeNames]
    exact ((messages.typeNames (scope ++ [name])).append (enums.map _)).cons _

theorem ReorderedMessages.typeNames (scope : List Text) :
    {messages messages' : List DescriptorProto} → ReorderedMessages messages messages' →
      (nestedTypeNames scope messages).Perm (nestedTypeNames scope messages')
  | _, _, .nil => .refl _
  | _, _, .cons head tail => by
    rw [nestedTypeNames, nestedTypeNames]
    exact (head.typeNames scope).append (tail.typeNames scope)
  | _, _, .swap message other messages => by
    simp only [nestedTypeNames]
    exact List.perm_append_comm_assoc _ _ _
  | _, _, .trans left right => (left.typeNames scope).trans (right.typeNames scope)

end

theorem FileDescriptorProto.Reordered.typeNames {file file' : FileDescriptorProto}
    (h : file.Reordered file') : (declaredTypeNames file).Perm (declaredTypeNames file') := by
  unfold declaredTypeNames
  rw [h.package]
  exact (h.messageType.typeNames _).append (h.enumType.map _)

theorem FileDescriptorProto.Reordered.view_eq {file file' : FileDescriptorProto}
    (h : file.Reordered file') : file.view = file'.view := by
  have hmessages : (file.messages.map messageView).Perm (file'.messages.map messageView) := by
    unfold FileDescriptorProto.messages
    rw [h.package]
    exact h.messageType.views _
  unfold FileDescriptorProto.view
  rw [h.name, h.protoSyntax, h.edition, setOf_mem_congr h.dependency, setOf_mem_congr hmessages,
    setOf_mem_congr h.extension, setOf_mem_congr h.typeNames]
  simp only [ne_eq, eq_nil_congr h.service]

variable {files files' : List FileDescriptorProto}

theorem Reordered.names (h : Reordered files files') :
    (files.map FileDescriptorProto.name).Perm (files'.map FileDescriptorProto.name) := by
  obtain ⟨between, hperm, hfiles⟩ := h
  have heq : between.map FileDescriptorProto.name = files'.map FileDescriptorProto.name := by
    clear hperm
    induction hfiles with
    | nil => rfl
    | cons head _ ih => rw [List.map_cons, List.map_cons, head.name, ih]
  exact heq ▸ hperm.map _

theorem Reordered.typeNames (h : Reordered files files') :
    (files.flatMap declaredTypeNames).Perm (files'.flatMap declaredTypeNames) := by
  obtain ⟨between, hperm, hfiles⟩ := h
  apply (hperm.flatMap_right declaredTypeNames).trans
  clear hperm
  induction hfiles with
  | nil => exact .refl _
  | cons head _ ih =>
    rw [List.flatMap_cons, List.flatMap_cons]
    exact head.typeNames.append ih

/-- Files in another order say the same. -/
theorem Reordered.schema_eq (h : Reordered files files') : schema files = schema files' := by
  obtain ⟨between, hperm, hfiles⟩ := h
  have heq : between.map FileDescriptorProto.view = files'.map FileDescriptorProto.view := by
    clear hperm
    induction hfiles with
    | nil => rfl
    | cons head _ ih => rw [List.map_cons, List.map_cons, head.view_eq, ih]
  unfold schema
  rw [← heq]
  exact setOf_mem_congr (hperm.map _)

end Views

section Correctness

variable {descriptorSet other : List FileDescriptorProto}

theorem eq_of_sorted {names names' : List Text} (h : names.Pairwise (· < ·))
    (h' : names'.Pairwise (· < ·)) (hmem : ∀ name, name ∈ names ↔ name ∈ names') :
    names = names' := by
  have hnodup : ∀ {l : List Text}, l.Pairwise (· < ·) → l.Nodup := fun hl => hl.imp ne_of_lt
  have hperm := (List.perm_ext_iff_of_nodup (hnodup h) (hnodup h')).mpr hmem
  exact hperm.eq_of_pairwise (fun a b _ _ hab hba => absurd hab hba.asymm) h h'

/-- The discovery of files that share no file name and no type name. -/
structure Discovers (order : SetOrder) (descriptorSet : List FileDescriptorProto) : Prop where
  /-- No order matters, not even that of a set. -/
  reordered : ∀ (order' : SetOrder) (other : List FileDescriptorProto),
    Reordered descriptorSet other → ∀ selected,
      discoverFiles order' other = .ok selected ↔ discoverFiles order descriptorSet = .ok selected
  sorted : ∀ selected, discoverFiles order descriptorSet = .ok selected →
    selected.Pairwise (· < ·)
  least : ∀ selected, discoverFiles order descriptorSet = .ok selected →
    IsLeast {names : Set Text |
      (∀ file ∈ descriptorSet, ¬runtimePrefix <+: file.name → file.view.InitiallyDiscoverable →
        file.name ∈ names) ∧
      ∀ a ∈ names, ∀ b, (schema descriptorSet).RefersTo a b → b ∈ names} {name | name ∈ selected}
  pure : ∀ file ∈ descriptorSet,
    isPureCustomOptionDefinition order file = true ↔ file.view.PureCustomOptions
  headers : ∀ selected, discoverFiles order descriptorSet = .ok selected →
    ∀ file ∈ descriptorSet, file.name ∈ selected → generatedHeaderBlocker file = none

/-- Files that say the same are discovered alike. -/
theorem discoverFiles_congr {order order' : SetOrder} {selected : List Text}
    (hschema : schema descriptorSet = schema other)
    (htypes : (descriptorSet.flatMap declaredTypeNames).Nodup)
    (hnames' : (other.map FileDescriptorProto.name).Nodup)
    (htypes' : (other.flatMap declaredTypeNames).Nodup)
    (h : discoverFiles order descriptorSet = .ok selected) :
    discoverFiles order' other = .ok selected := by
  obtain ⟨hsorted, hmem, hdiscoverable⟩ := discoverFiles_selects order htypes h
  rw [hschema] at hmem hdiscoverable
  obtain ⟨selected', h'⟩ := discoverFiles_of_discoverable order' hnames' htypes' hdiscoverable
  obtain ⟨hsorted', hmem', -⟩ := discoverFiles_selects order' htypes' h'
  rw [eq_of_sorted hsorted hsorted' fun name => (hmem name).trans (hmem' name).symm]
  exact h'

theorem isLeast_selected :
    IsLeast {names : Set Text |
      (∀ file ∈ descriptorSet, ¬runtimePrefix <+: file.name → file.view.InitiallyDiscoverable →
        file.name ∈ names) ∧
      ∀ a ∈ names, ∀ b, (schema descriptorSet).RefersTo a b → b ∈ names}
      {name | (schema descriptorSet).Selected name} := by
  have hinitial : ∀ names : Set Text, (∀ name, (schema descriptorSet).InitialTarget name →
      name ∈ names) ↔ ∀ file ∈ descriptorSet, ¬runtimePrefix <+: file.name →
        file.view.InitiallyDiscoverable → file.name ∈ names := by
    intro names
    constructor
    · intro h file hfile hleading hinitial
      exact h file.name (exists_schema.mpr ⟨file, hfile, rfl, hleading, hinitial⟩)
    · intro h name hname
      obtain ⟨file, hfile, heq, hleading, hinitial⟩ := exists_schema.mp hname
      rw [← heq] at hleading ⊢
      exact h file hfile hleading hinitial
  have hleast := isLeast_reached (schema descriptorSet).InitialTarget
    (schema descriptorSet).RefersTo
  simp only [hinitial] at hleast
  exact hleast

/-- The discovery ends with the least closed set of files or with an error, in the same way for any
order of what it reads. -/
theorem discoverFiles_correct (order : SetOrder) (descriptorSet : List FileDescriptorProto)
    (hnames : (descriptorSet.map FileDescriptorProto.name).Nodup)
    (htypes : (descriptorSet.flatMap declaredTypeNames).Nodup) :
    Discovers order descriptorSet := by
  refine ⟨?_, ?_, ?_, ?_, ?_⟩
  · intro order' other hreordered selected
    have hnames' := hreordered.names.nodup_iff.mp hnames
    have htypes' := hreordered.typeNames.nodup_iff.mp htypes
    constructor
    · exact discoverFiles_congr hreordered.schema_eq.symm htypes' hnames htypes
    · exact discoverFiles_congr hreordered.schema_eq htypes hnames' htypes'
  · intro selected h
    exact (discoverFiles_selects order htypes h).1
  · intro selected h
    have hmem := (discoverFiles_selects order htypes h).2.1
    have hset : {name | name ∈ selected} = {name | (schema descriptorSet).Selected name} :=
      Set.ext hmem
    rw [hset]
    exact isLeast_selected
  · intro file hfile
    exact isPureCustomOptionDefinition_iff order ((List.nodup_flatMap.mp htypes).1 file hfile)
  · intro selected h file hfile hname
    obtain ⟨-, hmem, hdiscoverable⟩ := discoverFiles_selects order htypes h
    by_contra hblocker
    exact hdiscoverable.generated file.view (mem_schema.mpr ⟨file, hfile, rfl⟩)
      ((hmem _).mp hname) (generatedHeaderBlocker_ne_none.mp hblocker)

def listed : SetOrder := ⟨fun names => names, fun _ => .refl _⟩

/-- A message of one file has a field whose type the other one declares. -/
def sampleFiles : List FileDescriptorProto :=
  [⟨['a', '.', 'p', 'r', 'o', 't', 'o'], ['p'], [['g']],
      [⟨['M'], [⟨['f'], 11, ['.', 'q', '.', 'N'], []⟩], [], [], [], [], [], [], []⟩], [], [], [],
      ['p', 'r', 'o', 't', 'o', '3'], 0⟩,
    ⟨['g'], ['q'], [], [⟨['N'], [], [], [], [], [], [], [], []⟩], [], [], [],
      ['p', 'r', 'o', 't', 'o', '3'], 0⟩]

theorem discoverFiles_correct_sample : Discovers listed sampleFiles :=
  discoverFiles_correct listed sampleFiles (by decide) (by decide)

def noteOption : FieldDescriptorProto :=
  ⟨['o'], 11, ['.', 'N'], ".google.protobuf.FileOptions".toList⟩

/-- A file with a message, an option of that type, and a service. -/
def optionWithService : FileDescriptorProto :=
  ⟨['a'], [], [], [⟨['N'], [], [], [], [], [], [], [], []⟩], [], [['S']], [noteOption],
    ['p', 'r', 'o', 't', 'o', '2'], 0⟩

theorem optionWithService_extends {extension : FieldDescriptorProto} {scope : Option Text}
    (h : optionWithService.view.Extends extension scope) :
    isCustomOptionExtension extension = true ∧ scope = none := by
  have hmem := extends_iff.mp h
  have hdeclarations : extensionDeclarations optionWithService = [(noteOption, none)] := rfl
  rw [hdeclarations, List.mem_singleton] at hmem
  obtain ⟨rfl, rfl⟩ := Prod.mk.inj hmem
  exact ⟨by decide, rfl⟩

theorem optionWithService_field {message : MessageView} {field : FieldDescriptorProto}
    (h : message ∈ optionWithService.view.messages) : field ∉ message.field := by
  obtain ⟨item, hitem, rfl⟩ := mem_view_messages.mp h
  have hmessages : optionWithService.messages =
      [([['N']], ⟨['N'], [], [], [], [], [], [], [], []⟩)] := rfl
  rw [hmessages, List.mem_singleton] at hitem
  rw [hitem]
  exact List.not_mem_nil

theorem optionWithService_supported (selected : Prop) :
    ¬optionWithService.view.Unsupported selected := by
  intro h
  cases h with
  | editions h => exact absurd h (by decide)
  | proto3 extension scope hextends option =>
    rw [(optionWithService_extends hextends).1] at option
    exact absurd option (by decide)
  | nested extension scope hextends =>
    exact absurd (optionWithService_extends hextends).2 (by simp)
  | group message field h mem => exact optionWithService_field h mem

theorem optionWithService_refersTo {a b : Text} : ¬(schema [optionWithService]).RefersTo a b := by
  intro ⟨source, hsource, _, message, hmessage, field, hfield, _⟩
  obtain ⟨file, hfile, rfl⟩ := mem_schema.mp hsource
  rw [List.mem_singleton.mp hfile] at hmessage
  exact optionWithService_field hmessage hfield

theorem optionWithService_selected {name : Text} :
    (schema [optionWithService]).Selected name ↔ name = optionWithService.name := by
  constructor
  · intro h
    obtain ⟨file, hfile, hname⟩ := file_of_selected h
    rw [← hname, List.mem_singleton.mp hfile]
  · rintro rfl
    refine Reached.of_start (exists_schema.mpr
      ⟨optionWithService, List.mem_cons_self, rfl, by decide, ?_, ?_, ?_⟩)
    · show optionWithService.name ∉ internalDescriptorFiles
      decide
    · intro extension typeName hextends
      exact (optionWithService_extends hextends).1
    · exact fun hpure => hpure.service (List.cons_ne_nil _ _)

theorem optionWithService_discoverable : (schema [optionWithService]).Discoverable := by
  have hfile : ∀ view ∈ schema [optionWithService], view = optionWithService.view := by
    intro view hview
    obtain ⟨file, hfile, rfl⟩ := mem_schema.mp hview
    rw [List.mem_singleton.mp hfile]
  refine ⟨?_, ?_, ?_, ?_, ?_⟩
  · intro view hview
    rw [hfile view hview]
    rfl
  · intro view hview _
    rw [hfile view hview]
    rintro (hinternal | hunsupported)
    · have hnot : optionWithService.name ∉ internalDescriptorFiles := by decide
      exact hnot hinternal
    · exact optionWithService_supported _ hunsupported
  · intro a b _ himports
    obtain ⟨view, hview, _, hdependency⟩ := himports
    rw [hfile view hview] at hdependency
    exact absurd hdependency List.not_mem_nil
  · intro view hview _ _
    rw [hfile view hview]
    exact optionWithService_supported _
  · intro a b _ _ hcycle
    obtain ⟨c, hedge, _⟩ := TransGen.head'_iff.mp hcycle
    exact optionWithService_refersTo hedge.1

/-- The only type of the file is there for its option, yet the file is selected. -/
theorem discoverFiles_selects_service :
    optionWithService.view.OnlyHelpers ∧
      discoverFiles listed [optionWithService] = .ok [optionWithService.name] := by
  constructor
  · intro typeName h
    have hdeclared : declaredTypeNames optionWithService = [['.', 'N']] := by decide
    have hname : typeName ∈ declaredTypeNames optionWithService := h
    rw [hdeclared, List.mem_singleton] at hname
    have hroot : optionWithService.view.HelperRoot ['.', 'N'] :=
      .of_start ⟨noteOption, none, .inl ⟨List.mem_cons_self, rfl⟩, by decide, rfl⟩
    exact ⟨_, .inl hroot, .inl hname⟩
  · have htypes : ([optionWithService].flatMap declaredTypeNames).Nodup := by decide
    obtain ⟨selected, h⟩ := discoverFiles_of_discoverable listed (by decide) htypes
      optionWithService_discoverable
    obtain ⟨hsorted, hmem, -⟩ := discoverFiles_selects listed htypes h
    have heq : selected = [optionWithService.name] :=
      eq_of_sorted hsorted (List.pairwise_singleton _ _) fun name => by
        rw [hmem, optionWithService_selected, List.mem_singleton]
    rw [← heq]
    exact h

end Correctness

end Protocyte.Descriptors
