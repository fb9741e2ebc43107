import Protocyte.Descriptors.Schema
import Mathlib.Data.List.Dedup

/-! Files that only define custom options: the loops that collect the types their option extensions
need and the messages around them, and that they end with the least such sets. -/
namespace Protocyte.Descriptors

open Foundation Relation

section Helpers

def isExtensionHelperType (typeName : Text) (helperRoots : List Text) : Bool :=
  helperRoots.any fun root => typeName = root || (root ++ ['.']).isPrefixOf typeName

theorem isExtensionHelperType_iff {typeName : Text} {helperRoots : List Text} :
    isExtensionHelperType typeName helperRoots = true ↔ Covered LiesUnder helperRoots typeName := by
  unfold isExtensionHelperType Covered LiesUnder
  simp [List.any_eq_true]

theorem notMem_of_not_helper {typeName : Text} {helperRoots : List Text}
    (h : isExtensionHelperType typeName helperRoots = false) : typeName ∉ helperRoots := by
  intro hmem
  have hcovered := isExtensionHelperType_iff.mpr ⟨typeName, hmem, .inl rfl⟩
  rw [h] at hcovered
  exact Bool.false_ne_true hcovered

def indexDeclaredMessageTypes (file : FileDescriptorProto) : Dictionary Text DescriptorProto :=
  file.messages.foldl (fun declared item => declared.set (fullyQualifiedName item.1) item.2)
    Dictionary.empty

def messageDirectReferencedTypeNames (message : DescriptorProto) : List Text :=
  (message.field.filter fun field => field.typeName ≠ []).map FieldDescriptorProto.typeName

/-- `list(...)` of a set of names, whose order the language leaves open. -/
structure SetOrder where
  list : List Text → List Text
  perm : ∀ names, (list names).Perm names

/-- The helper roots and the stack, its top first. -/
abbrev Expansion := List Text × List Text

section Scan

variable (declaredMessages : List (Text × DescriptorProto)) (declaredTypeNames : List Text)

def addHelperRoot (state : Expansion) (referenced : Text) : Expansion :=
  if declaredTypeNames.contains (normalizeTypeName referenced) &&
      !isExtensionHelperType (normalizeTypeName referenced) state.1 then
    (normalizeTypeName referenced :: state.1, normalizeTypeName referenced :: state.2)
  else state

/-- What the messages below a root refer to is added. -/
def scanHelperRoot (root : Text) (state : Expansion) : Expansion :=
  declaredMessages.foldl (fun state item =>
    if isExtensionHelperType item.1 [root] then
      (messageDirectReferencedTypeNames item.2).foldl (addHelperRoot declaredTypeNames) state
    else state) state

/-- The type names that a root is scanned for. -/
def referencedBelow (root : Text) : List Text :=
  declaredMessages.flatMap fun item =>
    if isExtensionHelperType item.1 [root] then messageDirectReferencedTypeNames item.2 else []

theorem scanHelperRoot_eq (root : Text) (state : Expansion) :
    scanHelperRoot declaredMessages declaredTypeNames root state =
      (referencedBelow declaredMessages root).foldl (addHelperRoot declaredTypeNames) state := by
  unfold scanHelperRoot referencedBelow
  induction declaredMessages generalizing state with
  | nil => rfl
  | cons item items ih =>
    rw [List.foldl_cons, ih, List.flatMap_cons, List.foldl_append]
    split_ifs <;> rfl

variable {declaredTypeNames}

/-- The names added are put on the stack too, and leave nothing to be added. -/
theorem addHelperRoots_spec (referenced : List Text) (state : Expansion) :
    ∃ new, referenced.foldl (addHelperRoot declaredTypeNames) state =
        (new ++ state.1, new ++ state.2) ∧
      (∀ typeName ∈ new, typeName ∈ declaredTypeNames ∧
        ∃ name ∈ referenced, typeName = normalizeTypeName name) ∧
      (∀ name ∈ referenced, normalizeTypeName name ∈ declaredTypeNames →
        Covered LiesUnder (new ++ state.1) (normalizeTypeName name)) ∧
      remaining declaredTypeNames (new ++ state.1) + new.length ≤
        remaining declaredTypeNames state.1 := by
  induction referenced generalizing state with
  | nil => exact ⟨[], by simp⟩
  | cons name referenced ih =>
    have hstep : addHelperRoot declaredTypeNames state name =
      if declaredTypeNames.contains (normalizeTypeName name) &&
          !isExtensionHelperType (normalizeTypeName name) state.1 then
        (normalizeTypeName name :: state.1, normalizeTypeName name :: state.2)
      else state := rfl
    rw [List.foldl_cons, hstep]
    split_ifs with hadd
    · rw [Bool.and_eq_true, Bool.not_eq_true', List.contains_iff_mem] at hadd
      obtain ⟨hdeclared, huncovered⟩ := hadd
      obtain ⟨new, heq, hnew, hall, hle⟩ :=
        ih (normalizeTypeName name :: state.1, normalizeTypeName name :: state.2)
      have hlt := remaining_cons_lt hdeclared (notMem_of_not_helper huncovered)
      refine ⟨new ++ [normalizeTypeName name], ?_, ?_, ?_, ?_⟩
      · simpa using heq
      · intro typeName hmem
        rcases List.mem_append.mp hmem with hmem | hmem
        · obtain ⟨hdecl, other, hother, heq⟩ := hnew typeName hmem
          exact ⟨hdecl, other, List.mem_cons_of_mem _ hother, heq⟩
        · rw [List.mem_singleton.mp hmem]
          exact ⟨hdeclared, name, List.mem_cons_self, rfl⟩
      · intro other hother hdecl
        rw [List.append_assoc, List.singleton_append]
        rcases List.mem_cons.mp hother with rfl | hother
        · exact ⟨_, List.mem_append_right _ List.mem_cons_self, .inl rfl⟩
        · exact hall other hother hdecl
      · rw [List.append_assoc, List.singleton_append, List.length_append, List.length_singleton]
        dsimp only at hle
        omega
    · obtain ⟨new, heq, hnew, hall, hle⟩ := ih state
      refine ⟨new, heq, ?_, ?_, hle⟩
      · intro typeName hmem
        obtain ⟨hdecl, other, hother, heq⟩ := hnew typeName hmem
        exact ⟨hdecl, other, List.mem_cons_of_mem _ hother, heq⟩
      · intro other hother hdecl
        rcases List.mem_cons.mp hother with rfl | hother
        · have hhelper : isExtensionHelperType (normalizeTypeName other) state.1 = true := by
            simpa [hdecl] using hadd
          exact (isExtensionHelperType_iff.mp hhelper).mono fun b hb => List.mem_append_right _ hb
        · exact hall other hother hdecl

theorem scanHelperRoot_lt (root : Text) (helperRoots stack : List Text) :
    remaining declaredTypeNames
        (scanHelperRoot declaredMessages declaredTypeNames root (helperRoots, stack)).1 +
      (scanHelperRoot declaredMessages declaredTypeNames root (helperRoots, stack)).2.length <
      remaining declaredTypeNames helperRoots + (root :: stack).length := by
  rw [scanHelperRoot_eq]
  obtain ⟨new, heq, -, -, hle⟩ := @addHelperRoots_spec declaredTypeNames
    (referencedBelow declaredMessages root) (helperRoots, stack)
  rw [heq, List.length_append, List.length_cons]
  dsimp only at hle ⊢
  omega

variable (declaredTypeNames)

def expandCustomOptionHelperRoots (helperRoots : List Text) : List Text → List Text
  | [] => helperRoots
  | root :: stack =>
    expandCustomOptionHelperRoots
      (scanHelperRoot declaredMessages declaredTypeNames root (helperRoots, stack)).1
      (scanHelperRoot declaredMessages declaredTypeNames root (helperRoots, stack)).2
termination_by stack => remaining declaredTypeNames helperRoots + stack.length
decreasing_by exact scanHelperRoot_lt declaredMessages root helperRoots stack

end Scan

section Sweep

def isNamespaceOnlyCustomOptionScope (typeName : Text) (message : DescriptorProto)
    (helperRoots namespaceRoots : List Text) : Bool :=
  if message.field ≠ [] || message.oneofDecl ≠ [] || message.extensionRange ≠ [] ||
      message.reservedRange ≠ [] || message.reservedName ≠ [] then false
  else
    let childTypeNames := (message.nestedType.map fun nested => typeName ++ '.' :: nested.name) ++
      message.enumType.map fun enum => typeName ++ '.' :: enum.name
    if childTypeNames.any fun child =>
      !isExtensionHelperType child helperRoots && !namespaceRoots.contains child then false
    else message.extension ≠ [] || childTypeNames ≠ []

/-- The helper roots with the messages that are only scopes for what lies below them. -/
def addNamespaceContainerRoots (declaredMessages : List (Text × DescriptorProto))
    (helperRoots : List Text) : List Text :=
  helperRoots ++ sweeps Prod.fst (fun namespaceRoots item =>
    !isExtensionHelperType item.1 helperRoots &&
      isNamespaceOnlyCustomOptionScope item.1 item.2 helperRoots namespaceRoots) declaredMessages []

end Sweep

def customOptionHelperRoots (order : SetOrder) (file : FileDescriptorProto)
    (declarations : List (FieldDescriptorProto × Option Text)) (declaredTypeNames : List Text) :
    List Text :=
  let extensionTypes := ((declarations.filter fun declaration => declaration.1.typeName ≠ []).map
    fun declaration => normalizeTypeName declaration.1.typeName).dedup
  let declaredMessages := (indexDeclaredMessageTypes file).items
  addNamespaceContainerRoots declaredMessages
    (expandCustomOptionHelperRoots declaredMessages declaredTypeNames extensionTypes
      (order.list extensionTypes))

def isPureCustomOptionDefinition (order : SetOrder) (file : FileDescriptorProto) : Bool :=
  let declarations := extensionDeclarations file
  let extensions := declarations.map Prod.fst
  if extensions = [] || (extensions.any fun extension => !isCustomOptionExtension extension) ||
      file.service ≠ [] then false
  else
    let helperRoots := customOptionHelperRoots order file declarations (declaredTypeNames file)
    (declaredTypeNames file).all fun typeName => isExtensionHelperType typeName helperRoots

end Helpers

section Refinement

variable {file : FileDescriptorProto}

theorem mem_view_messages {message : MessageView} :
    message ∈ file.view.messages ↔ ∃ item ∈ file.messages, messageView item = message :=
  List.mem_map

theorem extends_iff {extension : FieldDescriptorProto} {scope : Option Text} :
    file.view.Extends extension scope ↔ (extension, scope) ∈ extensionDeclarations file := by
  unfold extensionDeclarations FileView.Extends
  rw [List.mem_append, List.mem_map, List.mem_flatMap]
  constructor
  · intro h
    rcases h with ⟨hmem, rfl⟩ | ⟨message, hmessage, hmem, rfl⟩
    · exact .inl ⟨extension, hmem, rfl⟩
    · obtain ⟨item, hitem, rfl⟩ := mem_view_messages.mp hmessage
      exact .inr ⟨item, hitem, List.mem_map.mpr ⟨extension, hmem, rfl⟩⟩
  · intro h
    rcases h with ⟨_, hmem, heq⟩ | ⟨item, hitem, hmem⟩
    · obtain ⟨rfl, rfl⟩ := Prod.mk.inj heq
      exact .inl ⟨hmem, rfl⟩
    · obtain ⟨_, hextension, heq⟩ := List.mem_map.mp hmem
      obtain ⟨rfl, rfl⟩ := Prod.mk.inj heq
      exact .inr ⟨messageView item, mem_view_messages.mpr ⟨item, hitem, rfl⟩, hextension, rfl⟩

theorem mem_indexDeclaredMessageTypes (hdistinct : (declaredTypeNames file).Nodup)
    {item : Text × DescriptorProto} :
    item ∈ (indexDeclaredMessageTypes file).items ↔
      ∃ entry ∈ file.messages, item = (fullyQualifiedName entry.1, entry.2) :=
  Dictionary.mem_items_foldl_set _ _ (hdistinct.sublist (messageNames_sublist file))

theorem needs_iff (hdistinct : (declaredTypeNames file).Nodup) {root typeName : Text} :
    file.view.Needs root typeName ↔
      ∃ name ∈ referencedBelow (indexDeclaredMessageTypes file).items root,
        typeName = normalizeTypeName name ∧ typeName ∈ declaredTypeNames file := by
  have hhelper : ∀ name, isExtensionHelperType name [root] = true ↔ LiesUnder name root := by
    intro name
    rw [isExtensionHelperType_iff]
    simp [Covered]
  unfold FileView.Needs referencedBelow messageDirectReferencedTypeNames
  constructor
  · intro ⟨message, hmessage, hunder, field, hfield, hne, heq, hdeclared⟩
    obtain ⟨entry, hentry, rfl⟩ := mem_view_messages.mp hmessage
    refine ⟨field.typeName, List.mem_flatMap.mpr ⟨_, (mem_indexDeclaredMessageTypes hdistinct).mpr
      ⟨entry, hentry, rfl⟩, ?_⟩, heq, hdeclared⟩
    rw [if_pos ((hhelper (fullyQualifiedName entry.1)).mpr hunder)]
    exact List.mem_map_of_mem (List.mem_filter.mpr ⟨hfield, decide_eq_true hne⟩)
  · intro ⟨name, hname, heq, hdeclared⟩
    obtain ⟨item, hitem, hmem⟩ := List.mem_flatMap.mp hname
    obtain ⟨entry, hentry, rfl⟩ := (mem_indexDeclaredMessageTypes hdistinct).mp hitem
    split_ifs at hmem with hunder
    · obtain ⟨field, hfield, rfl⟩ := List.mem_map.mp hmem
      obtain ⟨hfield, hne⟩ := List.mem_filter.mp hfield
      exact ⟨messageView entry, mem_view_messages.mpr ⟨entry, hentry, rfl⟩, (hhelper _).mp hunder,
        field, hfield, of_decide_eq_true hne, heq, hdeclared⟩
    · exact absurd hmem List.not_mem_nil

theorem covering_liesUnder (view : FileView) : Covering LiesUnder view.Needs := by
  refine ⟨fun _ => .inl rfl, fun _ _ _ => LiesUnder.trans, ?_⟩
  intro a b c hab hneeds
  obtain ⟨message, hmessage, hunder, hfield⟩ := hneeds
  exact ⟨message, hmessage, hunder.trans hab, hfield⟩

/-- The expansion ends with roots of all helper types. -/
theorem covered_expand (hdistinct : (declaredTypeNames file).Nodup) (visited : List Text)
    {helperRoots stack : List Text}
    (hroots : ∀ typeName, typeName ∈ helperRoots ↔ typeName ∈ visited ++ stack)
    (h : Frontier file.view.OptionType file.view.Needs LiesUnder visited stack)
    (typeName : Text) :
    Covered LiesUnder (expandCustomOptionHelperRoots (indexDeclaredMessageTypes file).items
      (declaredTypeNames file) helperRoots stack) typeName ↔ file.view.Helper typeName := by
  induction helperRoots, stack using expandCustomOptionHelperRoots.induct
    (indexDeclaredMessageTypes file).items (declaredTypeNames file) generalizing visited with
  | case1 helperRoots =>
    rw [expandCustomOptionHelperRoots]
    have hiff : Covered LiesUnder visited typeName ↔ file.view.Helper typeName :=
      h.covered_iff (covering_liesUnder _) typeName
    rw [← hiff]
    constructor
    · exact fun hcovered => hcovered.mono fun b hb => by simpa using (hroots b).mp hb
    · exact fun hcovered => hcovered.mono fun b hb => (hroots b).mpr (by simpa using hb)
  | case2 helperRoots root stack ih =>
    rw [expandCustomOptionHelperRoots]
    obtain ⟨new, heq, hnew, hall, -⟩ := @addHelperRoots_spec (declaredTypeNames file)
      (referencedBelow (indexDeclaredMessageTypes file).items root) (helperRoots, stack)
    rw [← scanHelperRoot_eq] at heq
    rw [heq] at ih ⊢
    dsimp only at ih hall ⊢
    have hmem : ∀ b, b ∈ new ++ helperRoots ↔ b ∈ root :: visited ++ (new ++ stack) := by
      intro b
      simp only [List.mem_append, List.mem_cons, hroots]
      tauto
    apply ih _ hmem
    apply h.visit new
    · intro b hb
      obtain ⟨hdeclared, name, hname, rfl⟩ := hnew b hb
      exact (needs_iff hdistinct).mpr ⟨name, hname, rfl, hdeclared⟩
    · exact fun b => List.mem_append
    · intro b hb
      obtain ⟨name, hname, rfl, hdeclared⟩ := (needs_iff hdistinct).mp hb
      exact (hall name hname hdeclared).mono fun c hc => (hmem c).mp hc

theorem setOf_mem_eq_empty {α : Type} {l : List α} : {a | a ∈ l} = ∅ ↔ l = [] := by
  rw [Set.eq_empty_iff_forall_notMem, List.eq_nil_iff_forall_not_mem]
  exact Iff.rfl

theorem setOf_mem_nonempty {α : Type} {l : List α} : {a | a ∈ l}.Nonempty ↔ l ≠ [] := by
  rw [Set.nonempty_iff_ne_empty, Ne, setOf_mem_eq_empty]

/-- A message with nothing but types and extensions. -/
theorem isNamespaceOnly_iff {entry : List Text × DescriptorProto}
    {helperRoots namespaceRoots : List Text} :
    isNamespaceOnlyCustomOptionScope (fullyQualifiedName entry.1) entry.2 helperRoots
        namespaceRoots = true ↔
      (messageView entry).field = ∅ ∧ ¬(messageView entry).restricted ∧
        (∀ name ∈ (messageView entry).nested,
          ¬Covered LiesUnder helperRoots ((messageView entry).typeName ++ '.' :: name) →
            (messageView entry).typeName ++ '.' :: name ∈ namespaceRoots) ∧
        ((messageView entry).extension.Nonempty ∨ (messageView entry).nested.Nonempty) := by
  obtain ⟨path, message⟩ := entry
  have hnames : ((message.nestedType.map fun nested =>
        fullyQualifiedName path ++ '.' :: nested.name) ++
      message.enumType.map fun enum => fullyQualifiedName path ++ '.' :: enum.name) =
      (message.nestedType.map DescriptorProto.name ++
        message.enumType.map EnumDescriptorProto.name).map fun name =>
          fullyQualifiedName path ++ '.' :: name := by
    rw [List.map_append, List.map_map, List.map_map]
    rfl
  have hcovered : ∀ name, isExtensionHelperType name helperRoots = false ↔
      ¬Covered LiesUnder helperRoots name := by
    intro name
    rw [← isExtensionHelperType_iff, Bool.not_eq_true]
  unfold isNamespaceOnlyCustomOptionScope
  simp only [hnames]
  show _ ↔ {field | field ∈ message.field} = ∅ ∧ ¬message.Restricted ∧
    (∀ name ∈ message.nestedType.map DescriptorProto.name ++
      message.enumType.map EnumDescriptorProto.name,
        ¬Covered LiesUnder helperRoots (fullyQualifiedName path ++ '.' :: name) →
          fullyQualifiedName path ++ '.' :: name ∈ namespaceRoots) ∧
    ({extension | extension ∈ message.extension}.Nonempty ∨
      {name | name ∈ message.nestedType.map DescriptorProto.name ++
        message.enumType.map EnumDescriptorProto.name}.Nonempty)
  rw [setOf_mem_eq_empty, setOf_mem_nonempty, setOf_mem_nonempty, DescriptorProto.Restricted]
  generalize message.nestedType.map DescriptorProto.name ++
    message.enumType.map EnumDescriptorProto.name = names
  have hchildren : ((names.map fun name => fullyQualifiedName path ++ '.' :: name).any fun child =>
        !isExtensionHelperType child helperRoots && !namespaceRoots.contains child) = true ↔
      ¬∀ name ∈ names, ¬Covered LiesUnder helperRoots (fullyQualifiedName path ++ '.' :: name) →
        fullyQualifiedName path ++ '.' :: name ∈ namespaceRoots := by
    simp only [List.any_map, List.any_eq_true, Function.comp_apply, Bool.and_eq_true,
      Bool.not_eq_true', hcovered, List.contains_eq_mem, decide_eq_false_iff_not]
    push Not
    exact Iff.rfl
  split_ifs with hdata hchild
  · simp only [Bool.or_eq_true, decide_eq_true_eq] at hdata
    refine iff_of_false (by simp) ?_
    rintro ⟨hfield, hrestricted, -⟩
    tauto
  · refine iff_of_false (by simp) ?_
    rintro ⟨-, -, hnested, -⟩
    exact hchildren.mp hchild hnested
  · simp only [Bool.or_eq_true, decide_eq_true_eq, not_or, not_not] at hdata
    rw [hchildren, not_not] at hchild
    simp only [Bool.or_eq_true, decide_eq_true_eq, ne_eq, List.map_eq_nil_iff]
    tauto

section Containers

variable {helperRoots : List Text}

/-- The containers that the sweeps find. -/
def namespaceRoots (file : FileDescriptorProto) (helperRoots : List Text) : List Text :=
  sweeps Prod.fst (fun namespaceRoots item =>
    !isExtensionHelperType item.1 helperRoots &&
      isNamespaceOnlyCustomOptionScope item.1 item.2 helperRoots namespaceRoots)
    (indexDeclaredMessageTypes file).items []

variable (hdistinct : (declaredTypeNames file).Nodup)
  (hroots : ∀ typeName, Covered LiesUnder helperRoots typeName ↔ file.view.Helper typeName)

include hdistinct hroots

theorem container_of_mem {root : Text} (h : root ∈ namespaceRoots file helperRoots) :
    file.view.Container root := by
  refine sweeps_induct (motive := file.view.Container) ?_ ?_ root h
  · intro found item hitem hfound hfires
    obtain ⟨entry, hentry, rfl⟩ := (mem_indexDeclaredMessageTypes hdistinct).mp hitem
    rw [Bool.and_eq_true] at hfires
    obtain ⟨hfield, hrestricted, hnested, hnonempty⟩ := isNamespaceOnly_iff.mp hfires.2
    refine .intro (mem_view_messages.mpr ⟨entry, hentry, rfl⟩) hfield hrestricted ?_ hnonempty
    intro name hname hhelper
    exact hfound _ (hnested name hname fun hcovered => hhelper ((hroots _).mp hcovered))
  · exact fun a ha => absurd ha List.not_mem_nil

theorem covered_container {root : Text} (h : file.view.Container root) :
    Covered LiesUnder helperRoots root ∨ root ∈ namespaceRoots file helperRoots := by
  induction h with
  | @intro message mem field restricted nested nonempty ih =>
    by_cases hcovered : Covered LiesUnder helperRoots message.typeName
    · exact .inl hcovered
    · right
      obtain ⟨entry, hentry, rfl⟩ := mem_view_messages.mp mem
      have hhelper : isExtensionHelperType (fullyQualifiedName entry.1) helperRoots = false := by
        rw [← Bool.not_eq_true, isExtensionHelperType_iff]
        exact hcovered
      refine sweeps_closed _ (fullyQualifiedName entry.1, entry.2)
        ((mem_indexDeclaredMessageTypes hdistinct).mpr ⟨entry, hentry, rfl⟩) ?_
      rw [Bool.and_eq_true, Bool.not_eq_true']
      refine ⟨hhelper, isNamespaceOnly_iff.mpr ⟨field, restricted, ?_, nonempty⟩⟩
      intro name hname huncovered
      have hchild := ih name hname fun h => huncovered ((hroots _).mpr h)
      exact hchild.resolve_left huncovered

/-- The helper roots with the containers found cover what the options need. -/
theorem covered_addNamespaceContainerRoots (typeName : Text) :
    Covered LiesUnder (addNamespaceContainerRoots (indexDeclaredMessageTypes file).items
        helperRoots) typeName ↔
      ∃ root, (file.view.HelperRoot root ∨ file.view.Container root) ∧
        LiesUnder typeName root := by
  show Covered LiesUnder (helperRoots ++ namespaceRoots file helperRoots) typeName ↔ _
  constructor
  · intro ⟨root, hroot, hunder⟩
    rcases List.mem_append.mp hroot with hroot | hroot
    · obtain ⟨helper, hhelper, hunder⟩ := (hroots typeName).mp ⟨root, hroot, hunder⟩
      exact ⟨helper, .inl hhelper, hunder⟩
    · exact ⟨root, .inr (container_of_mem hdistinct hroots hroot), hunder⟩
  · intro ⟨root, hroot, hunder⟩
    rcases hroot with hroot | hroot
    · have hcovered := (hroots typeName).mpr ⟨root, hroot, hunder⟩
      exact hcovered.mono fun b hb => List.mem_append_left _ hb
    · rcases covered_container hdistinct hroots hroot with ⟨b, hb, hb'⟩ | hmem
      · exact ⟨b, List.mem_append_left _ hb, hunder.trans hb'⟩
      · exact ⟨root, List.mem_append_right _ hmem, hunder⟩

end Containers

/-- The helper roots found cover what the options need, whatever order the sets are listed in. -/
theorem covered_customOptionHelperRoots (order : SetOrder)
    (hdistinct : (declaredTypeNames file).Nodup) (typeName : Text) :
    Covered LiesUnder (customOptionHelperRoots order file (extensionDeclarations file)
        (declaredTypeNames file)) typeName ↔
      ∃ root, (file.view.HelperRoot root ∨ file.view.Container root) ∧
        LiesUnder typeName root := by
  apply covered_addNamespaceContainerRoots hdistinct
  have hstart : ∀ name, name ∈ ((((extensionDeclarations file).filter fun declaration =>
      declaration.1.typeName ≠ []).map fun declaration =>
        normalizeTypeName declaration.1.typeName).dedup) ↔ file.view.OptionType name := by
    intro name
    unfold FileView.OptionType
    simp only [List.mem_dedup, List.mem_map, List.mem_filter, decide_eq_true_eq, extends_iff,
      Prod.exists]
    constructor
    · rintro ⟨extension, scope, ⟨hmem, hne⟩, rfl⟩
      exact ⟨extension, scope, hmem, hne, rfl⟩
    · rintro ⟨extension, scope, hmem, hne, rfl⟩
      exact ⟨extension, scope, ⟨hmem, hne⟩, rfl⟩
  apply covered_expand hdistinct []
  · intro name
    rw [List.nil_append, (order.perm _).mem_iff]
  · apply Frontier.initial fun _ => .inl rfl
    intro name
    rw [(order.perm _).mem_iff, hstart]

theorem isPureCustomOptionDefinition_iff (order : SetOrder)
    (hdistinct : (declaredTypeNames file).Nodup) :
    isPureCustomOptionDefinition order file = true ↔ file.view.PureCustomOptions := by
  have hall : ((declaredTypeNames file).all fun typeName => isExtensionHelperType typeName
      (customOptionHelperRoots order file (extensionDeclarations file) (declaredTypeNames file))) =
        true ↔ file.view.OnlyHelpers := by
    rw [List.all_eq_true]
    apply forall₂_congr
    intro typeName _
    rw [isExtensionHelperType_iff, covered_customOptionHelperRoots order hdistinct]
  unfold isPureCustomOptionDefinition
  dsimp only
  split_ifs with hguard
  · refine iff_of_false (by simp) ?_
    intro hpure
    obtain ⟨extension, scope, hextends⟩ := hpure.extension
    have hmem := extends_iff.mp hextends
    simp only [Bool.or_eq_true, decide_eq_true_eq, List.any_eq_true, Bool.not_eq_true'] at hguard
    rcases hguard with (hnil | ⟨other, hother, hcustom⟩) | hservice
    · rw [List.map_eq_nil_iff] at hnil
      rw [hnil] at hmem
      exact absurd hmem List.not_mem_nil
    · obtain ⟨declaration, hdeclaration, rfl⟩ := List.mem_map.mp hother
      have hoption := hpure.options declaration.1 declaration.2 (extends_iff.mpr hdeclaration)
      rw [hcustom] at hoption
      exact Bool.false_ne_true hoption
    · exact hpure.service hservice
  · simp only [Bool.or_eq_true, decide_eq_true_eq, List.any_eq_true, Bool.not_eq_true', not_or,
      not_exists, not_and, Bool.not_eq_false, not_not] at hguard
    obtain ⟨⟨hne, hoptions⟩, hservice⟩ := hguard
    rw [hall]
    constructor
    · intro honly
      refine ⟨?_, ?_, fun h => h hservice, honly⟩
      · have hdeclarations : extensionDeclarations file ≠ [] := fun hnil => hne (by rw [hnil]; rfl)
        obtain ⟨declaration, hdeclaration⟩ := List.exists_mem_of_ne_nil _ hdeclarations
        exact ⟨declaration.1, declaration.2, extends_iff.mpr hdeclaration⟩
      · intro extension scope hextends
        exact hoptions _ (List.mem_map_of_mem (extends_iff.mp hextends))
    · exact fun hpure => hpure.onlyHelpers

end Refinement

end Protocyte.Descriptors
