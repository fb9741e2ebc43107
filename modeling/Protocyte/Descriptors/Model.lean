import Protocyte.Foundation.Dictionary
import Mathlib.Data.List.Induction
import Mathlib.Data.List.Lex
import Mathlib.Data.Char
import Mathlib.Data.Prod.Lex

/-! Descriptor files: the types they declare, the types their fields refer to, and their extensions.
Of ranges, oneofs and services only their presence matters here. -/
namespace Protocyte.Descriptors

open Foundation

abbrev Text := List Char

structure FieldDescriptorProto where
  name : Text
  type : ℕ
  typeName : Text
  extendee : Text
deriving DecidableEq, Repr

structure EnumDescriptorProto where
  name : Text
deriving DecidableEq, Repr

structure DescriptorProto where
  name : Text
  field : List FieldDescriptorProto
  nestedType : List DescriptorProto
  enumType : List EnumDescriptorProto
  extension : List FieldDescriptorProto
  extensionRange : List (ℤ × ℤ)
  oneofDecl : List Text
  reservedRange : List (ℤ × ℤ)
  reservedName : List Text

structure FileDescriptorProto where
  name : Text
  package : Text
  dependency : List Text
  messageType : List DescriptorProto
  enumType : List EnumDescriptorProto
  service : List Text
  extension : List FieldDescriptorProto
  protoSyntax : Text
  edition : ℕ

structure TypeReference where
  typeName : Text
  fieldPath : Text
deriving DecidableEq, Repr

/-- Descriptor files, of which no two share a name. -/
structure Files where
  items : List FileDescriptorProto
  distinct : (items.map FileDescriptorProto.name).Nodup

def Files.get? (files : Files) (name : Text) : Option FileDescriptorProto :=
  files.items.find? fun file => file.name = name

/-- `tuple(part for part in package.split(".") if part)` -/
def packageParts (package : Text) : List Text := (package.splitOn '.').filter (· ≠ [])

def fullyQualifiedName (parts : List Text) : Text := '.' :: ['.'].intercalate (parts.filter (· ≠ []))

def normalizeTypeName (typeName : Text) : Text :=
  if typeName.head? = some '.' then typeName else '.' :: typeName

section Walking

mutual

/-- A message followed by the messages nested in it, each with its path. -/
def DescriptorProto.walk (scope : List Text) : DescriptorProto → List (List Text × DescriptorProto)
  | ⟨name, field, nestedType, enumType, extension, extensionRange, oneofDecl, reservedRange,
      reservedName⟩ =>
    (scope ++ [name], ⟨name, field, nestedType, enumType, extension, extensionRange, oneofDecl,
      reservedRange, reservedName⟩) :: walkMessages (scope ++ [name]) nestedType

def walkMessages (scope : List Text) : List DescriptorProto → List (List Text × DescriptorProto)
  | [] => []
  | message :: messages => message.walk scope ++ walkMessages scope messages

end

def FileDescriptorProto.messages (file : FileDescriptorProto) :
    List (List Text × DescriptorProto) :=
  walkMessages (packageParts file.package) file.messageType

mutual

def messageTypeNames (scope : List Text) : DescriptorProto → List Text
  | ⟨name, _, nestedType, enumType, _, _, _, _, _⟩ =>
    fullyQualifiedName (scope ++ [name]) :: nestedTypeNames (scope ++ [name]) nestedType ++
      enumType.map fun enum => fullyQualifiedName (scope ++ [name, enum.name])

def nestedTypeNames (scope : List Text) : List DescriptorProto → List Text
  | [] => []
  | message :: messages => messageTypeNames scope message ++ nestedTypeNames scope messages

end

def declaredTypeNames (file : FileDescriptorProto) : List Text :=
  nestedTypeNames (packageParts file.package) file.messageType ++
    file.enumType.map fun enum => fullyQualifiedName (packageParts file.package ++ [enum.name])

mutual

theorem walk_sublist (scope : List Text) : (message : DescriptorProto) →
    ((message.walk scope).map fun item => fullyQualifiedName item.1).Sublist
      (messageTypeNames scope message)
  | ⟨name, _, nestedType, _, _, _, _, _, _⟩ => by
    rw [DescriptorProto.walk, messageTypeNames, List.map_cons, List.cons_append]
    exact .cons_cons _ ((walkMessages_sublist (scope ++ [name]) nestedType).trans
      (List.sublist_append_left _ _))

theorem walkMessages_sublist (scope : List Text) : (messages : List DescriptorProto) →
    ((walkMessages scope messages).map fun item => fullyQualifiedName item.1).Sublist
      (nestedTypeNames scope messages)
  | [] => .refl _
  | message :: messages => by
    rw [walkMessages, nestedTypeNames, List.map_append]
    exact (walk_sublist scope message).append (walkMessages_sublist scope messages)

end

theorem messageNames_sublist (file : FileDescriptorProto) :
    (file.messages.map fun item => fullyQualifiedName item.1).Sublist (declaredTypeNames file) :=
  (walkMessages_sublist _ _).trans (List.sublist_append_left _ _)

def referencedTypes (file : FileDescriptorProto) : List TypeReference :=
  file.messages.flatMap fun item =>
    (item.2.field.filter fun field => field.typeName ≠ []).map fun field =>
      ⟨field.typeName, ['.'].intercalate (item.1 ++ [field.name])⟩

/-- The type names of `files` with the file each is declared in, the last one if there are
several. -/
def indexDeclaredTypes (files : List FileDescriptorProto) : Dictionary Text Text :=
  files.foldl (fun declared file =>
    (declaredTypeNames file).foldl (fun declared typeName => declared.set typeName file.name)
      declared) Dictionary.empty

end Walking

section Extensions

def customOptionExtendees : List Text :=
  [".google.protobuf.FileOptions".toList, ".google.protobuf.MessageOptions".toList,
    ".google.protobuf.FieldOptions".toList, ".google.protobuf.OneofOptions".toList,
    ".google.protobuf.EnumOptions".toList, ".google.protobuf.EnumValueOptions".toList,
    ".google.protobuf.ExtensionRangeOptions".toList, ".google.protobuf.ServiceOptions".toList,
    ".google.protobuf.MethodOptions".toList]

def isCustomOptionExtension (field : FieldDescriptorProto) : Bool :=
  customOptionExtendees.contains field.extendee

/-- The extensions of a file, each with the message it stands in. -/
def extensionDeclarations (file : FileDescriptorProto) :
    List (FieldDescriptorProto × Option Text) :=
  (file.extension.map fun extension => (extension, none)) ++
    file.messages.flatMap fun item =>
      item.2.extension.map fun extension => (extension, some (fullyQualifiedName item.1))

end Extensions

section Declaring

/-- The last file that declares a type. -/
def declaringFile (files : List FileDescriptorProto) (typeName : Text) : Option Text :=
  ((files.filter fun file => (declaredTypeNames file).contains typeName).getLast?).map
    FileDescriptorProto.name

theorem get?_setAll (declared : Dictionary Text Text) (names : List Text) (file typeName : Text) :
    (names.foldl (fun declared name => declared.set name file) declared).get? typeName =
      if names.contains typeName then some file else declared.get? typeName := by
  induction names generalizing declared with
  | nil => rfl
  | cons name names ih =>
    rw [List.foldl_cons, ih, Dictionary.get?_set, List.contains_cons]
    by_cases hname : typeName = name
    · simp [hname]
    · simp [hname]

theorem get?_indexDeclaredTypes (files : List FileDescriptorProto) (typeName : Text) :
    (indexDeclaredTypes files).get? typeName = declaringFile files typeName := by
  induction files using List.reverseRecOn with
  | nil => rfl
  | append_singleton files file ih =>
    unfold indexDeclaredTypes at ih ⊢
    unfold declaringFile at ih ⊢
    rw [List.foldl_append, List.foldl_cons, List.foldl_nil, get?_setAll, ih, List.filter_append,
      List.filter_cons, List.filter_nil]
    split_ifs with hdeclares
    · rw [List.getLast?_concat]
      rfl
    · rw [List.append_nil]

end Declaring

end Protocyte.Descriptors
