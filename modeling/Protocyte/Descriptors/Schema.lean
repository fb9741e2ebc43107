import Protocyte.Descriptors.Model
import Protocyte.Foundation.Worklist
import Protocyte.Paths.Portable

/-! What a set of descriptor files says, with no order of files, declarations or fields, and the
files of it that headers are generated for. -/
namespace Protocyte.Descriptors

open Foundation Relation

def runtimePrefix : Text := "google/protobuf/".toList

def internalDescriptorFiles : List Text := ["protocyte/options.proto".toList]

def groupType : ℕ := 10

/-- A type name is another one or the name of something in its scope. -/
def LiesUnder (typeName root : Text) : Prop := typeName = root ∨ root ++ ['.'] <+: typeName

theorem LiesUnder.trans {a b c : Text} (h : LiesUnder a b) (h' : LiesUnder b c) : LiesUnder a c := by
  rcases h with rfl | h
  · exact h'
  · rcases h' with rfl | h'
    · exact .inr h
    · exact .inr (h'.trans ((List.prefix_append b ['.']).trans h))

section Views

structure MessageView where
  path : List Text
  field : Set FieldDescriptorProto
  extension : Set FieldDescriptorProto
  /-- The names of the types that stand in the message. -/
  nested : Set Text
  /-- The message has oneofs, or reserves or extends numbers. -/
  restricted : Prop

def MessageView.typeName (message : MessageView) : Text := fullyQualifiedName message.path

structure FileView where
  name : Text
  dependency : Set Text
  messages : Set MessageView
  extension : Set FieldDescriptorProto
  declared : Set Text
  hasService : Prop
  protoSyntax : Text
  edition : ℕ

def DescriptorProto.Restricted (message : DescriptorProto) : Prop :=
  message.oneofDecl ≠ [] ∨ message.extensionRange ≠ [] ∨ message.reservedRange ≠ [] ∨
    message.reservedName ≠ []

def messageView (item : List Text × DescriptorProto) : MessageView :=
  { path := item.1
    field := {field | field ∈ item.2.field}
    extension := {extension | extension ∈ item.2.extension}
    nested := {name | name ∈ item.2.nestedType.map DescriptorProto.name ++
      item.2.enumType.map EnumDescriptorProto.name}
    restricted := item.2.Restricted }

def FileDescriptorProto.view (file : FileDescriptorProto) : FileView :=
  { name := file.name
    dependency := {dependency | dependency ∈ file.dependency}
    messages := {message | message ∈ file.messages.map messageView}
    extension := {extension | extension ∈ file.extension}
    declared := {typeName | typeName ∈ declaredTypeNames file}
    hasService := file.service ≠ []
    protoSyntax := file.protoSyntax
    edition := file.edition }

abbrev Schema := Set FileView

def schema (files : List FileDescriptorProto) : Schema := {view | view ∈ files.map (·.view)}

end Views

section CustomOptions

namespace FileView

variable (file : FileView)

/-- An extension stands in the file, or in the message `scope` of it. -/
def Extends (extension : FieldDescriptorProto) (scope : Option Text) : Prop :=
  (extension ∈ file.extension ∧ scope = none) ∨
    ∃ message ∈ file.messages, extension ∈ message.extension ∧ scope = some message.typeName

/-- The type of an extension. -/
def OptionType (typeName : Text) : Prop :=
  ∃ extension scope, file.Extends extension scope ∧ extension.typeName ≠ [] ∧
    typeName = normalizeTypeName extension.typeName

/-- A message in the scope of one type has a field whose type is another one of the file. -/
def Needs (root typeName : Text) : Prop :=
  ∃ message ∈ file.messages, LiesUnder message.typeName root ∧
    ∃ field ∈ message.field, field.typeName ≠ [] ∧
      typeName = normalizeTypeName field.typeName ∧ typeName ∈ file.declared

/-- The types reached from the types of the extensions. -/
def HelperRoot : Text → Prop := Reached file.OptionType file.Needs

def Helper (typeName : Text) : Prop := ∃ root, file.HelperRoot root ∧ LiesUnder typeName root

/-- A message that has nothing but extensions and types, each of them a helper or such a message
again. -/
inductive Container : Text → Prop
  | intro {message : MessageView} (mem : message ∈ file.messages) (field : message.field = ∅)
      (restricted : ¬message.restricted)
      (nested : ∀ name ∈ message.nested, ¬file.Helper (message.typeName ++ '.' :: name) →
        Container (message.typeName ++ '.' :: name))
      (nonempty : message.extension.Nonempty ∨ message.nested.Nonempty) :
      Container message.typeName

/-- Every type of the file is there for its options. -/
def OnlyHelpers : Prop :=
  ∀ typeName ∈ file.declared,
    ∃ root, (file.HelperRoot root ∨ file.Container root) ∧ LiesUnder typeName root

structure PureCustomOptions : Prop where
  extension : ∃ extension scope, file.Extends extension scope
  options : ∀ extension scope, file.Extends extension scope →
    isCustomOptionExtension extension = true
  service : ¬file.hasService
  onlyHelpers : file.OnlyHelpers

structure InitiallyDiscoverable : Prop where
  internal : file.name ∉ internalDescriptorFiles
  nested : ∀ extension typeName, file.Extends extension (some typeName) →
    isCustomOptionExtension extension = true
  pure : ¬file.PureCustomOptions

/-- No header can use what the file declares, or none can be generated for it. -/
inductive Unsupported (selectedForGeneration : Prop) : Prop
  | editions (h : file.protoSyntax = "editions".toList ∨ file.edition ≠ 0)
  | proto3 (extension : FieldDescriptorProto) (scope : Option Text)
      (h : file.Extends extension scope) (option : isCustomOptionExtension extension = false)
      (proto3 : file.protoSyntax = "proto3".toList)
  | nested (extension : FieldDescriptorProto) (scope : Text)
      (h : file.Extends extension (some scope)) (option : isCustomOptionExtension extension = false)
      (selected : selectedForGeneration)
  | group (message : MessageView) (field : FieldDescriptorProto) (h : message ∈ file.messages)
      (mem : field ∈ message.field) (group : field.type = groupType)

def Blocked : Prop := file.name ∈ internalDescriptorFiles ∨ file.Unsupported True

end FileView

end CustomOptions

section Discovery

namespace Schema

variable (files : Schema)

def InitialTarget (name : Text) : Prop :=
  ∃ file ∈ files, file.name = name ∧ ¬runtimePrefix <+: name ∧ file.InitiallyDiscoverable

/-- A field of one file refers to a type that another one declares. -/
def RefersTo (a b : Text) : Prop :=
  ∃ source ∈ files, source.name = a ∧ ∃ message ∈ source.messages, ∃ field ∈ message.field,
    field.typeName ≠ [] ∧ ∃ target ∈ files, target.name = b ∧
      normalizeTypeName field.typeName ∈ target.declared

/-- The files headers are generated for. -/
def Selected : Text → Prop := Reached files.InitialTarget files.RefersTo

def Imports (a b : Text) : Prop := ∃ file ∈ files, file.name = a ∧ b ∈ file.dependency

def Imported : Text → Prop := Reached files.Selected files.Imports

structure Discoverable : Prop where
  named : ∀ file ∈ files, Paths.validateVirtualFileName file.name = .ok ()
  generated : ∀ file ∈ files, files.Selected file.name → ¬file.Blocked
  imported : ∀ a b, files.Imported a → files.Imports a b → ∃ file ∈ files, file.name = b
  supported : ∀ file ∈ files, files.Imported file.name → ¬files.Selected file.name →
    ¬file.Unsupported False
  acyclic : ∀ a b, files.Selected a → ReflTransGen (fun a b => files.RefersTo a b ∧ a ≠ b) a b →
    ¬TransGen (fun a b => files.RefersTo a b ∧ a ≠ b) b b

end Schema

end Discovery

end Protocyte.Descriptors
