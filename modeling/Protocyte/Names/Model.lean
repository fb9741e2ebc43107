import Mathlib.Algebra.Group.Int.Defs
import Protocyte.Names.Portable

/-! The models of the declarations that names are allocated for. -/
namespace Protocyte.Names

open Foundation

/-- A spelling without a leading or a double underscore. -/
abbrev PlainName := {text : Text // Plain text}

inductive FieldKind where
  | scalar
  | string
  | bytes
  | enum
  | message
  | map
deriving DecidableEq, Repr

structure EnumValueModel where
  name : Text
  cppName : PlainName
  number : ℤ

structure EnumModel where
  name : Text
  cppName : PlainName
  fullName : Text
  values : List EnumValueModel

structure ConstantModel where
  name : Text
  cppName : PlainName
  fullName : Text

structure MapMember where
  name : Text
  cppName : PlainName

structure FieldModel where
  name : Text
  cppName : PlainName
  kind : FieldKind
  repeated : Bool
  explicitPresence : Bool
  oneofIndex : Option ℕ
  arrayEnabled : Bool
  arrayFixed : Bool
  mapMembers : List MapMember

structure OneofModel where
  index : ℕ
  name : Text
  cppName : PlainName

structure MessageModel where
  name : Text
  cppName : PlainName
  fullName : Text
  isMapEntry : Bool
  fields : List FieldModel
  oneofs : List OneofModel
  nestedMessages : List MessageModel
  nestedEnums : List EnumModel
  constants : List ConstantModel

def plainIdentifier (name : Text) : PlainName := ⟨cppIdentifier name, plain_cppIdentifier name⟩

def EnumModel.maxNumber (enum : EnumModel) : ℤ :=
  enum.values.foldl (fun max value => if max < value.number then value.number else max)
    ((enum.values.head?.map EnumValueModel.number).getD 0)

def EnumModel.generatesArraysize (enum : EnumModel) : Bool :=
  decide (enum.maxNumber ≠ 2 ^ 31 - 1)

def FieldModel.hasExplicitPresence (item : FieldModel) : Bool :=
  !item.repeated &&
    (item.explicitPresence || item.oneofIndex.isSome || decide (item.kind = .message))

def FieldModel.fixedBytes (item : FieldModel) : Bool :=
  decide (item.kind = .bytes) && !item.repeated && item.arrayEnabled && item.arrayFixed

def childPath (path name : Text) : Text := path ++ '.' :: name

end Protocyte.Names
