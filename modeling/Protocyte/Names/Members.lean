import Protocyte.Names.Allocation
import Protocyte.Names.Model

/-! The members emitted under one stem: those of a field, of an enum and of a oneof. -/
namespace Protocyte.Names

open Foundation

/-- The name of the message API that no schema name can take, with their signatures. -/
def messagePublicFunctions : List (String × Signature) :=
  [("create", .fnStatic 1), ("context", .fnConst 0), ("unknown_fields", .fnConst 0),
   ("unknown_field_count", .fnConst 0), ("unknown_field_bytes", .fnConst 0),
   ("clear_unknown_fields", .fn 0), ("mutable_unknown_fields", .fn 0), ("copy_from", .fn 1),
   ("clone", .fnConst 0), ("parse", .fnStatic 2), ("merge_from", .fn 1),
   ("merge_fields_from", .fn 1), ("serialize", .fnConst 1), ("encoded_size", .fnConst 0),
   ("validate", .fnConst 0)]

def messagePrivateFunctions : List String :=
  ["copy_from_in_place_", "reset_for_reuse_", "merge_field_from_", "destroy_at_"]

/-- The template `before{name}after`. -/
def around (before after : String) : Shape := .template before.toList after.toList

def fieldImplementationNameTemplates : List (String × Shape) :=
  [("ensured", around "ensured_" ""), ("entry", around "" "_entry"), ("value", around "" "_value"),
   ("packed_values", around "packed_" "_values"),
   ("packed_unknown_fields", around "packed_" "_unknown_fields"),
   ("packed_reserve", around "packed_reserve_" ""),
   ("merged_unknown_fields", around "merged_" "_unknown_fields"),
   ("committed", around "" "_committed"), ("parse_entry", around "parse_" "_entry"),
   ("staged_entry", around "staged_" "_entry"), ("decoded_raw", around "decoded_" "_raw"),
   ("decoded", around "decoded_" ""), ("accepted", around "" "_accepted"),
   ("packed_size", around "packed_size_" ""), ("packed_value", around "packed_value_" ""),
   ("field_size", around "field_size_" "")]

def enumHelperNameMembers (enum : EnumModel) : List (String × EmittedNameMember) :=
  let constant (text : String) : EmittedNameMember := ⟨.suffix text.toList, .constant, none⟩
  let function (text : String) (signature : Signature) : EmittedNameMember :=
    ⟨.suffix text.toList, .publicFunction, some signature⟩
  [("min", constant "MIN"), ("max", constant "MAX")] ++
    (if enum.generatesArraysize then [("arraysize", constant "ARRAYSIZE")] else []) ++
    [("is_valid", function "is_valid" (.fn 1)), ("name", function "name" (.fn 1)),
     ("parse", function "parse" (.fn 2)), ("descriptor", function "descriptor" (.fn 0))]

/-- A function of a field's API. -/
def fieldFunction (key before after : String) (signature : Signature) :
    String × EmittedNameMember :=
  (key, ⟨around before after, .fieldAccessor, some signature⟩)

/-- The members after the accessor of a field. -/
def fieldFunctions (item : FieldModel) : List (String × EmittedNameMember) :=
  let has := fieldFunction "has" "has_" "" (.fnConst 0)
  let ensure := fieldFunction "ensure" "ensure_" "" (.fn 0)
  let rawAccessor := fieldFunction "raw_accessor" "" "_raw" (.fnConst 0)
  let rawSetter := fieldFunction "raw_setter" "set_" "_raw" (.fn 1)
  let setter := fieldFunction "setter" "set_" "" (.fn 1)
  let clear := fieldFunction "clear" "clear_" "" (.fn 0)
  let mutable := fieldFunction "mutable" "mutable_" "" (.fn 0)
  let resizeOverwrite := fieldFunction "resize_overwrite" "resize_" "_for_overwrite" (.fn 1)
  let size := fieldFunction "size" "" "_size" (.fnConst 0)
  let maxSize := fieldFunction "max_size" "" "_max_size" (.fnConst 0)
  let resize := fieldFunction "resize" "resize_" "" (.fn 1)
  let optionalHas := if item.explicitPresence then [has] else []
  if item.oneofIndex ≠ none then
    if item.kind = .message then [has, ensure]
    else if item.kind = .enum then [has, rawAccessor, rawSetter, setter]
    else [has, setter]
  else if item.repeated = true ∨ item.kind = .map then [clear, mutable]
  else if item.kind = .message then [clear, has, ensure]
  else if item.fixedBytes then [clear, has, mutable, resizeOverwrite, setter]
  else if item.kind = .bytes ∧ item.arrayEnabled = true then
    [clear, size, maxSize, resize, resizeOverwrite, mutable, setter] ++ optionalHas
  else if item.kind = .string ∨ item.kind = .bytes then [clear, mutable, setter] ++ optionalHas
  else if item.kind = .enum then [clear, rawAccessor, rawSetter, setter] ++ optionalHas
  else [clear, setter] ++ optionalHas

def fieldPublicNameMembers (item : FieldModel) : List (String × EmittedNameMember) :=
  ("accessor", ⟨.template [] [], .fieldAccessor, some (.fnConst 0)⟩) :: fieldFunctions item

section Fit

theorem membersFit_fieldPublicNameMembers (item : FieldModel) :
    MembersFit ((fieldPublicNameMembers item).map Prod.snd) := by
  unfold fieldPublicNameMembers fieldFunctions
  simp only
  split_ifs <;> decide +kernel

/-- The kind of a member does not bear on how members get along. -/
theorem MembersFit.of_kind {shape : Shape} {kind : CppNameKind} {signature : Option Signature}
    {members : List EmittedNameMember} (h : MembersFit (⟨shape, kind, signature⟩ :: members))
    (kind' : CppNameKind) : MembersFit (⟨shape, kind', signature⟩ :: members) where
  nonempty := List.cons_ne_nil _ _
  fits := by
    obtain ⟨hfirst, hrest⟩ := List.forall_mem_cons.mp h.fits
    exact List.forall_mem_cons.mpr ⟨hfirst, hrest⟩
  distinct := by
    obtain ⟨hfirst, hrest⟩ := List.pairwise_cons.mp h.distinct
    exact List.pairwise_cons.mpr ⟨hfirst, hrest⟩

theorem membersFit_enumHelperNameMembers (kind : CppNameKind) (enum : EnumModel) :
    MembersFit (⟨.template [] [], kind, none⟩ :: (enumHelperNameMembers enum).map Prod.snd) := by
  refine MembersFit.of_kind (?_ : MembersFit (⟨_, .typeAlias, _⟩ :: _)) kind
  unfold enumHelperNameMembers
  simp only
  split_ifs <;> decide +kernel

end Fit

end Protocyte.Names
