import Protocyte.Codec.Schema

/-! Validation. The generator emits five passes over the fields in the order of their numbers; each
visits the values of a field. -/
namespace Protocyte
open Foundation.Computation

/-- The byte after the lead byte that carries `need` more: how many, and the bits it has. -/
def leadByte (byte : ℕ) : Option (ℕ × ℕ) :=
  if byte &&& 0xE0 = 0xC0 then
    if byte &&& 0x1F = 0 then none else some (1, byte &&& 0x1F)
  else if byte &&& 0xF0 = 0xE0 then some (2, byte &&& 0x0F)
  else if byte &&& 0xF8 = 0xF0 then some (3, byte &&& 0x07)
  else none

def continuationBytes : List UInt8 → ℕ → Option ℕ
  | [], code => some code
  | next :: rest, code =>
    if next.toNat &&& 0xC0 ≠ 0x80 then none
    else continuationBytes rest ((code <<< 6) ||| (next.toNat &&& 0x3F))

/-- Every iteration takes a byte, so the bytes bound the iterations. -/
def validateUtf8Loop : ℕ → List UInt8 → Bool
  | 0, _ => false
  | _ + 1, [] => true
  | n + 1, byte :: rest =>
    if byte.toNat < 0x80 then validateUtf8Loop n rest
    else match leadByte byte.toNat with
      | none => false
      | some (need, code) =>
        if need > rest.length then false
        else match continuationBytes (rest.take need) code with
          | none => false
          | some code =>
            if (need = 1 ∧ code < 0x80) ∨ (need = 2 ∧ code < 0x800) ∨ (need = 3 ∧ code < 0x10000)
            then false
            else if code > 0x10FFFF ∨ (code ≥ 0xD800 ∧ code ≤ 0xDFFF) then false
            else validateUtf8Loop n (rest.drop need)

def validateUtf8 (view : List UInt8) : Bool := validateUtf8Loop (view.length + 1) view

namespace FieldState

variable {Sub : ℕ → Type}

/-- A pass over the values of a field; entries of a map are visited key first. -/
def forValues (visit : (kind : ValueKind) → kind.Carrier Sub → Except Error Unit) :
    (kind : FieldKind) → FieldState Sub kind → Except Error Unit
  | .implicit (.value kind) _, v => visit kind v
  | .implicit (.byteArray ..) _, _ => return ()
  | .explicit (.value kind) .., some v => visit kind v
  | .explicit (.value _) .., none => return ()
  | .explicit (.byteArray ..) .., _ => return ()
  | .repeated kind .., items => items.val.forM (visit kind)
  | .map key value _, m => m.val.entries.forM fun entry => do
    visit key.value entry.1
    visit value entry.2

/-- `_emit_fixed_array_validation` -/
def validateFixedArray (number : ℕ) : (kind : FieldKind) → FieldState Sub kind → Except Error Unit
  | .repeated _ _ (.array max true), items =>
    if items.val ≠ [] ∧ items.val.length ≠ max.val then
      throw { code := .invalidArgument, fieldNumber := number }
    else return ()
  | .repeated _ _ (.array _ false), _ | .repeated _ _ (.vector _), _ | .implicit .., _
  | .explicit .., _ | .map .., _ => return ()

/-- `_emit_required_validation` -/
def validateRequired (number : ℕ) : (kind : FieldKind) → FieldState Sub kind → Except Error Unit
  | .explicit _ true _, none => throw { code := .invalidArgument, fieldNumber := number }
  | .explicit _ true _, some _ | .explicit _ false _, _ | .implicit .., _ | .repeated .., _
  | .map .., _ => return ()

end FieldState

namespace ValueKind

variable {Sub : ℕ → Type}

/-- `_emit_closed_enum_reject` -/
def validateClosedEnum (number : ℕ) : (kind : ValueKind) → kind.Carrier Sub → Except Error Unit
  | scalar t, v =>
    if t.closedInvalid v then throw { code := .invalidArgument, fieldNumber := number }
    else return ()
  | string, _ | bytes, _ | message .., _ => return ()

/-- `_emit_string_validation_reject` -/
def validateString (number : ℕ) : (kind : ValueKind) → kind.Carrier Sub → Except Error Unit
  | string, v =>
    if validateUtf8 v.val then return ()
    else throw { code := .invalidUtf8, fieldNumber := number }
  | scalar _, _ | bytes, _ | message .., _ => return ()

/-- `_emit_nested_validation` -/
def validateNested (validate : (id : ℕ) → Sub id → Except Error Unit) (number : ℕ) :
    (kind : ValueKind) → kind.Carrier Sub → Except Error Unit
  | message id _, v => withFieldError number (validate id v)
  | scalar _, _ | string, _ | bytes, _ => return ()

end ValueKind

namespace MessageData

variable {M : MessageModel} {Sub : ℕ → Type}

def validate (nested : (id : ℕ) → Sub id → Except Error Unit) (m : MessageData M Sub) :
    Except Error Unit := do
  M.sorted.forM fun i => FieldState.validateFixedArray (M.number i) _ (m.fields i)
  M.sorted.forM fun i =>
    FieldState.forValues (ValueKind.validateClosedEnum (M.number i)) _ (m.fields i)
  M.sorted.forM fun i => FieldState.validateRequired (M.number i) _ (m.fields i)
  M.sorted.forM fun i => FieldState.forValues (ValueKind.validateString (M.number i)) _ (m.fields i)
  M.sorted.forM fun i =>
    FieldState.forValues (ValueKind.validateNested nested (M.number i)) _ (m.fields i)

end MessageData

def Message.validate (S : Schema) : (levels id : ℕ) → Message S levels id → Except Error Unit
  | 0, _, m => m.elim
  | levels + 1, _, m => MessageData.validate (validate S levels) m

end Protocyte
