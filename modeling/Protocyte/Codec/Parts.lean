import Protocyte.Codec.Schema

/-! Parts of an object, temporaries and wrapped readers: how the emitted code passes a member, a
local variable or a narrower reader to a function. -/
namespace Protocyte
open Foundation.Computation

variable {O P T α : Type}

/-- Access to a part of an object. Storing the part that is there changes nothing. -/
structure Lens (O P : Type) where
  get : O → P
  set : P → O → O
  set_get (o : O) : set (get o) o = o

namespace Lens

variable {Q : Type}

def comp (l : Lens O P) (k : Lens P Q) : Lens O Q where
  get o := k.get (l.get o)
  set q o := l.set (k.set q (l.get o)) o
  set_get o := by rw [k.set_get, l.set_get]

end Lens

def zoom (l : Lens O P) (x : ParseM P α) : ParseM O α := fun s =>
  match x { ctx := s.ctx, obj := l.get s.obj, reader := s.reader } with
  | .ok a t => .ok a { ctx := t.ctx, obj := l.set t.obj s.obj, reader := t.reader }
  | .error e t => .error e { ctx := t.ctx, obj := l.set t.obj s.obj, reader := t.reader }

/-- A parse into a local variable, whose final value it returns. A failure discards it. -/
def inTemporary (init : T) (x : ParseM T α) : ParseM O (α × T) := fun s =>
  match x { ctx := s.ctx, obj := init, reader := s.reader } with
  | .ok a t => .ok (a, t.obj) { ctx := t.ctx, obj := s.obj, reader := t.reader }
  | .error e t => .error e { ctx := t.ctx, obj := s.obj, reader := t.reader }

/-- A parse that reads through a wrapper around the reader. -/
def through (wrap : Reader → Reader) (x : ParseM O α) : ParseM O α := fun s =>
  match x { s with reader := wrap s.reader } with
  | .ok a t => .ok a { t with reader := t.reader.wrapped }
  | .error e t => .error e { t with reader := t.reader.wrapped }

/-- `pop_recursion` on every exit. -/
def releasing (x : ParseM O α) : ParseM O α := fun s =>
  match x s with
  | .ok a t => .ok a { t with ctx := t.ctx.popRecursion }
  | .error e t => .error e { t with ctx := t.ctx.popRecursion }

def onContext (x : EStateM Error Context α) : ParseM O α := fun s =>
  match x s.ctx with
  | .ok a ctx => .ok a { s with ctx }
  | .error e ctx => .error e { s with ctx }

def checkReader (check : Reader → Except Error α) : ParseM O α := fun s =>
  match check s.reader with
  | .ok a => .ok a s
  | .error e => .error e s

def takeBlock (count : ℕ) : EStateM Error Context Unit := fun ctx =>
  if count = 0 then .ok () ctx
  else
    let (granted, ctx) := ctx.allocate
    if granted then .ok () ctx else .error { code := .noMemory } ctx

def Reader.readBuffer (count : ℕ) : ReaderM {bytes : List UInt8 // bytes.length = count} := fun r =>
  match h : Reader.read count r with
  | .ok bytes r' => .ok ⟨bytes, by
      obtain ⟨hle, rfl, -⟩ := Reader.read_eq_ok.mp h
      rw [List.length_take, Nat.min_eq_left hle]⟩ r'
  | .error e r' => .error e r'

/-- The bytes of a storage as the vector the unknown-field functions work on. -/
def storageLens : Lens Bytes ByteVec where
  get bytes := { items := bytes.val, capacity := bytes.val.length, capacity_le := bytes.2 }
  set v _ := ⟨v.items, v.size_le⟩
  set_get _ := rfl

abbrev Items (α : Type) (storage : Storage) : Type :=
  {items : List α // items.length ≤ storage.capacity}

namespace Items

variable {storage : Storage}

theorem empty_le (α : Type) (storage : Storage) : ([] : List α).length ≤ storage.capacity :=
  Nat.zero_le _

def empty : Items α storage := ⟨[], empty_le α storage⟩

/-- Growing a vector takes a block unless there is room already; an array has its room. -/
def grow (storage : Storage) (reserved : Bool) (count : ℕ) : EStateM Error Context Unit :=
  match storage with
  | .vector _ => if reserved then return () else takeBlock count
  | .array .. => return ()

def pushBack (reserved : Bool) (value : α) : BoundM (Items α storage) Unit := fun s =>
  if h : s.obj.val.length + 1 ≤ storage.capacity then
    match grow storage reserved 1 s.ctx with
    | .ok _ ctx => .ok () { ctx, obj := ⟨s.obj.val ++ [value], by simpa using h⟩ }
    | .error e ctx => .error e { s with ctx }
  else .error { code := .countLimit } s

/-- `append_trivial_range`, and the loop that pushes the items one by one. -/
def append (reserved : Bool) (values : List α) : BoundM (Items α storage) Unit := fun s =>
  if values.isEmpty then .ok () s
  else match checkedAdd s.obj.val.length values.length with
    | .error e => .error e s
    | .ok _ =>
      if h : s.obj.val.length + values.length ≤ storage.capacity then
        match grow storage reserved values.length s.ctx with
        | .ok _ ctx => .ok () { ctx, obj := ⟨s.obj.val ++ values, by simpa using h⟩ }
        | .error e ctx => .error e { s with ctx }
      else .error { code := .countLimit } s

def reserve (count : ℕ) : BoundM (Items α storage) Unit := fun s =>
  if count > storage.capacity then .error { code := .countLimit } s
  else match grow storage false (count - s.obj.val.length) s.ctx with
    | .ok _ ctx => .ok () { s with ctx }
    | .error e ctx => .error e { s with ctx }

end Items

end Protocyte
