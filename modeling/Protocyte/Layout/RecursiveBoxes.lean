import Protocyte.Constants.Value
import Protocyte.Foundation.Computation
import Protocyte.Foundation.Reachability

/-! How message fields are stored: the model of a field, the pass that boxes recursive fields, and
the storage the emitter gives each field. Of the values of a map only that the map allocates them
matters here. -/
namespace Protocyte.Layout

open Relation Foundation
open Constants (Result reject)

inductive FieldType
  | double | float | int64 | uint64 | int32 | fixed64 | fixed32 | bool | string | group | message
  | bytes | uint32 | enum | sfixed32 | sfixed64 | sint32 | sint64
deriving DecidableEq, Repr

inductive Label
  | optional | required | repeated
deriving DecidableEq, Repr

structure ArrayOptions where
  max : Option ℤ
  expr : Option String
  fixed : Bool
deriving DecidableEq, Repr

structure FieldProto where
  name : String
  type : FieldType
  label : Label
  typeName : String
  extendee : String
  array : ArrayOptions
  defaultByteSize : Option ℕ
deriving DecidableEq, Repr

structure MessageProto where
  fullName : String
  isMapEntry : Bool
  fields : List FieldProto
deriving DecidableEq, Repr

inductive Kind
  | scalar | string | bytes | enum | message | map
deriving DecidableEq, Repr

structure FieldModel where
  name : String
  repeated : Bool
  kind : Kind
  messageType : Option String
  arrayMax : Option ℤ
  arrayExpr : Option String
  arrayFixed : Bool
  defaultByteSize : Option ℕ
  recursiveBox : Bool
deriving DecidableEq, Repr

structure MessageModel where
  fullName : String
  isMapEntry : Bool
  fields : List FieldModel
deriving DecidableEq, Repr

namespace FieldModel

def arrayEnabled (item : FieldModel) : Bool := item.arrayMax.isSome || item.arrayExpr.isSome

def repeatedMap (item : FieldModel) : Bool := item.kind = .map

def repeatedArray (item : FieldModel) : Bool :=
  item.repeated && item.arrayEnabled && !item.repeatedMap

def fixedBytes (item : FieldModel) : Bool :=
  item.kind = .bytes && !item.repeated && item.arrayEnabled && item.arrayFixed

end FieldModel

def validateArrayDefaultByteSize (label : String) (defaultSize : Option ℕ) (arrayMax : ℤ)
    (arrayFixed : Bool) : Result Unit :=
  match defaultSize with
  | none => .ok ()
  | some size =>
    if arrayFixed ∧ (size : ℤ) ≠ arrayMax then
      reject label "default value size must match fixed protocyte.array max"
    else if !arrayFixed ∧ (size : ℤ) > arrayMax then
      reject label "default value size exceeds protocyte.array max"
    else .ok ()

/-- `str.isspace` -/
def isSpace (c : Char) : Bool :=
  let n := c.toNat
  (9 ≤ n && n ≤ 13) || (28 ≤ n && n ≤ 32) || n == 0x85 || n == 0xA0 || n == 0x1680 ||
    (0x2000 ≤ n && n ≤ 0x200A) || n == 0x2028 || n == 0x2029 || n == 0x202F || n == 0x205F ||
    n == 0x3000

/-- The checks of `protocyte.array`. -/
def validateArray (label : String) (kind : Kind) (repeated : Bool) (array : ArrayOptions)
    (defaultByteSize : Option ℕ) : Result Unit :=
  if array.fixed ∧ array.max = none ∧ array.expr = none then
    reject label "protocyte.array.fixed requires protocyte.array.max or protocyte.array.expr"
  else if array.max.isSome ∧ array.expr.isSome then
    reject label "protocyte.array requires exactly one of max or expr"
  else if array.max = none ∧ array.expr = none then .ok ()
  else if kind = .map then reject label "protocyte.array is not supported on map fields"
  else if kind ≠ .bytes ∧ !repeated then
    reject label "protocyte.array is only supported on bytes or repeated fields"
  else if ∃ max ∈ array.max, max ≤ 0 then
    reject label "protocyte.array.max must be greater than zero"
  else if ∃ expr ∈ array.expr, expr.toList.all isSpace then
    reject label "protocyte.array.expr must not be empty"
  else
    match array.max with
    | some max => validateArrayDefaultByteSize label defaultByteSize max array.fixed
    | none => .ok ()

/-- The kind of a field and the message it refers to. -/
def resolveKind (messages : List MessageProto) (label : String) (proto : FieldProto) :
    Result (Kind × Option String) :=
  match proto.type with
  | .string => .ok (.string, none)
  | .bytes => .ok (.bytes, none)
  | .enum => .ok (.enum, none)
  | .message =>
    match messages.find? fun m => m.fullName = proto.typeName with
    | none => reject label ("unresolved message type '" ++ proto.typeName ++ "'")
    | some m =>
      if proto.label = .repeated ∧ m.isMapEntry then .ok (.map, some m.fullName)
      else .ok (.message, some m.fullName)
  | _ => .ok (.scalar, none)

def buildField (messages : List MessageProto) (owner : String) (proto : FieldProto) :
    Result FieldModel :=
  let label := owner ++ "." ++ proto.name
  let repeated := decide (proto.label = .repeated)
  if proto.extendee ≠ "" then
    reject label "extension fields are not supported for codec generation"
  else if proto.type = .group then reject label "groups are not supported"
  else do
    let (kind, messageType) ← resolveKind messages label proto
    validateArray label kind repeated proto.array proto.defaultByteSize
    return { name := proto.name, repeated, kind, messageType, arrayMax := proto.array.max
             arrayExpr := proto.array.expr, arrayFixed := proto.array.fixed
             defaultByteSize := proto.defaultByteSize, recursiveBox := false }

def fillMessageDetails (messages : List MessageProto) (message : MessageProto) :
    Result MessageModel := do
  let fields ← message.fields.mapM (buildField messages message.fullName)
  return { fullName := message.fullName, isMapEntry := message.isMapEntry, fields }

/-- The bound of an array given by an expression, from the value of the expression. -/
def resolveArray (evaluate : String → String → Result ℤ) (owner : String) (item : FieldModel) :
    Result FieldModel :=
  match item.arrayExpr with
  | none => .ok item
  | some expr => do
    let label := owner ++ "." ++ item.name
    let numeric ← evaluate owner expr
    if numeric ≤ 0 then
      reject label "protocyte.array.expr must resolve to a positive integer"
    else do
      validateArrayDefaultByteSize label item.defaultByteSize numeric item.arrayFixed
      return { item with arrayMax := some numeric }

def resolveArrays (evaluate : String → String → Result ℤ) (message : MessageModel) :
    Result MessageModel :=
  if message.isMapEntry then .ok message
  else do
    let fields ← message.fields.mapM (resolveArray evaluate message.fullName)
    return { message with fields }

/-- The messages as the boxing pass finds them. -/
def buildMessages (evaluate : String → String → Result ℤ) (protos : List MessageProto) :
    Result (List MessageModel) := do
  let messages ← protos.mapM (fillMessageDetails protos)
  messages.mapM (resolveArrays evaluate)

/-- The message a singular field refers to. -/
def directTarget (item : FieldModel) : Option String :=
  if item.kind = .message ∧ !item.repeated then item.messageType else none

def addEdge (graph : Dictionary String (List String)) (owner target : String) :
    Dictionary String (List String) :=
  graph.set owner ((graph.get? owner).getD [] ++ [target])

def addFields (graph : Dictionary String (List String)) (message : MessageModel) :
    Dictionary String (List String) :=
  if message.isMapEntry then graph
  else (message.fields.filterMap directTarget).foldl (addEdge · message.fullName) graph

def directGraph (messages : List MessageModel) : Dictionary String (List String) :=
  messages.foldl addFields
    (messages.foldl (fun graph message => graph.set message.fullName []) .empty)

def markField (graph : Dictionary String (List String)) (owner : String) (item : FieldModel) :
    FieldModel :=
  match directTarget item with
  | some target => if search graph target owner then { item with recursiveBox := true } else item
  | none => item

def markMessage (graph : Dictionary String (List String)) (message : MessageModel) :
    MessageModel :=
  if message.isMapEntry then message
  else { message with fields := message.fields.map (markField graph message.fullName) }

def markRecursiveBoxes (messages : List MessageModel) : List MessageModel :=
  messages.map (markMessage (directGraph messages))

/-- The storage of a field, with the message type of its elements. -/
inductive StorageType
  | array (element : Option String) (max : ℤ)
  | vector (element : Option String)
  | map
  | box (message : Option String)
  | optional (message : Option String)
  | fixedByteArray (max : ℤ)
  | byteArray (max : ℤ)
  | value
deriving DecidableEq, Repr

def elementType (item : FieldModel) : Option String :=
  if item.kind = .message then item.messageType else none

def storageType (item : FieldModel) : StorageType :=
  if item.repeated ∧ item.kind ≠ .map then
    match item.arrayMax with
    | some max =>
      if item.repeatedArray then .array (elementType item) max else .vector (elementType item)
    | none => .vector (elementType item)
  else if item.kind = .map then .map
  else if item.kind = .message then
    if item.recursiveBox then .box item.messageType else .optional item.messageType
  else
    match item.arrayMax with
    | some max =>
      if item.fixedBytes then .fixedByteArray max
      else if item.kind = .bytes ∧ item.arrayEnabled then .byteArray max
      else .value
    | none => .value

/-- The message a storage holds by value. -/
def StorageType.inlineMessage : StorageType → Option String
  | .array element _ => element
  | .optional message => message
  | .vector _ | .map | .box _ | .fixedByteArray _ | .byteArray _ | .value => none

/-- One message refers to another through a field, as `target` reads the field. -/
def Edge (target : FieldModel → Option String) (messages : List MessageModel) (a b : String) :
    Prop :=
  ∃ message ∈ messages, message.isMapEntry = false ∧ message.fullName = a ∧
    ∃ item ∈ message.fields, target item = some b

def Contains : List MessageModel → String → String → Prop := Edge elementType

/-- Containment by value. -/
def StoredInline : List MessageModel → String → String → Prop :=
  Edge fun item => (storageType item).inlineMessage

def Direct : List MessageModel → String → String → Prop := Edge directTarget

/-- The message of a repeated field with a bound. -/
def boundedTarget (item : FieldModel) : Option String :=
  if item.repeated ∧ item.arrayMax.isSome then elementType item else none

def Bounded : List MessageModel → String → String → Prop := Edge boundedTarget

section Graph

variable {messages : List MessageModel} {a b : String}

theorem successors_addEdge (graph : Dictionary String (List String)) (owner target : String) :
    b ∈ successors (addEdge graph owner target) a ↔
      b ∈ successors graph a ∨ a = owner ∧ b = target := by
  unfold successors addEdge
  rw [Dictionary.get?_set]
  split_ifs with h
  · subst h
    simp
  · simp [h]

theorem successors_addEdges (graph : Dictionary String (List String)) (owner : String)
    (targets : List String) : b ∈ successors (targets.foldl (addEdge · owner) graph) a ↔
      b ∈ successors graph a ∨ a = owner ∧ b ∈ targets := by
  induction targets generalizing graph with
  | nil => simp
  | cons target targets ih =>
    rw [List.foldl_cons, ih, successors_addEdge, List.mem_cons]
    tauto

theorem successors_addFields (graph : Dictionary String (List String)) (message : MessageModel) :
    b ∈ successors (addFields graph message) a ↔
      b ∈ successors graph a ∨ message.isMapEntry = false ∧ message.fullName = a ∧
        ∃ item ∈ message.fields, directTarget item = some b := by
  unfold addFields
  split_ifs with h
  · simp [h]
  · rw [successors_addEdges, List.mem_filterMap]
    simp only [Bool.not_eq_true] at h
    simp only [h, true_and]
    constructor
    · rintro (hgraph | ⟨rfl, hitem⟩)
      · exact .inl hgraph
      · exact .inr ⟨rfl, hitem⟩
    · rintro (hgraph | ⟨rfl, hitem⟩)
      · exact .inl hgraph
      · exact .inr ⟨rfl, hitem⟩

theorem successors_foldl_addFields (graph : Dictionary String (List String)) :
    b ∈ successors (messages.foldl addFields graph) a ↔
      b ∈ successors graph a ∨ Direct messages a b := by
  induction messages generalizing graph with
  | nil => simp [Direct, Edge]
  | cons message messages ih =>
    rw [List.foldl_cons, ih, successors_addFields, or_assoc]
    unfold Direct Edge
    simp only [List.exists_mem_cons_iff]

theorem successors_names (graph : Dictionary String (List String))
    (h : ∀ a, successors graph a = []) :
    ∀ a, successors (messages.foldl (fun graph message => graph.set message.fullName []) graph) a =
      [] := by
  induction messages generalizing graph with
  | nil => exact h
  | cons message messages ih =>
    apply ih
    intro a
    unfold successors
    rw [Dictionary.get?_set]
    split_ifs
    · rfl
    · exact h a

theorem adjacent_directGraph : Adjacent (directGraph messages) a b ↔ Direct messages a b := by
  unfold Adjacent directGraph
  rw [successors_foldl_addFields, successors_names _ (fun _ => rfl)]
  simp

theorem search_directGraph :
    search (directGraph messages) a b = true ↔ ReflTransGen (Direct messages) a b := by
  rw [search_iff]
  constructor
  · exact fun h => h.lift id fun _ _ => adjacent_directGraph.mp
  · exact fun h => h.lift id fun _ _ => adjacent_directGraph.mpr

end Graph

section Marking

variable {messages : List MessageModel} {graph : Dictionary String (List String)} {a b : String}
  {item : FieldModel}

/-- The pass runs on fields that are not boxed yet. -/
def Unmarked (messages : List MessageModel) : Prop :=
  ∀ message ∈ messages, ∀ item ∈ message.fields, item.recursiveBox = false

theorem inlineMessage_of_repeated (hrepeated : item.repeated = true) :
    (storageType item).inlineMessage = boundedTarget item := by
  unfold storageType boundedTarget FieldModel.repeatedArray FieldModel.arrayEnabled
    FieldModel.repeatedMap elementType
  cases hmax : item.arrayMax <;> cases hkind : item.kind <;>
    simp [hrepeated, StorageType.inlineMessage]

theorem inlineMessage_of_other (hrepeated : item.repeated = false) (hkind : item.kind ≠ .message) :
    (storageType item).inlineMessage = none := by
  unfold storageType
  cases hmax : item.arrayMax with
  | none =>
    simp only [hrepeated, hkind]
    split_ifs <;> simp_all [StorageType.inlineMessage]
  | some max =>
    simp only [hrepeated, hkind]
    split_ifs <;> simp_all [StorageType.inlineMessage]

theorem inlineMessage_of_message (item : FieldModel) (hrepeated : item.repeated = false)
    (hkind : item.kind = .message) :
    (storageType item).inlineMessage = if item.recursiveBox then none else item.messageType := by
  unfold storageType
  simp only [hrepeated, hkind]
  split_ifs <;> simp_all [StorageType.inlineMessage]

theorem markField_of_none (h : directTarget item = none) : markField graph a item = item := by
  unfold markField
  rw [h]

theorem markField_of_some {target : String} (h : directTarget item = some target) :
    markField graph a item =
      { item with recursiveBox := item.recursiveBox || search graph target a } := by
  unfold markField
  rw [h]
  show (if search graph target a then { item with recursiveBox := true } else item) = _
  split_ifs with hsearch
  · rw [hsearch, Bool.or_true]
  · rw [Bool.not_eq_true _ |>.mp hsearch, Bool.or_false]

theorem inlineMessage_markField (h : item.recursiveBox = false) :
    (storageType (markField graph a item)).inlineMessage = some b ↔
      directTarget item = some b ∧ search graph b a = false ∨ boundedTarget item = some b := by
  cases hrepeated : item.repeated with
  | true =>
    have hdirect : directTarget item = none := by simp [directTarget, hrepeated]
    rw [markField_of_none hdirect, hdirect, inlineMessage_of_repeated hrepeated]
    simp
  | false =>
    have hbounded : boundedTarget item = none := by simp [boundedTarget, hrepeated]
    by_cases hkind : item.kind = .message
    · have hdirect : directTarget item = item.messageType := by
        simp [directTarget, hrepeated, hkind]
      cases htype : item.messageType with
      | none =>
        rw [markField_of_none (hdirect.trans htype), inlineMessage_of_message item hrepeated hkind,
          hdirect, htype, hbounded]
        simp
      | some target =>
        have hstorage := inlineMessage_of_message
          { item with recursiveBox := item.recursiveBox || search graph target a } hrepeated hkind
        rw [markField_of_some (hdirect.trans htype), hstorage, hdirect, hbounded]
        simp only [h, htype, Bool.false_or, Option.some.injEq, reduceCtorEq, or_false]
        cases hsearch : search graph target a with
        | true =>
          constructor
          · intro hnone
            cases hnone
          · rintro ⟨rfl, hfalse⟩
            rw [hsearch] at hfalse
            cases hfalse
        | false =>
          constructor
          · intro hb
            have heq : target = b := Option.some.inj hb
            exact ⟨heq, heq ▸ hsearch⟩
          · rintro ⟨rfl, -⟩
            rfl
    · have hdirect : directTarget item = none := by simp [directTarget, hkind]
      rw [markField_of_none hdirect, hdirect, inlineMessage_of_other hrepeated hkind, hbounded]
      simp

theorem mem_markRecursiveBoxes {message : MessageModel} :
    message ∈ markRecursiveBoxes messages ↔
      ∃ original ∈ messages, markMessage (directGraph messages) original = message :=
  List.mem_map

theorem edge_markRecursiveBoxes (target : FieldModel → Option String) :
    Edge target (markRecursiveBoxes messages) a b ↔
      Edge (fun item => target (markField (directGraph messages) a item)) messages a b := by
  constructor
  · rintro ⟨message, hmessage, hentry, rfl, item, hitem, htarget⟩
    obtain ⟨original, horiginal, rfl⟩ := mem_markRecursiveBoxes.mp hmessage
    unfold markMessage at hentry hitem ⊢
    split_ifs at hentry hitem ⊢ with hmap
    · rw [hmap] at hentry
      cases hentry
    · obtain ⟨field, hfield, rfl⟩ := List.mem_map.mp hitem
      exact ⟨original, horiginal, hentry, rfl, field, hfield, htarget⟩
  · rintro ⟨message, hmessage, hentry, rfl, item, hitem, htarget⟩
    have hmark : markMessage (directGraph messages) message = { message with
        fields := message.fields.map (markField (directGraph messages) message.fullName) } := by
      unfold markMessage
      simp [hentry]
    refine ⟨_, mem_markRecursiveBoxes.mpr ⟨message, hmessage, hmark⟩, hentry, rfl, _, ?_, htarget⟩
    exact List.mem_map.mpr ⟨item, hitem, rfl⟩

theorem storedInline_markRecursiveBoxes (h : Unmarked messages) :
    StoredInline (markRecursiveBoxes messages) a b ↔
      OffCycle (Direct messages) a b ∨ Bounded messages a b := by
  have hsearch : search (directGraph messages) b a = false ↔ ¬ReflTransGen (Direct messages) b a := by
    rw [← Bool.not_eq_true, search_directGraph]
  unfold StoredInline
  rw [edge_markRecursiveBoxes]
  constructor
  · rintro ⟨message, hmessage, hentry, hname, item, hitem, htarget⟩
    rcases (inlineMessage_markField (h message hmessage item hitem)).mp htarget with
      ⟨hdirect, hopen⟩ | hbounded
    · exact .inl ⟨⟨message, hmessage, hentry, hname, item, hitem, hdirect⟩, hsearch.mp hopen⟩
    · exact .inr ⟨message, hmessage, hentry, hname, item, hitem, hbounded⟩
  · rintro (⟨⟨message, hmessage, hentry, hname, item, hitem, hdirect⟩, hopen⟩ |
      ⟨message, hmessage, hentry, hname, item, hitem, hbounded⟩)
    · refine ⟨message, hmessage, hentry, hname, item, hitem, ?_⟩
      exact (inlineMessage_markField (h message hmessage item hitem)).mpr
        (.inl ⟨hdirect, hsearch.mpr hopen⟩)
    · refine ⟨message, hmessage, hentry, hname, item, hitem, ?_⟩
      exact (inlineMessage_markField (h message hmessage item hitem)).mpr (.inr hbounded)

end Marking

/-- Every generated type has a finite size, and only recursive fields are boxed. -/
structure FiniteLayout (messages : List MessageModel) : Prop where
  acyclic : Acyclic (StoredInline messages)
  boxed : ∀ message ∈ messages, ∀ item ∈ message.fields, item.recursiveBox = true →
    ∃ target, item.messageType = some target ∧
      TransGen (Contains messages) message.fullName target ∧
      TransGen (Contains messages) target message.fullName

/-- No bounded repeated message field has its owner inside its elements, through bounded fields and
the singular fields that lie on no cycle of singular fields. -/
def BoundedApart (messages : List MessageModel) : Prop :=
  ∀ a b, Bounded messages a b →
    ¬ReflTransGen (fun u v => OffCycle (Direct messages) u v ∨ Bounded messages u v) b a

section Layouts

variable {messages : List MessageModel} {evaluate : String → String → Result ℤ}
  {protos : List MessageProto}

theorem acyclic_iff (h : Unmarked messages) :
    Acyclic (StoredInline (markRecursiveBoxes messages)) ↔ BoundedApart messages := by
  rw [Acyclic.congr fun a b => storedInline_markRecursiveBoxes h]
  exact acyclic_or_iff (acyclic_offCycle _)

theorem elementType_markField (graph : Dictionary String (List String)) (owner : String)
    (item : FieldModel) : elementType (markField graph owner item) = elementType item := by
  cases hdirect : directTarget item with
  | none => rw [markField_of_none hdirect]
  | some target =>
    rw [markField_of_some hdirect]
    rfl

theorem contains_of_direct {a b : String} (h : Direct messages a b) :
    Contains (markRecursiveBoxes messages) a b := by
  unfold Contains
  rw [edge_markRecursiveBoxes]
  obtain ⟨message, hmessage, hentry, hname, item, hitem, hdirect⟩ := h
  refine ⟨message, hmessage, hentry, hname, item, hitem, ?_⟩
  show elementType (markField _ _ item) = some b
  rw [elementType_markField]
  unfold directTarget at hdirect
  unfold elementType
  split_ifs at hdirect with hcond
  rw [if_pos hcond.1]
  exact hdirect

theorem boxed_on_cycle (h : Unmarked messages) {message : MessageModel}
    (hmessage : message ∈ markRecursiveBoxes messages) {item : FieldModel}
    (hitem : item ∈ message.fields) (hbox : item.recursiveBox = true) :
    ∃ target, item.messageType = some target ∧
      TransGen (Contains (markRecursiveBoxes messages)) message.fullName target ∧
      TransGen (Contains (markRecursiveBoxes messages)) target message.fullName := by
  obtain ⟨original, horiginal, rfl⟩ := mem_markRecursiveBoxes.mp hmessage
  unfold markMessage at hitem ⊢
  split_ifs at hitem ⊢ with hentry
  · rw [h original horiginal item hitem] at hbox
    cases hbox
  · obtain ⟨field, hfield, rfl⟩ := List.mem_map.mp hitem
    cases hdirect : directTarget field with
    | none =>
      rw [markField_of_none hdirect, h original horiginal field hfield] at hbox
      cases hbox
    | some target =>
      rw [markField_of_some hdirect] at hbox ⊢
      rw [h original horiginal field hfield, Bool.false_or, search_directGraph] at hbox
      have hedge : Direct messages original.fullName target :=
        ⟨original, horiginal, by simpa using hentry, rfl, field, hfield, hdirect⟩
      have htype : field.messageType = some target := by
        unfold directTarget at hdirect
        split_ifs at hdirect
        exact hdirect
      have hback : ReflTransGen (Contains (markRecursiveBoxes messages)) target original.fullName :=
        hbox.lift id fun _ _ => contains_of_direct
      have hforth := contains_of_direct hedge
      refine ⟨target, htype, .single hforth, ?_⟩
      rcases reflTransGen_iff_eq_or_transGen.mp hback with heq | hpath
      · show TransGen _ target original.fullName
        rw [heq]
        rw [heq] at hforth
        exact .single hforth
      · exact hpath

theorem recursiveBox_of_build {owner : String} {proto : FieldProto} {item : FieldModel}
    (h : buildField protos owner proto = .ok item) : item.recursiveBox = false := by
  unfold buildField at h
  by_cases hextendee : proto.extendee ≠ ""
  · rw [if_pos hextendee] at h
    cases h
  rw [if_neg hextendee] at h
  by_cases hgroup : proto.type = .group
  · rw [if_pos hgroup] at h
    cases h
  rw [if_neg hgroup] at h
  obtain ⟨kind, -, hchecked⟩ := Computation.except_bind_eq_ok.mp h
  obtain ⟨-, -, hitem⟩ := Computation.except_bind_eq_ok.mp hchecked
  cases hitem
  rfl

theorem recursiveBox_of_resolve {owner : String} {item resolved : FieldModel}
    (h : resolveArray evaluate owner item = .ok resolved) :
    resolved.recursiveBox = item.recursiveBox := by
  unfold resolveArray at h
  cases hexpr : item.arrayExpr with
  | none =>
    rw [hexpr] at h
    cases h
    rfl
  | some expr =>
    rw [hexpr] at h
    obtain ⟨numeric, -, hrest⟩ := Computation.except_bind_eq_ok.mp h
    split_ifs at hrest
    · cases hrest
    · obtain ⟨-, -, hresolved⟩ := Computation.except_bind_eq_ok.mp hrest
      cases hresolved
      rfl

theorem unmarked_of_build (h : buildMessages evaluate protos = .ok messages) :
    Unmarked messages := by
  obtain ⟨filled, hfilled, hresolved⟩ := Computation.except_bind_eq_ok.mp h
  have hunmarked : Unmarked filled := by
    intro message hmessage item hitem
    obtain ⟨proto, -, hproto⟩ := Computation.exists_of_mapM_ok hfilled hmessage
    obtain ⟨fields, hfields, hfill⟩ := Computation.except_bind_eq_ok.mp hproto
    cases hfill
    obtain ⟨fieldProto, -, hfield⟩ := Computation.exists_of_mapM_ok hfields hitem
    exact recursiveBox_of_build hfield
  intro message hmessage item hitem
  obtain ⟨original, horiginal, hresolve⟩ := Computation.exists_of_mapM_ok hresolved hmessage
  unfold resolveArrays at hresolve
  split_ifs at hresolve
  · cases hresolve
    exact hunmarked message horiginal item hitem
  · obtain ⟨fields, hfields, hmessage⟩ := Computation.except_bind_eq_ok.mp hresolve
    cases hmessage
    obtain ⟨field, hfield, hitem⟩ := Computation.exists_of_mapM_ok hfields hitem
    rw [recursiveBox_of_resolve hitem]
    exact hunmarked original horiginal field hfield

/-- The types of a schema have finite sizes exactly when the bounded repeated fields close no
cycle by themselves. -/
theorem markRecursiveBoxes_finiteLayout_iff
    (h : buildMessages evaluate protos = .ok messages) :
    FiniteLayout (markRecursiveBoxes messages) ↔ BoundedApart messages := by
  have hunmarked := unmarked_of_build h
  rw [← acyclic_iff hunmarked]
  constructor
  · exact FiniteLayout.acyclic
  · intro hacyclic
    exact ⟨hacyclic, fun _ hmessage _ hitem hbox => boxed_on_cycle hunmarked hmessage hitem hbox⟩

end Layouts

section Inputs

def messageField (name : String) (label : Label) (target : String) (max : Option ℤ) :
    FieldProto where
  name := name
  type := .message
  label := label
  typeName := target
  extendee := ""
  array := ⟨max, none, false⟩
  defaultByteSize := none

def selfProtos (label : Label) (max : Option ℤ) : List MessageProto :=
  [⟨"Self", false, [messageField "x" label "Self" max]⟩]

def selfMessages (label : Label) (max : Option ℤ) : List MessageModel :=
  [⟨"Self", false, [⟨"x", label = .repeated, .message, some "Self", max, none, false, none, false⟩]⟩]

/-- A list whose items hold four leaves. The field of a leaf has the type `target`. -/
def leafProtos (target : String) : List MessageProto :=
  [⟨"Item", false, [messageField "next" .optional "Item" none,
    messageField "leaves" .repeated "Leaf" (some 4)]⟩,
   ⟨"Leaf", false, [messageField "link" .optional target none]⟩]

def leafMessages (target : String) : List MessageModel :=
  [⟨"Item", false, [⟨"next", false, .message, some "Item", none, none, false, none, false⟩,
    ⟨"leaves", true, .message, some "Leaf", some 4, none, false, none, false⟩]⟩,
   ⟨"Leaf", false, [⟨"link", false, .message, some target, none, none, false, none, false⟩]⟩]

theorem bounded_leafMessages {target a b : String} :
    Bounded (leafMessages target) a b ↔ "Item" = a ∧ "Leaf" = b := by
  simp [Bounded, Edge, leafMessages, boundedTarget, elementType]

theorem direct_leafMessages {target a b : String} :
    Direct (leafMessages target) a b ↔
      "Item" = a ∧ "Item" = b ∨ "Leaf" = a ∧ target = b := by
  simp [Direct, Edge, leafMessages, directTarget]

/-- A leaf in a leaf is boxed. An item in a leaf is not, and holds the leaf again. -/
theorem markRecursiveBoxes_finiteLayout_iff_leaves :
    FiniteLayout (markRecursiveBoxes (leafMessages "Leaf")) ∧
      ¬FiniteLayout (markRecursiveBoxes (leafMessages "Item")) := by
  have hleaf := markRecursiveBoxes_finiteLayout_iff
    (show buildMessages (fun _ _ => .ok 1) (leafProtos "Leaf") = .ok (leafMessages "Leaf") from rfl)
  have hitem := markRecursiveBoxes_finiteLayout_iff
    (show buildMessages (fun _ _ => .ok 1) (leafProtos "Item") = .ok (leafMessages "Item") from rfl)
  constructor
  · rw [hleaf]
    intro a b hbounded hpath
    obtain ⟨rfl, rfl⟩ := bounded_leafMessages.mp hbounded
    rcases ReflTransGen.cases_head hpath with he | ⟨c, hstep | hstep, _⟩
    · exact absurd he (by decide)
    · -- the only field of a leaf lies on a cycle of its own
      obtain ⟨⟨he, _⟩ | ⟨_, rfl⟩, hoff⟩ := And.imp_left direct_leafMessages.mp hstep
      · exact absurd he (by decide)
      · exact hoff .refl
    · exact absurd (bounded_leafMessages.mp hstep).1 (by decide)
  · rw [hitem]
    intro hapart
    refine hapart "Item" "Leaf" (bounded_leafMessages.mpr ⟨rfl, rfl⟩) (.single (.inl ⟨?_, ?_⟩))
    · exact direct_leafMessages.mpr (.inr ⟨rfl, rfl⟩)
    · intro hpath
      have hitems {c : String} (h : ReflTransGen (Direct (leafMessages "Item")) "Item" c) :
          c = "Item" := by
        induction h with
        | refl => rfl
        | tail _ hstep ih =>
          rcases direct_leafMessages.mp hstep with ⟨_, rfl⟩ | ⟨_, rfl⟩ <;> rfl
      exact absurd (hitems hpath) (by decide)

/-- `repeated Self x = 1 [(protocyte.array).max = 4];` is accepted, and stored in `Self` itself. -/
theorem not_finiteLayout_self :
    buildMessages (fun _ _ => .ok 1) (selfProtos .repeated (some 4)) =
        .ok (selfMessages .repeated (some 4)) ∧
      ¬FiniteLayout (markRecursiveBoxes (selfMessages .repeated (some 4))) := by
  refine ⟨rfl, ?_⟩
  intro h
  apply h.acyclic "Self"
  apply TransGen.single
  exact ⟨_, List.mem_cons_self, rfl, rfl, _, List.mem_cons_self, rfl⟩

end Inputs

end Protocyte.Layout
