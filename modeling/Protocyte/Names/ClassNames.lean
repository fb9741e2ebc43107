import Protocyte.Names.Completion
import Protocyte.Names.Message

/-! When a class can reserve its names: its own name must be portable, and none of those of the
message API. -/
namespace Protocyte.Names

open Foundation Foundation.Computation

/-- The names of a class that no schema can take, besides its own. -/
def reservedClassNames (message : MessageModel) : List Text :=
  "Context".toList :: (if message.fields = [] then [] else ["FieldNumber".toList]) ++
    messagePublicFunctions.map fun function => function.1.toList

/-- A name a class can have. -/
def ClassNameFree (message : MessageModel) (name : Text) : Prop :=
  isPortableIdentifier name = true ∧ name ∉ reservedClassNames message

section Reserving

variable {scope : EmittedNameScope} {entries : List (Text × EmittedNameUse)}

theorem reserve_yields {name : Text} {use : EmittedNameUse}
    (hportable : isPortableIdentifier name = true)
    (happart : ∀ v ∈ scope.names.uses, v.1 = name → v.2 = use) :
    Yields (scope.reserve name use) fun next =>
      ∀ u, u ∈ next.names.uses ↔ u ∈ scope.names.uses ∨ u = (name, use) := by
  unfold EmittedNameScope.reserve
  by_cases hmem : use ∈ scope.get name
  · rw [if_pos hmem]
    apply Yields.ok
    intro u
    constructor
    · exact .inl
    · rintro (hold | rfl)
      · exact hold
      · exact EmittedNameScope.mem_get.mp hmem
  · have hcan : scope.canAdd name use [] = true := by
      rw [EmittedNameScope.canAdd_iff]
      refine ⟨hportable, ?_⟩
      intro item hitem
      rw [List.append_nil] at hitem
      obtain rfl := happart (name, item) (EmittedNameScope.mem_get.mp hitem) rfl
      exact absurd hitem hmem
    rw [if_neg hmem, dif_pos hcan]
    apply Yields.ok
    intro u
    show u ∈ scope.names.uses ++ [(name, use)] ↔ _
    rw [List.mem_append, List.mem_singleton]

/-- Entries that are equal where their names are can be reserved one after the other. -/
theorem reserveAll_yields (hportable : ∀ u ∈ entries, isPortableIdentifier u.1 = true)
    (hsame : ∀ u ∈ entries, ∀ v ∈ scope.names.uses ++ entries, v.1 = u.1 → v = u) :
    Yields (reserveAll scope entries) fun next =>
      ∀ u, u ∈ next.names.uses ↔ u ∈ scope.names.uses ∨ u ∈ entries := by
  induction entries generalizing scope with
  | nil => exact Yields.ok (by simp)
  | cons entry rest ih =>
    obtain ⟨name, use⟩ := entry
    rw [reserveAll]
    have hfirst : ∀ v ∈ scope.names.uses, v.1 = name → v.2 = use := fun v hv heq =>
      congrArg Prod.snd (hsame _ List.mem_cons_self v (List.mem_append_left _ hv) heq)
    apply (reserve_yields (hportable _ List.mem_cons_self) hfirst).bind
    intro next hnext
    have hrest : ∀ u ∈ rest, ∀ v ∈ next.names.uses ++ rest, v.1 = u.1 → v = u := by
      intro u hu v hv
      apply hsame u (List.mem_cons_of_mem _ hu)
      rcases List.mem_append.mp hv with hv | hv
      · rcases (hnext v).mp hv with hold | rfl
        · exact List.mem_append_left _ hold
        · exact List.mem_append_right _ List.mem_cons_self
      · exact List.mem_append_right _ (List.mem_cons_of_mem _ hv)
    apply (ih (fun u hu => hportable u (List.mem_cons_of_mem _ hu)) hrest).mono
    intro last hlast u
    rw [hlast u, hnext u, List.mem_cons, or_assoc]

theorem mem_of_reserve {name : Text} {use : EmittedNameUse} {next : EmittedNameScope}
    (h : scope.reserve name use = .ok next) :
    (name, use) ∈ next.names.uses ∧ ∀ u ∈ scope.names.uses, u ∈ next.names.uses := by
  unfold EmittedNameScope.reserve at h
  split_ifs at h with hmem hcan
  · obtain rfl := Except.ok.inj h
    exact ⟨EmittedNameScope.mem_get.mp hmem, fun _ hu => hu⟩
  · obtain rfl := Except.ok.inj h
    exact ⟨List.mem_append_right _ List.mem_cons_self, fun _ hu => List.mem_append_left _ hu⟩
  · split at h <;> exact absurd h (by simp)

theorem mem_of_reserveAll {next : EmittedNameScope} (h : reserveAll scope entries = .ok next) :
    ∀ u ∈ scope.names.uses ++ entries, u ∈ next.names.uses := by
  induction entries generalizing scope with
  | nil =>
    obtain rfl := Except.ok.inj h
    simp
  | cons entry rest ih =>
    rw [reserveAll] at h
    obtain ⟨middle, hmiddle, hnext⟩ := except_bind_eq_ok.mp h
    obtain ⟨hentry, hold⟩ := mem_of_reserve hmiddle
    intro u hu
    rcases List.mem_append.mp hu with hu | hu
    · exact ih hnext u (List.mem_append_left _ (hold u hu))
    · rcases List.mem_cons.mp hu with rfl | hu
      · exact ih hnext _ (List.mem_append_left _ hentry)
      · exact ih hnext u (List.mem_append_right _ hu)

/-- Two names of a scope that are equal belong to one entry or to overloads. -/
theorem eq_or_overloads {u v : Text × EmittedNameUse} (hu : u ∈ scope.names.uses)
    (hv : v ∈ scope.names.uses) (h : u.1 = v.1) :
    u = v ∨ Overloads u.2 v.2 ∨ Overloads v.2 u.2 := by
  obtain ⟨i, hi, rfl⟩ := List.getElem_of_mem hu
  obtain ⟨j, hj, rfl⟩ := List.getElem_of_mem hv
  have hpairwise := List.pairwise_iff_getElem.mp scope.names.compatible
  rcases Nat.lt_trichotomy i j with hlt | rfl | hlt
  · exact .inr (.inl (hpairwise i j hi hj hlt h))
  · exact .inl rfl
  · exact .inr (.inr (hpairwise j i hj hi hlt h.symm))

end Reserving

section Class

variable {message : MessageModel} {className : Text}

/-- The entries a class reserves besides its own name. -/
def reservedEntries (message : MessageModel) : List (Text × EmittedNameUse) :=
  [("Context".toList, ⟨message.fullName ++ ":context-alias".toList, .typeAlias, none⟩)] ++
    (if message.fields = [] then []
    else [("FieldNumber".toList, ⟨message.fullName ++ ":field-number-type".toList, .type, none⟩)]) ++
    messagePublicFunctions.map fun function =>
      (function.1.toList, ⟨message.fullName ++ (":public:".toList ++ function.1.toList),
        .publicFunction, some function.2⟩)

def classEntry (message : MessageModel) (className : Text) : Text × EmittedNameUse :=
  (className, ⟨message.fullName ++ ":injected-class-name".toList, .type, none⟩)

theorem reservedNames_eq :
    reservedNames className message = classEntry message className :: reservedEntries message := rfl

theorem map_fst_reservedEntries :
    (reservedEntries message).map Prod.fst = reservedClassNames message := by
  unfold reservedEntries reservedClassNames
  rw [List.map_append, List.map_append, List.map_map]
  split_ifs <;> rfl

private theorem reservedClassNames_fixed :
    ∀ names ∈ [[], ["FieldNumber".toList]],
      ("Context".toList :: names ++ messagePublicFunctions.map fun function =>
        function.1.toList).Nodup ∧
      ∀ name ∈ "Context".toList :: names ++ messagePublicFunctions.map fun function =>
        function.1.toList, isPortableIdentifier name = true := by
  decide +kernel

theorem reservedClassNames_nodup : (reservedClassNames message).Nodup := by
  unfold reservedClassNames
  split_ifs
  · exact (reservedClassNames_fixed [] (by simp)).1
  · exact (reservedClassNames_fixed _ (by simp)).1

theorem portable_reservedClassNames :
    ∀ name ∈ reservedClassNames message, isPortableIdentifier name = true := by
  unfold reservedClassNames
  split_ifs
  · exact (reservedClassNames_fixed [] (by simp)).2
  · exact (reservedClassNames_fixed _ (by simp)).2

theorem notMem_of_reserveAll {next : EmittedNameScope}
    {scope : EmittedNameScope}
    (h : reserveAll scope (reservedNames className message) = .ok next) :
    ClassNameFree message className := by
  have huses := mem_of_reserveAll h
  rw [reservedNames_eq] at huses
  have hclass : classEntry message className ∈ next.names.uses :=
    huses _ (List.mem_append_right _ List.mem_cons_self)
  refine ⟨next.names.valid_of_mem _ hclass, ?_⟩
  intro hmem
  rw [← map_fst_reservedEntries] at hmem
  obtain ⟨entry, hentry, heq⟩ := List.mem_map.mp hmem
  have hother : entry ∈ next.names.uses :=
    huses _ (List.mem_append_right _ (List.mem_cons_of_mem _ hentry))
  rcases eq_or_overloads hclass hother heq.symm with hsame | hoverloads | hoverloads
  · -- the owners tell the class name from the others
    have howner := congrArg (fun u : Text × EmittedNameUse => u.2.owner) hsame
    unfold reservedEntries at hentry
    simp only [List.mem_append, List.mem_singleton, List.mem_map] at hentry
    rcases hentry with (rfl | hfield) | ⟨function, _, rfl⟩
    · exact absurd (List.append_cancel_left howner) (by decide)
    · split_ifs at hfield
      · exact List.not_mem_nil hfield
      · rw [List.mem_singleton.mp hfield] at howner
        exact absurd (List.append_cancel_left howner) (by decide)
    · have htext := List.append_cancel_left howner
      have hne : tagged ":injected-class-name" [] ≠ tagged ":public:" function.1.toList :=
        tagged_ne 1 (by decide) (by decide)
      exact hne (by rw [tagged, List.append_nil]; exact htext)
  · exact hoverloads.1 rfl
  · exact hoverloads.2.1 rfl

theorem reserveAll_of_classNameFree {label : Text} (h : ClassNameFree message className) :
    ∃ next, reserveAll (.empty label) (reservedNames className message) = .ok next := by
  obtain ⟨hportable, hfree⟩ := h
  have hnodup : ((reservedNames className message).map Prod.fst).Nodup := by
    rw [reservedNames_eq, List.map_cons, map_fst_reservedEntries]
    exact List.nodup_cons.mpr ⟨hfree, reservedClassNames_nodup⟩
  have hyields : Yields (reserveAll (.empty label) (reservedNames className message)) fun next =>
      ∀ u, u ∈ next.names.uses ↔
        u ∈ (EmittedNameScope.empty label).names.uses ∨ u ∈ reservedNames className message := by
    apply reserveAll_yields
    · intro u hu
      rw [reservedNames_eq] at hu
      rcases List.mem_cons.mp hu with rfl | hu
      · exact hportable
      · have hall : ∀ name ∈ reservedClassNames message, isPortableIdentifier name = true :=
          portable_reservedClassNames
        apply hall
        rw [← map_fst_reservedEntries]
        exact List.mem_map_of_mem hu
    · intro u hu v hv heq
      exact List.inj_on_of_nodup_map hnodup (by simpa [EmittedNameScope.empty] using hv) hu heq
  obtain ⟨next, hnext, _⟩ := hyields
  exact ⟨next, hnext⟩

/-- A class is named exactly when its name is portable and not one of the message API. -/
theorem allocateMessageClassNames_ok_iff {sha256 : Sha256} (hvalid : message.Valid)
    {allocator : EmittedNameAllocator} {label : Text}
    (hfresh : allocator.scope (tagged "message:" message.fullName) = .empty label) :
    (∃ result, allocateMessageClassNames sha256 allocator className message = .ok result) ↔
      ClassNameFree message className := by
  unfold allocateMessageClassNames
  rw [hfresh]
  constructor
  · rintro ⟨result, hresult⟩
    obtain ⟨scope, hscope, _⟩ := except_bind_eq_ok.mp hresult
    exact notMem_of_reserveAll hscope
  · intro hfree
    have hreserved : ∃ next, reserveAll (.empty label) (reservedNames className message) =
        .ok next := reserveAll_of_classNameFree hfree
    obtain ⟨scope, hscope⟩ := hreserved
    obtain ⟨⟨next, names⟩, hnames, _, hcomplete⟩ :=
      allocateClassMembers_yields sha256 hvalid allocator scope
    refine ⟨(next, names), ?_⟩
    rw [except_bind_of_ok hscope, except_bind_of_ok hnames]
    show (checkRequirements names.requirements >>= fun _ => .ok (next, names)) = _
    rw [except_bind_of_ok (checkRequirements_of_met hcomplete.requirements)]

theorem allocateMessageClassNames_of_ok {sha256 : Sha256} (hvalid : message.Valid)
    {allocator : EmittedNameAllocator} {result : EmittedNameAllocator × MessageNames}
    (h : allocateMessageClassNames sha256 allocator className message = .ok result) :
    (∀ fullName, fullName ≠ message.fullName →
      result.1.scope (tagged "message:" fullName) =
        allocator.scope (tagged "message:" fullName)) ∧ result.2.Complete message := by
  unfold allocateMessageClassNames at h
  obtain ⟨scope, _, h⟩ := except_bind_eq_ok.mp h
  obtain ⟨made, hmade, h⟩ := except_bind_eq_ok.mp h
  obtain ⟨found, hfound, hproperties⟩ :=
    allocateClassMembers_yields sha256 hvalid allocator scope
  obtain rfl := Except.ok.inj (hmade.symm.trans hfound)
  obtain ⟨_, _, h⟩ := except_bind_eq_ok.mp h
  obtain rfl := Except.ok.inj h
  exact hproperties

end Class

section Messages

variable {sha256 : Sha256} {names : NamespaceNames} {messages : List MessageModel}

/-- All classes are named exactly when all their names are free. -/
theorem allocateMessages_ok_iff (hvalid : ∀ message ∈ messages, message.Valid)
    (hnodup : (messages.map (·.fullName)).Nodup) {allocator : EmittedNameAllocator}
    (hfresh : ∀ message ∈ messages, ∃ label,
      allocator.scope (tagged "message:" message.fullName) = .empty label) :
    (∃ result, allocateMessages sha256 names allocator messages = .ok result) ↔
      ∀ message ∈ messages, ClassNameFree message (messageCppName names message).1 := by
  induction messages generalizing allocator with
  | nil => exact ⟨fun _ => by simp, fun _ => ⟨_, rfl⟩⟩
  | cons message messages ih =>
    obtain ⟨hfirst, hrest⟩ := List.forall_mem_cons.mp hvalid
    obtain ⟨hnew, hnodup⟩ := List.nodup_cons.mp hnodup
    obtain ⟨⟨label, hlabel⟩, hfreshRest⟩ := List.forall_mem_cons.mp hfresh
    have hclass : (∃ result, allocateMessageClassNames sha256 allocator
          (messageCppName names message).1 message = .ok result) ↔
        ClassNameFree message (messageCppName names message).1 :=
      allocateMessageClassNames_ok_iff hfirst hlabel
    have hnext : ∀ {result}, allocateMessageClassNames sha256 allocator
        (messageCppName names message).1 message = .ok result → ∀ other ∈ messages, ∃ label,
          result.1.scope (tagged "message:" other.fullName) = .empty label := by
      intro result hresult other hother
      obtain ⟨label, hlabel⟩ := hfreshRest other hother
      refine ⟨label, ?_⟩
      rw [(allocateMessageClassNames_of_ok hfirst hresult).1 other.fullName, hlabel]
      intro heq
      exact hnew (List.mem_map.mpr ⟨other, hother, heq⟩)
    rw [List.forall_mem_cons, allocateMessages]
    constructor
    · rintro ⟨result, hresult⟩
      obtain ⟨made, hmade, hresult⟩ := except_bind_eq_ok.mp hresult
      obtain ⟨others, hothers, _⟩ := except_bind_eq_ok.mp hresult
      exact ⟨hclass.mp ⟨made, hmade⟩, (ih hrest hnodup (hnext hmade)).mp ⟨others, hothers⟩⟩
    · intro ⟨hfree, hfreeRest⟩
      obtain ⟨⟨next, made⟩, hmade⟩ := hclass.mpr hfree
      obtain ⟨⟨last, others⟩, hothers⟩ := (ih hrest hnodup (hnext hmade)).mpr hfreeRest
      refine ⟨(last, made :: others), ?_⟩
      rw [except_bind_of_ok hmade]
      show (allocateMessages sha256 names next messages >>= _) = _
      rw [except_bind_of_ok hothers]

theorem allocateMessages_complete (hvalid : ∀ message ∈ messages, message.Valid)
    {allocator : EmittedNameAllocator} {result : EmittedNameAllocator × List MessageNames}
    (h : allocateMessages sha256 names allocator messages = .ok result) :
    List.Forall₂ MessageNames.Complete messages result.2 := by
  induction messages generalizing allocator result with
  | nil =>
    obtain rfl := Except.ok.inj h
    exact .nil
  | cons message messages ih =>
    obtain ⟨hfirst, hrest⟩ := List.forall_mem_cons.mp hvalid
    rw [allocateMessages] at h
    obtain ⟨made, hmade, h⟩ := except_bind_eq_ok.mp h
    obtain ⟨others, hothers, h⟩ := except_bind_eq_ok.mp h
    obtain rfl := Except.ok.inj h
    exact .cons (allocateMessageClassNames_of_ok hfirst hmade).2 (ih hrest hothers)

end Messages

section Sample

def numberField (name : Text) : FieldModel where
  name
  cppName := plainIdentifier name
  kind := .scalar
  repeated := false
  explicitPresence := false
  oneofIndex := none
  arrayEnabled := false
  arrayFixed := false
  mapMembers := []

/-- A message with the number `x`. -/
def numberMessage (name fullName cppName : Text) : MessageModel where
  name
  cppName := plainIdentifier cppName
  fullName
  isMapEntry := false
  fields := [numberField ['x']]
  oneofs := []
  nestedMessages := []
  nestedEnums := []
  constants := []

def cornerMessage : MessageModel :=
  numberMessage "Corner".toList "Shape.Corner".toList "Shape_Corner".toList

/-- The entry of the map `sides`. -/
def sidesEntry : MessageModel :=
  { numberMessage "SidesEntry".toList "Shape.SidesEntry".toList "Shape_SidesEntry".toList with
    isMapEntry := true }

/-- A message with the name of a type that all classes have. -/
def contextMessage : MessageModel :=
  numberMessage "Context".toList "Context".toList "Context".toList

def colorEnum : EnumModel where
  name := "Color".toList
  cppName := plainIdentifier "Shape_Color".toList
  fullName := "Shape.Color".toList
  values := [⟨"RED".toList, plainIdentifier "RED".toList, 0⟩]

/-- A message with two members of a oneof, a map, an enumeration, a message and a constant. -/
def shapeMessage : MessageModel where
  name := "Shape".toList
  cppName := plainIdentifier "Shape".toList
  fullName := "Shape".toList
  isMapEntry := false
  fields := [{ numberField "radius".toList with oneofIndex := some 0 },
    { numberField "corner".toList with kind := .message, oneofIndex := some 0 },
    { numberField "sides".toList with kind := .map, repeated := true, mapMembers :=
      [⟨"key".toList, plainIdentifier "key".toList⟩,
       ⟨"value".toList, plainIdentifier "value".toList⟩] }]
  oneofs := [⟨0, "kind".toList, plainIdentifier "Kind".toList⟩]
  nestedMessages := [cornerMessage, sidesEntry]
  nestedEnums := [colorEnum]
  constants := [⟨"SIDES".toList, plainIdentifier "SIDES".toList, "Shape.SIDES".toList⟩]

theorem valid_shape : shapeMessage.Valid where
  nestedEnums := by decide
  declaredMessages := by decide
  constants := by decide
  fields := by decide
  oneofs := by decide
  oneofOf item hitem index hindex := by
    have hall : ∀ item ∈ shapeMessage.fields, item.oneofIndex = some 0 ∨ item.oneofIndex = none := by
      decide
    rcases hall item hitem with hzero | hnone
    · rw [hzero] at hindex
      exact ⟨_, List.mem_cons_self, Option.some.inj hindex⟩
    · rw [hnone] at hindex
      cases hindex

theorem valid_numberMessage (name fullName cppName : Text) :
    (numberMessage name fullName cppName).Valid := by
  refine ⟨.nil, .nil, .nil, List.nodup_singleton _, .nil, ?_⟩
  intro item hitem index hindex
  rw [List.mem_singleton.mp hitem] at hindex
  cases hindex

def noNames : NamespaceNames := ⟨.empty, .empty⟩

theorem classNameFree_shape :
    ClassNameFree shapeMessage (messageCppName noNames shapeMessage).1 := by
  unfold ClassNameFree
  decide +kernel

/-- A class gets names for all it holds, and none that is called `Context` gets any. -/
theorem allocateMessages_ok_iff_shape :
    (∃ result, allocateMessages zeroSha256 noNames .empty [shapeMessage, cornerMessage] =
      .ok result) ∧
    ¬∃ result, allocateMessages zeroSha256 noNames .empty [shapeMessage, contextMessage] =
      .ok result := by
  have hcorner : ClassNameFree cornerMessage (messageCppName noNames cornerMessage).1 := by
    unfold ClassNameFree
    decide +kernel
  have hcontext : ¬ClassNameFree contextMessage (messageCppName noNames contextMessage).1 := by
    unfold ClassNameFree
    decide +kernel
  have hnamed (other : MessageModel) (hvalid : other.Valid)
      (hne : shapeMessage.fullName ≠ other.fullName) :
      (∃ result, allocateMessages zeroSha256 noNames .empty [shapeMessage, other] =
        .ok result) ↔ ∀ message ∈ [shapeMessage, other],
          ClassNameFree message (messageCppName noNames message).1 := by
    apply allocateMessages_ok_iff
    · exact List.forall_mem_cons.mpr ⟨valid_shape, List.forall_mem_singleton.mpr hvalid⟩
    · exact List.nodup_cons.mpr ⟨fun h => hne (List.mem_singleton.mp h), List.nodup_singleton _⟩
    · exact fun message _ => ⟨_, rfl⟩
  constructor
  · rw [hnamed cornerMessage (valid_numberMessage _ _ _) (by decide), List.forall_mem_cons,
      List.forall_mem_singleton]
    exact ⟨classNameFree_shape, hcorner⟩
  · rw [hnamed contextMessage (valid_numberMessage _ _ _) (by decide), List.forall_mem_cons,
      List.forall_mem_singleton]
    exact fun h => hcontext h.2

theorem allocateMessages_complete_shape : ∃ result,
    allocateMessages zeroSha256 noNames .empty [shapeMessage] = .ok result ∧
      List.Forall₂ MessageNames.Complete [shapeMessage] result.2 := by
  have hnamed : ∃ result, allocateMessageClassNames zeroSha256 .empty
      (messageCppName noNames shapeMessage).1 shapeMessage = .ok result :=
    (allocateMessageClassNames_ok_iff valid_shape rfl).mpr classNameFree_shape
  obtain ⟨⟨allocator, made⟩, hmade⟩ := hnamed
  have hall : allocateMessages zeroSha256 noNames .empty [shapeMessage] =
      .ok (allocator, [made]) := by
    rw [allocateMessages, except_bind_of_ok hmade]
    rfl
  exact ⟨_, hall, allocateMessages_complete (List.forall_mem_singleton.mpr valid_shape) hall⟩

end Sample

end Protocyte.Names
