import Protocyte.Names.Requests

/-! The owners of the requests made for one message differ when the names of its declarations do. -/
namespace Protocyte.Names

open Foundation

/-- What descriptor validation and the uniqueness of full names say about one message. -/
structure MessageModel.Valid (message : MessageModel) : Prop where
  nestedEnums : (message.nestedEnums.map (·.fullName)).Nodup
  declaredMessages : (message.declaredMessages.map (·.fullName)).Nodup
  constants : (message.constants.map (·.fullName)).Nodup
  fields : (message.fields.map (·.name)).Nodup
  oneofs : (message.oneofs.map (·.name)).Nodup
  oneofOf : ∀ item ∈ message.fields, ∀ index, item.oneofIndex = some index →
    ∃ oneof ∈ message.oneofs, oneof.index = index

section Texts

variable {tag tag' part part' : String} {a b : Text}

theorem tagged_inj : tagged tag a = tagged tag b ↔ a = b := List.append_right_inj _

/-- Texts with different beginnings. -/
theorem tagged_ne (index : ℕ) (hlt : index < tag.toList.length ∧ index < tag'.toList.length)
    (h : tag.toList[index]? ≠ tag'.toList[index]?) : tagged tag a ≠ tagged tag' b := by
  intro heq
  have hget := congrArg (·[index]?) heq
  simp only [tagged, List.getElem?_append_left hlt.1, List.getElem?_append_left hlt.2] at hget
  exact h hget

/-- Texts with different ends. -/
theorem append_part_ne (index : ℕ)
    (hlt : index < part.toList.reverse.length ∧ index < part'.toList.reverse.length)
    (h : part.toList.reverse[index]? ≠ part'.toList.reverse[index]?) :
    a ++ part.toList ≠ b ++ part'.toList := by
  intro heq
  have hget := congrArg (fun text => text.reverse[index]?) heq
  simp only [List.reverse_append, List.getElem?_append_left hlt.1,
    List.getElem?_append_left hlt.2] at hget
  exact h hget

theorem childPath_inj {path : Text} : childPath path a = childPath path b ↔ a = b := by
  simp [childPath]

end Texts

section Nodup

variable {α β : Type} {f : α → β} {l : List α}

/-- Owners made from distinct names. -/
theorem nodup_map_of {γ : Type} {g : α → γ} (h : (l.map g).Nodup)
    (hinj : ∀ a b, f a = f b → g a = g b) : (l.map f).Nodup := by
  induction l with
  | nil => exact List.nodup_nil
  | cons a l ih =>
    rw [List.map_cons, List.nodup_cons] at h ⊢
    refine ⟨?_, ih h.2⟩
    intro hmem
    obtain ⟨b, hb, heq⟩ := List.mem_map.mp hmem
    exact h.1 (List.mem_map.mpr ⟨b, hb, hinj b a heq⟩)

theorem nodup_flatMap_of {γ : Type} {g : α → γ} {F : α → List β} (h : (l.map g).Nodup)
    (hself : ∀ a, (F a).Nodup) (hinj : ∀ a b x, x ∈ F a → x ∈ F b → g a = g b) :
    (l.flatMap F).Nodup := by
  induction l with
  | nil => exact List.nodup_nil
  | cons a l ih =>
    rw [List.map_cons, List.nodup_cons] at h
    rw [List.flatMap_cons]
    apply List.Nodup.append (hself a) (ih h.2)
    intro x hx hrest
    obtain ⟨b, hb, hxb⟩ := List.mem_flatMap.mp hrest
    exact h.1 (List.mem_map.mpr ⟨b, hb, hinj b a x hxb hx⟩)

end Nodup

section Owners

variable {message : MessageModel}

theorem classRequests_owners (h : message.Valid) :
    ((classRequests message).map (·.owner)).Nodup := by
  have henums : (message.nestedEnums.map nestedEnumOwner).Nodup :=
    nodup_map_of h.nestedEnums fun _ _ => tagged_inj.mp
  have hnested : (message.declaredMessages.map nestedMessageOwner).Nodup :=
    nodup_map_of h.declaredMessages fun _ _ => tagged_inj.mp
  have hconstants : (message.constants.map constantOwner).Nodup :=
    nodup_map_of h.constants fun _ _ => tagged_inj.mp
  have hfields : (message.fields.map (fieldOwner message)).Nodup :=
    nodup_map_of h.fields fun _ _ heq => childPath_inj.mp (tagged_inj.mp heq)
  have howners : (classRequests message).map (·.owner) =
      ((message.nestedEnums.map nestedEnumOwner ++
        message.declaredMessages.map nestedMessageOwner) ++
          message.constants.map constantOwner) ++ message.fields.map (fieldOwner message) := by
    unfold classRequests
    simp only [List.map_append, List.map_map]
    rfl
  rw [howners]
  apply List.Nodup.append _ hfields
  · simp only [List.disjoint_left, List.mem_append, List.mem_map]
    rintro owner ((⟨enum, _, rfl⟩ | ⟨nested, _, rfl⟩) | ⟨constant, _, rfl⟩) ⟨item, _, heq⟩
    · exact tagged_ne 0 (by decide) (by decide) heq
    · exact tagged_ne 0 (by decide) (by decide) heq
    · exact tagged_ne 0 (by decide) (by decide) heq
  · apply List.Nodup.append _ hconstants
    · simp only [List.disjoint_left, List.mem_append, List.mem_map]
      rintro owner (⟨enum, _, rfl⟩ | ⟨nested, _, rfl⟩) ⟨constant, _, heq⟩
      · exact tagged_ne 0 (by decide) (by decide) heq
      · exact tagged_ne 0 (by decide) (by decide) heq
    · apply List.Nodup.append henums hnested
      simp only [List.disjoint_left, List.mem_map]
      rintro owner ⟨enum, _, rfl⟩ ⟨nested, _, heq⟩
      exact tagged_ne 7 (by decide) (by decide) heq

theorem oneofRequests_owners (h : message.Valid) :
    ((oneofRequests message).map (·.owner)).Nodup := by
  unfold oneofRequests
  rw [List.map_flatMap]
  apply nodup_flatMap_of h.oneofs
  · intro oneof
    have hne : oneofCaseTypeOwner message oneof ≠ oneofApiOwner message oneof :=
      tagged_ne 6 (by decide) (by decide)
    show [oneofCaseTypeOwner message oneof, oneofApiOwner message oneof].Nodup
    simpa using hne
  · intro a b owner ha hb
    simp only [List.map_cons, List.map_nil, List.mem_cons, List.not_mem_nil, or_false] at ha hb
    rcases ha with rfl | rfl <;> rcases hb with hb | hb
    · exact childPath_inj.mp (tagged_inj.mp hb)
    · exact absurd hb (tagged_ne 6 (by decide) (by decide))
    · exact absurd hb (tagged_ne 6 (by decide) (by decide))
    · exact childPath_inj.mp (tagged_inj.mp hb)

theorem privateOwner_tagged {kind kind' part part' : String} {name name' : Text}
    (h : privateOwner message kind name part = privateOwner message kind' name' part') :
    tagged kind (name ++ part.toList) = tagged kind' (name' ++ part'.toList) := by
  unfold privateOwner at h
  simp only [List.append_assoc] at h
  exact List.append_cancel_left h

theorem privateOwner_ne {kind kind' part part' : String} {name name' : Text} (index : ℕ)
    (hlt : index < kind.toList.length ∧ index < kind'.toList.length)
    (h : kind.toList[index]? ≠ kind'.toList[index]?) :
    privateOwner message kind name part ≠ privateOwner message kind' name' part' :=
  fun heq => tagged_ne index hlt h (privateOwner_tagged heq)

theorem privateOwner_part_ne {kind part part' : String} {name name' : Text} (index : ℕ)
    (hlt : index < part.toList.reverse.length ∧ index < part'.toList.reverse.length)
    (h : part.toList.reverse[index]? ≠ part'.toList.reverse[index]?) :
    privateOwner message kind name part ≠ privateOwner message kind name' part' :=
  fun heq => append_part_ne index hlt h (tagged_inj.mp (privateOwner_tagged heq))

theorem privateOwner_inj {kind part : String} {name name' : Text}
    (h : privateOwner message kind name part = privateOwner message kind name' part) :
    name = name' :=
  List.append_cancel_right (tagged_inj.mp (privateOwner_tagged h))

theorem owner_of_mem_fieldPrivateRequests {field : NamedField} {request : EmittedNameRequest}
    (h : request ∈ fieldPrivateRequests message field) :
    request.owner = fieldStorageOwner message field ∨
      request.owner = fieldPresenceOwner message field := by
  unfold fieldPrivateRequests at h
  split_ifs at h
  · exact absurd h List.not_mem_nil
  · rcases List.mem_cons.mp h with rfl | h
    · exact .inl rfl
    · rw [List.mem_singleton.mp h]
      exact .inr rfl
  · rw [List.mem_singleton.mp h]
    exact .inl rfl

theorem owner_of_mem_oneofPrivateRequests {oneof : OneofModel} {request : EmittedNameRequest}
    (h : request ∈ oneofPrivateRequests message oneof) :
    request.owner = oneofCaseStorageOwner message oneof ∨
      request.owner = oneofTypeOwner message oneof ∨
      request.owner = oneofContainerOwner message oneof := by
  unfold oneofPrivateRequests at h
  simp only [List.mem_cons, List.not_mem_nil, or_false] at h
  rcases h with rfl | rfl | rfl
  · exact .inl rfl
  · exact .inr (.inl rfl)
  · exact .inr (.inr rfl)

theorem privateFunctions_nodup : (message.privateFunctions.map (·.name)).Nodup := by
  have hnames : message.privateFunctions.map (·.name) =
      (messagePrivateFunctions.attach.filter fun name =>
        !(decide (name.1 = "destroy_at_") && decide (message.oneofs = []))).map Subtype.val := by
    unfold MessageModel.privateFunctions
    rw [List.map_map]
    rfl
  rw [hnames]
  apply List.Nodup.sublist (List.filter_sublist.map Subtype.val)
  rw [List.attach_map_subtype_val]
  decide

theorem fieldPrivateRequests_owners {fields : List NamedField}
    (h : (fields.map fun field => field.item.name).Nodup) :
    ((fields.flatMap (fieldPrivateRequests message)).map (·.owner)).Nodup := by
  rw [List.map_flatMap]
  apply nodup_flatMap_of h
  · intro field
    have hne : fieldStorageOwner message field ≠ fieldPresenceOwner message field :=
      privateOwner_part_ne 1 (by decide) (by decide)
    unfold fieldPrivateRequests
    split_ifs
    · exact List.nodup_nil
    · show [fieldStorageOwner message field, fieldPresenceOwner message field].Nodup
      simpa using hne
    · exact List.nodup_singleton _
  · intro a b owner ha hb
    obtain ⟨first, hfirst, rfl⟩ := List.mem_map.mp ha
    obtain ⟨second, hsecond, heq⟩ := List.mem_map.mp hb
    rcases owner_of_mem_fieldPrivateRequests hfirst with hfirst | hfirst <;>
      rcases owner_of_mem_fieldPrivateRequests hsecond with hsecond | hsecond <;>
      rw [hfirst, hsecond] at heq
    · exact (privateOwner_inj heq).symm
    · exact absurd heq (privateOwner_part_ne 1 (by decide) (by decide))
    · exact absurd heq (privateOwner_part_ne 1 (by decide) (by decide))
    · exact (privateOwner_inj heq).symm

theorem oneofPrivateRequests_owners {oneofs : List OneofModel} (h : (oneofs.map (·.name)).Nodup) :
    ((oneofs.flatMap (oneofPrivateRequests message)).map (·.owner)).Nodup := by
  rw [List.map_flatMap]
  apply nodup_flatMap_of h
  · intro oneof
    have hcase : oneofCaseStorageOwner message oneof ≠ oneofTypeOwner message oneof :=
      privateOwner_part_ne 1 (by decide) (by decide)
    have hcase' : oneofCaseStorageOwner message oneof ≠ oneofContainerOwner message oneof :=
      privateOwner_part_ne 1 (by decide) (by decide)
    have htype : oneofTypeOwner message oneof ≠ oneofContainerOwner message oneof :=
      privateOwner_part_ne 1 (by decide) (by decide)
    show [oneofCaseStorageOwner message oneof, oneofTypeOwner message oneof,
      oneofContainerOwner message oneof].Nodup
    simp [hcase, hcase', htype]
  · intro a b owner ha hb
    obtain ⟨first, hfirst, rfl⟩ := List.mem_map.mp ha
    obtain ⟨second, hsecond, heq⟩ := List.mem_map.mp hb
    rcases owner_of_mem_oneofPrivateRequests hfirst with hfirst | hfirst | hfirst <;>
      rcases owner_of_mem_oneofPrivateRequests hsecond with hsecond | hsecond | hsecond <;>
      rw [hfirst, hsecond] at heq
    · exact (privateOwner_inj heq).symm
    · exact absurd heq (privateOwner_part_ne 1 (by decide) (by decide))
    · exact absurd heq (privateOwner_part_ne 1 (by decide) (by decide))
    · exact absurd heq (privateOwner_part_ne 1 (by decide) (by decide))
    · exact (privateOwner_inj heq).symm
    · exact absurd heq (privateOwner_part_ne 1 (by decide) (by decide))
    · exact absurd heq (privateOwner_part_ne 1 (by decide) (by decide))
    · exact absurd heq (privateOwner_part_ne 1 (by decide) (by decide))
    · exact (privateOwner_inj heq).symm

/-- The owners of a list of requests are private ones of a kind. -/
def OfKind (message : MessageModel) (kind : String) (owners : List Text) : Prop :=
  ∀ owner ∈ owners, ∃ name part, owner = privateOwner message kind name part

theorem OfKind.disjoint {kind kind' : String} {owners owners' : List Text} (index : ℕ)
    (h : OfKind message kind owners) (h' : OfKind message kind' owners')
    (hlt : index < kind.toList.length ∧ index < kind'.toList.length)
    (hne : kind.toList[index]? ≠ kind'.toList[index]?) : owners.Disjoint owners' := by
  intro owner howner howner'
  obtain ⟨name, part, rfl⟩ := h owner howner
  obtain ⟨name', part', heq⟩ := h' _ howner'
  exact privateOwner_ne index hlt hne heq

theorem fieldPrivateRequests_ofKind (message : MessageModel) (fields : List NamedField) :
    OfKind message ":field:" ((fields.flatMap (fieldPrivateRequests message)).map (·.owner)) := by
  intro owner howner
  obtain ⟨request, hrequest, rfl⟩ := List.mem_map.mp howner
  obtain ⟨field, _, hrequest⟩ := List.mem_flatMap.mp hrequest
  rcases owner_of_mem_fieldPrivateRequests hrequest with heq | heq
  · exact ⟨_, _, heq⟩
  · exact ⟨_, _, heq⟩

theorem oneofPrivateRequests_ofKind (message : MessageModel) (oneofs : List OneofModel) :
    OfKind message ":oneof:" ((oneofs.flatMap (oneofPrivateRequests message)).map (·.owner)) := by
  intro owner howner
  obtain ⟨request, hrequest, rfl⟩ := List.mem_map.mp howner
  obtain ⟨oneof, _, hrequest⟩ := List.mem_flatMap.mp hrequest
  rcases owner_of_mem_oneofPrivateRequests hrequest with heq | heq | heq
  · exact ⟨_, _, heq⟩
  · exact ⟨_, _, heq⟩
  · exact ⟨_, _, heq⟩

/-- The owners of the private members, in their groups. -/
theorem privateRequests_owners (h : message.Valid) {fields : List NamedField}
    (hfields : (fields.map fun field => field.item.name).Nodup) :
    ((privateRequests message fields).map (·.owner)).Nodup := by
  have hfunctions : (message.privateFunctions.map fun function =>
      privateFunctionOwner message function.name).Nodup :=
    nodup_map_of privateFunctions_nodup fun a b heq => String.toList_inj.mp (privateOwner_inj heq)
  have hcontext : OfKind message ":context-storage" [contextStorageOwner message] :=
    List.forall_mem_singleton.mpr ⟨_, _, rfl⟩
  have hunknown : OfKind message ":unknown-storage" [unknownStorageOwner message] :=
    List.forall_mem_singleton.mpr ⟨_, _, rfl⟩
  have hfunction : OfKind message ":function:" (message.privateFunctions.map fun function =>
      privateFunctionOwner message function.name) :=
    List.forall_mem_map.mpr fun _ _ => ⟨_, _, rfl⟩
  have hfield := fieldPrivateRequests_ofKind message fields
  have honeof := oneofPrivateRequests_ofKind message message.oneofs
  have howners : (privateRequests message fields).map (·.owner) =
      [contextStorageOwner message] ++ ([unknownStorageOwner message] ++
        ((message.privateFunctions.map fun function => privateFunctionOwner message function.name) ++
          ((fields.flatMap (fieldPrivateRequests message)).map (·.owner) ++
            (message.oneofs.flatMap (oneofPrivateRequests message)).map (·.owner)))) := by
    unfold privateRequests
    simp only [List.map_append, List.map_map, List.append_assoc]
    rfl
  rw [howners]
  refine (List.nodup_singleton _).append ((List.nodup_singleton _).append (hfunctions.append
    ((fieldPrivateRequests_owners hfields).append (oneofPrivateRequests_owners h.oneofs) ?_) ?_)
      ?_) ?_
  · exact hfield.disjoint 1 honeof (by decide) (by decide)
  · exact List.disjoint_append_right.mpr ⟨hfunction.disjoint 2 hfield (by decide) (by decide),
      hfunction.disjoint 1 honeof (by decide) (by decide)⟩
  · simp only [List.disjoint_append_right]
    exact ⟨hunknown.disjoint 1 hfunction (by decide) (by decide),
      hunknown.disjoint 1 hfield (by decide) (by decide),
      hunknown.disjoint 1 honeof (by decide) (by decide)⟩
  · simp only [List.disjoint_append_right]
    exact ⟨hcontext.disjoint 1 hunknown (by decide) (by decide),
      hcontext.disjoint 1 hfunction (by decide) (by decide),
      hcontext.disjoint 1 hfield (by decide) (by decide),
      hcontext.disjoint 1 honeof (by decide) (by decide)⟩

theorem templateRequests_owners :
    ((templateNames.map (templateRequest message)).map (·.owner)).Nodup := by
  rw [List.map_map]
  apply nodup_map_of (g := TemplateName.name)
  · show (List.map TemplateName.name (List.map _ _)).Nodup
    rw [List.map_map]
    show (List.map Subtype.val (List.attach _)).Nodup
    rw [List.attach_map_subtype_val]
    decide
  · intro a b heq
    exact String.toList_inj.mp (List.cons.inj (List.append_cancel_left heq)).2

end Owners

end Protocyte.Names
