import Protocyte.Descriptors.Discovery
import Protocyte.Foundation.Computation
import Protocyte.Descriptors.CycleSearch

/-! The discovery of the files to generate is right: it ends, it selects the least closed set of
files, and what it does depends only on what the descriptor files say. -/
namespace Protocyte.Descriptors

open Foundation Relation

section Files

variable {files : Files} {name : Text} {file : FileDescriptorProto}

theorem Files.get?_eq_some_iff :
    files.get? name = some file ↔ file ∈ files.items ∧ file.name = name := by
  unfold Files.get?
  constructor
  · intro h
    exact ⟨List.mem_of_find?_eq_some h, by simpa using List.find?_some h⟩
  · intro ⟨hmem, hname⟩
    cases hfind : files.items.find? fun file => file.name = name with
    | none =>
      rw [List.find?_eq_none] at hfind
      exact absurd (decide_eq_true hname) (hfind file hmem)
    | some other =>
      have hother : other.name = name := by simpa using List.find?_some hfind
      have heq := List.inj_on_of_nodup_map files.distinct (List.mem_of_find?_eq_some hfind) hmem
        (hother.trans hname.symm)
      rw [heq]

theorem Files.get?_ne_none_iff : files.get? name ≠ none ↔ ∃ file ∈ files.items, file.name = name := by
  rw [Option.ne_none_iff_exists']
  simp only [Files.get?_eq_some_iff]

theorem indexFiles_spec (descriptorSet : List FileDescriptorProto) (start : Files) :
    (∀ files, descriptorSet.foldlM addFile start = .ok files →
      files.items = start.items ++ descriptorSet ∧
        ∀ file ∈ descriptorSet, Paths.validateVirtualFileName file.name = .ok ()) ∧
    (((start.items ++ descriptorSet).map FileDescriptorProto.name).Nodup →
      (∀ file ∈ descriptorSet, Paths.validateVirtualFileName file.name = .ok ()) →
        ∃ files, descriptorSet.foldlM addFile start = .ok files) := by
  induction descriptorSet generalizing start with
  | nil =>
    refine ⟨?_, fun _ _ => ⟨start, rfl⟩⟩
    intro files h
    obtain rfl := Except.ok.inj h
    simp
  | cons file descriptorSet ih =>
    rw [List.foldlM_cons, addFile]
    constructor
    · intro files h
      split at h
      · exact absurd h (by simp [bind, Except.bind])
      · next hvalid =>
        split_ifs at h with hname
        · exact absurd h (by simp [bind, Except.bind])
        · obtain ⟨hitems, hall⟩ := (ih _).1 files h
          exact ⟨by simpa using hitems, List.forall_mem_cons.mpr ⟨hvalid, hall⟩⟩
    · intro hnodup hall
      rw [List.forall_mem_cons] at hall
      have hname : ¬start.names.contains file.name = true := by
        intro hmem
        rw [List.map_append, List.map_cons] at hnodup
        exact List.disjoint_of_nodup_append hnodup (List.contains_iff_mem.mp hmem)
          List.mem_cons_self
      rw [hall.1]
      simp only [dif_neg hname]
      exact (ih _).2 (by simpa using hnodup) hall.2

theorem declaringFile_eq_some_iff {items : List FileDescriptorProto} {typeName target : Text}
    (h : (items.flatMap declaredTypeNames).Nodup) :
    declaringFile items typeName = some target ↔
      ∃ file ∈ items, file.name = target ∧ typeName ∈ declaredTypeNames file := by
  have hunique : ∀ a ∈ items, ∀ b ∈ items, typeName ∈ declaredTypeNames a →
      typeName ∈ declaredTypeNames b → a = b := by
    intro a ha b hb hta htb
    by_contra hne
    have hsymm : Std.Symm (Function.onFun List.Disjoint declaredTypeNames) :=
      ⟨fun _ _ hdisjoint => hdisjoint.symm⟩
    have hdisjoint := (List.nodup_flatMap.mp h).2.forall ha hb hne
    exact hdisjoint hta htb
  unfold declaringFile
  rw [Option.map_eq_some_iff]
  constructor
  · intro ⟨file, hlast, hname⟩
    have hmem := List.mem_filter.mp (List.mem_of_getLast? hlast)
    exact ⟨file, hmem.1, hname, List.contains_iff_mem.mp hmem.2⟩
  · intro ⟨file, hfile, hname, hdeclares⟩
    have hmem : file ∈ items.filter fun file => (declaredTypeNames file).contains typeName :=
      List.mem_filter.mpr ⟨hfile, List.contains_iff_mem.mpr hdeclares⟩
    obtain ⟨last, hlast⟩ :=
      Option.isSome_iff_exists.mp (List.getLast?_isSome.mpr (List.ne_nil_of_mem hmem))
    have hlastmem := List.mem_filter.mp (List.mem_of_getLast? hlast)
    have heq := hunique last hlastmem.1 file hfile (List.contains_iff_mem.mp hlastmem.2) hdeclares
    exact ⟨last, hlast, heq ▸ hname⟩

end Files

section Blockers

variable {file : FileDescriptorProto}

theorem extensionBlocker_ne_none {selected : Bool}
    {declaration : FieldDescriptorProto × Option Text} :
    extensionBlocker file selected declaration ≠ none ↔
      isCustomOptionExtension declaration.1 = false ∧
        (file.protoSyntax = "proto3".toList ∨ (declaration.2 ≠ none ∧ selected = true)) := by
  unfold extensionBlocker
  obtain ⟨extension, scope⟩ := declaration
  cases scope with
  | none => split_ifs <;> simp_all
  | some scope => split_ifs <;> simp_all

theorem groupFieldGenerationBlocker_ne_none :
    groupFieldGenerationBlocker file ≠ none ↔
      ∃ message ∈ file.view.messages, ∃ field ∈ message.field, field.type = groupType := by
  unfold groupFieldGenerationBlocker
  rw [Option.ne_none_iff_isSome, List.findSome?_isSome_iff]
  simp only [Option.isSome_map, List.find?_isSome, decide_eq_true_eq]
  constructor
  · intro ⟨item, hitem, field, hfield, hgroup⟩
    exact ⟨messageView item, mem_view_messages.mpr ⟨item, hitem, rfl⟩, field, hfield, hgroup⟩
  · intro ⟨message, hmessage, field, hfield, hgroup⟩
    obtain ⟨item, hitem, rfl⟩ := mem_view_messages.mp hmessage
    exact ⟨item, hitem, field, hfield, hgroup⟩

theorem descriptorCapabilityBlocker_ne_none {selected : Bool} :
    descriptorCapabilityBlocker file selected ≠ none ↔
      file.view.Unsupported (selected = true) := by
  unfold descriptorCapabilityBlocker
  split_ifs with heditions
  · rw [Bool.or_eq_true, decide_eq_true_eq, decide_eq_true_eq] at heditions
    exact iff_of_true (Option.some_ne_none _) (.editions heditions)
  · have hextension : ((extensionDeclarations file).findSome? (extensionBlocker file selected) ≠
        none) ↔ ∃ extension scope, file.view.Extends extension scope ∧
          isCustomOptionExtension extension = false ∧
            (file.protoSyntax = "proto3".toList ∨ (scope ≠ none ∧ selected = true)) := by
      rw [Option.ne_none_iff_isSome, List.findSome?_isSome_iff]
      simp only [← Option.ne_none_iff_isSome, extensionBlocker_ne_none, extends_iff, Prod.exists]
    rw [Bool.or_eq_true, decide_eq_true_eq, decide_eq_true_eq] at heditions
    cases hfound : (extensionDeclarations file).findSome? (extensionBlocker file selected) with
    | some blocker =>
      refine iff_of_true (Option.some_ne_none _) ?_
      have hne := hfound.trans_ne (Option.some_ne_none _)
      obtain ⟨extension, scope, hextends, hoption, hwhy⟩ := hextension.mp hne
      rcases hwhy with hproto3 | ⟨hscope, hselected⟩
      · exact .proto3 extension scope hextends hoption hproto3
      · obtain ⟨typeName, rfl⟩ := Option.ne_none_iff_exists'.mp hscope
        exact .nested extension typeName hextends hoption hselected
    | none =>
      rw [hfound] at hextension
      show groupFieldGenerationBlocker file ≠ none ↔ _
      rw [groupFieldGenerationBlocker_ne_none]
      constructor
      · intro ⟨message, hmessage, field, hfield, hgroup⟩
        exact .group message field hmessage hfield hgroup
      · intro h
        cases h with
        | editions h => exact absurd h heditions
        | proto3 extension scope hextends hoption hproto3 =>
          exact absurd rfl (hextension.mpr ⟨extension, scope, hextends, hoption, .inl hproto3⟩)
        | nested extension scope hextends hoption hselected =>
          exact absurd rfl
            (hextension.mpr ⟨extension, some scope, hextends, hoption, .inr ⟨by simp, hselected⟩⟩)
        | group message field hmessage hfield hgroup =>
          exact ⟨message, hmessage, field, hfield, hgroup⟩

theorem generatedHeaderBlocker_ne_none :
    generatedHeaderBlocker file ≠ none ↔ file.view.Blocked := by
  unfold generatedHeaderBlocker FileView.Blocked
  split_ifs with hinternal
  · exact iff_of_true (by simp) (.inl (List.contains_iff_mem.mp hinternal))
  · rw [descriptorCapabilityBlocker_ne_none]
    have hnot : ¬file.view.name ∈ internalDescriptorFiles := fun h =>
      hinternal (List.contains_iff_mem.mpr h)
    simp [hnot]

theorem isInitialDiscoverableTarget_iff (order : SetOrder)
    (hdistinct : (declaredTypeNames file).Nodup) :
    isInitialDiscoverableTarget order file = true ↔ file.view.InitiallyDiscoverable := by
  unfold isInitialDiscoverableTarget isReferencedTypeDiscoverable
  rw [Bool.and_eq_true, Bool.and_eq_true, Bool.not_eq_true', Bool.not_eq_true',
    List.contains_eq_mem, decide_eq_false_iff_not, List.all_eq_true, ← Bool.not_eq_true,
    isPureCustomOptionDefinition_iff order hdistinct]
  have hscoped : (∀ declaration ∈ extensionDeclarations file, (declaration.2 = none ||
      isCustomOptionExtension declaration.1) = true) ↔ ∀ extension typeName,
        file.view.Extends extension (some typeName) → isCustomOptionExtension extension = true := by
    constructor
    · intro h extension typeName hextends
      simpa using h _ (extends_iff.mp hextends)
    · intro h declaration hdeclaration
      obtain ⟨extension, scope⟩ := declaration
      cases scope with
      | none => rfl
      | some typeName => simpa using h extension typeName (extends_iff.mpr hdeclaration)
  rw [hscoped]
  constructor
  · intro ⟨⟨hinternal, hnested⟩, hpure⟩
    exact ⟨hinternal, hnested, hpure⟩
  · intro ⟨hinternal, hnested, hpure⟩
    exact ⟨⟨hinternal, hnested⟩, hpure⟩

end Blockers

section References

variable {files : Files}

theorem mem_schema {items : List FileDescriptorProto} {view : FileView} :
    view ∈ schema items ↔ ∃ file ∈ items, file.view = view := List.mem_map

theorem exists_schema {items : List FileDescriptorProto} {motive : FileView → Prop} :
    (∃ view ∈ schema items, motive view) ↔ ∃ file ∈ items, motive file.view := by
  constructor
  · intro ⟨view, hview, h⟩
    obtain ⟨file, hfile, rfl⟩ := mem_schema.mp hview
    exact ⟨file, hfile, h⟩
  · intro ⟨file, hfile, h⟩
    exact ⟨file.view, mem_schema.mpr ⟨file, hfile, rfl⟩, h⟩

theorem exists_referencedTypes {file : FileDescriptorProto} {motive : Text → Prop} :
    (∃ reference ∈ referencedTypes file, motive reference.typeName) ↔
      ∃ message ∈ file.view.messages, ∃ field ∈ message.field,
        field.typeName ≠ [] ∧ motive field.typeName := by
  unfold referencedTypes
  constructor
  · intro ⟨reference, hreference, h⟩
    obtain ⟨item, hitem, hmem⟩ := List.mem_flatMap.mp hreference
    obtain ⟨field, hfield, rfl⟩ := List.mem_map.mp hmem
    obtain ⟨hfield, hne⟩ := List.mem_filter.mp hfield
    exact ⟨messageView item, mem_view_messages.mpr ⟨item, hitem, rfl⟩, field, hfield,
      of_decide_eq_true hne, h⟩
  · intro ⟨message, hmessage, field, hfield, hne, h⟩
    obtain ⟨item, hitem, rfl⟩ := mem_view_messages.mp hmessage
    exact ⟨⟨field.typeName, ['.'].intercalate (item.1 ++ [field.name])⟩,
      List.mem_flatMap.mpr ⟨item, hitem, List.mem_map.mpr
        ⟨field, List.mem_filter.mpr ⟨hfield, decide_eq_true hne⟩, rfl⟩⟩, h⟩

theorem mem_referencesOf {name : Text} {reference : TypeReference} :
    reference ∈ referencesOf files name ↔
      ∃ file ∈ files.items, file.name = name ∧ reference ∈ referencedTypes file := by
  unfold referencesOf
  constructor
  · intro h
    cases hfile : files.get? name with
    | none =>
      rw [hfile] at h
      exact absurd h List.not_mem_nil
    | some file =>
      rw [hfile] at h
      obtain ⟨hmem, hname⟩ := Files.get?_eq_some_iff.mp hfile
      exact ⟨file, hmem, hname, h⟩
  · intro ⟨file, hfile, hname, h⟩
    rw [Files.get?_eq_some_iff.mpr ⟨hfile, hname⟩]
    exact h

variable (htypes : (files.items.flatMap declaredTypeNames).Nodup)

include htypes

theorem refersTo_iff {a b : Text} :
    (schema files.items).RefersTo a b ↔ ∃ reference ∈ referencesOf files a,
      (indexDeclaredTypes files.items).get? (normalizeTypeName reference.typeName) = some b := by
  have htarget : ∀ typeName, (∃ target ∈ schema files.items, target.name = b ∧
      normalizeTypeName typeName ∈ target.declared) ↔
        (indexDeclaredTypes files.items).get? (normalizeTypeName typeName) = some b := by
    intro typeName
    rw [get?_indexDeclaredTypes, declaringFile_eq_some_iff htypes]
    exact exists_schema
  unfold Schema.RefersTo
  simp only [htarget]
  constructor
  · intro h
    obtain ⟨file, hfile, hname, hfields⟩ := exists_schema.mp h
    obtain ⟨reference, hreference, hb⟩ := (exists_referencedTypes (motive := fun typeName =>
      (indexDeclaredTypes files.items).get? (normalizeTypeName typeName) = some b)).mpr hfields
    exact ⟨reference, mem_referencesOf.mpr ⟨file, hfile, hname, hreference⟩, hb⟩
  · intro h
    obtain ⟨reference, hreference, hb⟩ := h
    obtain ⟨file, hfile, hname, hmem⟩ := mem_referencesOf.mp hreference
    have hfields := (exists_referencedTypes (motive := fun typeName =>
      (indexDeclaredTypes files.items).get? (normalizeTypeName typeName) = some b)).mp
        ⟨reference, hmem, hb⟩
    exact exists_schema.mpr ⟨file, hfile, hname, hfields⟩

end References

section Selecting

variable {files : Files} {typeFiles : Dictionary Text Text} {source : Text}
  {reference : TypeReference} {references : List TypeReference} {selection selection' : Selection}

/-- A reference of the list leads to a file. -/
def LeadsTo (typeFiles : Dictionary Text Text) (references : List TypeReference) (b : Text) : Prop :=
  ∃ reference ∈ references, typeFiles.get? (normalizeTypeName reference.typeName) = some b

/-- References add the files they lead to, each of which can have a header. -/
def Selects (files : Files) (typeFiles : Dictionary Text Text) (references : List TypeReference)
    (selection selection' : Selection) : Prop :=
  ∃ new, selection' = (new ++ selection.1, new ++ selection.2) ∧
    (selection.1.Nodup → (new ++ selection.1).Nodup) ∧
    (∀ b ∈ new, LeadsTo typeFiles references b ∧
      ∃ file ∈ files.items, file.name = b ∧ generatedHeaderBlocker file = none) ∧
    ∀ b ∈ files.names, LeadsTo typeFiles references b → b ∈ new ++ selection.1

/-- A reference leads to a file that is not selected and cannot have a header. -/
def MeetsBlocked (files : Files) (typeFiles : Dictionary Text Text)
    (references : List TypeReference) (selected : List Text) : Prop :=
  ∃ file ∈ files.items, LeadsTo typeFiles references file.name ∧ file.name ∉ selected ∧
    generatedHeaderBlocker file ≠ none

theorem LeadsTo.cons {b : Text} (h : LeadsTo typeFiles references b) :
    LeadsTo typeFiles (reference :: references) b := by
  obtain ⟨other, hother, hget⟩ := h
  exact ⟨other, List.mem_cons_of_mem _ hother, hget⟩

theorem leadsTo_cons {b : Text} : LeadsTo typeFiles (reference :: references) b ↔
    typeFiles.get? (normalizeTypeName reference.typeName) = some b ∨
      LeadsTo typeFiles references b := by
  unfold LeadsTo
  simp

/-- A reference that adds nothing. -/
theorem Selects.skip (h : Selects files typeFiles references selection selection')
    (hreference : ∀ b ∈ files.names,
      typeFiles.get? (normalizeTypeName reference.typeName) = some b → b ∈ selection.1) :
    Selects files typeFiles (reference :: references) selection selection' := by
  obtain ⟨new, heq, hnodup, hnew, hall⟩ := h
  refine ⟨new, heq, hnodup, fun b hb => ⟨(hnew b hb).1.cons, (hnew b hb).2⟩, ?_⟩
  intro b hb hleads
  rcases leadsTo_cons.mp hleads with hget | hleads
  · exact List.mem_append_right _ (hreference b hb hget)
  · exact hall b hb hleads

theorem Selects.add {file : FileDescriptorProto}
    (h : Selects files typeFiles references
      (file.name :: selection.1, file.name :: selection.2) selection')
    (hfile : file ∈ files.items) (hblocker : generatedHeaderBlocker file = none)
    (hnew : file.name ∉ selection.1)
    (hget : typeFiles.get? (normalizeTypeName reference.typeName) = some file.name) :
    Selects files typeFiles (reference :: references) selection selection' := by
  obtain ⟨new, heq, hnodup, hnews, hall⟩ := h
  refine ⟨new ++ [file.name], by simpa using heq, ?_, ?_, ?_⟩
  · intro hselection
    simpa using hnodup (List.nodup_cons.mpr ⟨hnew, hselection⟩)
  · intro b hb
    rcases List.mem_append.mp hb with hb | hb
    · exact ⟨(hnews b hb).1.cons, (hnews b hb).2⟩
    · rw [List.mem_singleton.mp hb]
      exact ⟨leadsTo_cons.mpr (.inl hget), file, hfile, rfl, hblocker⟩
  · intro b hb hleads
    rw [List.append_assoc, List.singleton_append]
    rcases leadsTo_cons.mp hleads with hb' | hleads
    · obtain rfl := Option.some.inj (hget.symm.trans hb')
      exact List.mem_append_right _ List.mem_cons_self
    · exact hall b hb hleads

theorem selectReferences_ok
    (h : selectReferences files typeFiles source references selection = .ok selection') :
    Selects files typeFiles references selection selection' := by
  induction references generalizing selection with
  | nil =>
    obtain rfl := Except.ok.inj h
    exact ⟨[], by simp [LeadsTo]⟩
  | cons reference references ih =>
    rw [selectReferences] at h
    split at h
    · next hnone =>
      exact (ih h).skip fun b _ hget => absurd (hnone.symm.trans hget) (by simp)
    · next referenced hsome =>
      split_ifs at h with hmem
      · rw [List.contains_iff_mem] at hmem
        apply (ih h).skip
        intro b _ hget
        rwa [Option.some.inj (hsome.symm.trans hget)] at hmem
      · rw [List.contains_iff_mem] at hmem
        split at h
        · next hnone =>
          apply (ih h).skip
          intro b hb hget
          obtain rfl := Option.some.inj (hsome.symm.trans hget)
          obtain ⟨file, hfile, hname⟩ := List.mem_map.mp hb
          rw [Files.get?_eq_some_iff.mpr ⟨hfile, hname⟩] at hnone
          exact absurd hnone (by simp)
        · next file hfile =>
          obtain ⟨hitem, rfl⟩ := Files.get?_eq_some_iff.mp hfile
          split at h
          · exact absurd h (by simp)
          · next hblocker => exact (ih h).add hitem hblocker hmem hsome

theorem selectReferences_error {error : DiscoveryError}
    (h : selectReferences files typeFiles source references selection = .error error) :
    MeetsBlocked files typeFiles references selection.1 := by
  induction references generalizing selection with
  | nil => exact absurd h (by simp [selectReferences])
  | cons reference references ih =>
    have hskip : ∀ selection' : Selection, (∀ name ∈ selection.1, name ∈ selection'.1) →
        MeetsBlocked files typeFiles references selection'.1 →
          MeetsBlocked files typeFiles (reference :: references) selection.1 := by
      intro selection' hsub hblocked
      obtain ⟨file, hfile, hleads, hnew, hblocker⟩ := hblocked
      exact ⟨file, hfile, hleads.cons, fun hmem => hnew (hsub _ hmem), hblocker⟩
    rw [selectReferences] at h
    split at h
    · exact hskip selection (fun _ hmem => hmem) (ih h)
    · next referenced hsome =>
      split_ifs at h with hmem
      · exact hskip selection (fun _ hmem => hmem) (ih h)
      · rw [List.contains_iff_mem] at hmem
        split at h
        · exact hskip selection (fun _ hmem => hmem) (ih h)
        · next file hfile =>
          obtain ⟨hitem, rfl⟩ := Files.get?_eq_some_iff.mp hfile
          split at h
          · next blocker hblocker =>
            exact ⟨file, hitem, leadsTo_cons.mpr (.inl hsome), hmem, by simp [hblocker]⟩
          · exact hskip _ (fun _ hmem => List.mem_cons_of_mem _ hmem) (ih h)

end Selecting

section Following

variable {files : Files}

theorem followReferences_cons (typeFiles : Dictionary Text Text) (name : Text)
    (stack selected : List Text) :
    followReferences files typeFiles (name :: stack) selected =
      match selectReferences files typeFiles name (referencesOf files name) (selected, stack) with
      | .error error => .error error
      | .ok selection => followReferences files typeFiles selection.2 selection.1 := by
  rw [followReferences]
  split <;> next hselect => rw [hselect]

/-- What the loop over the stack returns or raises. -/
structure Follows (files : Files) (start : Text → Prop) (selected : List Text)
    (result : Except DiscoveryError (List Text)) : Prop where
  nodup : ∀ names, result = .ok names → selected.Nodup → names.Nodup
  reached : ∀ names, result = .ok names →
    ∀ name, name ∈ names ↔ Reached start (schema files.items).RefersTo name
  headers : ∀ names, result = .ok names → ∀ name ∈ names, name ∈ selected ∨
    ∃ file ∈ files.items, file.name = name ∧ generatedHeaderBlocker file = none
  blocked : ∀ error, result = .error error → ∃ file ∈ files.items,
    Reached start (schema files.items).RefersTo file.name ∧ file.name ∉ selected ∧
      generatedHeaderBlocker file ≠ none

theorem followReferences_spec (htypes : (files.items.flatMap declaredTypeNames).Nodup)
    {start : Text → Prop} (visited : List Text) {stack selected : List Text}
    (hselected : ∀ name, name ∈ selected ↔ name ∈ visited ++ stack)
    (h : Frontier start (schema files.items).RefersTo (fun a b => a = b) visited stack) :
    Follows files start selected
      (followReferences files (indexDeclaredTypes files.items) stack selected) := by
  induction stack, selected using
    followReferences.induct files (indexDeclaredTypes files.items) generalizing visited with
  | case1 selected =>
    rw [followReferences]
    refine ⟨?_, ?_, ?_, by simp⟩
    · intro names hnames hnodup
      rwa [← Except.ok.inj hnames]
    · intro names hnames name
      rw [← Except.ok.inj hnames, hselected, List.append_nil]
      exact h.mem_iff name
    · intro names hnames name hname
      rw [← Except.ok.inj hnames] at hname
      exact .inl hname
  | case2 selected name stack error herror =>
    rw [followReferences_cons, herror]
    refine ⟨by simp, by simp, by simp, fun _ _ => ?_⟩
    obtain ⟨file, hfile, ⟨reference, hreference, hget⟩, hnew, hblocker⟩ :=
      selectReferences_error herror
    have htop : Reached start (schema files.items).RefersTo name := h.sound name (by simp)
    exact ⟨file, hfile, htop.step ((refersTo_iff htypes).mpr ⟨reference, hreference, hget⟩), hnew,
      hblocker⟩
  | case3 selected name stack selection hselect ih =>
    rw [followReferences_cons, hselect]
    obtain ⟨new, rfl, hnodup, hnew, hall⟩ := selectReferences_ok hselect
    dsimp only at ih hnodup hall ⊢
    have hmem : ∀ b, b ∈ new ++ selected ↔ b ∈ name :: visited ++ (new ++ stack) := by
      intro b
      simp only [List.mem_append, List.mem_cons, hselected]
      tauto
    have hfollows : Follows files start (new ++ selected)
        (followReferences files (indexDeclaredTypes files.items) (new ++ stack)
          (new ++ selected)) := by
      apply ih _ hmem
      apply h.visit new
      · intro b hb
        obtain ⟨⟨reference, hreference, hget⟩, -⟩ := hnew b hb
        exact (refersTo_iff htypes).mpr ⟨reference, hreference, hget⟩
      · exact fun b => List.mem_append
      · intro b hb
        have hname : b ∈ files.names := by
          obtain ⟨source, hsource, hsourceName, message, hmessage, field, hfield, hne, target,
            htarget, hb, hdeclared⟩ := hb
          obtain ⟨file, hfile, rfl⟩ := mem_schema.mp htarget
          exact hb ▸ List.mem_map_of_mem hfile
        exact ⟨b, (hmem b).mp (hall b hname ((refersTo_iff htypes).mp hb)), rfl⟩
    refine ⟨fun names hnames hselected => hfollows.nodup names hnames (hnodup hselected),
      hfollows.reached, ?_, ?_⟩
    · intro names hnames b hb
      rcases hfollows.headers names hnames b hb with hb | hfile
      · rcases List.mem_append.mp hb with hb | hb
        · exact .inr (hnew b hb).2
        · exact .inl hb
      · exact .inr hfile
    · intro error herror
      obtain ⟨file, hfile, hreached, hnotMem, hblocker⟩ := hfollows.blocked error herror
      exact ⟨file, hfile, hreached, fun hb => hnotMem (List.mem_append_right _ hb), hblocker⟩

end Following

section Imports

variable {files : Files}

theorem imports_iff {a b : Text} :
    (schema files.items).Imports a b ↔ b ∈ dependenciesOf files a := by
  unfold Schema.Imports dependenciesOf
  constructor
  · intro h
    obtain ⟨file, hfile, hname, hb⟩ := exists_schema.mp h
    rw [Files.get?_eq_some_iff.mpr ⟨hfile, hname⟩]
    exact hb
  · intro h
    cases hfile : files.get? a with
    | none =>
      rw [hfile] at h
      exact absurd h List.not_mem_nil
    | some file =>
      rw [hfile] at h
      obtain ⟨hmem, hname⟩ := Files.get?_eq_some_iff.mp hfile
      exact exists_schema.mpr ⟨file, hmem, hname, h⟩

/-- An import with a sound name that is there. -/
def Importable (files : Files) (dependency : Text) : Prop :=
  Paths.validateVirtualFileName dependency = .ok () ∧ files.get? dependency ≠ none

theorem checkDependencies_ok_iff {name : Text} {dependencies : List Text} :
    checkDependencies files name dependencies = .ok () ↔
      ∀ dependency ∈ dependencies, Importable files dependency := by
  induction dependencies with
  | nil => simp [checkDependencies]
  | cons dependency dependencies ih =>
    rw [checkDependencies, List.forall_mem_cons, ← ih, Importable]
    split
    · next error herror => simp [herror]
    · next hvalid =>
      split_ifs with hmissing
      · simp [hmissing]
      · simp [hvalid, hmissing]

theorem walkImports_ok_iff {start : Text → Prop} {stack seen : List Text}
    (h : Frontier start (schema files.items).Imports (fun a b => a = b) seen stack)
    (hchecked : ∀ a ∈ seen, ∀ b ∈ dependenciesOf files a, Importable files b) :
    walkImports files stack seen = .ok () ↔
      ∀ a, Reached start (schema files.items).Imports a →
        ∀ b ∈ dependenciesOf files a, Importable files b := by
  induction stack, seen using walkImports.induct files with
  | case1 seen =>
    rw [walkImports]
    refine iff_of_true rfl ?_
    intro a ha
    exact hchecked a ((h.mem_iff a).mpr ha)
  | case2 seen name stack hseen ih =>
    rw [walkImports, dif_pos hseen]
    exact ih (h.skip hseen) hchecked
  | case3 seen name stack hseen error herror =>
    rw [walkImports, dif_neg hseen, herror]
    refine iff_of_false (by simp) ?_
    intro hall
    have hok : checkDependencies files name (dependenciesOf files name) = .ok () :=
      checkDependencies_ok_iff.mpr (hall name (h.sound name (by simp)))
    exact absurd (herror.symm.trans hok) (by simp)
  | case4 seen name stack hseen hok ih =>
    rw [walkImports, dif_neg hseen, hok]
    apply ih
    · apply h.visit (dependenciesOf files name).reverse
      · exact fun b hb => imports_iff.mpr (List.mem_reverse.mp hb)
      · exact fun b => List.mem_append
      · intro b hb
        refine ⟨b, List.mem_append_right _ (List.mem_append_left _ ?_), rfl⟩
        exact List.mem_reverse.mpr (imports_iff.mp hb)
    · exact List.forall_mem_cons.mpr ⟨checkDependencies_ok_iff.mp hok, hchecked⟩

/-- Imports of one file are added to the predecessors and the queue. -/
theorem addImports_spec (name : Text) (dependencies : List Text) (search : ImportSearch) :
    ∃ new, (dependencies.foldl (addImport files name) search).2 = search.2 ++ new ∧
      (∀ b, b ∈ (dependencies.foldl (addImport files name) search).1.keys ↔
        b ∈ new ∨ b ∈ search.1.keys) ∧
      (∀ b ∈ new, b ∈ dependencies) ∧
      ∀ b ∈ dependencies, files.get? b ≠ none → b ∈ new ∨ b ∈ search.1.keys := by
  induction dependencies generalizing search with
  | nil => exact ⟨[], by simp⟩
  | cons dependency dependencies ih =>
    obtain ⟨new, hqueue, hkeys, hnew, hall⟩ := ih (addImport files name search dependency)
    rw [List.foldl_cons]
    have hstep : addImport files name search dependency =
      if files.get? dependency = none || search.1.keys.contains dependency then search
      else (search.1.set dependency (some name), search.2 ++ [dependency]) := rfl
    split_ifs at hstep with hskip
    · rw [hstep] at hqueue hkeys hall
      rw [Bool.or_eq_true, decide_eq_true_eq, List.contains_iff_mem] at hskip
      rw [hstep]
      refine ⟨new, hqueue, hkeys, fun b hb => List.mem_cons_of_mem _ (hnew b hb), ?_⟩
      intro b hb hfound
      rcases List.mem_cons.mp hb with rfl | hb
      · exact .inr (hskip.resolve_left hfound)
      · exact hall b hb hfound
    · rw [hstep] at hqueue hkeys hall
      refine ⟨dependency :: new, ?_, ?_, ?_, ?_⟩
      · rw [hstep, hqueue, List.append_assoc, List.singleton_append]
      · intro b
        rw [hstep, hkeys, Dictionary.mem_keys_set, List.mem_cons]
        tauto
      · intro b hb
        rcases List.mem_cons.mp hb with rfl | hb
        · exact List.mem_cons_self
        · exact List.mem_cons_of_mem _ (hnew b hb)
      · intro b hb hfound
        rcases List.mem_cons.mp hb with rfl | hb
        · exact .inl List.mem_cons_self
        · have hcases := hall b hb hfound
          rw [Dictionary.mem_keys_set] at hcases
          rw [List.mem_cons]
          tauto

/-- When no import is missing, the search finds the files that are imported. -/
theorem mem_searchImports {start : Text → Prop} (visited : List Text) {queue : List Text}
    {predecessors : Dictionary Text (Option Text)}
    (hkeys : ∀ name, name ∈ predecessors.keys ↔ name ∈ visited ++ queue)
    (h : Frontier start (schema files.items).Imports (fun a b => a = b) visited queue)
    (himportable : ∀ a, Reached start (schema files.items).Imports a →
      ∀ b ∈ dependenciesOf files a, Importable files b) (name : Text) :
    name ∈ (searchImports files queue predecessors).keys ↔
      Reached start (schema files.items).Imports name := by
  induction queue, predecessors using searchImports.induct files generalizing visited with
  | case1 predecessors =>
    rw [searchImports, hkeys, List.append_nil]
    exact h.mem_iff name
  | case2 predecessors current queue ih =>
    rw [searchImports]
    obtain ⟨new, hqueue, hsearch, hnew, hall⟩ :=
      @addImports_spec files current (dependenciesOf files current) (predecessors, queue)
    have hmem : ∀ b, b ∈ ((dependenciesOf files current).foldl (addImport files current)
        (predecessors, queue)).1.keys ↔ b ∈ current :: visited ++
          ((dependenciesOf files current).foldl (addImport files current)
            (predecessors, queue)).2 := by
      intro b
      rw [hsearch, hqueue]
      dsimp only
      rw [hkeys]
      simp only [List.mem_append, List.mem_cons]
      tauto
    apply ih _ hmem
    apply h.visit new
    · exact fun b hb => imports_iff.mpr (hnew b hb)
    · intro b
      rw [hqueue, List.mem_append]
      exact or_comm
    · intro b hb
      have hdependency := imports_iff.mp hb
      have hfound := (himportable current (h.sound current (by simp)) b hdependency).2
      exact ⟨b, (hmem b).mp ((hsearch b).mpr (hall b hdependency hfound)), rfl⟩

theorem mem_keys_roots {roots : List Text} (name : Text) :
    name ∈ (roots.foldl (fun predecessors name => predecessors.set name none)
      (Dictionary.empty : Dictionary Text (Option Text))).keys ↔ name ∈ roots := by
  induction roots using List.reverseRecOn with
  | nil => simp [Dictionary.empty, Dictionary.keys]
  | append_singleton roots root ih =>
    rw [List.foldl_append, List.foldl_cons, List.foldl_nil, Dictionary.mem_keys_set, ih]
    simp [or_comm]

theorem mem_importClosurePredecessors {roots : List Text}
    (himportable : ∀ a, Reached (· ∈ roots) (schema files.items).Imports a →
      ∀ b ∈ dependenciesOf files a, Importable files b) (name : Text) :
    name ∈ (importClosurePredecessors files roots).keys ↔
      Reached (· ∈ roots) (schema files.items).Imports name := by
  unfold importClosurePredecessors
  apply mem_searchImports [] (by simp)
  · apply Frontier.initial fun _ => rfl
    exact mem_keys_roots
  · exact himportable

/-- Predecessors that are imported by files met before them, up to the roots. -/
structure Linked (files : Files) (roots : List Text)
    (predecessors : Dictionary Text (Option Text)) : Prop where
  root : ∀ name, predecessors.get? name = some none → name ∈ roots
  parent : ∀ name parent, predecessors.get? name = some (some parent) →
    name ∈ dependenciesOf files parent ∧
      predecessors.keys.idxOf parent < predecessors.keys.idxOf name

section Chains

variable {roots : List Text} {name : Text} {predecessors : Dictionary Text (Option Text)}

theorem Linked.set (h : Linked files roots predecessors) {dependency : Text}
    (hname : name ∈ predecessors.keys) (hnew : dependency ∉ predecessors.keys)
    (himports : dependency ∈ dependenciesOf files name) :
    Linked files roots (predecessors.set dependency (some name)) where
  root other hother := by
    rw [Dictionary.get?_set] at hother
    split_ifs at hother with heq
    · cases hother
    · exact h.root other hother
  parent other parent hother := by
    rw [Dictionary.keys_set_of_notMem hnew]
    rw [Dictionary.get?_set] at hother
    split_ifs at hother with heq
    · cases hother
      rw [heq, List.idxOf_append_of_mem hname, List.idxOf_append_of_notMem hnew]
      have hlt := List.idxOf_lt_length_of_mem hname
      exact ⟨himports, by omega⟩
    · obtain ⟨hdependency, hlt⟩ := h.parent other parent hother
      have hmem : other ∈ predecessors.keys := Dictionary.mem_keys_of_get? hother
      have hlength := List.idxOf_lt_length_of_mem hmem
      have hparent : parent ∈ predecessors.keys :=
        List.idxOf_lt_length_iff.mp (hlt.trans hlength)
      rw [List.idxOf_append_of_mem hmem, List.idxOf_append_of_mem hparent]
      exact ⟨hdependency, hlt⟩

theorem Linked.addImports {dependencies : List Text} (search : ImportSearch)
    (h : Linked files roots search.1) (hname : name ∈ search.1.keys)
    (himports : ∀ b ∈ dependencies, b ∈ dependenciesOf files name) :
    Linked files roots (dependencies.foldl (addImport files name) search).1 := by
  induction dependencies generalizing search with
  | nil => exact h
  | cons dependency dependencies ih =>
    obtain ⟨hfirst, hrest⟩ := List.forall_mem_cons.mp himports
    rw [List.foldl_cons]
    have hstep : addImport files name search dependency =
      if files.get? dependency = none || search.1.keys.contains dependency then search
      else (search.1.set dependency (some name), search.2 ++ [dependency]) := rfl
    split_ifs at hstep with hskip
    · rw [hstep]
      exact ih search h hname hrest
    · rw [hstep]
      rw [Bool.or_eq_true, not_or, List.contains_iff_mem] at hskip
      exact ih _ (h.set hname hskip.2 hfirst) (Dictionary.mem_keys_set.mpr (.inr hname)) hrest

theorem Linked.searchImports {queue : List Text} (h : Linked files roots predecessors)
    (hqueue : ∀ name ∈ queue, name ∈ predecessors.keys) :
    Linked files roots (searchImports files queue predecessors) := by
  induction queue, predecessors using searchImports.induct files with
  | case1 predecessors =>
    rw [Descriptors.searchImports]
    exact h
  | case2 predecessors current queue ih =>
    obtain ⟨hcurrent, hrest⟩ := List.forall_mem_cons.mp hqueue
    obtain ⟨new, hnew, hkeys, _⟩ :=
      @addImports_spec files current (dependenciesOf files current) (predecessors, queue)
    rw [Descriptors.searchImports]
    refine ih (Linked.addImports (predecessors, queue) h hcurrent fun _ hb => hb) ?_
    intro b hb
    rw [hnew] at hb
    rw [hkeys]
    rcases List.mem_append.mp hb with hb | hb
    · exact .inr (hrest b hb)
    · exact .inl hb

/-- The chain from a file ends at a root, each file being imported by the one after it. -/
theorem Linked.importChain (h : Linked files roots predecessors) {fuel : ℕ}
    (hname : name ∈ predecessors.keys) (hfuel : predecessors.keys.idxOf name < fuel) :
    (importChain predecessors fuel name).head? = some name ∧
      (∃ root ∈ roots, (importChain predecessors fuel name).getLast? = some root) ∧
      (importChain predecessors fuel name).IsChain fun a b => a ∈ dependenciesOf files b := by
  induction fuel generalizing name with
  | zero => exact absurd hfuel (Nat.not_lt_zero _)
  | succ fuel ih =>
    obtain ⟨link, hlink⟩ := Dictionary.mem_keys_iff.mp hname
    cases link with
    | none =>
      have hchain : Descriptors.importChain predecessors (fuel + 1) name = [name] := by
        rw [Descriptors.importChain, hlink]
      rw [hchain]
      exact ⟨rfl, ⟨name, h.root name hlink, rfl⟩, List.isChain_singleton _⟩
    | some parent =>
      obtain ⟨himports, hlt⟩ := h.parent name parent hlink
      have hlength := List.idxOf_lt_length_of_mem hname
      have hparent : parent ∈ predecessors.keys :=
        List.idxOf_lt_length_iff.mp (hlt.trans hlength)
      obtain ⟨hhead, ⟨root, hroot, hlast⟩, hlinked⟩ := ih hparent (by omega)
      have hchain : Descriptors.importChain predecessors (fuel + 1) name =
          name :: Descriptors.importChain predecessors fuel parent := by
        rw [Descriptors.importChain, hlink]
      rw [hchain]
      refine ⟨rfl, ⟨root, hroot, ?_⟩, ?_⟩
      · rw [List.getLast?_cons, hlast, Option.getD_some]
      · rw [List.isChain_cons, hhead]
        exact ⟨fun b hb => by cases hb; exact himports, hlinked⟩

theorem linked_roots : Linked files roots (roots.foldl (fun predecessors name =>
    predecessors.set name none) Dictionary.empty) := by
  have hnone : ∀ name parent, (roots.foldl (fun predecessors name => predecessors.set name none)
      (Dictionary.empty : Dictionary Text (Option Text))).get? name ≠ some (some parent) := by
    intro name parent
    induction roots using List.reverseRecOn with
    | nil => simp
    | append_singleton roots root ih =>
      rw [List.foldl_append, List.foldl_cons, List.foldl_nil, Dictionary.get?_set]
      split_ifs
      · simp
      · exact ih
  exact ⟨fun name hname => (mem_keys_roots name).mp (Dictionary.mem_keys_of_get? hname),
    fun name parent hname => absurd hname (hnone name parent)⟩

/-- The fuel given for a chain lasts to a root. -/
theorem importChain_closure (hname : name ∈ (importClosurePredecessors files roots).keys) :
    (∃ root ∈ roots, (importChain (importClosurePredecessors files roots)
      (importClosurePredecessors files roots).keys.length name).getLast? = some root) ∧
      (importChain (importClosurePredecessors files roots)
        (importClosurePredecessors files roots).keys.length name).IsChain
          fun a b => a ∈ dependenciesOf files b := by
  have hlinked : Linked files roots (importClosurePredecessors files roots) :=
    linked_roots.searchImports fun _ h => h
  exact (hlinked.importChain hname (List.idxOf_lt_length_of_mem hname)).2

end Chains

end Imports

section Capabilities

variable {files : Files}

theorem refers_iff (htypes : (files.items.flatMap declaredTypeNames).Nodup) {a b : Text} :
    Refers files a b ↔ (schema files.items).RefersTo a b ∧ a ≠ b := by
  rw [refersTo_iff htypes]
  simp only [get?_indexDeclaredTypes]
  constructor
  · rintro ⟨edge, ⟨⟨file, hfile, hname, hreference⟩, htarget, hcross⟩, rfl, rfl⟩
    exact ⟨⟨edge.reference, mem_referencesOf.mpr ⟨file, hfile, hname, hreference⟩, htarget⟩,
      hcross.symm⟩
  · rintro ⟨⟨reference, hreference, htarget⟩, hne⟩
    obtain ⟨file, hfile, hname, hmem⟩ := mem_referencesOf.mp hreference
    exact ⟨⟨a, b, reference⟩, ⟨⟨file, hfile, hname, hmem⟩, htarget, hne.symm⟩, rfl, rfl⟩

theorem fileError_eq_none_iff {name : Text} {blocker : FileDescriptorProto → Option Blocker}
    {error : Blocker → DiscoveryError} :
    ((files.get? name).bind blocker).map error = none ↔
      ∀ file ∈ files.items, file.name = name → blocker file = none := by
  rw [Option.map_eq_none_iff, Option.bind_eq_none_iff]
  constructor
  · intro h file hfile hname
    exact h file (Files.get?_eq_some_iff.mpr ⟨hfile, hname⟩)
  · intro h file hget
    obtain ⟨hfile, hname⟩ := Files.get?_eq_some_iff.mp hget
    exact h file hfile hname

/-- The last checks pass for files closed under references when nothing keeps a file they use from
its header. -/
theorem validateGenerationCapabilities_eq_none_iff
    (htypes : (files.items.flatMap declaredTypeNames).Nodup) {selected : List Text}
    (hfiles : ∀ name ∈ selected, ∃ file ∈ files.items, file.name = name)
    (hclosed : ∀ a ∈ selected, ∀ b, (schema files.items).RefersTo a b → b ∈ selected)
    (himportable : ∀ a, Reached (· ∈ selected) (schema files.items).Imports a →
      ∀ b ∈ dependenciesOf files a, Importable files b) :
    validateGenerationCapabilities files selected = none ↔
      (∀ file ∈ files.items, file.name ∈ selected → ¬file.view.Blocked) ∧
      (∀ file ∈ files.items, Reached (· ∈ selected) (schema files.items).Imports file.name →
        file.name ∉ selected → ¬file.view.Unsupported False) ∧
      ¬∃ root ∈ selected, ∃ a, ReflTransGen (Refers files) root a ∧ TransGen (Refers files) a a := by
  have hreferences : selected.findSome?
      (referenceError files selected (indexDeclaredTypes files.items)) = none := by
    rw [List.findSome?_eq_none_iff]
    intro name hname
    unfold referenceError
    rw [List.findSome?_eq_none_iff]
    intro reference hreference
    split
    · rfl
    · next referenced hget =>
      have hmem := hclosed name hname referenced
        ((refersTo_iff htypes).mpr ⟨reference, hreference, hget⟩)
      rw [if_pos hmem]
  have htargets : (selected.findSome? (targetError files) = none ∧
      selected.findSome? reservedError = none) ↔
        ∀ file ∈ files.items, file.name ∈ selected → ¬file.view.Blocked := by
    rw [List.findSome?_eq_none_iff, List.findSome?_eq_none_iff]
    unfold targetError reservedError
    simp only [fileError_eq_none_iff, FileView.Blocked, not_or]
    constructor
    · intro ⟨hcapability, hinternal⟩ file hfile hname
      constructor
      · intro hreserved
        have hnone := hinternal file.name hname
        have hcontains : internalDescriptorFiles.contains file.name = true :=
          List.contains_iff_mem.mpr hreserved
        rw [if_pos hcontains] at hnone
        exact absurd hnone (Option.some_ne_none _)
      · intro hunsupported
        exact descriptorCapabilityBlocker_ne_none.mpr (by simpa using hunsupported)
          (hcapability file.name hname file hfile rfl)
    · intro hblocked
      constructor
      · intro name hname file hfile heq
        by_contra hne
        have hunsupported := descriptorCapabilityBlocker_ne_none.mp hne
        exact (hblocked file hfile (heq ▸ hname)).2 (by simpa using hunsupported)
      · intro name hname
        obtain ⟨file, hfile, rfl⟩ := hfiles name hname
        have hcontains : ¬internalDescriptorFiles.contains file.name = true :=
          fun h => (hblocked file hfile hname).1 (List.contains_iff_mem.mp h)
        rw [if_neg hcontains]
  have himports : ((importClosurePredecessors files selected).keys.findSome?
      (importError files selected (importClosurePredecessors files selected)) = none) ↔
        ∀ file ∈ files.items, Reached (· ∈ selected) (schema files.items).Imports file.name →
          file.name ∉ selected → ¬file.view.Unsupported False := by
    rw [List.findSome?_eq_none_iff]
    simp only [mem_importClosurePredecessors himportable]
    unfold importError
    constructor
    · intro h file hfile hreached hname hunsupported
      have hnone := h file.name hreached
      rw [if_neg hname, fileError_eq_none_iff] at hnone
      exact descriptorCapabilityBlocker_ne_none.mpr (by simpa using hunsupported)
        (hnone file hfile rfl)
    · intro h name hreached
      split_ifs with hname
      · rfl
      · rw [fileError_eq_none_iff]
        rintro file hfile rfl
        by_contra hne
        have hunsupported := descriptorCapabilityBlocker_ne_none.mp hne
        exact h file hfile hreached hname (by simpa using hunsupported)
  have hcycles : (validateNoCrossFileTypeCycles files selected).2 = none ↔
      ¬∃ root ∈ selected, ∃ a, ReflTransGen (Refers files) root a ∧ TransGen (Refers files) a a := by
    rw [← (validateNoCrossFileTypeCycles_correct files selected).1, not_not]
  rw [← htargets, ← himports, ← hcycles]
  unfold validateGenerationCapabilities
  simp only [Option.orElse_eq_orElse, Option.orElse_eq_or, Option.or_eq_none_iff, hreferences,
    Option.map_eq_none_iff]
  tauto

end Capabilities

section Discover

variable {descriptorSet : List FileDescriptorProto} {files : Files}

theorem mem_initialTargets (order : SetOrder)
    (htypes : (files.items.flatMap declaredTypeNames).Nodup) {name : Text} :
    name ∈ initialTargets order files ↔ (schema files.items).InitialTarget name := by
  have hfile : ∀ file ∈ files.items, (!runtimePrefix.isPrefixOf file.name &&
      isInitialDiscoverableTarget order file) = true ↔
        ¬runtimePrefix <+: file.name ∧ file.view.InitiallyDiscoverable := by
    intro file hmem
    rw [Bool.and_eq_true, Bool.not_eq_true', ← Bool.not_eq_true, List.isPrefixOf_iff_prefix,
      isInitialDiscoverableTarget_iff order ((List.nodup_flatMap.mp htypes).1 file hmem)]
  unfold initialTargets Schema.InitialTarget
  rw [List.mem_map, exists_schema]
  constructor
  · intro ⟨file, hmem, hname⟩
    obtain ⟨hmem, htarget⟩ := List.mem_filter.mp hmem
    obtain ⟨hleading, hinitial⟩ := (hfile file hmem).mp htarget
    exact ⟨file, hmem, hname, hname ▸ hleading, hinitial⟩
  · rintro ⟨file, hmem, rfl, hleading, hinitial⟩
    exact ⟨file, List.mem_filter.mpr ⟨hmem, (hfile file hmem).mpr ⟨hleading, hinitial⟩⟩, rfl⟩

theorem mem_sortedNames {names : List Text} {name : Text} :
    name ∈ sortedNames names ↔ name ∈ names :=
  (List.perm_insertionSort _ _).mem_iff

theorem sortedNames_pairwise {names : List Text} (h : names.Nodup) :
    (sortedNames names).Pairwise (· < ·) := by
  have hsorted : (sortedNames names).Pairwise (· ≤ ·) := List.pairwise_insertionSort _ names
  have hnodup : (sortedNames names).Nodup := (List.perm_insertionSort _ _).nodup_iff.mpr h
  exact (hsorted.and hnodup).imp fun hle => lt_of_le_of_ne hle.1 hle.2

theorem initialTargets_nodup (order : SetOrder) (files : Files) :
    (initialTargets order files).Nodup :=
  files.distinct.sublist (List.filter_sublist.map FileDescriptorProto.name)

theorem file_of_selected {items : List FileDescriptorProto} {name : Text}
    (h : (schema items).Selected name) : ∃ file ∈ items, file.name = name := by
  apply h.induct
  · intro a ha
    obtain ⟨file, hfile, hname, -⟩ := exists_schema.mp ha
    exact ⟨file, hfile, hname⟩
  · intro a b _ hrefers _
    obtain ⟨source, hsource, hname, message, hmessage, field, hfield, hne, htarget⟩ := hrefers
    obtain ⟨file, hfile, hname, -⟩ := exists_schema.mp htarget
    exact ⟨file, hfile, hname⟩

/-- What the discovery selects first. -/
theorem initial_follows (order : SetOrder)
    (htypes : (files.items.flatMap declaredTypeNames).Nodup) :
    Follows files (schema files.items).InitialTarget (initialTargets order files)
      (followReferences files (indexDeclaredTypes files.items)
        (sortedNames (initialTargets order files)) (initialTargets order files)) := by
  apply followReferences_spec htypes []
  · intro name
    rw [List.nil_append, mem_sortedNames]
  · apply Frontier.initial fun _ => rfl
    intro name
    rw [mem_sortedNames, mem_initialTargets order htypes]

/-- The checks on the files selected. -/
theorem checks_ok_iff (htypes : (files.items.flatMap declaredTypeNames).Nodup)
    (hnamed : ∀ file ∈ files.items, Paths.validateVirtualFileName file.name = .ok ())
    {selected : List Text}
    (hselected : ∀ name, name ∈ selected ↔ (schema files.items).Selected name) :
    (validateImportGraph files selected = .ok () ∧
      validateGenerationCapabilities files selected = none) ↔
        (schema files.items).Discoverable := by
  have hstart : (fun name => name ∈ selected) = (schema files.items).Selected :=
    funext fun name => propext (hselected name)
  have hrefers : Refers files =
      fun a b => (schema files.items).RefersTo a b ∧ a ≠ b := by
    funext a b
    exact propext (refers_iff htypes)
  have hwalk : validateImportGraph files selected = .ok () ↔
      ∀ a, (schema files.items).Imported a → ∀ b ∈ dependenciesOf files a, Importable files b := by
    apply walkImports_ok_iff _ (by simp)
    apply Frontier.initial fun _ => rfl
    intro name
    rw [List.mem_reverse, hselected]
  have hcapabilities := fun himportable => validateGenerationCapabilities_eq_none_iff htypes
    (fun name hname => file_of_selected ((hselected name).mp hname))
    (fun a ha b hedge => (hselected b).mpr (((hselected a).mp ha).step hedge)) himportable
  rw [hstart, hrefers] at hcapabilities
  constructor
  · intro ⟨hgraph, hnone⟩
    have himportable := hwalk.mp hgraph
    obtain ⟨hblocked, hsupported, hcycles⟩ := (hcapabilities himportable).mp hnone
    refine ⟨?_, ?_, ?_, ?_, ?_⟩
    · intro view hview
      obtain ⟨file, hfile, rfl⟩ := mem_schema.mp hview
      exact hnamed file hfile
    · intro view hview hname
      obtain ⟨file, hfile, rfl⟩ := mem_schema.mp hview
      exact hblocked file hfile ((hselected _).mpr hname)
    · intro a b ha hedge
      exact exists_schema.mpr
        (Files.get?_ne_none_iff.mp (himportable a ha b (imports_iff.mp hedge)).2)
    · intro view hview himported hname
      obtain ⟨file, hfile, rfl⟩ := mem_schema.mp hview
      exact hsupported file hfile himported fun hmem => hname ((hselected _).mp hmem)
    · intro a b ha hpath hcycle
      exact hcycles ⟨a, (hselected a).mpr ha, b, hpath, hcycle⟩
  · intro h
    have himportable : ∀ a, (schema files.items).Imported a →
        ∀ b ∈ dependenciesOf files a, Importable files b := by
      intro a ha b hb
      obtain ⟨file, hfile, rfl⟩ := exists_schema.mp (h.imported a b ha (imports_iff.mpr hb))
      exact ⟨hnamed file hfile, Files.get?_ne_none_iff.mpr ⟨file, hfile, rfl⟩⟩
    refine ⟨hwalk.mpr himportable, (hcapabilities himportable).mpr ⟨?_, ?_, ?_⟩⟩
    · intro file hfile hname
      exact h.generated file.view (mem_schema.mpr ⟨file, hfile, rfl⟩) ((hselected _).mp hname)
    · intro file hfile himported hname
      exact h.supported file.view (mem_schema.mpr ⟨file, hfile, rfl⟩) himported
        fun hmem => hname ((hselected _).mpr hmem)
    · intro ⟨root, hroot, a, hpath, hcycle⟩
      exact h.acyclic root a ((hselected root).mp hroot) hpath hcycle

theorem indexFiles_ok {descriptorSet : List FileDescriptorProto}
    (h : indexFiles descriptorSet = .ok files) : files.items = descriptorSet ∧
      ∀ file ∈ descriptorSet, Paths.validateVirtualFileName file.name = .ok () :=
  (indexFiles_spec descriptorSet ⟨[], List.nodup_nil⟩).1 files h

theorem discoverFiles_eq_ok {order : SetOrder} {selected : List Text} :
    discoverFiles order descriptorSet = .ok selected ↔
      ∃ files, indexFiles descriptorSet = .ok files ∧
        ∃ names, followReferences files (indexDeclaredTypes files.items)
            (sortedNames (initialTargets order files)) (initialTargets order files) = .ok names ∧
          (validateImportGraph files (sortedNames names) = .ok () ∧
            validateGenerationCapabilities files (sortedNames names) = none) ∧
          selected = sortedNames names := by
  have hlast : ∀ names (error : Option DiscoveryError),
      error.elim (.ok (sortedNames names)) .error = (.ok selected : Except _ _) ↔
        error = none ∧ selected = sortedNames names := by
    intro names error
    cases error with
    | none => simp [eq_comm]
    | some error => simp
  unfold discoverFiles
  simp only [Computation.except_bind_eq_ok, hlast]
  constructor
  · rintro ⟨files, hindex, names, hfollow, ⟨⟩, hgraph, hnone, rfl⟩
    exact ⟨files, hindex, names, hfollow, ⟨hgraph, hnone⟩, rfl⟩
  · rintro ⟨files, hindex, names, hfollow, ⟨hgraph, hnone⟩, rfl⟩
    exact ⟨files, hindex, names, hfollow, ⟨⟩, hgraph, hnone, rfl⟩

theorem discoverFiles_selects (order : SetOrder)
    (htypes : (descriptorSet.flatMap declaredTypeNames).Nodup) {selected : List Text}
    (h : discoverFiles order descriptorSet = .ok selected) :
    selected.Pairwise (· < ·) ∧
      (∀ name, name ∈ selected ↔ (schema descriptorSet).Selected name) ∧
        (schema descriptorSet).Discoverable := by
  obtain ⟨files, hindex, names, hfollow, hchecks, rfl⟩ := discoverFiles_eq_ok.mp h
  obtain ⟨rfl, hnamed⟩ := indexFiles_ok hindex
  have hfollows := initial_follows order htypes
  have hmem : ∀ name, name ∈ sortedNames names ↔ (schema files.items).Selected name := by
    intro name
    rw [mem_sortedNames]
    exact hfollows.reached names hfollow name
  exact ⟨sortedNames_pairwise (hfollows.nodup names hfollow (initialTargets_nodup order files)),
    hmem, (checks_ok_iff htypes hnamed hmem).mp hchecks⟩

theorem discoverFiles_of_discoverable (order : SetOrder)
    (hnames : (descriptorSet.map FileDescriptorProto.name).Nodup)
    (htypes : (descriptorSet.flatMap declaredTypeNames).Nodup)
    (h : (schema descriptorSet).Discoverable) :
    ∃ selected, discoverFiles order descriptorSet = .ok selected := by
  have hnamed : ∀ file ∈ descriptorSet, Paths.validateVirtualFileName file.name = .ok () :=
    fun file hfile => h.named file.view (mem_schema.mpr ⟨file, hfile, rfl⟩)
  obtain ⟨files, hindex⟩ := (indexFiles_spec descriptorSet ⟨[], List.nodup_nil⟩).2 hnames hnamed
  obtain ⟨rfl, -⟩ := indexFiles_ok hindex
  have hfollows := initial_follows order htypes
  cases hfollow : followReferences files (indexDeclaredTypes files.items)
    (sortedNames (initialTargets order files)) (initialTargets order files) with
  | error error =>
    obtain ⟨file, hfile, hreached, -, hblocker⟩ := hfollows.blocked error hfollow
    exact absurd (generatedHeaderBlocker_ne_none.mp hblocker)
      (h.generated file.view (mem_schema.mpr ⟨file, hfile, rfl⟩) hreached)
  | ok names =>
    have hmem : ∀ name, name ∈ sortedNames names ↔ (schema files.items).Selected name := by
      intro name
      rw [mem_sortedNames]
      exact hfollows.reached names hfollow name
    exact ⟨sortedNames names, discoverFiles_eq_ok.mpr ⟨files, hindex, names, hfollow,
      (checks_ok_iff htypes hnamed hmem).mpr h, rfl⟩⟩

end Discover

end Protocyte.Descriptors
