import Protocyte.Descriptors.CustomOptions
import Protocyte.Descriptors.Cycles

/-! The files of a descriptor set that headers are generated for: the loop over type references, the
walks over imports, and what keeps a file from having a header. -/
namespace Protocyte.Descriptors

open Foundation

section Blockers

/-- Why a file cannot have a generated header. -/
inductive Blocker
  | internal
  | editions
  | proto3Extension (extensionName extendee : Text)
  | messageExtension (scope : Text)
  | groups (fieldPath : Text)
deriving DecidableEq, Repr

/-- `value.removeprefix(".")` -/
def removeDot (value : Text) : Text := if value.head? = some '.' then value.drop 1 else value

def extensionName (file : FileDescriptorProto) (extension : FieldDescriptorProto) :
    Option Text → Text
  | some scope => removeDot scope ++ '.' :: extension.name
  | none => removeDot (fullyQualifiedName (packageParts file.package ++ [extension.name]))

def extensionBlocker (file : FileDescriptorProto) (selectedForGeneration : Bool)
    (declaration : FieldDescriptorProto × Option Text) : Option Blocker :=
  if isCustomOptionExtension declaration.1 then none
  else if file.protoSyntax = "proto3".toList then
    some (.proto3Extension (extensionName file declaration.1 declaration.2) declaration.1.extendee)
  else
    match declaration.2 with
    | some scope => if selectedForGeneration then some (.messageExtension (removeDot scope)) else none
    | none => none

def groupFieldGenerationBlocker (file : FileDescriptorProto) : Option Blocker :=
  file.messages.findSome? fun item =>
    (item.2.field.find? fun field => field.type = groupType).map fun field =>
      .groups (['.'].intercalate (item.1 ++ [field.name]))

def descriptorCapabilityBlocker (file : FileDescriptorProto) (selectedForGeneration : Bool) :
    Option Blocker :=
  if file.protoSyntax = "editions".toList || file.edition ≠ 0 then some .editions
  else
    match (extensionDeclarations file).findSome? (extensionBlocker file selectedForGeneration) with
    | some blocker => some blocker
    | none => groupFieldGenerationBlocker file

def generatedHeaderBlocker (file : FileDescriptorProto) : Option Blocker :=
  if internalDescriptorFiles.contains file.name then some .internal
  else descriptorCapabilityBlocker file true

def isReferencedTypeDiscoverable (file : FileDescriptorProto) : Bool :=
  !internalDescriptorFiles.contains file.name &&
    (extensionDeclarations file).all fun declaration =>
      declaration.2 = none || isCustomOptionExtension declaration.1

def isInitialDiscoverableTarget (order : SetOrder) (file : FileDescriptorProto) : Bool :=
  isReferencedTypeDiscoverable file && !isPureCustomOptionDefinition order file

end Blockers

section Errors

inductive DiscoveryError
  | fileName (error : Paths.ProtocyteError)
  | duplicate (name : Text)
  | missingImport (name dependency : Text)
  | nonGeneratableReference (sourceFile : Text) (reference : TypeReference) (targetFile : Text)
      (blocker : Blocker)
  | target (name : Text) (blocker : Blocker)
  /-- The imports from the file back to the target that needs it. -/
  | unsupportedImport (chain : List Text) (blocker : Blocker)
  | cycle (error : CycleError)
deriving DecidableEq, Repr

def maxDiagnosticContextCodepoints : ℕ := 4096

section Text

variable (isPrintable : Char → Bool)

def renderedChar (c : Char) : Text :=
  if isPrintable c then [c]
  else if c.toNat ≤ 0xFFFF then '\\' :: 'u' :: paddedHex 4 c.toNat
  else '\\' :: 'U' :: paddedHex 8 c.toNat

def renderDiagnosticContext (value : Text) : Text :=
  (value.take maxDiagnosticContextCodepoints).flatMap (renderedChar isPrintable) ++
    if maxDiagnosticContextCodepoints < value.length then
      "... [truncated ".toList ++ Nat.toDigits 10 (value.length - maxDiagnosticContextCodepoints) ++
        " characters]".toList
    else []

def Blocker.text : Blocker → Text
  | internal => "it is reserved for Protocyte generator internals".toList
  | editions => "protobuf Editions are not supported in v1".toList
  | proto3Extension extensionName extendee =>
    "extension ".toList ++ diagnosticName isPrintable extensionName ++
      " extends unsupported proto3 target ".toList ++ diagnosticName isPrintable extendee
  | messageExtension scope =>
    "message ".toList ++ diagnosticName isPrintable scope ++
      ": extension declarations are not supported".toList
  | groups fieldPath =>
    "field ".toList ++ diagnosticName isPrintable fieldPath ++ " uses unsupported groups".toList

/-- The end of a chain of imports, which is given from its last file on. -/
def formatImportPath (chain : List Text) : Text :=
  let rendered := ((chain.take maxDiagnosticChainEntries).reverse.map (diagnosticName isPrintable))
  " -> ".toList.intercalate
    (if maxDiagnosticChainEntries < chain.length then
      ("... [".toList ++ Nat.toDigits 10 (chain.length - maxDiagnosticChainEntries) ++
        " imports omitted]".toList) :: rendered
    else rendered)

def DiscoveryError.text : DiscoveryError → Text
  | fileName error =>
    if error.context = [] then error.message.toList
    else error.message.toList ++ ": ".toList ++ renderDiagnosticContext isPrintable error.context
  | duplicate name =>
    "duplicate descriptor file name: ".toList ++ renderDiagnosticContext isPrintable name
  | missingImport name dependency =>
    renderDiagnosticContext isPrintable name ++ " imports missing descriptor ".toList ++
      renderDiagnosticContext isPrintable dependency
  | nonGeneratableReference sourceFile reference targetFile blocker =>
    "descriptor ".toList ++ diagnosticName isPrintable sourceFile ++ ": field ".toList ++
      diagnosticName isPrintable reference.fieldPath ++ " references type ".toList ++
      diagnosticName isPrintable reference.typeName ++ " from ".toList ++
      diagnosticName isPrintable targetFile ++ ", but ".toList ++
      diagnosticName isPrintable targetFile ++
      " cannot have a generated header because ".toList ++ blocker.text isPrintable
  | target name blocker =>
    "target file ".toList ++ diagnosticName isPrintable name ++ ": ".toList ++
      blocker.text isPrintable
  | unsupportedImport chain blocker =>
    "target file ".toList ++ diagnosticName isPrintable (chain.getLast?.getD []) ++
      " imports unsupported descriptor ".toList ++
      diagnosticName isPrintable (chain.head?.getD []) ++ " through ".toList ++
      formatImportPath isPrintable chain ++ ": ".toList ++ blocker.text isPrintable
  | cycle error => raiseCrossFileTypeCycle isPrintable error

end Text

end Errors

section Files

def Files.names (files : Files) : List Text := files.items.map FileDescriptorProto.name

theorem Files.distinct_append (files : Files) (file : FileDescriptorProto)
    (h : ¬files.names.contains file.name = true) :
    ((files.items ++ [file]).map FileDescriptorProto.name).Nodup := by
  rw [List.map_append]
  apply List.Nodup.append files.distinct (List.nodup_singleton _)
  intro name hname hfile
  rw [List.mem_singleton.mp hfile] at hname
  exact h (List.contains_iff_mem.mpr hname)

def addFile (files : Files) (file : FileDescriptorProto) : Except DiscoveryError Files :=
  match Paths.validateVirtualFileName file.name with
  | .error error => .error (.fileName error)
  | .ok () =>
    if h : files.names.contains file.name = true then .error (.duplicate file.name)
    else .ok ⟨files.items ++ [file], files.distinct_append file h⟩

def indexFiles (descriptorSet : List FileDescriptorProto) : Except DiscoveryError Files :=
  descriptorSet.foldlM addFile ⟨[], List.nodup_nil⟩

theorem Files.mem_names_of_get? {files : Files} {name : Text} {file : FileDescriptorProto}
    (h : files.get? name = some file) : name ∈ files.names := by
  have hname : file.name = name := by simpa using List.find?_some h
  rw [← hname]
  exact List.mem_map_of_mem (List.mem_of_find?_eq_some h)

end Files

section References

variable (files : Files) (typeFiles : Dictionary Text Text)

/-- The files selected and the stack, its top first. -/
abbrev Selection := List Text × List Text

/-- The references of one file. -/
def selectReferences (source : Text) :
    List TypeReference → Selection → Except DiscoveryError Selection
  | [], selection => .ok selection
  | reference :: references, selection =>
    match typeFiles.get? (normalizeTypeName reference.typeName) with
    | none => selectReferences source references selection
    | some referenced =>
      if selection.1.contains referenced then selectReferences source references selection
      else
        match files.get? referenced with
        -- a type is declared by one of the files
        | none => selectReferences source references selection
        | some file =>
          match generatedHeaderBlocker file with
          | some blocker => .error (.nonGeneratableReference source reference referenced blocker)
          | none =>
            selectReferences source references (referenced :: selection.1, referenced :: selection.2)

def referencesOf (name : Text) : List TypeReference :=
  ((files.get? name).map referencedTypes).getD []

theorem selectReferences_measure {source : Text} (references : List TypeReference)
    (selection selection' : Selection)
    (h : selectReferences files typeFiles source references selection = .ok selection') :
    remaining files.names selection'.1 + selection'.2.length ≤
      remaining files.names selection.1 + selection.2.length := by
  induction references generalizing selection with
  | nil =>
    obtain rfl := Except.ok.inj h
    exact le_rfl
  | cons reference references ih =>
    rw [selectReferences] at h
    split at h
    · exact ih _ h
    · next referenced _ =>
      split_ifs at h with hmem
      · exact ih _ h
      · split at h
        · exact ih _ h
        · next file hfile =>
          split at h
          · exact absurd h (by simp)
          · have hle := ih _ h
            rw [List.contains_iff_mem] at hmem
            have hlt := remaining_cons_lt (Files.mem_names_of_get? hfile) hmem
            rw [List.length_cons] at hle
            dsimp only at hle
            omega

/-- The loop over the stack. -/
def followReferences (stack selected : List Text) : Except DiscoveryError (List Text) :=
  match stack with
  | [] => .ok selected
  | name :: stack =>
    match _h : selectReferences files typeFiles name (referencesOf files name) (selected, stack) with
    | .error error => .error error
    | .ok selection => followReferences selection.2 selection.1
termination_by remaining files.names selected + stack.length
decreasing_by
  have hle := selectReferences_measure files typeFiles _ _ _ _h
  rw [List.length_cons]
  dsimp only at hle
  omega

end References

section Imports

variable (files : Files)

/-- `files[name].dependency` -/
def dependenciesOf (name : Text) : List Text :=
  ((files.get? name).map FileDescriptorProto.dependency).getD []

def checkDependencies (name : Text) : List Text → Except DiscoveryError Unit
  | [] => .ok ()
  | dependency :: dependencies =>
    match Paths.validateVirtualFileName dependency with
    | .error error => .error (.fileName error)
    | .ok () =>
      if files.get? dependency = none then .error (.missingImport name dependency)
      else checkDependencies name dependencies

theorem dependenciesOf_of_notMem {name : Text} (h : name ∉ files.names) :
    dependenciesOf files name = [] := by
  unfold dependenciesOf
  cases hfile : files.get? name with
  | none => rfl
  | some file => exact absurd (Files.mem_names_of_get? hfile) h

theorem importGraph_decreases (name : Text) (stack seen : List Text) (hnew : name ∉ seen) :
    Prod.Lex (· < ·) (· < ·)
      (remaining files.names (name :: seen),
        ((dependenciesOf files name).reverse ++ stack).length)
      (remaining files.names seen, (name :: stack).length) := by
  by_cases hname : name ∈ files.names
  · exact .left _ _ (remaining_cons_lt hname hnew)
  · rw [dependenciesOf_of_notMem files hname]
    rcases (remaining_cons_le name seen).lt_or_eq with hlt | heq
    · exact .left _ _ hlt
    · rw [heq]
      exact .right _ (by simp)

/-- The walk over the imports, the top of its stack first. -/
def walkImports (stack seen : List Text) : Except DiscoveryError Unit :=
  match stack with
  | [] => .ok ()
  | name :: stack =>
    if _hseen : name ∈ seen then walkImports stack seen
    else
      match checkDependencies files name (dependenciesOf files name) with
      | .error error => .error error
      | .ok () => walkImports ((dependenciesOf files name).reverse ++ stack) (name :: seen)
termination_by (remaining files.names seen, stack.length)
decreasing_by
  · exact .right _ (by simp)
  · exact importGraph_decreases files name stack seen _hseen

def validateImportGraph (roots : List Text) : Except DiscoveryError Unit :=
  walkImports files roots.reverse []

/-- The predecessors and the queue. -/
abbrev ImportSearch := Dictionary Text (Option Text) × List Text

def addImport (name : Text) (search : ImportSearch) (dependency : Text) : ImportSearch :=
  if files.get? dependency = none || search.1.keys.contains dependency then search
  else (search.1.set dependency (some name), search.2 ++ [dependency])

theorem addImports_measure (name : Text) (dependencies : List Text) (search : ImportSearch) :
    remaining files.names (dependencies.foldl (addImport files name) search).1.keys +
        (dependencies.foldl (addImport files name) search).2.length ≤
      remaining files.names search.1.keys + search.2.length := by
  induction dependencies generalizing search with
  | nil => exact le_rfl
  | cons dependency dependencies ih =>
    have hstep : remaining files.names (addImport files name search dependency).1.keys +
        (addImport files name search dependency).2.length ≤
        remaining files.names search.1.keys + search.2.length := by
      unfold addImport
      split_ifs with hskip
      · exact le_rfl
      · simp only [Bool.or_eq_true, decide_eq_true_eq, not_or, List.contains_eq_mem] at hskip
        obtain ⟨file, hfile⟩ := Option.ne_none_iff_exists'.mp hskip.1
        have hlt := remaining_cons_lt (Files.mem_names_of_get? hfile) hskip.2
        have hkeys : ∀ other, other ∈ (search.1.set dependency (some name)).keys ↔
            other ∈ dependency :: search.1.keys := by
          intro other
          rw [Dictionary.mem_keys_set, List.mem_cons]
        rw [remaining_congr hkeys, List.length_append, List.length_singleton]
        omega
    exact (ih _).trans hstep

/-- The loop over the queue. -/
def searchImports (queue : List Text) (predecessors : Dictionary Text (Option Text)) :
    Dictionary Text (Option Text) :=
  match queue with
  | [] => predecessors
  | name :: queue =>
    searchImports
      ((dependenciesOf files name).foldl (addImport files name) (predecessors, queue)).2
      ((dependenciesOf files name).foldl (addImport files name) (predecessors, queue)).1
termination_by remaining files.names predecessors.keys + queue.length
decreasing_by
  have hle := addImports_measure files name (dependenciesOf files name) (predecessors, queue)
  rw [List.length_cons]
  dsimp only at hle
  omega

def importClosurePredecessors (roots : List Text) : Dictionary Text (Option Text) :=
  let predecessors := roots.foldl (fun predecessors name => predecessors.set name none)
    Dictionary.empty
  searchImports files predecessors.keys predecessors

/-- A file and those it was imported through, up to a root, which comes within as many steps as there
are predecessors. -/
def importChain (predecessors : Dictionary Text (Option Text)) : ℕ → Text → List Text
  | 0, _ => []
  | fuel + 1, name =>
    name ::
      match predecessors.get? name with
      | some (some parent) => importChain predecessors fuel parent
      | _ => []

end Imports

section Capabilities

variable (files : Files) (selected : List Text)

def targetError (name : Text) : Option DiscoveryError :=
  ((files.get? name).bind fun file => descriptorCapabilityBlocker file true).map (.target name)

def reservedError (name : Text) : Option DiscoveryError :=
  if internalDescriptorFiles.contains name then some (.target name .internal) else none

def referenceError (typeFiles : Dictionary Text Text) (name : Text) : Option DiscoveryError :=
  (referencesOf files name).findSome? fun reference =>
    match typeFiles.get? (normalizeTypeName reference.typeName) with
    | none => none
    | some referenced =>
      if referenced ∈ selected then none
      else
        ((files.get? referenced).bind generatedHeaderBlocker).map
          (.nonGeneratableReference name reference referenced)

def importError (predecessors : Dictionary Text (Option Text)) (name : Text) :
    Option DiscoveryError :=
  if name ∈ selected then none
  else
    ((files.get? name).bind fun file => descriptorCapabilityBlocker file false).map
      (.unsupportedImport (importChain predecessors predecessors.keys.length name))

/-- What `validate_generation_capabilities` raises: the first error of its loops. -/
def validateGenerationCapabilities : Option DiscoveryError :=
  let typeFiles := indexDeclaredTypes files.items
  let importPredecessors := importClosurePredecessors files selected
  (selected.findSome? (targetError files)) <|>
    (selected.findSome? reservedError) <|>
    (selected.findSome? (referenceError files selected typeFiles)) <|>
    (importPredecessors.keys.findSome? (importError files selected importPredecessors)) <|>
    ((validateNoCrossFileTypeCycles files selected).2.map .cycle)

end Capabilities

section Discover

def initialTargets (order : SetOrder) (files : Files) : List Text :=
  (files.items.filter fun file =>
    !runtimePrefix.isPrefixOf file.name && isInitialDiscoverableTarget order file).map
      FileDescriptorProto.name

def sortedNames (names : List Text) : List Text := names.insertionSort (· ≤ ·)

def discoverFiles (order : SetOrder) (descriptorSet : List FileDescriptorProto) :
    Except DiscoveryError (List Text) := do
  let files ← indexFiles descriptorSet
  let selected := initialTargets order files
  let selected ← followReferences files (indexDeclaredTypes files.items) (sortedNames selected)
    selected
  let selectedList := sortedNames selected
  validateImportGraph files selectedList
  (validateGenerationCapabilities files selectedList).elim (.ok selectedList) .error

end Discover

end Protocyte.Descriptors
