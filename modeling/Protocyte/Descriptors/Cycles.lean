import Protocyte.Descriptors.Model
import Mathlib.Logic.Relation
import Mathlib.Algebra.Order.BigOperators.Group.List

/-! Cycles of generated headers: the search for a cycle of type references between files, with its
explicit stack, and what it finds. -/
namespace Protocyte.Descriptors

open Foundation Relation

structure FileTypeDependency where
  sourceFile : Text
  targetFile : Text
  reference : TypeReference
deriving DecidableEq, Repr

section Graph

/-- `dependencies.setdefault(source, []).append(edge)` -/
def appendEdge (dependencies : Dictionary Text (List FileTypeDependency))
    (edge : FileTypeDependency) : Dictionary Text (List FileTypeDependency) :=
  dependencies.set edge.sourceFile ((dependencies.get? edge.sourceFile).getD [] ++ [edge])

def crossFileEdges (typeFiles : Dictionary Text Text) (file : FileDescriptorProto) :
    List FileTypeDependency :=
  (referencedTypes file).filterMap fun reference =>
    match typeFiles.get? (normalizeTypeName reference.typeName) with
    | none => none
    | some target => if target = file.name then none else some ⟨file.name, target, reference⟩

def FileTypeDependency.sortKey (edge : FileTypeDependency) : Text ×ₗ (Text ×ₗ Text) :=
  toLex (edge.targetFile, toLex (edge.reference.fieldPath, edge.reference.typeName))

def fileTypeDependencies (files : Files) : Dictionary Text (List FileTypeDependency) :=
  let typeFiles := indexDeclaredTypes files.items
  let dependencies := files.items.foldl (fun dependencies file =>
    (crossFileEdges typeFiles file).foldl appendEdge dependencies) Dictionary.empty
  dependencies.mapValues fun edges => edges.insertionSort fun a b => a.sortKey ≤ b.sortKey

/-- `dependencies.get(name, ())` -/
def edgesOf (dependencies : Dictionary Text (List FileTypeDependency)) (name : Text) :
    List FileTypeDependency := (dependencies.get? name).getD []

end Graph

section Search

/-- The arguments of `_raise_cross_file_type_cycle`. -/
structure CycleError where
  pathEdges : List FileTypeDependency
  cycleStart : ℕ
  closingEdge : FileTypeDependency
deriving DecidableEq, Repr

/-- The path edges from the start of the cycle, and the edge that closes it. -/
def CycleError.cycle (error : CycleError) : List FileTypeDependency :=
  error.pathEdges.drop error.cycleStart ++ [error.closingEdge]

def maxDiagnosticChainEntries : ℕ := 32

/-- The edges of a cycle that its message shows: the closing one and those before it, if there are
not too many. -/
def CycleError.shown (error : CycleError) : List FileTypeDependency :=
  let cycleEdgeCount := error.pathEdges.length - error.cycleStart + 1
  let visiblePathCount := min (cycleEdgeCount - 1) (maxDiagnosticChainEntries - 1)
  (error.pathEdges.drop error.cycleStart).take visiblePathCount ++ [error.closingEdge]

def CycleError.omitted (error : CycleError) : ℕ :=
  error.pathEdges.length - error.cycleStart + 1 - error.shown.length

section Message

def maxDiagnosticNameCodepoints : ℕ := 512

/-- `f"{codepoint:0{width}x}"` -/
def paddedHex (width codepoint : ℕ) : Text :=
  let digits := Nat.toDigits 16 codepoint
  List.replicate (width - digits.length) '0' ++ digits

variable (isPrintable : Char → Bool)

def diagnosticChar (c : Char) : Text :=
  if c = '\\' then ['\\', '\\']
  else if c = '"' then ['\\', '"']
  else if isPrintable c then [c]
  else if c.toNat ≤ 0xFFFF then '\\' :: 'u' :: paddedHex 4 c.toNat
  else '\\' :: 'U' :: paddedHex 8 c.toNat

def diagnosticName (value : Text) : Text :=
  '"' :: (value.take maxDiagnosticNameCodepoints).flatMap (diagnosticChar isPrintable) ++
    (if maxDiagnosticNameCodepoints < value.length then
      "... [truncated ".toList ++ Nat.toDigits 10 (value.length - maxDiagnosticNameCodepoints) ++
        " characters]".toList
    else []) ++ ['"']

def FileTypeDependency.detail (edge : FileTypeDependency) : Text :=
  diagnosticName isPrintable edge.sourceFile ++ " field ".toList ++
    diagnosticName isPrintable edge.reference.fieldPath ++ " references type ".toList ++
    diagnosticName isPrintable edge.reference.typeName ++ " from ".toList ++
    diagnosticName isPrintable edge.targetFile

/-- The text of the error for a cycle. -/
def raiseCrossFileTypeCycle (error : CycleError) : Text :=
  let details := error.shown.map fun edge => edge.detail isPrintable
  let details :=
    if 0 < error.omitted then
      details ++ ["... [".toList ++ Nat.toDigits 10 error.omitted ++
        " dependency edges omitted]".toList]
    else details
  "generated header dependency cycle: ".toList ++ "; ".toList.intercalate details

end Message

/-- The structures of the search. The top of the stack comes first. What was examined, an edge by
its file and its index there, is a log that the source does not keep. -/
structure Search where
  activeIndices : Dictionary Text ℕ
  pathEdges : List FileTypeDependency
  stack : List (Text × ℕ)
  visited : List Text
  examined : List (Text × ℕ)

namespace Search

/-- A file whose edges are all examined leaves the stack. -/
def leave (search : Search) (name : Text) (rest : List (Text × ℕ)) : Search :=
  { search with
    stack := rest
    activeIndices := search.activeIndices.pop name
    visited := name :: search.visited
    pathEdges := search.pathEdges.dropLast }

/-- The next edge of the file on top of the stack is examined. -/
def examine (search : Search) (name : Text) (edgeIndex : ℕ) (rest : List (Text × ℕ)) : Search :=
  { search with
    stack := (name, edgeIndex + 1) :: rest
    examined := (name, edgeIndex) :: search.examined }

def enter (search : Search) (edge : FileTypeDependency) : Search :=
  { search with
    activeIndices := search.activeIndices.set edge.targetFile search.stack.length
    pathEdges := search.pathEdges ++ [edge]
    stack := (edge.targetFile, 0) :: search.stack }

/-- The targets of edges that the search did not come to. -/
def unseen (dependencies : Dictionary Text (List FileTypeDependency)) (search : Search) : ℕ :=
  ((dependencies.items.flatMap fun item => item.2.map FileTypeDependency.targetFile).filter
    fun target => target ∉ search.visited ∧ target ∉ search.activeIndices.keys).length

/-- The edges the files on the stack have left, and the files themselves. -/
def remaining (dependencies : Dictionary Text (List FileTypeDependency)) (search : Search) : ℕ :=
  (search.stack.map fun frame => (edgesOf dependencies frame.1).length - frame.2 + 1).sum

variable {dependencies : Dictionary Text (List FileTypeDependency)} {search : Search} {name : Text}
  {edgeIndex : ℕ} {rest : List (Text × ℕ)} {edge : FileTypeDependency}

theorem unseen_leave_le : (search.leave name rest).unseen dependencies ≤
    search.unseen dependencies := by
  unfold unseen
  rw [← List.countP_eq_length_filter, ← List.countP_eq_length_filter]
  apply List.countP_mono_left
  intro target _ htarget
  obtain ⟨hvisited, hactive⟩ := of_decide_eq_true htarget
  apply decide_eq_true
  show target ∉ search.visited ∧ target ∉ search.activeIndices.keys
  have hne : target ≠ name := fun h => hvisited (h ▸ List.mem_cons_self)
  refine ⟨fun h => hvisited (List.mem_cons_of_mem _ h), fun h => hactive ?_⟩
  obtain ⟨index, hindex⟩ := Dictionary.mem_keys_iff.mp h
  apply Dictionary.mem_keys_of_get? (v := index)
  show (search.activeIndices.pop name).get? target = some index
  rw [Dictionary.get?_pop_of_ne hne, hindex]

theorem target_mem (h : (edgesOf dependencies name)[edgeIndex]? = some edge) :
    edge.targetFile ∈
      dependencies.items.flatMap fun item => item.2.map FileTypeDependency.targetFile := by
  have hedge := List.mem_of_getElem? h
  unfold edgesOf at hedge
  cases hname : dependencies.get? name with
  | none =>
    rw [hname] at hedge
    exact absurd hedge List.not_mem_nil
  | some edges =>
    rw [hname] at hedge
    have hitem := Dictionary.get?_eq_some_iff.mp hname
    exact List.mem_flatMap.mpr ⟨_, hitem, List.mem_map.mpr ⟨edge, hedge, rfl⟩⟩

theorem unseen_enter_lt (h : (edgesOf dependencies name)[edgeIndex]? = some edge)
    (hactive : search.activeIndices.get? edge.targetFile = none)
    (hvisited : edge.targetFile ∉ search.visited) :
    (search.enter edge).unseen dependencies < search.unseen dependencies := by
  have hkeys := Dictionary.get?_eq_none_iff.mp hactive
  have hset : ∀ target, target ∉ (search.activeIndices.set edge.targetFile
      search.stack.length).keys ↔ target ≠ edge.targetFile ∧ target ∉ search.activeIndices.keys := by
    intro target
    rw [← Dictionary.get?_eq_none_iff, ← Dictionary.get?_eq_none_iff, Dictionary.get?_set]
    split_ifs with heq
    · simp [heq]
    · simp [heq]
  unfold unseen
  have hsub : ∀ targets : List Text,
      (targets.filter fun target => target ∉ (search.enter edge).visited ∧
        target ∉ (search.enter edge).activeIndices.keys) =
      (targets.filter fun target => target ∉ search.visited ∧
        target ∉ search.activeIndices.keys).filter fun target => target ≠ edge.targetFile := by
    intro targets
    rw [List.filter_filter]
    congr 1
    funext target
    rw [← Bool.decide_and]
    apply decide_eq_decide.mpr
    show target ∉ search.visited ∧ target ∉ (search.activeIndices.set edge.targetFile
      search.stack.length).keys ↔ _
    rw [hset]
    tauto
  rw [hsub]
  apply List.length_filter_lt_length_iff_exists.mpr
  refine ⟨edge.targetFile, List.mem_filter.mpr ⟨target_mem h, ?_⟩, by simp⟩
  exact decide_eq_true ⟨hvisited, hkeys⟩

theorem remaining_leave_lt (h : search.stack = (name, edgeIndex) :: rest) :
    (search.leave name rest).remaining dependencies < search.remaining dependencies := by
  unfold remaining leave
  rw [h, List.map_cons, List.sum_cons]
  show (rest.map _).sum < _
  omega

theorem remaining_examine_lt (h : search.stack = (name, edgeIndex) :: rest)
    (hedge : (edgesOf dependencies name)[edgeIndex]? = some edge) :
    (search.examine name edgeIndex rest).remaining dependencies <
      search.remaining dependencies := by
  obtain ⟨hlt, -⟩ := List.getElem?_eq_some_iff.mp hedge
  unfold remaining examine
  rw [h, List.map_cons, List.map_cons, List.sum_cons, List.sum_cons]
  show (edgesOf dependencies name).length - (edgeIndex + 1) + 1 + _ <
    (edgesOf dependencies name).length - edgeIndex + 1 + _
  omega

theorem decreases_of_le {s t : Search} (hle : s.unseen dependencies ≤ t.unseen dependencies)
    (hlt : s.remaining dependencies < t.remaining dependencies) :
    Prod.Lex (· < ·) (· < ·) (s.unseen dependencies, s.remaining dependencies)
      (t.unseen dependencies, t.remaining dependencies) := by
  rcases hle.lt_or_eq with hless | heq
  · exact .left _ _ hless
  · rw [heq]
    exact .right _ hlt

/-- The loop of the search. A cursor never passes the end of the edges, so none left means that it
is there. -/
def run (dependencies : Dictionary Text (List FileTypeDependency)) (search : Search) :
    Search × Option CycleError :=
  match _hstack : search.stack with
  | [] => (search, none)
  | (name, edgeIndex) :: rest =>
    match _hedge : (edgesOf dependencies name)[edgeIndex]? with
    | none => run dependencies (search.leave name rest)
    | some edge =>
      match _hactive : search.activeIndices.get? edge.targetFile with
      | some cycleStart =>
        (search.examine name edgeIndex rest, some ⟨search.pathEdges, cycleStart, edge⟩)
      | none =>
        if _hvisited : edge.targetFile ∈ search.visited then
          run dependencies (search.examine name edgeIndex rest)
        else run dependencies ((search.examine name edgeIndex rest).enter edge)
termination_by (search.unseen dependencies, search.remaining dependencies)
decreasing_by
  · exact decreases_of_le unseen_leave_le (remaining_leave_lt _hstack)
  · exact decreases_of_le le_rfl (remaining_examine_lt _hstack _hedge)
  · exact .left _ _ (unseen_enter_lt _hedge _hactive _hvisited)

end Search

/-- The loop over the roots. -/
def searchRoots (dependencies : Dictionary Text (List FileTypeDependency)) :
    List Text → Search → Search × Option CycleError
  | [], search => (search, none)
  | root :: roots, search =>
    if root ∈ search.visited then searchRoots dependencies roots search
    else
      match Search.run dependencies
        { search with
          activeIndices := Dictionary.empty.set root 0
          pathEdges := []
          stack := [(root, 0)] } with
      | (search, some error) => (search, some error)
      | (search, none) => searchRoots dependencies roots search

def validateNoCrossFileTypeCycles (files : Files) (roots : List Text) :
    Search × Option CycleError :=
  searchRoots (fileTypeDependencies files) roots ⟨Dictionary.empty, [], [], [], []⟩

end Search

end Protocyte.Descriptors
