import Protocyte.Descriptors.Cycles
import Protocyte.Foundation.Reachability
import Mathlib.Data.List.Chain

/-! The search for header cycles is right: the path it keeps follows its stack, what it leaves
behind leads to no cycle, and no edge is examined twice. -/
namespace Protocyte.Descriptors

open Foundation Relation

section Walks

variable {edges : Text → List FileTypeDependency}

/-- Edges that can be followed one after the other. -/
inductive Walk (edges : Text → List FileTypeDependency) (a : Text) :
    List FileTypeDependency → Text → Prop
  | nil : Walk edges a [] a
  | concat {walk : List FileTypeDependency} {b : Text} {edge : FileTypeDependency}
      (front : Walk edges a walk b) (h : edge ∈ edges b) :
      Walk edges a (walk ++ [edge]) edge.targetFile

/-- A file refers to another one. -/
def Points (edges : Text → List FileTypeDependency) (a b : Text) : Prop :=
  ∃ edge ∈ edges a, edge.targetFile = b

theorem Walk.reaches {a b : Text} {walk : List FileTypeDependency} (h : Walk edges a walk b) :
    ReflTransGen (Points edges) a b := by
  induction h with
  | nil => exact .refl
  | concat front hedge ih => exact ih.tail ⟨_, hedge, rfl⟩

theorem Walk.transGen {a b : Text} {front : List FileTypeDependency} {edge : FileTypeDependency}
    (h : Walk edges a (front ++ [edge]) b) : TransGen (Points edges) a b := by
  generalize hwalk : front ++ [edge] = walk at h
  cases h with
  | nil => exact absurd hwalk (by simp)
  | concat before hedge => exact TransGen.tail' before.reaches ⟨_, hedge, rfl⟩

theorem Walk.mem {a b : Text} {walk : List FileTypeDependency} (h : Walk edges a walk b) :
    ∀ edge ∈ walk, ∃ c, edge ∈ edges c := by
  induction h with
  | nil => exact fun edge hedge => absurd hedge List.not_mem_nil
  | concat front hedge ih =>
    intro edge hmem
    rcases List.mem_append.mp hmem with hmem | hmem
    · exact ih edge hmem
    · rw [List.mem_singleton.mp hmem]
      exact ⟨_, hedge⟩

theorem Walk.eq_of_nil {a b : Text} (h : Walk edges a [] b) : b = a := by
  generalize hnil : ([] : List FileTypeDependency) = walk at h
  cases h with
  | nil => rfl
  | concat _ _ => exact absurd hnil (by simp)

/-- The edges of a walk meet where they should. -/
theorem Walk.chain {a b : Text} {walk : List FileTypeDependency} (h : Walk edges a walk b)
    (hsource : ∀ c, ∀ edge ∈ edges c, edge.sourceFile = c) :
    walk.IsChain (fun e f => e.targetFile = f.sourceFile) ∧
      (∀ first ∈ walk.head?, first.sourceFile = a) ∧ ∀ last ∈ walk.getLast?, last.targetFile = b := by
  induction h with
  | nil => exact ⟨.nil, by simp, by simp⟩
  | @concat walk b edge front hedge ih =>
    obtain ⟨hchain, hhead, hlast⟩ := ih
    refine ⟨?_, ?_, ?_⟩
    · apply List.isChain_append.mpr
      refine ⟨hchain, .singleton _, ?_⟩
      intro last hmem first hfirst
      obtain rfl : edge = first := by simpa using hfirst
      rw [hlast last hmem, hsource b edge hedge]
    · intro first hfirst
      cases walk with
      | nil =>
        obtain rfl : edge = first := by simpa using hfirst
        rw [hsource _ _ hedge, front.eq_of_nil]
      | cons head walk => exact hhead first hfirst
    · intro last hmem
      rw [List.getLast?_concat] at hmem
      rw [← Option.some.inj hmem]

end Walks

section Frames

/-- The stack and the path follow each other: each frame but the lowest was entered by the edge
before the cursor of the one below, whose earlier edges lead to visited files. -/
inductive Frames (edges : Text → List FileTypeDependency) (visited : List Text) (root : Text) :
    List (Text × ℕ) → List FileTypeDependency → Prop
  | start (cursor : ℕ) : Frames edges visited root [(root, cursor)] []
  | enter {name : Text} {index : ℕ} {rest : List (Text × ℕ)} {path : List FileTypeDependency}
      {edge : FileTypeDependency} (cursor : ℕ)
      (below : Frames edges visited root ((name, index + 1) :: rest) path)
      (hedge : (edges name)[index]? = some edge)
      (hdone : ∀ e ∈ (edges name).take index, e.targetFile ∈ visited) :
      Frames edges visited root ((edge.targetFile, cursor) :: (name, index + 1) :: rest)
        (path ++ [edge])

variable {edges : Text → List FileTypeDependency} {visited visited' : List Text} {root : Text}
  {stack : List (Text × ℕ)} {path : List FileTypeDependency}

theorem Frames.mono (h : Frames edges visited root stack path)
    (hsub : ∀ v ∈ visited, v ∈ visited') : Frames edges visited' root stack path := by
  induction h with
  | start cursor => exact .start cursor
  | enter cursor below hedge hdone ih =>
    exact .enter cursor ih hedge fun e he => hsub _ (hdone e he)

theorem Frames.cursor {name : Text} {i : ℕ} {rest : List (Text × ℕ)}
    (h : Frames edges visited root ((name, i) :: rest) path) (j : ℕ) :
    Frames edges visited root ((name, j) :: rest) path := by
  cases h with
  | start => exact .start j
  | enter _ below hedge hdone => exact .enter j below hedge hdone

/-- The lowest frame leaves nothing, and another one leaves the frame it was entered from. -/
theorem Frames.leave {name : Text} {i : ℕ} {rest : List (Text × ℕ)}
    (h : Frames edges visited root ((name, i) :: rest) path) :
    rest = [] ∧ name = root ∨ Frames edges visited root rest path.dropLast ∧
      ∀ frame ∈ rest.head?, frame.2 ≤ (edges frame.1).length ∧
        ∀ e ∈ (edges frame.1).take frame.2, e.targetFile ∈ name :: visited := by
  cases h with
  | start => exact .inl ⟨rfl, rfl⟩
  | @enter below index belows path edge _ hbelow hedge hdone =>
    right
    rw [List.dropLast_concat]
    refine ⟨hbelow, fun frame hframe => ?_⟩
    obtain rfl : (below, index + 1) = frame := by simpa using hframe
    obtain ⟨hlt, -⟩ := List.getElem?_eq_some_iff.mp hedge
    refine ⟨hlt, fun e he => ?_⟩
    rw [List.take_add_one, hedge] at he
    rcases List.mem_append.mp he with he | he
    · exact List.mem_cons_of_mem _ (hdone e he)
    · obtain rfl : e = edge := by simpa using he
      exact List.mem_cons_self

theorem Frames.length (h : Frames edges visited root stack path) :
    stack.length = path.length + 1 := by
  induction h with
  | start cursor => rfl
  | enter cursor below hedge hdone ih =>
    rw [List.length_cons, ih, List.length_append, List.length_singleton]

/-- From each file on the stack the path leads to the top of the stack. -/
theorem Frames.walk {name : Text} {i : ℕ} {rest : List (Text × ℕ)}
    (h : Frames edges visited root ((name, i) :: rest) path) {position : ℕ} {v : Text}
    (hv : (((name, i) :: rest).map Prod.fst).reverse[position]? = some v) :
    Walk edges v (path.drop position) name := by
  generalize hstack : (name, i) :: rest = stack at h hv
  induction h generalizing name i rest with
  | start cursor =>
    obtain ⟨rfl, rfl⟩ := Prod.mk.inj (List.cons.inj hstack).1
    cases position with
    | zero =>
      obtain rfl : name = v := by simpa using hv
      exact .nil
    | succ position => exact absurd hv (by simp)
  | @enter below index belows path edge cursor hbelow hedge hdone ih =>
    obtain ⟨htop, -⟩ := List.cons.inj hstack
    obtain ⟨rfl, rfl⟩ := Prod.mk.inj htop
    have hlength : (((below, index + 1) :: belows).map Prod.fst).reverse.length =
        path.length + 1 := by
      rw [List.length_reverse, List.length_map, hbelow.length]
    rw [List.map_cons, List.reverse_cons] at hv
    rcases Nat.lt_or_ge position (path.length + 1) with hlt | hge
    · rw [List.getElem?_append_left (by omega)] at hv
      rw [List.drop_append_of_le_length (by omega)]
      exact .concat (ih rfl hv) (List.mem_of_getElem? hedge)
    · rw [List.getElem?_append_right (by omega)] at hv
      rw [List.drop_eq_nil_of_le (by simpa using hge)]
      obtain ⟨_, hsingle⟩ := List.getElem?_eq_some_iff.mp hv
      have htarget : edge.targetFile = v := by rwa [List.getElem_singleton] at hsingle
      rw [← htarget]
      exact .nil

theorem Frames.bottom (h : Frames edges visited root stack path) :
    (stack.map Prod.fst).reverse[0]? = some root := by
  induction h with
  | start cursor => rfl
  | enter cursor below hedge hdone ih =>
    rw [List.map_cons, List.reverse_cons, List.getElem?_append_left]
    · exact ih
    · simp

end Frames

section Invariant

theorem getElem?_concat_of_ne {α : Type} {l : List α} {a b : α} {i : ℕ} (h : b ≠ a) :
    (l ++ [a])[i]? = some b ↔ l[i]? = some b := by
  rcases Nat.lt_or_ge i l.length with hlt | hge
  · rw [List.getElem?_append_left hlt]
  · rw [List.getElem?_append_right hge, List.getElem?_eq_none hge]
    constructor
    · intro hlast
      exact absurd (List.mem_singleton.mp (List.mem_of_getElem? hlast)) h
    · exact fun hnone => absurd hnone.symm (Option.some_ne_none _)

theorem getElem?_concat_self {α : Type} {l : List α} {a : α} {i : ℕ} (h : a ∉ l) :
    (l ++ [a])[i]? = some a ↔ i = l.length := by
  constructor
  · intro hi
    by_contra hne
    rcases Nat.lt_or_gt_of_ne hne with hlt | hgt
    · rw [List.getElem?_append_left hlt] at hi
      exact h (List.mem_of_getElem? hi)
    · rw [List.getElem?_eq_none (by rw [List.length_append]; exact hgt)] at hi
      exact absurd hi.symm (Option.some_ne_none _)
  · rintro rfl
    rw [List.getElem?_append_right le_rfl, Nat.sub_self]
    rfl

variable {dependencies : Dictionary Text (List FileTypeDependency)} {root : Text}
  {before : List Text} {s : Search}

/-- What holds of the search below a root, given the files visited before. -/
structure Searching (edges : Text → List FileTypeDependency) (root : Text) (before : List Text)
    (s : Search) : Prop where
  frames : s.stack = [] ∧ root ∈ s.visited ∨ Frames edges s.visited root s.stack s.pathEdges
  top : ∀ frame ∈ s.stack.head?, frame.2 ≤ (edges frame.1).length ∧
    ∀ e ∈ (edges frame.1).take frame.2, e.targetFile ∈ s.visited
  names : (s.stack.map Prod.fst).Nodup
  active : ∀ v i, s.activeIndices.get? v = some i ↔ (s.stack.map Prod.fst).reverse[i]? = some v
  fresh : ∀ v ∈ s.visited, v ∉ s.stack.map Prod.fst
  kept : ∀ v ∈ before, v ∈ s.visited
  accessible : ∀ v ∈ s.visited, Acc (Function.swap (Points edges)) v
  once : s.examined.Nodup
  logged : ∀ c ∈ s.examined, c.1 ∈ s.visited ∨ ∃ i, (c.1, i) ∈ s.stack ∧ c.2 < i

variable {edges : Text → List FileTypeDependency} {name : Text} {i : ℕ} {rest : List (Text × ℕ)}
  {edge : FileTypeDependency}

theorem Searching.notMem_examined (h : Searching edges root before s)
    (hstack : s.stack = (name, i) :: rest) : (name, i) ∉ s.examined := by
  have hnames := h.names
  have hname : name ∈ s.stack.map Prod.fst := by
    rw [hstack]
    exact List.mem_cons_self
  rw [hstack, List.map_cons, List.nodup_cons] at hnames
  intro hmem
  rcases h.logged _ hmem with hvisited | ⟨j, hj, hlt⟩
  · exact h.fresh name hvisited hname
  · rw [hstack] at hj
    rcases List.mem_cons.mp hj with heq | hj
    · obtain ⟨_, rfl⟩ := Prod.mk.inj heq
      exact lt_irrefl _ hlt
    · exact hnames.1 (List.mem_map.mpr ⟨_, hj, rfl⟩)

theorem Searching.logged_examine (h : Searching edges root before s)
    (hstack : s.stack = (name, i) :: rest) : ∀ c ∈ (s.examine name i rest).examined,
      c.1 ∈ s.visited ∨ ∃ j, (c.1, j) ∈ (s.examine name i rest).stack ∧ c.2 < j := by
  intro c hc
  rcases List.mem_cons.mp hc with rfl | hc
  · exact .inr ⟨i + 1, List.mem_cons_self, Nat.lt_succ_self i⟩
  · rcases h.logged c hc with hvisited | ⟨j, hj, hlt⟩
    · exact .inl hvisited
    · rw [hstack] at hj
      rcases List.mem_cons.mp hj with heq | hj
      · obtain ⟨hname, rfl⟩ := Prod.mk.inj heq
        rw [hname]
        exact .inr ⟨j + 1, List.mem_cons_self, Nat.lt_succ_of_lt hlt⟩
      · exact .inr ⟨j, List.mem_cons_of_mem _ hj, hlt⟩

theorem Searching.frames_cons (h : Searching edges root before s)
    (hstack : s.stack = (name, i) :: rest) :
    Frames edges s.visited root ((name, i) :: rest) s.pathEdges := by
  rcases h.frames with ⟨hnil, _⟩ | hframes
  · exact absurd (hstack.symm.trans hnil) (List.cons_ne_nil _ _)
  · rwa [hstack] at hframes

theorem map_stack_examine (hstack : s.stack = (name, i) :: rest) :
    (s.examine name i rest).stack.map Prod.fst = s.stack.map Prod.fst := by
  rw [hstack]
  rfl

theorem Searching.examine (h : Searching edges root before s)
    (hstack : s.stack = (name, i) :: rest) (hedge : (edges name)[i]? = some edge)
    (hvisited : edge.targetFile ∈ s.visited) :
    Searching edges root before (s.examine name i rest) := by
  obtain ⟨hlt, hget⟩ := List.getElem?_eq_some_iff.mp hedge
  have htop := h.top (name, i) (by rw [hstack]; rfl)
  refine ⟨.inr ((h.frames_cons hstack).cursor (i + 1)), ?_, ?_, ?_, ?_, h.kept, h.accessible,
    List.nodup_cons.mpr ⟨h.notMem_examined hstack, h.once⟩, h.logged_examine hstack⟩
  · intro frame hframe
    obtain rfl : (name, i + 1) = frame := by simpa [Search.examine] using hframe
    refine ⟨hlt, fun e he => ?_⟩
    rw [List.take_add_one, hedge] at he
    rcases List.mem_append.mp he with he | he
    · exact htop.2 e he
    · obtain rfl : e = edge := by simpa using he
      exact hvisited
  · rw [map_stack_examine hstack]
    exact h.names
  · rw [map_stack_examine hstack]
    exact h.active
  · rw [map_stack_examine hstack]
    exact h.fresh

theorem Searching.enter (h : Searching edges root before s)
    (hstack : s.stack = (name, i) :: rest) (hedge : (edges name)[i]? = some edge)
    (hactive : s.activeIndices.get? edge.targetFile = none)
    (hvisited : edge.targetFile ∉ s.visited) :
    Searching edges root before ((s.examine name i rest).enter edge) := by
  have htop := h.top (name, i) (by rw [hstack]; rfl)
  have hnew : edge.targetFile ∉ s.stack.map Prod.fst := by
    intro hmem
    obtain ⟨position, hposition⟩ := List.mem_iff_getElem?.mp (List.mem_reverse.mpr hmem)
    rw [(h.active _ _).mpr hposition] at hactive
    exact absurd hactive (Option.some_ne_none _)
  have hstack' : ((s.examine name i rest).enter edge).stack.map Prod.fst =
      edge.targetFile :: s.stack.map Prod.fst := by
    rw [← map_stack_examine hstack]
    rfl
  refine ⟨.inr (.enter 0 ((h.frames_cons hstack).cursor (i + 1)) hedge htop.2), ?_, ?_, ?_, ?_,
    h.kept, h.accessible, List.nodup_cons.mpr ⟨h.notMem_examined hstack, h.once⟩, ?_⟩
  · intro frame hframe
    obtain rfl : (edge.targetFile, 0) = frame := by simpa [Search.enter] using hframe
    exact ⟨Nat.zero_le _, fun e he => absurd he (by simp)⟩
  · rw [hstack', List.nodup_cons]
    exact ⟨hnew, h.names⟩
  · intro v position
    rw [hstack', List.reverse_cons]
    show (s.activeIndices.set edge.targetFile (s.examine name i rest).stack.length).get? v =
      some position ↔ _
    have hlength : (s.examine name i rest).stack.length = (s.stack.map Prod.fst).reverse.length := by
      rw [List.length_reverse, ← map_stack_examine hstack, List.length_map]
    rw [Dictionary.get?_set, hlength]
    split_ifs with hv
    · rw [hv, getElem?_concat_self fun hmem => hnew (List.mem_reverse.mp hmem), Option.some.injEq]
      exact eq_comm
    · rw [getElem?_concat_of_ne hv]
      exact h.active v position
  · intro v hv
    rw [hstack', List.mem_cons, not_or]
    refine ⟨?_, h.fresh v hv⟩
    rintro rfl
    exact hvisited hv
  · intro c hc
    rcases h.logged_examine hstack c hc with hmem | ⟨j, hj, hlt⟩
    · exact .inl hmem
    · exact .inr ⟨j, List.mem_cons_of_mem _ hj, hlt⟩

theorem Searching.leave (h : Searching edges root before s)
    (hstack : s.stack = (name, i) :: rest) (hend : (edges name)[i]? = none) :
    Searching edges root before (s.leave name rest) := by
  have htop := h.top (name, i) (by rw [hstack]; rfl)
  have hdone : ∀ e ∈ edges name, e.targetFile ∈ s.visited := by
    have hle := List.getElem?_eq_none_iff.mp hend
    have hall := htop.2
    rwa [List.take_of_length_le hle] at hall
  have hnames := h.names
  have hactive := h.active
  have hfresh := h.fresh
  rw [hstack, List.map_cons] at hnames hactive hfresh
  obtain ⟨hname, hrest⟩ := List.nodup_cons.mp hnames
  have hgrow : ∀ v ∈ s.visited, v ∈ (s.leave name rest).visited :=
    fun v hv => List.mem_cons_of_mem _ hv
  refine ⟨?_, ?_, hrest, ?_, ?_, fun v hv => hgrow v (h.kept v hv), ?_, h.once, ?_⟩
  · rcases (h.frames_cons hstack).leave with ⟨hnil, hroot⟩ | ⟨hframes, _⟩
    · exact .inl ⟨hnil, hroot ▸ List.mem_cons_self⟩
    · exact .inr (hframes.mono hgrow)
  · rcases (h.frames_cons hstack).leave with ⟨hnil, _⟩ | ⟨_, hhead⟩
    · intro frame hframe
      have hnone : frame ∈ rest.head? := hframe
      rw [hnil] at hnone
      exact absurd hnone (by simp)
    · exact hhead
  · intro v position
    show (s.activeIndices.pop name).get? v = some position ↔
      (rest.map Prod.fst).reverse[position]? = some v
    rw [Dictionary.get?_pop]
    split_ifs with hv
    · rw [hv]
      constructor
      · exact fun hnone => absurd hnone (by simp)
      · intro hmem
        exact absurd (List.mem_reverse.mp (List.mem_of_getElem? hmem)) hname
    · rw [hactive, List.reverse_cons, getElem?_concat_of_ne hv]
  · intro v hv
    rcases List.mem_cons.mp hv with rfl | hv
    · exact hname
    · exact fun hmem => hfresh v hv (List.mem_cons_of_mem _ hmem)
  · intro v hv
    rcases List.mem_cons.mp hv with rfl | hv
    · refine ⟨v, ?_⟩
      rintro b ⟨e, he, rfl⟩
      exact h.accessible _ (hdone e he)
    · exact h.accessible v hv
  · intro c hc
    rcases h.logged c hc with hvisited | ⟨j, hj, hlt⟩
    · exact .inl (hgrow _ hvisited)
    · rw [hstack] at hj
      rcases List.mem_cons.mp hj with heq | hj
      · rw [(Prod.mk.inj heq).1]
        exact .inl List.mem_cons_self
      · exact .inr ⟨j, hj, hlt⟩

/-- The closing edge leads back to where the path passes. -/
theorem Searching.cycle {cycleStart : ℕ} (h : Searching edges root before s)
    (hstack : s.stack = (name, i) :: rest) (hedge : (edges name)[i]? = some edge)
    (hactive : s.activeIndices.get? edge.targetFile = some cycleStart) :
    ReflTransGen (Points edges) root edge.targetFile ∧
      Walk edges edge.targetFile (s.pathEdges.drop cycleStart ++ [edge]) edge.targetFile := by
  have hframes := h.frames_cons hstack
  have hmem := List.mem_of_getElem? hedge
  have hstart := (h.active _ _).mp hactive
  rw [hstack] at hstart
  constructor
  · exact (hframes.walk hframes.bottom).reaches.tail ⟨edge, hmem, rfl⟩
  · exact .concat (hframes.walk hstart) hmem

section Equations

theorem run_nil (hstack : s.stack = []) : s.run dependencies = (s, none) := by
  rw [Search.run]
  split
  · rfl
  · next hcons => exact absurd (hstack.symm.trans hcons) (by simp)

variable (hstack : s.stack = (name, i) :: rest)

include hstack

theorem run_leave (hend : (edgesOf dependencies name)[i]? = none) :
    s.run dependencies = (s.leave name rest).run dependencies := by
  rw [Search.run]
  split
  · next hnil => exact absurd (hnil.symm.trans hstack) (by simp)
  · next name' i' rest' hcons =>
    obtain ⟨htop, rfl⟩ := List.cons.inj (hstack.symm.trans hcons)
    obtain ⟨rfl, rfl⟩ := Prod.mk.inj htop
    split
    · rfl
    · next hedge => exact absurd (hend.symm.trans hedge) (by simp)

theorem run_edge (hedge : (edgesOf dependencies name)[i]? = some edge) :
    s.run dependencies =
      match s.activeIndices.get? edge.targetFile with
      | some cycleStart => (s.examine name i rest, some ⟨s.pathEdges, cycleStart, edge⟩)
      | none =>
        if edge.targetFile ∈ s.visited then (s.examine name i rest).run dependencies
        else ((s.examine name i rest).enter edge).run dependencies := by
  rw [Search.run]
  split
  · next hnil => exact absurd (hnil.symm.trans hstack) (by simp)
  · next name' i' rest' hcons =>
    obtain ⟨htop, rfl⟩ := List.cons.inj (hstack.symm.trans hcons)
    obtain ⟨rfl, rfl⟩ := Prod.mk.inj htop
    split
    · next hend => exact absurd (hend.symm.trans hedge) (by simp)
    · next edge' hedge' =>
      obtain rfl := Option.some.inj (hedge'.symm.trans hedge)
      split
      · next cycleStart hactive => simp only [hactive]
      · next hactive =>
        simp only [hactive]
        split_ifs <;> rfl

end Equations

/-- What an error of the search tells about the graph below some roots. -/
def ClosesCycle (edges : Text → List FileTypeDependency) (roots : List Text)
    (error : CycleError) : Prop :=
  ∃ root ∈ roots, ∃ a, ReflTransGen (Points edges) root a ∧
    Walk edges a error.cycle a

theorem Searching.run (h : Searching (edgesOf dependencies) root before s) :
    (s.run dependencies).1.examined.Nodup ∧
      (∀ error ∈ (s.run dependencies).2, ClosesCycle (edgesOf dependencies) [root] error) ∧
      ((s.run dependencies).2 = none →
        Searching (edgesOf dependencies) root before (s.run dependencies).1 ∧
          (s.run dependencies).1.stack = []) := by
  induction s using Search.run.induct dependencies with
  | case1 s hstack =>
    rw [run_nil hstack]
    exact ⟨h.once, by simp, fun _ => ⟨h, hstack⟩⟩
  | case2 s name i rest hstack hend ih =>
    rw [run_leave hstack hend]
    exact ih (h.leave hstack hend)
  | case3 s name i rest hstack edge hedge cycleStart hactive =>
    rw [run_edge hstack hedge, hactive]
    refine ⟨List.nodup_cons.mpr ⟨h.notMem_examined hstack, h.once⟩, ?_, by simp⟩
    intro error herror
    obtain rfl := Option.some.inj herror
    exact ⟨root, List.mem_cons_self, _, h.cycle hstack hedge hactive⟩
  | case4 s name i rest hstack edge hedge hactive hvisited ih =>
    rw [run_edge hstack hedge, hactive]
    simp only [if_pos hvisited]
    exact ih (h.examine hstack hedge hvisited)
  | case5 s name i rest hstack edge hedge hactive hvisited ih =>
    rw [run_edge hstack hedge, hactive]
    simp only [if_neg hvisited]
    exact ih (h.enter hstack hedge hactive hvisited)

/-- What holds of the search between two roots. -/
structure Rested (edges : Text → List FileTypeDependency) (before : List Text) (s : Search) :
    Prop where
  kept : ∀ v ∈ before, v ∈ s.visited
  accessible : ∀ v ∈ s.visited, Acc (Function.swap (Points edges)) v
  once : s.examined.Nodup
  logged : ∀ c ∈ s.examined, c.1 ∈ s.visited

theorem Rested.start (h : Rested edges before s) (hroot : root ∉ s.visited) :
    Searching edges root before
      { s with
        activeIndices := Dictionary.empty.set root 0
        pathEdges := []
        stack := [(root, 0)] } := by
  refine ⟨.inr (.start 0), ?_, List.nodup_singleton _, ?_, ?_, h.kept, h.accessible, h.once,
    fun c hc => .inl (h.logged c hc)⟩
  · intro frame hframe
    obtain rfl : (root, 0) = frame := by simpa using hframe
    exact ⟨Nat.zero_le _, fun e he => absurd he (by simp)⟩
  · intro v position
    show (Dictionary.empty.set root 0).get? v = some position ↔ [root][position]? = some v
    rw [Dictionary.get?_set]
    split_ifs with hv
    · rw [hv, Option.some.injEq, ← List.nil_append [root], getElem?_concat_self List.not_mem_nil]
      exact eq_comm
    · rw [← List.nil_append [root], getElem?_concat_of_ne hv]
      simp
  · intro v hv hmem
    rw [List.mem_singleton.mp hmem] at hv
    exact hroot hv

theorem Searching.rested (h : Searching edges root before s) (hstack : s.stack = []) :
    Rested edges (root :: before) s := by
  have hroot : root ∈ s.visited := by
    rcases h.frames with ⟨_, hroot⟩ | hframes
    · exact hroot
    · rw [hstack] at hframes
      nomatch hframes
  refine ⟨List.forall_mem_cons.mpr ⟨hroot, h.kept⟩, h.accessible, h.once, fun c hc => ?_⟩
  rcases h.logged c hc with hvisited | ⟨i, hi, _⟩
  · exact hvisited
  · rw [hstack] at hi
    exact absurd hi List.not_mem_nil

theorem Rested.mono {after : List Text} (h : Rested edges before s)
    (hkept : ∀ v ∈ after, v ∈ s.visited) : Rested edges after s :=
  ⟨hkept, h.accessible, h.once, h.logged⟩

theorem searchRoots_spec (roots : List Text) (h : Rested (edgesOf dependencies) before s) :
    (searchRoots dependencies roots s).1.examined.Nodup ∧
      (∀ error ∈ (searchRoots dependencies roots s).2,
        ClosesCycle (edgesOf dependencies) roots error) ∧
      ((searchRoots dependencies roots s).2 = none →
        Rested (edgesOf dependencies) (before ++ roots) (searchRoots dependencies roots s).1) := by
  induction roots generalizing before s with
  | nil => exact ⟨h.once, by simp [searchRoots], fun _ => by simpa [searchRoots] using h⟩
  | cons root roots ih =>
    have hlater : ∀ error, ClosesCycle (edgesOf dependencies) roots error →
        ClosesCycle (edgesOf dependencies) (root :: roots) error := by
      rintro error ⟨r, hr, hcycle⟩
      exact ⟨r, List.mem_cons_of_mem _ hr, hcycle⟩
    have hafter : before ++ root :: roots = (before ++ [root]) ++ roots := by simp
    rw [searchRoots, hafter]
    split_ifs with hroot
    · have hrested : Rested (edgesOf dependencies) (before ++ [root]) s :=
        h.mono (List.forall_mem_append.mpr ⟨h.kept, List.forall_mem_singleton.mpr hroot⟩)
      obtain ⟨honce, herror, hnone⟩ := ih hrested
      exact ⟨honce, fun error hmem => hlater error (herror error hmem), hnone⟩
    · obtain ⟨honce, herror, hnone⟩ := (h.start hroot).run
      split
      · next s' error hrun =>
        rw [hrun] at honce herror
        refine ⟨honce, ?_, by simp⟩
        intro error' hmem
        obtain ⟨r, hr, hcycle⟩ := herror error' hmem
        rw [List.mem_singleton.mp hr] at hcycle
        exact ⟨root, List.mem_cons_self, hcycle⟩
      · next s' hrun =>
        rw [hrun] at hnone
        obtain ⟨hsearching, hstack⟩ := hnone rfl
        have hrested := hsearching.rested hstack
        have hkept : ∀ v ∈ before ++ [root], v ∈ s'.visited := by
          intro v hv
          rcases List.mem_append.mp hv with hv | hv
          · exact hrested.kept v (List.mem_cons_of_mem _ hv)
          · rw [List.mem_singleton.mp hv]
            exact hrested.kept root List.mem_cons_self
        obtain ⟨honce, herror, hnone⟩ := ih (hrested.mono hkept)
        exact ⟨honce, fun error hmem => hlater error (herror error hmem), hnone⟩

end Invariant

section Graph

variable {files : Files}

/-- A field of one file refers to a type that another file declares. -/
structure CrossFileReference (files : Files) (edge : FileTypeDependency) : Prop where
  field : ∃ file ∈ files.items, file.name = edge.sourceFile ∧ edge.reference ∈ referencedTypes file
  target : declaringFile files.items (normalizeTypeName edge.reference.typeName) =
    some edge.targetFile
  cross : edge.targetFile ≠ edge.sourceFile

/-- Some field of the first file refers to a type of the second one. -/
def Refers (files : Files) (a b : Text) : Prop :=
  ∃ edge, CrossFileReference files edge ∧ edge.sourceFile = a ∧ edge.targetFile = b

/-- References that lead from file to file and back to the first one. -/
structure ClosedWalk (files : Files) (walk : List FileTypeDependency) : Prop where
  ne_nil : walk ≠ []
  references : ∀ edge ∈ walk, CrossFileReference files edge
  chain : walk.IsChain fun e f => e.targetFile = f.sourceFile
  closed : ∀ first ∈ walk.head?, ∀ last ∈ walk.getLast?, last.targetFile = first.sourceFile

theorem mem_crossFileEdges {file : FileDescriptorProto} {edge : FileTypeDependency} :
    edge ∈ crossFileEdges (indexDeclaredTypes files.items) file ↔
      file.name = edge.sourceFile ∧ edge.reference ∈ referencedTypes file ∧
        declaringFile files.items (normalizeTypeName edge.reference.typeName) =
          some edge.targetFile ∧ edge.targetFile ≠ edge.sourceFile := by
  unfold crossFileEdges
  rw [List.mem_filterMap]
  simp only [get?_indexDeclaredTypes]
  constructor
  · rintro ⟨reference, hreference, hedge⟩
    split at hedge
    · exact absurd hedge.symm (Option.some_ne_none _)
    · next target htarget =>
      split_ifs at hedge with hsame
      obtain rfl := Option.some.inj hedge
      exact ⟨rfl, hreference, htarget, hsame⟩
  · rintro ⟨hname, hreference, htarget, hcross⟩
    refine ⟨edge.reference, hreference, ?_⟩
    rw [htarget, hname]
    exact if_neg hcross

theorem edgesOf_appendEdge (dependencies : Dictionary Text (List FileTypeDependency))
    (edge : FileTypeDependency) (name : Text) :
    edgesOf (appendEdge dependencies edge) name =
      edgesOf dependencies name ++ if edge.sourceFile = name then [edge] else [] := by
  unfold edgesOf appendEdge
  rw [Dictionary.get?_set]
  split_ifs with hname heq heq
  · rw [hname]
    rfl
  · exact absurd hname.symm heq
  · exact absurd heq.symm hname
  · rw [List.append_nil]

theorem edgesOf_appendEdges (dependencies : Dictionary Text (List FileTypeDependency))
    (edges : List FileTypeDependency) (name : Text) :
    edgesOf (edges.foldl appendEdge dependencies) name =
      edgesOf dependencies name ++ edges.filter fun edge => edge.sourceFile = name := by
  induction edges generalizing dependencies with
  | nil => simp
  | cons edge edges ih =>
    rw [List.foldl_cons, ih, edgesOf_appendEdge, List.append_assoc]
    by_cases hname : edge.sourceFile = name
    · simp [hname]
    · simp [hname]

theorem edgesOf_files (typeFiles : Dictionary Text Text) (items : List FileDescriptorProto)
    (dependencies : Dictionary Text (List FileTypeDependency)) (name : Text) :
    edgesOf (items.foldl (fun dependencies file =>
        (crossFileEdges typeFiles file).foldl appendEdge dependencies) dependencies) name =
      edgesOf dependencies name ++ items.flatMap fun file =>
        (crossFileEdges typeFiles file).filter fun edge => edge.sourceFile = name := by
  induction items generalizing dependencies with
  | nil => simp
  | cons file items ih =>
    rw [List.foldl_cons, ih, edgesOf_appendEdges, List.flatMap_cons, List.append_assoc]

theorem mem_edgesOf {name : Text} {edge : FileTypeDependency} :
    edge ∈ edgesOf (fileTypeDependencies files) name ↔
      CrossFileReference files edge ∧ edge.sourceFile = name := by
  have hsorted : edgesOf (fileTypeDependencies files) name =
      (edgesOf (files.items.foldl (fun dependencies file =>
        (crossFileEdges (indexDeclaredTypes files.items) file).foldl appendEdge dependencies)
        Dictionary.empty) name).insertionSort fun a b => a.sortKey ≤ b.sortKey := by
    unfold edgesOf fileTypeDependencies
    rw [Dictionary.get?_mapValues]
    cases Dictionary.get? _ name <;> rfl
  rw [hsorted, (List.perm_insertionSort _ _).mem_iff, edgesOf_files, List.mem_append]
  have hempty : edge ∉ edgesOf Dictionary.empty name := List.not_mem_nil
  simp only [hempty, false_or, List.mem_flatMap, List.mem_filter, decide_eq_true_eq,
    mem_crossFileEdges]
  constructor
  · rintro ⟨file, hfile, ⟨hname, hreference, htarget, hcross⟩, hsource⟩
    exact ⟨⟨⟨file, hfile, hname, hreference⟩, htarget, hcross⟩, hsource⟩
  · rintro ⟨⟨⟨file, hfile, hname, hreference⟩, htarget, hcross⟩, hsource⟩
    exact ⟨file, hfile, ⟨hname, hreference, htarget, hcross⟩, hsource⟩

theorem points_iff {a b : Text} :
    Points (edgesOf (fileTypeDependencies files)) a b ↔ Refers files a b := by
  constructor
  · rintro ⟨edge, hedge, rfl⟩
    obtain ⟨hreference, rfl⟩ := mem_edgesOf.mp hedge
    exact ⟨edge, hreference, rfl, rfl⟩
  · rintro ⟨edge, hreference, rfl, rfl⟩
    exact ⟨edge, mem_edgesOf.mpr ⟨hreference, rfl⟩, rfl⟩

theorem ClosesCycle.closedWalk {roots : List Text} {error : CycleError}
    (h : ClosesCycle (edgesOf (fileTypeDependencies files)) roots error) :
    ClosedWalk files error.cycle := by
  obtain ⟨_, _, a, _, hwalk⟩ := h
  obtain ⟨hchain, hhead, hlast⟩ := hwalk.chain fun c edge hedge => (mem_edgesOf.mp hedge).2
  refine ⟨List.append_ne_nil_of_right_ne_nil _ (List.cons_ne_nil _ _), ?_, hchain, ?_⟩
  · intro edge hedge
    obtain ⟨c, hc⟩ := hwalk.mem edge hedge
    exact (mem_edgesOf.mp hc).1
  · intro first hfirst last hmem
    rw [hhead first hfirst, hlast last hmem]

end Graph

/-- The search finds a cycle exactly when one can be reached from a root, the cycle it reports is
one, and it examines no edge twice. -/
theorem validateNoCrossFileTypeCycles_correct (files : Files) (roots : List Text) :
    ((validateNoCrossFileTypeCycles files roots).2 ≠ none ↔
      ∃ root ∈ roots, ∃ a, ReflTransGen (Refers files) root a ∧ TransGen (Refers files) a a) ∧
    (∀ error ∈ (validateNoCrossFileTypeCycles files roots).2,
      ClosedWalk files error.cycle) ∧
    (validateNoCrossFileTypeCycles files roots).1.examined.Nodup := by
  have hpoints : Points (edgesOf (fileTypeDependencies files)) = Refers files := by
    funext a b
    exact propext points_iff
  have hstart : Rested (edgesOf (fileTypeDependencies files)) []
      ⟨Dictionary.empty, [], [], [], []⟩ :=
    ⟨by simp, by simp, List.nodup_nil, by simp⟩
  obtain ⟨honce, herror, hnone⟩ := searchRoots_spec roots hstart
  refine ⟨⟨fun hraises => ?_, ?_⟩, fun error hmem => (herror error hmem).closedWalk, honce⟩
  · obtain ⟨error, hmem⟩ := Option.ne_none_iff_exists'.mp hraises
    obtain ⟨root, hroot, a, hpath, hwalk⟩ := herror error hmem
    rw [← hpoints]
    exact ⟨root, hroot, a, hpath, hwalk.transGen⟩
  · rintro ⟨root, hroot, a, hpath, hcycle⟩ hok
    have hrested := hnone hok
    have hacc := hrested.accessible root (hrested.kept root hroot)
    rw [hpoints] at hacc
    exact not_transGen_of_acc (acc_of_reflTransGen hacc hpath) hcycle

end Protocyte.Descriptors
