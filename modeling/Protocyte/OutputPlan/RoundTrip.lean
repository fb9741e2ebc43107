import Protocyte.OutputPlan.Plan
import Protocyte.Foundation.Computation
import Mathlib.Data.List.Perm.Basic

/-! A plan that is read is loaded again from what is stored for it, unless it places a runtime header
in the output root itself. -/
namespace Protocyte.OutputPlan

open Foundation Foundation.Computation

variable {P : Type} [DecidableEq P] {setting : Setting P}

private theorem failed_ne_ok {α : Type} {message : String} {context : Text} {a : α} :
    failed message context ≠ .ok a := by
  simp [failed]

section Lines

/-- The path an output line of a plan gives, as it is spelled there. -/
def outputValue (line : Text) : Option Text :=
  match partitionAt '=' line with
  | none => none
  | some (key, value) =>
    if key = "output".toList then
      match partitionAt '|' value with
      | none => none
      | some (_, encodedRelative) => (decodeHex encodedRelative).toOption
    else none

/-- The output paths of a plan file. -/
def outputPaths (bytes : List UInt8) : List Text := ((planLines bytes).drop 1).filterMap outputValue

/-- An output is read from a path. -/
structure ReadFrom (casefolding : Casefolding) (value : Text) (output : PlanOutput) : Prop where
  target : isSha256 output.target = true
  relative : validateRelativePath casefolding value = .ok output.relative

/-- What is known of a reading once some lines are read. -/
structure Reads (setting : Setting P) (lines : List Text) (reading : Reading P) : Prop where
  outputs : List.Forall₂ (ReadFrom setting.casefolding) (lines.filterMap outputValue) reading.outputs
  targets : ∀ target ∈ reading.targets, isSha256 target.identity = true

variable {source line value : Text} {reading reading' : Reading P} {lines : List Text}

theorem readTarget_ok {target : PlanTarget P} (h : readTarget setting source value = .ok target) :
    isSha256 target.identity = true := by
  unfold readTarget at h
  cases hsplit : partitionAt '|' value with
  | none =>
    rw [hsplit] at h
    exact absurd h failed_ne_ok
  | some parts =>
    rw [hsplit] at h
    dsimp only at h
    by_cases hsha : isSha256 parts.1 = true
    · rw [hsha] at h
      obtain ⟨decoded, -, h⟩ := except_bind_eq_ok.mp h
      obtain ⟨staging, -, h⟩ := except_bind_eq_ok.mp h
      cases h
      exact hsha
    · rw [Bool.not_eq_true] at hsha
      rw [hsha] at h
      exact absurd h failed_ne_ok

omit [DecidableEq P] in
theorem readOutput_ok {output : PlanOutput} (h : readOutput setting source value = .ok output) :
    ∃ target encoded path, partitionAt '|' value = some (target, encoded) ∧
      decodeHex encoded = .ok path ∧ ReadFrom setting.casefolding path output := by
  unfold readOutput at h
  cases hsplit : partitionAt '|' value with
  | none =>
    rw [hsplit] at h
    exact absurd h failed_ne_ok
  | some parts =>
    rw [hsplit] at h
    dsimp only at h
    by_cases hsha : isSha256 parts.1 = true
    · rw [hsha] at h
      obtain ⟨path, hpath, h⟩ := except_bind_eq_ok.mp h
      obtain ⟨relative, hrelative, h⟩ := except_bind_eq_ok.mp h
      cases h
      exact ⟨parts.1, parts.2, path, rfl, hpath, hsha, hrelative⟩
    · rw [Bool.not_eq_true] at hsha
      rw [hsha] at h
      exact absurd h failed_ne_ok

theorem Reads.step (h : Reads setting lines reading)
    (hline : readLine setting source reading line = .ok reading') :
    Reads setting (lines ++ [line]) reading' := by
  unfold readLine at hline
  cases hsplit : partitionAt '=' line with
  | none =>
    rw [hsplit] at hline
    exact absurd hline failed_ne_ok
  | some parts =>
    obtain ⟨key, value⟩ := parts
    rw [hsplit] at hline
    dsimp only at hline
    by_cases htarget : key = "target".toList
    · rw [if_pos htarget] at hline
      obtain ⟨target, hread, hline⟩ := except_bind_eq_ok.mp hline
      cases hline
      have hvalue : outputValue line = none := by
        unfold outputValue
        rw [hsplit]
        exact if_neg (htarget ▸ by decide)
      constructor
      · rw [List.filterMap_append, List.filterMap_cons_none hvalue, List.filterMap_nil,
          List.append_nil]
        exact h.outputs
      · intro other hother
        rcases List.mem_append.mp hother with hother | hother
        · exact h.targets other hother
        · rw [List.mem_singleton.mp hother]
          exact readTarget_ok hread
    · rw [if_neg htarget] at hline
      by_cases houtput : key = "output".toList
      · rw [if_pos houtput] at hline
        obtain ⟨output, hread, hline⟩ := except_bind_eq_ok.mp hline
        cases hline
        obtain ⟨target, encoded, path, hparts, hpath, hfrom⟩ := readOutput_ok hread
        have hvalue : outputValue line = some path := by
          unfold outputValue
          rw [hsplit]
          dsimp only
          rw [if_pos houtput, hparts]
          dsimp only
          rw [hpath]
          rfl
        constructor
        · rw [List.filterMap_append, List.filterMap_cons_some hvalue, List.filterMap_nil]
          exact List.rel_append h.outputs (.cons hfrom .nil)
        · exact h.targets
      · rw [if_neg houtput] at hline
        have hvalue : outputValue line = none := by
          unfold outputValue
          rw [hsplit]
          exact if_neg houtput
        split_ifs at hline with hrepeated
        · exact absurd hline failed_ne_ok
        · cases hline
          constructor
          · rw [List.filterMap_append, List.filterMap_cons_none hvalue, List.filterMap_nil,
              List.append_nil]
            exact h.outputs
          · exact h.targets

theorem Reads.run {rest : List Text} (h : Reads setting lines reading)
    (hrest : rest.foldlM (readLine setting source) reading = .ok reading') :
    Reads setting (lines ++ rest) reading' := by
  induction rest generalizing lines reading with
  | nil =>
    cases hrest
    rw [List.append_nil]
    exact h
  | cons line rest ih =>
    rw [List.foldlM_cons] at hrest
    obtain ⟨next, hnext, hrest⟩ := except_bind_eq_ok.mp hrest
    have hstep := ih (h.step hnext) hrest
    rw [List.append_assoc] at hstep
    exact hstep

/-- A plan that is read is assembled from its lines. -/
theorem read_ok {plan : Plan P} {bytes : List UInt8}
    (h : read setting source (some bytes) = .ok plan) :
    ∃ reading, Reads setting ((planLines bytes).drop 1) reading ∧
      assemble setting source reading = .ok plan := by
  unfold read at h
  dsimp only at h
  split_ifs at h with hascii
  · exact absurd h failed_ne_ok
  · cases hlines : planLines bytes with
    | nil =>
      rw [hlines] at h
      exact absurd h failed_ne_ok
    | cons header lines =>
      rw [hlines] at h
      dsimp only at h
      split_ifs at h with hheader
      · exact absurd h failed_ne_ok
      · obtain ⟨reading, hreading, h⟩ := except_bind_eq_ok.mp h
        have hempty : Reads setting [] (⟨[], [], []⟩ : Reading P) := ⟨.nil, by simp⟩
        exact ⟨reading, hempty.run hreading, h⟩

end Lines

section Projections

variable {host : Host P} {p q path : P} {leafMayBeFile : Bool} {description : String}

omit [DecidableEq P] in
theorem requireAbsolute_eq_ok :
    requireAbsolute host path description = .ok p ↔
      host.isAbsolute path = true ∧ hasControlCharacter (host.text path) = false ∧
        host.path (host.normpath (host.text path)) = p := by
  unfold requireAbsolute
  split_ifs with hcheck
  · refine iff_of_false failed_ne_ok ?_
    intro ⟨habsolute, hcontrol, _⟩
    rw [habsolute, hcontrol] at hcheck
    exact absurd hcheck (by decide)
  · simp only [Bool.or_eq_true, Bool.not_eq_true', not_or, Bool.not_eq_false,
      Bool.not_eq_true] at hcheck
    rw [Except.ok.injEq]
    exact ⟨fun h => ⟨hcheck.1, hcheck.2, h⟩, fun h => h.2.2⟩

theorem projectPath_normalized (h : projectPath host p leafMayBeFile = .ok q) :
    host.path (host.normpath (host.text q)) = q := by
  unfold projectPath at h
  obtain ⟨path, -, h⟩ := except_bind_eq_ok.mp h
  obtain ⟨⟨existing, suffix⟩, -, h⟩ := except_bind_eq_ok.mp h
  dsimp only at h
  split at h
  · exact absurd h failed_ne_ok
  · cases hstat : host.stat existing with
    | error error => cases error <;> rw [hstat] at h <;> exact absurd h failed_ne_ok
    | ok observed =>
      rw [hstat] at h
      dsimp only at h
      split at h
      · exact absurd h failed_ne_ok
      · cases hresolve : host.resolve existing with
        | error error => cases error <;> rw [hresolve] at h <;> exact absurd h failed_ne_ok
        | ok projected =>
          rw [hresolve] at h
          dsimp only at h
          split at h
          · exact absurd h failed_ne_ok
          · rw [← Except.ok.inj h]
            exact host.normpath_again _

/-- A path that is projected to itself is an absolute one. -/
theorem requireAbsolute_of_projected (h : projectPath host p false = .ok p) :
    requireAbsolute host p description = .ok p := by
  have hnormalized := projectPath_normalized h
  unfold projectPath at h
  obtain ⟨path, hpath, -⟩ := except_bind_eq_ok.mp h
  obtain ⟨habsolute, hcontrol, -⟩ := requireAbsolute_eq_ok.mp hpath
  exact requireAbsolute_eq_ok.mpr ⟨habsolute, hcontrol, hnormalized⟩

theorem validateStagingPath_projected {root : Option P} {identity : Text}
    (h : validateStagingPath setting root identity p = .ok q) :
    ∃ absolute, projectPath setting.host absolute false = .ok q := by
  unfold validateStagingPath at h
  obtain ⟨absolute, -, h⟩ := except_bind_eq_ok.mp h
  obtain ⟨path, hpath, h⟩ := except_bind_eq_ok.mp h
  have hq : path = q := by
    cases root with
    | none => exact Except.ok.inj h
    | some root =>
      obtain ⟨expected, -, h⟩ := except_bind_eq_ok.mp h
      split_ifs at h with hexpected
      · exact absurd h failed_ne_ok
      · obtain ⟨overlaps, -, h⟩ := except_bind_eq_ok.mp h
        cases overlaps with
        | true => exact absurd h failed_ne_ok
        | false => exact Except.ok.inj h
  exact ⟨absolute, hq ▸ hpath⟩

/-- A staging directory that passes the checks passes them again. -/
theorem validateStagingPath_again (hstable : Stable setting.host) {root : P} {identity : Text}
    (h : validateStagingPath setting (some root) identity p = .ok q) :
    validateStagingPath setting (some root) identity q = .ok q := by
  obtain ⟨absolute, hproject⟩ := validateStagingPath_projected h
  have hself := hstable absolute q hproject
  unfold validateStagingPath at h ⊢
  obtain ⟨absolute, -, h⟩ := except_bind_eq_ok.mp h
  obtain ⟨path, hpath, h⟩ := except_bind_eq_ok.mp h
  rw [except_bind_of_ok (requireAbsolute_of_projected hself), except_bind_of_ok hself]
  obtain ⟨expected, hexpected, hrest⟩ := except_bind_eq_ok.mp h
  have hq : path = q := by
    split_ifs at hrest with hne
    · exact absurd hrest failed_ne_ok
    · obtain ⟨overlaps, -, hrest⟩ := except_bind_eq_ok.mp hrest
      cases overlaps with
      | true => exact absurd hrest failed_ne_ok
      | false => exact Except.ok.inj hrest
  rw [hq] at h
  exact h

end Projections

section Sorting

variable {targets targets' : List (PlanTarget P)} {outputs outputs' : List PlanOutput}

omit [DecidableEq P] in
theorem sortTargets_perm (targets : List (PlanTarget P)) : (sortTargets targets).Perm targets :=
  List.perm_insertionSort _ _

theorem sortOutputs_perm (outputs : List PlanOutput) : (sortOutputs outputs).Perm outputs :=
  List.perm_insertionSort _ _

omit [DecidableEq P] in
theorem sortTargets_again (targets : List (PlanTarget P)) :
    sortTargets (sortTargets targets) = sortTargets targets := by
  have htotal : Std.Total fun a b : PlanTarget P => a.identity ≤ b.identity :=
    ⟨fun a b => le_total a.identity b.identity⟩
  have htrans : IsTrans (PlanTarget P) fun a b => a.identity ≤ b.identity :=
    ⟨fun _ _ _ => le_trans⟩
  exact (List.pairwise_insertionSort _ targets).insertionSort_eq

theorem sortOutputs_again (outputs : List PlanOutput) :
    sortOutputs (sortOutputs outputs) = sortOutputs outputs := by
  have htotal : Std.Total fun a b : PlanOutput =>
      toLex (a.relative, a.target) ≤ toLex (b.relative, b.target) :=
    ⟨fun a b => le_total (toLex (a.relative, a.target)) (toLex (b.relative, b.target))⟩
  have htrans : IsTrans PlanOutput fun a b =>
      toLex (a.relative, a.target) ≤ toLex (b.relative, b.target) :=
    ⟨fun _ _ _ => le_trans⟩
  exact (List.pairwise_insertionSort _ outputs).insertionSort_eq

omit [DecidableEq P] in
theorem validatePlanTargets_eq_ok {source : Text} :
    validatePlanTargets setting targets outputs source = .ok () ↔
      (targets.map PlanTarget.identity).Nodup ∧
        (targets.map fun target =>
          setting.casefolding.text (setting.host.text target.staging)).Nodup ∧
        ∀ identity, identity ∈ targets.map PlanTarget.identity ↔
          identity ∈ outputs.map PlanOutput.target := by
  have hsame : ((targets.map PlanTarget.identity).all (outputs.map PlanOutput.target).contains &&
      (outputs.map PlanOutput.target).all (targets.map PlanTarget.identity).contains) = true ↔
      ∀ identity, identity ∈ targets.map PlanTarget.identity ↔
        identity ∈ outputs.map PlanOutput.target := by
    simp only [Bool.and_eq_true, List.all_eq_true, List.contains_iff_mem]
    exact ⟨fun h identity => ⟨h.1 identity, h.2 identity⟩,
      fun h => ⟨fun identity => (h identity).mp, fun identity => (h identity).mpr⟩⟩
  unfold validatePlanTargets
  dsimp only
  split_ifs with hrepeats hmatch
  · refine iff_of_false failed_ne_ok ?_
    intro ⟨hidentities, hstaging, _⟩
    exact hrepeats.elim (fun h => h hidentities) fun h => h hstaging
  · refine iff_of_false failed_ne_ok ?_
    intro ⟨_, _, hidentities⟩
    rw [hsame.mpr hidentities] at hmatch
    exact absurd hmatch (by decide)
  · rw [Bool.not_eq_true', Bool.not_eq_false] at hmatch
    push Not at hrepeats
    exact iff_of_true rfl ⟨hrepeats.1, hrepeats.2, hsame.mp hmatch⟩

omit [DecidableEq P] in
/-- The check of the targets does not see the order. -/
theorem validatePlanTargets_perm {source source' : Text} (ht : targets'.Perm targets)
    (ho : outputs'.Perm outputs) (h : validatePlanTargets setting targets outputs source = .ok ()) :
    validatePlanTargets setting targets' outputs' source' = .ok () := by
  obtain ⟨hidentities, hstaging, hsame⟩ := validatePlanTargets_eq_ok.mp h
  refine validatePlanTargets_eq_ok.mpr ⟨?_, ?_, ?_⟩
  · exact (ht.map _).nodup_iff.mpr hidentities
  · exact (ht.map _).nodup_iff.mpr hstaging
  · intro identity
    rw [(ht.map _).mem_iff, (ho.map _).mem_iff]
    exact hsame identity

end Sorting

section Records

/-- What a plan keeps that is read, with the given output paths, while the file system does not
change. -/
structure Plan.Recorded (setting : Setting P) (values : List Text) (plan : Plan P) : Prop where
  root : projectPath setting.host plan.root false = .ok plan.root
  buildRoot : projectPath setting.host plan.buildRoot false = .ok plan.buildRoot
  buildId : pathKey setting.host setting.casefolding setting.sha256 plan.buildRoot = .ok plan.buildId
  identities : ∀ target ∈ plan.targets, isSha256 target.identity = true
  staging : ∀ target ∈ plan.targets,
    validateStagingPath setting (some plan.root) target.identity target.staging = .ok target.staging
  outputs : List.Forall₂ (ReadFrom setting.casefolding) values plan.outputs
  targets : ∀ source, validatePlanTargets setting plan.targets plan.outputs source = .ok ()
  sortedTargets : sortTargets plan.targets = plan.targets
  sortedOutputs : sortOutputs plan.outputs = plan.outputs

variable {plan : Plan P} {source : Text} {reading : Reading P} {lines : List Text}

theorem assemble_recorded (hstable : Stable setting.host) (hreads : Reads setting lines reading)
    (h : assemble setting source reading = .ok plan) :
    ∃ values, values.Perm (lines.filterMap outputValue) ∧ plan.Recorded setting values := by
  unfold assemble at h
  split_ifs at h with hkeys
  · exact absurd h failed_ne_ok
  · obtain ⟨rootText, -, h⟩ := except_bind_eq_ok.mp h
    obtain ⟨root, hroot, h⟩ := except_bind_eq_ok.mp h
    obtain ⟨buildRootText, -, h⟩ := except_bind_eq_ok.mp h
    obtain ⟨buildRoot, hbuildRoot, h⟩ := except_bind_eq_ok.mp h
    obtain ⟨buildId, hbuildId, h⟩ := except_bind_eq_ok.mp h
    obtain ⟨targets, htargets, h⟩ := except_bind_eq_ok.mp h
    obtain ⟨_, hvalid, h⟩ := except_bind_eq_ok.mp h
    obtain ⟨_, _, h⟩ := except_bind_eq_ok.mp h
    cases h
    have hfrom : ∀ target ∈ targets, isSha256 target.identity = true ∧
        validateStagingPath setting (some root) target.identity target.staging =
          .ok target.staging := by
      intro target htarget
      obtain ⟨given, hgiven, hresult⟩ := exists_of_mapM_ok htargets htarget
      obtain ⟨staging, hstaging, hresult⟩ := except_bind_eq_ok.mp hresult
      cases hresult
      exact ⟨hreads.targets given hgiven, validateStagingPath_again hstable hstaging⟩
    have hsorted : ∀ target ∈ sortTargets targets, target ∈ targets :=
      fun target => (sortTargets_perm targets).mem_iff.mp
    obtain ⟨values, houtputs, hvalues⟩ := List.perm_comp_forall₂ (sortOutputs_perm reading.outputs)
      hreads.outputs.flip
    refine ⟨values, hvalues, ?_⟩
    constructor
    · exact hstable _ _ hroot
    · exact hstable _ _ hbuildRoot
    · exact hbuildId
    · exact fun target htarget => (hfrom target (hsorted target htarget)).1
    · exact fun target htarget => (hfrom target (hsorted target htarget)).2
    · exact houtputs.flip
    · exact fun _ => validatePlanTargets_perm (sortTargets_perm _) (sortOutputs_perm _) hvalid
    · exact sortTargets_again targets
    · exact sortOutputs_again reading.outputs

end Records

section Loads

variable {plan : Plan P} {source : Text}

omit [DecidableEq P] in
theorem stored_keys : sameKeys (plan.stored setting) payloadKeys = true := by
  have hkeys : (plan.stored setting).map Prod.fst = ["build_id".toList, "build_root".toList,
      "outputs".toList, "root".toList, "targets".toList, "version".toList, "sha256".toList] := rfl
  unfold sameKeys
  rw [hkeys]
  decide

omit [DecidableEq P] in
theorem item_stored : item (plan.stored setting) "version" = .number 1 ∧
    item (plan.stored setting) "outputs" = .list (plan.outputs.map outputPayload) ∧
    item (plan.stored setting) "targets" = .list (plan.targets.map (targetPayload setting.host)) ∧
    item (plan.stored setting) "root" = .text (setting.host.text plan.root) ∧
    item (plan.stored setting) "build_root" = .text (setting.host.text plan.buildRoot) ∧
    item (plan.stored setting) "build_id" = .text plan.buildId ∧
    item (plan.stored setting) "sha256" = .text (plan.digest setting) :=
  ⟨rfl, rfl, rfl, rfl, rfl, rfl, rfl⟩

omit [DecidableEq P] in
/-- An output that is stored is loaded again, unless it is a runtime header in the root. -/
theorem loadOutput_stored {output output' : PlanOutput} {value : Text}
    (h : ReadFrom setting.casefolding value output) :
    loadOutput setting source (outputPayload output) = .ok output' ↔
      output' = output ∧ ¬BareRuntime setting.casefolding value := by
  have hpath : (item [("path".toList, .text output.relative),
      ("target".toList, .text output.target)] "path").str setting = output.relative := rfl
  have htarget : (item [("path".toList, .text output.relative),
      ("target".toList, .text output.target)] "target").str setting = output.target := rfl
  have hkeys : sameKeys [("path".toList, Value.text output.relative),
      ("target".toList, .text output.target)] ["path".toList, "target".toList] = true := rfl
  have hload : loadOutput setting source (outputPayload output) =
      (do
        let relative ← validateRelativePath setting.casefolding output.relative
        return ⟨output.target, relative⟩) := by
    unfold outputPayload loadOutput
    dsimp only
    rw [hkeys, hpath, htarget, h.target]
    rfl
  rw [hload, except_bind_eq_ok]
  constructor
  · intro ⟨relative, hrelative, houtput⟩
    obtain ⟨hsame, hbare⟩ := (validateRelativePath_again h.relative relative).mp hrelative
    rw [hsame] at houtput
    exact ⟨(Except.ok.inj houtput).symm, hbare⟩
  · intro ⟨hsame, hbare⟩
    refine ⟨output.relative, (validateRelativePath_again h.relative _).mpr ⟨rfl, hbare⟩, ?_⟩
    rw [hsame]
    rfl

theorem loadTarget_stored {target : PlanTarget P} {root : P}
    (h : isSha256 target.identity = true)
    (hstaging : validateStagingPath setting (some root) target.identity target.staging =
      .ok target.staging) :
    loadTarget setting source root (targetPayload setting.host target) = .ok target := by
  have hid : (item [("id".toList, .text target.identity),
      ("staging".toList, .text (setting.host.text target.staging))] "id").str setting =
        target.identity := rfl
  have hpath : (item [("id".toList, .text target.identity),
      ("staging".toList, .text (setting.host.text target.staging))] "staging").str setting =
        setting.host.text target.staging := rfl
  have hkeys : sameKeys [("id".toList, Value.text target.identity),
      ("staging".toList, .text (setting.host.text target.staging))]
        ["id".toList, "staging".toList] = true := rfl
  unfold targetPayload loadTarget
  dsimp only
  rw [hkeys, hid, hpath, h, setting.host.path_text, hstaging]
  rfl

omit [DecidableEq P] in
/-- Outputs that are stored are loaded again, unless one is a runtime header in the root. -/
theorem loadOutputs_stored {values : List Text} {outputs outputs' : List PlanOutput}
    (h : List.Forall₂ (ReadFrom setting.casefolding) values outputs) :
    (outputs.map outputPayload).mapM (loadOutput setting source) = .ok outputs' ↔
      outputs' = outputs ∧ ∀ value ∈ values, ¬BareRuntime setting.casefolding value := by
  rw [mapM_eq_ok]
  induction h generalizing outputs' with
  | nil => simp
  | cons hfirst _ ih =>
    rw [List.map_cons, List.forall₂_cons_left_iff, List.forall_mem_cons]
    constructor
    · rintro ⟨output', rest', houtput, hrest, rfl⟩
      obtain ⟨rfl, hbare⟩ := (loadOutput_stored hfirst).mp houtput
      obtain ⟨rfl, hothers⟩ := ih.mp hrest
      exact ⟨rfl, hbare, hothers⟩
    · rintro ⟨rfl, hbare, hrest⟩
      exact ⟨_, _, (loadOutput_stored hfirst).mpr ⟨rfl, hbare⟩, ih.mpr ⟨rfl, hrest⟩, rfl⟩

/-- What is stored for a plan is loaded again, unless an output is a runtime header in the root. -/
theorem Plan.Recorded.fromPayload_stored {values : List Text} {loaded : Plan P}
    (h : plan.Recorded setting values) :
    fromPayload setting (plan.stored setting) source = .ok loaded ↔
      loaded = plan ∧ ∀ value ∈ values, ¬BareRuntime setting.casefolding value := by
  obtain ⟨hversion, houtputs, htargets, hroot, hbuildRoot, hbuildId, hsha⟩ :=
    @item_stored P setting plan
  have hload : (plan.targets.map (targetPayload setting.host)).mapM
      (loadTarget setting source plan.root) = .ok plan.targets := by
    refine mapM_eq_ok.mpr (List.forall₂_map_left_iff.mpr (List.forall₂_same.mpr ?_))
    exact fun target htarget => loadTarget_stored (h.identities target htarget)
      (h.staging target htarget)
  have hfinish : (do
      validatePlanTargets setting plan.targets plan.outputs source
      let buildId ← pathKey setting.host setting.casefolding setting.sha256 plan.buildRoot
      let loaded : Plan P :=
        ⟨plan.root, plan.buildRoot, buildId, sortTargets plan.targets, sortOutputs plan.outputs⟩
      if !(Value.text plan.buildId).isText loaded.buildId ||
          !(Value.text (plan.digest setting)).isText (loaded.digest setting) then
        failed "configured output plan identity is malformed" source
      else return loaded) = (.ok plan : Result (Plan P)) := by
    rw [except_bind_of_ok (h.targets source), except_bind_of_ok h.buildId, h.sortedTargets,
      h.sortedOutputs]
    simp [Value.isText, pure, Except.pure]
  unfold fromPayload
  rw [stored_keys, hversion, houtputs, htargets, hroot, hbuildRoot, hbuildId, hsha]
  dsimp only
  simp only [Value.str]
  rw [setting.host.path_text, setting.host.path_text, except_bind_of_ok h.root,
    except_bind_of_ok h.buildRoot]
  constructor
  · intro hplan
    obtain ⟨outputs, houtputs, hplan⟩ := except_bind_eq_ok.mp hplan
    obtain ⟨rfl, hbare⟩ := (loadOutputs_stored h.outputs).mp houtputs
    rw [except_bind_of_ok hload] at hplan
    exact ⟨(Except.ok.inj (hfinish.symm.trans hplan)).symm, hbare⟩
  · rintro ⟨rfl, hbare⟩
    rw [except_bind_of_ok ((loadOutputs_stored h.outputs).mpr ⟨rfl, hbare⟩),
      except_bind_of_ok hload]
    exact hfinish

/-- A plan that is read is loaded again from what is stored for it, by whatever operation, if and
only if none of its output paths is a runtime header in the root itself. -/
theorem fromPayload_stored_iff (hstable : Stable setting.host) {bytes : List UInt8}
    {source' : Text} (hread : read setting source (some bytes) = .ok plan) :
    (∃ loaded, fromPayload setting (plan.stored setting) source' = .ok loaded ∧ loaded = plan ∧
        loaded.digest setting = plan.digest setting) ↔
      ∀ value ∈ outputPaths bytes, ¬BareRuntime setting.casefolding value := by
  obtain ⟨reading, hreads, hassemble⟩ := read_ok hread
  obtain ⟨values, hperm, hrecorded⟩ := assemble_recorded hstable hreads hassemble
  have hvalues : (∀ value ∈ values, ¬BareRuntime setting.casefolding value) ↔
      ∀ value ∈ outputPaths bytes, ¬BareRuntime setting.casefolding value :=
    forall_congr' fun value => imp_congr_left hperm.mem_iff
  rw [← hvalues]
  constructor
  · intro ⟨loaded, hloaded, _⟩
    exact (hrecorded.fromPayload_stored.mp hloaded).2
  · intro hbare
    exact ⟨plan, hrecorded.fromPayload_stored.mpr ⟨rfl, hbare⟩, rfl, rfl⟩

end Loads

section Sample

theorem posixParts_slash (value : Text) : posixParts ('/' :: value) = posixParts value := by
  have hsplit : ('/' :: value).splitOn '/' = [] :: value.splitOn '/' := by
    rw [List.splitOn_cons_eq_if_modifyHead]
    exact if_pos (by decide)
  unfold posixParts
  rw [hsplit, List.filter_cons_of_neg (by decide)]

/-- The parent of an absolute POSIX path. -/
def posixParent (p : Text) : Text :=
  if posixParts p = [] then p else '/' :: asPosix (posixParts p).dropLast

theorem posixParts_parent (p : Text) : posixParts (posixParent p) = (posixParts p).dropLast := by
  unfold posixParent
  split_ifs with hroot
  · rw [hroot]
    rfl
  · rw [posixParts_slash]
    by_cases hnil : (posixParts p).dropLast = []
    · rw [hnil]
      decide
    · exact posixParts_asPosix hnil fun part hpart =>
        mem_posixParts (List.dropLast_subset _ hpart)

theorem posixParent_shorter (p : Text) (h : posixParent p ≠ p) :
    (['/'] :: posixParts (posixParent p)).length < (['/'] :: posixParts p).length := by
  have hne : posixParts p ≠ [] := fun hnil => h (if_pos hnil)
  have hpos := List.length_pos_of_ne_nil hne
  rw [posixParts_parent, List.length_cons, List.length_cons, List.length_dropLast]
  omega

/-- A POSIX host on normalised absolute paths, all of them directories. -/
def posixHost : Host Text where
  windows := false
  path := id
  text := id
  path_text _ := rfl
  parts p := ['/'] :: posixParts p
  isAbsolute p := decide (p.head? = some '/')
  normpath := id
  normpath_again _ := rfl
  parent := posixParent
  parent_shorter := posixParent_shorter
  name p := (posixParts p).getLastD []
  child p name := if p = ['/'] then '/' :: name else p ++ '/' :: name
  lexists _ := true
  lstat p := .ok ⟨.directory, false, 1, p.length⟩
  stat p := .ok ⟨.directory, false, 1, p.length⟩
  resolve := .ok
  samefile p q := .ok (decide (p = q))

theorem projectPath_posixHost {p q : Text} (h : projectPath posixHost p false = .ok q) : q = p := by
  unfold projectPath at h
  obtain ⟨path, hpath, h⟩ := except_bind_eq_ok.mp h
  obtain ⟨-, -, hp⟩ := requireAbsolute_eq_ok.mp hpath
  have hexists : nearestExisting posixHost path path [] = .ok (path, []) := by
    rw [nearestExisting]
    exact if_pos rfl
  rw [except_bind_of_ok hexists] at h
  dsimp only at h
  split at h
  · exact absurd h failed_ne_ok
  · exact (Except.ok.inj h).symm.trans hp.symm

theorem posixHost_stable : Stable posixHost := by
  intro p q h
  have hsame := projectPath_posixHost h
  rw [hsame] at h ⊢
  exact h

theorem toLower_eq_slash {c : Char} (h : c.toLower = '/') : c = '/' := by
  unfold Char.toLower at h
  split at h
  · next hupper =>
    have hlow : 65 ≤ c.toNat := UInt32.le_iff_toNat_le.mp hupper.1
    have hhigh : c.toNat ≤ 90 := UInt32.le_iff_toNat_le.mp hupper.2
    have hsum : (c.toNat + 32) % 4294967296 = 47 := by simpa using congrArg Char.toNat h
    omega
  · exact h

theorem slash_notMem_toLower (c : Char) (h : c ≠ '/') : '/' ∉ [c.toLower] := by
  intro hmem
  exact h (toLower_eq_slash (List.mem_singleton.mp hmem).symm)

/-- Case folding of ASCII text. -/
def asciiCasefolding : Casefolding := ⟨fun c => [c.toLower], rfl, rfl, slash_notMem_toLower⟩

def sampleIdentity : Text := List.replicate 64 '0'

def sampleStaging : Text := "/.protocyte-generation-staging-".toList ++ sampleIdentity

def hexText (text : Text) : Text := hexdigest (Utf8.encode text)

/-- A plan file for one output. -/
def samplePlanFile (value : Text) : List UInt8 :=
  [planHeader, "root-hex=".toList ++ hexText "/o".toList,
    "build-root-hex=".toList ++ hexText "/b".toList,
    "target=".toList ++ sampleIdentity ++ '|' :: hexText sampleStaging,
    "output=".toList ++ sampleIdentity ++ '|' :: hexText value].flatMap fun line =>
      Utf8.encode (line ++ ['\n'])

def sampleBuildId : Text :=
  "9812b0b9d61e09b927d03ff93f64530d8fcf373810b7007129eb4b20962412cb".toList

def samplePlan (relative : Text) : Plan Text :=
  ⟨"/o".toList, "/b".toList, sampleBuildId, [⟨sampleIdentity, sampleStaging⟩],
    [⟨sampleIdentity, relative⟩]⟩

def sampleDigests : List (List UInt8 × Text) :=
  [(Utf8.encode "/b".toList, sampleBuildId),
    (canonicalJson ((samplePlan "runtime.hpp".toList).payload posixHost),
      "8e9a0fc742e8045ee806697b2f6ed5cd45e955ccd497e8d38a38c79a4d10a263".toList),
    (canonicalJson ((samplePlan "include/Runtime.hpp".toList).payload posixHost),
      "3cc2ac16e7be16ad7c98d6fdb08371e72596c1b29c09e0df160f50462d44ccec".toList)]

def sampleTable (bytes : List UInt8) : List UInt8 :=
  (((sampleDigests.lookup bytes).bind fromHex).filter (·.length == 32)).getD (List.replicate 32 0)

theorem length_sampleTable (bytes : List UInt8) : (sampleTable bytes).length = 32 := by
  unfold sampleTable
  cases h : ((sampleDigests.lookup bytes).bind fromHex).filter (·.length == 32) with
  | none => exact List.length_replicate
  | some digest => exact eq_of_beq (Option.filter_eq_some_iff.mp h).2

/-- SHA-256 on what is digested for the sample. -/
def sampleSha256 : Sha256 := ⟨sampleTable, length_sampleTable⟩

def sampleSetting : Setting Text := ⟨posixHost, asciiCasefolding, sampleSha256, fun _ => []⟩

private theorem read_belowRoot :
    read sampleSetting [] (some (samplePlanFile "include\\Runtime.hpp".toList)) =
      .ok (samplePlan "include/Runtime.hpp".toList) := by
  decide +kernel

/-- A runtime header in a directory is loaded again. -/
theorem fromPayload_stored_iff_belowRoot :
    (∃ loaded, fromPayload sampleSetting
          ((samplePlan "include/Runtime.hpp".toList).stored sampleSetting) [] = .ok loaded ∧
        loaded = samplePlan "include/Runtime.hpp".toList ∧
        loaded.digest sampleSetting =
          (samplePlan "include/Runtime.hpp".toList).digest sampleSetting) ↔
      ∀ value ∈ outputPaths (samplePlanFile "include\\Runtime.hpp".toList),
        ¬BareRuntime asciiCasefolding value :=
  fromPayload_stored_iff posixHost_stable read_belowRoot

/-- A runtime header in the root is accepted when it is written `./runtime.hpp`, and the path that is
stored for it is refused. -/
theorem fromPayload_stored_bareRuntime :
    Stable sampleSetting.host ∧
      read sampleSetting [] (some (samplePlanFile "./runtime.hpp".toList)) =
        .ok (samplePlan "runtime.hpp".toList) ∧
      fromPayload sampleSetting ((samplePlan "runtime.hpp".toList).stored sampleSetting) [] =
        .error (.failed "output plan contains an unsafe generated path" "runtime.hpp".toList) :=
  ⟨posixHost_stable, by decide +kernel, by decide +kernel⟩

end Sample

end Protocyte.OutputPlan
