import Protocyte.Foundation.Durable
import Protocyte.OutputCoordinator.Volume

/-! Output plans and the files of one claimed output root. -/
namespace Protocyte.OutputCoordinator

open Foundation

variable {Name : Type}

/-- The SHA-256 identity of a target. -/
abbrev Target := ℕ

/-- A claim token or transaction identity of `secrets.token_hex`. -/
abbrev Token := ℕ

structure PlanOutput (Name : Type) where
  target : Target
  relative : List Name
deriving DecidableEq

structure PlanTarget (Name : Type) where
  identity : Target
  staging : List Name
deriving DecidableEq

namespace Volume

variable (v : Volume Name)

/-- `_path_key` hashes the folded path. -/
def pathKey (p : List Name) : List Name := v.fold p

/-- `_projected_contains`. -/
def Contains (parent child : List Name) : Prop := v.fold parent <+: v.fold child

instance [DecidableEq Name] (parent child : List Name) : Decidable (v.Contains parent child) :=
  inferInstanceAs (Decidable (v.fold parent <+: v.fold child))

/-- The lexical part of `_paths_overlap`. -/
def Overlap (p q : List Name) : Prop := v.Contains p q ∨ v.Contains q p

instance [DecidableEq Name] (p q : List Name) : Decidable (v.Overlap p q) :=
  inferInstanceAs (Decidable (v.Contains p q ∨ v.Contains q p))

end Volume

/-- A plan that `Plan.read` accepts. -/
structure Plan (v : Volume Name) where
  root : List Name
  buildRoot : List Name
  targets : List (PlanTarget Name)
  outputs : List (PlanOutput Name)
  generated : ∀ o ∈ outputs, o.relative ≠ [] ∧ v.generated (v.fold o.relative) = true
  portable : (outputs.map fun o => v.fold o.relative).Nodup
  repeatsNoTarget : (targets.map PlanTarget.identity).Nodup
  matchesOutputs : ∀ identity,
    identity ∈ targets.map PlanTarget.identity ↔ identity ∈ outputs.map PlanOutput.target
  expectedStaging : ∀ t ∈ targets, t.staging = root.dropLast ++ [v.stagingName t.identity] ∧
    ¬ v.Overlap root t.staging
deriving DecidableEq

structure Claim (Name : Type) where
  root : List Name
  buildRoot : List Name
  token : Token
deriving DecidableEq

structure Entry where
  sha256 : Digest
  target : Target
deriving DecidableEq

abbrev Entries (Name : Type) := Dictionary (List Name) Entry

structure Snapshot (Name : Type) where
  claimToken : Token
  entries : Entries Name
  generation : ℕ

structure Transfer (Name : Type) where
  identity : ℕ × ℕ
  path : List Name
deriving DecidableEq

structure PendingEntry (Name : Type) where
  after : Option Digest
  before : Option Digest
  path : List Name
  payload : Option ℕ
  target : Target
  transfer : Option (Transfer Name)
deriving DecidableEq

structure Pending (v : Volume Name) where
  baseGeneration : ℕ
  entries : List (PendingEntry Name)
  id : Token
  newSnapshot : Snapshot Name
  plan : Plan v

/-- A directory of `transactions`: its payload files by number, and `pending.json`. -/
structure Transaction (v : Volume Name) where
  id : Token
  payloads : Dictionary ℕ Digest
  pending : Option (Pending v)

/-- `reset.json`. -/
structure Intent (Name : Type) where
  claimToken : Token
  entries : Entries Name
  staging : List (PlanTarget Name)

/-- The state directory of a root, the entries below the root, and the staging directories. -/
structure RootState (v : Volume Name) where
  claim : Option (Claim Name)
  snapshot : Option (Snapshot Name)
  plan : Option (Plan v)
  reset : Option (Intent Name)
  transactions : List (Transaction v)
  outputs : Tree v
  staging : Dictionary (List Name) (Tree v)

abbrev Action (v : Volume Name) := Program String (RootState v)

namespace Plan

variable {v : Volume Name}

/-- `build_id` is the path key of the build root. -/
def buildId (plan : Plan v) : List Name := v.pathKey plan.buildRoot

variable [DecidableEq Name]

def plannedTarget (plan : Plan v) (relative : List Name) : Option Target :=
  (plan.outputs.find? fun o => o.relative = relative).map PlanOutput.target

/-- The planned output whose path folds like the given one. -/
def plannedByPortable (plan : Plan v) (relative : List Name) : Option (List Name) :=
  (plan.outputs.find? fun o => v.fold o.relative = v.fold relative).map PlanOutput.relative

def stagingForTarget (plan : Plan v) (identity : Target) : Option (List Name) :=
  (plan.targets.find? fun t => t.identity = identity).map PlanTarget.staging

end Plan

namespace Claim

variable (v : Volume Name)

def rootKey (claim : Claim Name) : List Name := v.pathKey claim.root

def buildId (claim : Claim Name) : List Name := v.pathKey claim.buildRoot

end Claim

end Protocyte.OutputCoordinator
