import Protocyte.ManagedEnvironment.Recovery
import Mathlib.Logic.Relation

/-! The driver of the managed environment: its stages in order, what it does when one fails, and
where it can be interrupted. -/
namespace Protocyte.ManagedEnvironment

open Foundation Foundation.Program

variable {C : Type}

/-- What the file system and the external commands answer in one run: the objects of new
directories, the errors met in making the transaction, the contents each command leaves behind one
durable write after the other, and the checks. -/
structure Tools (C : Type) where
  transactionObject : ℕ
  fingerprintObject : ℕ
  stagingObject : ℕ
  faults : Faults
  createEnvironment : List C
  stageProject : C → List C
  bootstrap : C → List C
  install : C → List C
  relocate : C → List C
  pipConfiguration : C → Bool
  verify : C → Bool

section Stages

def createEnvironment (tools : Tools C) : Action C Unit :=
  tools.createEnvironment.forM fun contents =>
    Program.modify fun s => s.put .staging (some ⟨tools.stagingObject, none, contents⟩)

/-- A command that rewrites an environment in place. -/
def runTool (place : Place) (steps : C → List C) : Action C Unit := do
  let s ← Program.get
  match s.find place with
  | none => raise "no such directory" (.place place)
  | some directory =>
    (steps directory.contents).forM fun contents =>
      Program.modify fun s =>
        s.put place ((s.find place).map fun directory => { directory with contents })

def check (place : Place) (test : C → Bool) : Action C Unit := do
  let s ← Program.get
  if (s.find place).any fun directory => test directory.contents then pure ()
  else raise "the environment failed its check" (.place place)

def setReady (s : State C) (ready : Option String) : State C :=
  s.put .staging ((s.find .staging).map fun directory => { directory with ready })

/-- The ready marker is written in place. -/
def writeReady (fingerprint : String) : Action C Unit := do
  Program.modify fun s => setReady s none
  Program.modify fun s => setReady s (some fingerprint)

def backupExisting (fingerprint : String) : Action C Unit := do
  let s ← Program.get
  if s.destination.isSome then backup fingerprint else pure ()

end Stages

/-- A stage, and whether the driver restores when it fails. -/
structure Stage (C : Type) where
  action : Action C Unit
  rollback : Bool

/-- The stages of `_protocyte_ensure_python_environment` after its recovery. -/
def driver (fingerprint : String) (tools : Tools C) : List (Stage C) :=
  [⟨create fingerprint tools.transactionObject tools.fingerprintObject tools.faults, false⟩,
    ⟨createEnvironment tools, true⟩,
    ⟨check .staging tools.pipConfiguration, true⟩,
    ⟨backupExisting fingerprint, false⟩,
    ⟨runTool .staging tools.stageProject, false⟩,
    ⟨runTool .staging tools.bootstrap, true⟩,
    ⟨runTool .staging tools.install, true⟩,
    ⟨check .staging tools.verify, true⟩,
    ⟨writeReady fingerprint, false⟩,
    ⟨prepareCandidate fingerprint, true⟩,
    ⟨promote fingerprint, true⟩,
    ⟨runTool .destination tools.relocate, true⟩,
    ⟨check .destination tools.verify, true⟩,
    ⟨commit fingerprint, false⟩,
    ⟨cleanupTransaction fingerprint, false⟩]

/-- The driver stops in a state, and whether a commit record was durable before that. A stage that
is killed or fails may end the run, or be rolled back; the rollback may be killed, too. -/
inductive Drives (restore : Action C Unit) : List (Stage C) → State C → State C → Bool → Prop
  | stopped (stages s) : Drives restore stages s s s.committed
  | inside (stage rest s t) : stage.action.Stops s t →
      Drives restore (stage :: rest) s t (s.committed || t.committed)
  | rolledBack (stage rest s t u) : stage.rollback = true → stage.action.Stops s t →
      restore.Stops t u → Drives restore (stage :: rest) s u (s.committed || t.committed)
  | next (stage rest s t u c) : stage.action.Finishes s () t → Drives restore rest t u c →
      Drives restore (stage :: rest) s u (s.committed || c)

/-- A run of the driver from a destination without a transaction. -/
def Run (fingerprint : String) (tools : Tools C) (start : Option (Directory C)) (t : State C)
    (committed : Bool) : Prop :=
  Drives (restore fingerprint) (driver fingerprint tools) (idle start) t committed

/-- Recoveries that are interrupted one after the other. -/
def Recovers (fingerprint : String) : State C → State C → Prop :=
  Relation.ReflTransGen fun s t => (recover fingerprint).Stops s t

/-- The candidate of a run, ready and verified in its place. -/
structure Complete (fingerprint : String) (tools : Tools C) (directory : Directory C) : Prop where
  object : directory.object = tools.stagingObject
  ready : directory.ready = some fingerprint
  verified : tools.verify directory.contents = true

/-- A transaction directory whose identity the journal does not have yet. -/
inductive Unrecorded (destination : Option (Directory C)) : State C → Prop
  | intro (original stage) : original.isSome = true ∨ stage = true →
      Unrecorded destination
        ⟨destination, original, none, stage, some ⟨.creating, none, none, none, none, none, none⟩⟩

end Protocyte.ManagedEnvironment
