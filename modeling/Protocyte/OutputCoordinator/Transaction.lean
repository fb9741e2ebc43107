import Protocyte.OutputCoordinator.State

/-! The write-ahead transaction of an output root: its application and its recovery. -/
namespace Protocyte.OutputCoordinator

open Foundation

variable {Name : Type} [DecidableEq Name] {v : Volume Name}

def require (c : Prop) [Decidable c] (message : String) : Except String Unit :=
  if c then .ok () else .error message

/-- A file system call that raises `OSError` where it gives nothing. -/
def changeOutputs (f : Tree v → Option (Tree v)) : Action v Unit := do
  let s ← .get
  match f s.outputs with
  | none => .fail "OSError"
  | some outputs => .modify fun s => { s with outputs }

section Inspection

/-- `os.path.samefile` answers by `same`, with false for its errors. -/
def samePhysicalPath (same : List Name → List Name → Bool) (first second : List Name) : Bool :=
  first = second ∨ same first second

def existingFileIdentity (t : Tree v) (p : List Name) : Option (ℕ × ℕ) :=
  match t.find p with
  | some (.file identity _) => some identity
  | _ => none

def requireObservedState (t : Tree v) (p : List Name) (expected : Option Digest)
    (allowAbsent : Bool) : Except String Unit :=
  match t.find p with
  | none => require (allowAbsent = true) "expected generated output is absent"
  | some (.file _ sha256) =>
    require (expected = some sha256)
      "generated output bytes are not owned by the committed snapshot"
  | some _ => .error "generated output is not a safe regular file"

def firstAlias (t : Tree v) (relative : List Name) :
    List (List Name × Entry) → Except String (Option (List Name × Entry))
  | [] => .ok none
  | (previous, entry) :: rest => do
    let aliased ← t.caseSpellingAlias relative previous
    if aliased then .ok (some (previous, entry)) else firstAlias t relative rest

def snapshotEntryForPath (t : Tree v) (entries : Entries Name) (relative : List Name) :
    Except String (Option (List Name × Entry)) :=
  match entries.get? relative with
  | some entry => .ok (some (relative, entry))
  | none => firstAlias t relative entries.items

end Inspection

section Records

variable (same : List Name → List Name → Bool)

def loadClaim (plan : Plan v) : Action v (Claim Name) := do
  let s ← .get
  match s.claim with
  | none => .fail "could not read output claim"
  | some claim => do
    .ensure (claim.rootKey v = v.pathKey plan.root ∧ samePhysicalPath same claim.root plan.root)
      "output claim does not identify the requested physical root"
    .ensure (claim.buildId v = plan.buildId ∧
        samePhysicalPath same claim.buildRoot plan.buildRoot)
      "output root is claimed by a different CMake build tree"
    pure claim

/-- `_require_plan_claim_binding`. -/
def BindsClaim (plan : Plan v) (claim : Claim Name) : Prop :=
  claim.rootKey v = v.pathKey plan.root ∧ claim.buildId v = plan.buildId ∧
    samePhysicalPath same claim.root plan.root ∧
    samePhysicalPath same claim.buildRoot plan.buildRoot

instance (plan : Plan v) (claim : Claim Name) : Decidable (BindsClaim same plan claim) :=
  inferInstanceAs (Decidable (_ ∧ _ ∧ _ ∧ _))

def loadSnapshot (claim : Claim Name) : Action v (Snapshot Name) := do
  let s ← .get
  match s.snapshot with
  | none => .fail "could not read committed output snapshot"
  | some snapshot => do
    .ensure (snapshot.claimToken = claim.token) "committed output snapshot is malformed"
    pure snapshot

def loadRecordedPlan (claim : Claim Name) : Action v (Option (Plan v)) := do
  let s ← .get
  match s.plan with
  | none => pure none
  | some plan => do
    .ensure (BindsClaim same plan claim)
      "configured output plan does not match its immutable claim"
    pure (some plan)

def requireCurrentPlan (plan : Plan v) (claim : Claim Name) : Action v Unit := do
  let current ← loadRecordedPlan same claim
  .ensure (current = some plan)
    "build-time output plan does not match the plan committed during configuration"

end Records

section Validation

/-- A validated ownership transfer: the file that keeps the bytes. -/
structure Ownership (Name : Type) where
  destination : List Name
  identity : ℕ × ℕ
  sha256 : Digest

structure Validated (Name : Type) where
  destination : List Name
  before : Option Digest
  after : Option Digest
  payload : Option ℕ
  transfer : Option (Ownership Name)

variable (plan : Plan v) (t : Tree v) (payloads : Dictionary ℕ Digest)

/-- The committed prior state of an entry, and the entries without it. -/
def validatePrior (expected : Entries Name) (entry : PendingEntry Name) :
    Except String (Option Entry × Entries Name) := do
  let previous ← snapshotEntryForPath t expected entry.path
  require (entry.before = none → previous = none)
    "pending transaction omits the committed prior state"
  require (previous.map (fun found => found.2.sha256) = entry.before)
    "pending transaction conflicts with the committed prior state"
  match previous with
  | none => .ok (none, expected)
  | some (path, found) => .ok (some found, expected.pop path)

def requireUnplanned (relative : List Name) : Except String Unit :=
  match plan.plannedByPortable relative with
  | none => .ok ()
  | some planned => do
    require (planned ≠ relative) "retirement transaction contains a planned output"
    let aliased ← t.caseSpellingAlias relative planned
    require (aliased = false) "retirement transaction contains a planned output"

def validateTransfer (expected : Entries Name) (entry : PendingEntry Name)
    (previous : Option Entry) (transfer : Transfer Name) :
    Except String (Ownership Name × Entries Name) :=
  match previous with
  | none => .error "retirement transaction contains an invalid ownership transfer"
  | some found => do
    require (transfer.path ∉ expected.keys ∧ plan.plannedTarget transfer.path = some entry.target)
      "retirement transaction contains an invalid ownership transfer"
    t.outputPath transfer.path
    require (existingFileIdentity t transfer.path = some transfer.identity)
      "ownership transfer destination changed physical identity"
    requireObservedState t transfer.path entry.before false
    .ok (⟨transfer.path, transfer.identity, found.sha256⟩,
      expected.set transfer.path ⟨found.sha256, entry.target⟩)

def validateRetirement (expected : Entries Name) (entry : PendingEntry Name)
    (previous : Option Entry) : Except String (Validated Name × Entries Name) := do
  require (entry.payload = none) "retirement transaction unexpectedly contains a payload"
  requireUnplanned plan t entry.path
  match entry.transfer with
  | some transfer => do
    let (ownership, expected) ← validateTransfer plan t expected entry previous transfer
    .ok (⟨entry.path, entry.before, none, none, some ownership⟩, expected)
  | none => do
    require (∀ found ∈ previous, found.target = entry.target)
      "retirement transaction changes the prior target identity"
    .ok (⟨entry.path, entry.before, none, none, none⟩, expected)

def validatePublication (expected : Entries Name) (index : ℕ) (entry : PendingEntry Name)
    (after : Digest) : Except String (Validated Name × Entries Name) := do
  require (entry.transfer = none) "publication transaction unexpectedly contains a transfer"
  require (plan.plannedTarget entry.path = some entry.target)
    "publication transaction does not match the current output plan"
  require (entry.payload = some index) "pending transaction contains an invalid payload name"
  require (payloads.get? index = some after) "pending transaction payload is missing or changed"
  .ok (⟨entry.path, entry.before, some after, some index, none⟩,
    expected.set entry.path ⟨after, entry.target⟩)

def validateEntry (expected : Entries Name) (index : ℕ) (entry : PendingEntry Name) :
    Except String (Validated Name × Entries Name) := do
  t.outputPath entry.path
  let (previous, expected) ← validatePrior t expected entry
  match entry.after with
  | none => validateRetirement plan t expected entry previous
  | some after => validatePublication plan payloads expected index entry after

/-- The first loop of `_apply_pending`. -/
def validateEntries (seen : List (List Name)) (expected : Entries Name) (index : ℕ) :
    List (PendingEntry Name) → Except String (List (Validated Name) × Entries Name)
  | [] => .ok ([], expected)
  | entry :: entries => do
    require (entry.path ∉ seen) "pending transaction repeats a generated path"
    let (validated, expected) ← validateEntry plan t payloads expected index entry
    let (rest, expected) ← validateEntries (entry.path :: seen) expected (index + 1) entries
    .ok (validated :: rest, expected)

end Validation

section Application

/-- `_durable_mkdir` of one component. -/
def makeDirectory (p : List Name) : Action v Unit := do
  let s ← .get
  match s.outputs.find p with
  | some .directory => pure ()
  | some _ => .fail "FileExistsError"
  | none => changeOutputs fun t => t.makeDirectory p

/-- The directories above a path, from the root down. -/
def ancestors (p : List Name) : List (List Name) := p.dropLast.inits.tail

def deleteIfState (p : List Name) (before : Option Digest) : Action v Unit := do
  let s ← .get
  match s.outputs.find p with
  | none => pure ()
  | some (.file _ sha256) => do
    .ensure (before = some sha256) "retired generated output was modified and was preserved"
    changeOutputs fun t => t.unlink p
  | some _ => .fail "retired generated output became unsafe"

def readPayload (id : Token) (index : ℕ) : Action v Digest := do
  let s ← .get
  match (s.transactions.find? fun t => t.id = id).bind fun t => t.payloads.get? index with
  | none => .fail "FileNotFoundError"
  | some sha256 => pure sha256

/-- A file at the path of a temporary file goes, whatever its bytes. -/
def removeTemporary (temporary : List Name) : Action v Unit := do
  let s ← .get
  match s.outputs.find temporary with
  | none => pure ()
  | some (.file _ _) => changeOutputs fun t => t.unlink temporary
  | some _ => .fail "publication temporary path is unsafe"

/-- The payload is copied into a new file; a kill may leave any beginning of it. -/
def copyPayload (temporary : List Name) (sha256 : Digest) : Action v Unit := do
  changeOutputs fun t => t.createFile temporary v.emptyDigest
  (v.prefixes sha256).forM fun written => changeOutputs fun t => t.writeFile temporary written
  changeOutputs fun t => t.writeFile temporary sha256

/-- The temporary file appears beside the destination, is filled, and replaces it. -/
def replaceOutput (p : List Name) (payload : ℕ) (after : Digest) (id : Token) (index : ℕ) :
    Action v Unit := do
  let temporary := v.temporaryPath p id index
  removeTemporary temporary
  let sha256 ← readPayload id payload
  copyPayload temporary sha256
  .ensure (sha256 = after) "publication temporary bytes do not match the transaction"
  changeOutputs fun t => t.replace temporary p

/-- The bytes of a regular file. -/
def observedDigest : Node → Option Digest
  | .file _ sha256 => some sha256
  | .directory | .special => none

def publishOne (p : List Name) (payload : ℕ) (before : Option Digest) (after : Digest) (id : Token)
    (index : ℕ) : Action v Unit := do
  (ancestors p).forM makeDirectory
  let s ← .get
  match s.outputs.find p with
  | none => replaceOutput p payload after id index
  | some node => do
    if observedDigest node = some after then pure ()
    else do
      .ensure (observedDigest node = before)
        "generated output changed outside Protocyte before publication"
      replaceOutput p payload after id index

def applyEntry (id : Token) (index : ℕ) (entry : Validated Name) : Action v Unit :=
  match entry.after with
  | none => do
    let s ← .get
    match entry.transfer with
    | none => pure ()
    | some transfer => do
      .ensure (existingFileIdentity s.outputs transfer.destination = some transfer.identity)
        "ownership transfer destination changed physical identity"
      .lift (requireObservedState s.outputs transfer.destination (some transfer.sha256) false)
    deleteIfState entry.destination entry.before
  | some after =>
    match entry.payload with
    | none => .fail "AssertionError"
    | some payload => publishOne entry.destination payload entry.before after id index

/-- The second loop of `_apply_pending`. -/
def applyEntries (id : Token) (index : ℕ) : List (Validated Name) → Action v Unit
  | [] => pure ()
  | entry :: entries => do
    applyEntry id index entry
    applyEntries id (index + 1) entries

def updateTransaction (id : Token) (f : Transaction v → Transaction v) : Action v Unit :=
  .modify fun s => { s with
    transactions := s.transactions.map fun t => if t.id = id then f t else t }

def removePending (id : Token) : Action v Unit :=
  updateTransaction id fun t => { t with pending := none }

def removePayloads (id : Token) : Action v Unit := do
  let s ← .get
  let indices := ((s.transactions.find? fun t => t.id = id).map fun t => t.payloads.keys).getD []
  indices.forM fun index =>
    updateTransaction id fun t => { t with payloads := t.payloads.pop index }

/-- `_durable_rmtree` of a transaction directory. -/
def removeTransaction (id : Token) : Action v Unit := do
  if v.pendingFirst then
    removePending id
    removePayloads id
  else
    removePayloads id
    removePending id
  .modify fun s => { s with transactions := s.transactions.filter fun t => t.id ≠ id }

def applyPending (plan : Plan v) (claim : Claim Name) (pending : Pending v) (id : Token) :
    Action v Unit := do
  .ensure (pending.id = id ∧ pending.plan = plan) "pending output transaction is malformed"
  let snapshot ← loadSnapshot claim
  .ensure (pending.newSnapshot.claimToken = claim.token) "committed output snapshot is malformed"
  .ensure (pending.newSnapshot.generation = pending.baseGeneration + 1)
    "pending replacement snapshot has an invalid generation"
  if snapshot.generation = pending.newSnapshot.generation then do
    .ensure (snapshot.entries.Same pending.newSnapshot.entries)
      "committed snapshot conflicts with a pending transaction generation"
    removeTransaction id
  else do
    let s ← .get
    let payloads := ((s.transactions.find? fun t => t.id = id).map Transaction.payloads).getD .empty
    let (validated, expected) ← .lift <|
      validateEntries plan s.outputs payloads [] snapshot.entries 0 pending.entries
    .ensure (pending.newSnapshot.entries.Same (expected.sorted v.posixLe))
      "pending replacement snapshot does not match its transaction entries"
    .ensure (snapshot.generation = pending.baseGeneration)
      "pending transaction does not follow the committed snapshot generation"
    applyEntries id 0 validated
    .modify fun s => { s with snapshot := some pending.newSnapshot }
    removeTransaction id

/-- What is left of the transaction directories goes. -/
def removeStale (id : Token) : Action v Unit := do
  let s ← .get
  if id ∈ s.transactions.map Transaction.id then removeTransaction id

def recover (same : List Name → List Name → Bool) (claim : Claim Name) : Action v Unit := do
  let s ← .get
  let ids := s.transactions.map Transaction.id
  let pendings := s.transactions.filterMap fun t => t.pending.map fun pending => (t.id, pending)
  match pendings with
  | [] => ids.forM removeStale
  | [(id, pending)] => do
    .ensure (BindsClaim same pending.plan claim)
      "configured output plan does not match its immutable claim"
    applyPending pending.plan claim pending id
    ids.forM removeStale
  | _ => .fail "output root contains multiple pending transactions"

end Application

end Protocyte.OutputCoordinator
