import Protocyte.Foundation.Computation
import Protocyte.OutputCoordinator.Operations
import Mathlib.Data.List.Lex

/-! A file whose bytes no record names is never touched, whatever the coordinator does and wherever
it is killed. -/
namespace Protocyte.OutputCoordinator

open Foundation Foundation.Program Foundation.Computation

variable {Name : Type} [DecidableEq Name] {v : Volume Name}

/-- The bytes that an entry of a transaction gives to a path. -/
inductive PendingEntry.Names (e : PendingEntry Name) : List Name → Digest → Prop
  | before {d : Digest} (h : e.before = some d) : e.Names e.path d
  | after {d : Digest} (h : e.after = some d) : e.Names e.path d
  | transfer {t : Transfer Name} {d : Digest} (h : e.transfer = some t) (hd : e.before = some d) :
      e.Names t.path d

/-- The bytes that the committed snapshot, a pending transaction or a reset gives to a path. -/
inductive Records (s : RootState v) : List Name → Digest → Prop
  | snapshot {snapshot : Snapshot Name} {p : List Name} {e : Entry} (h : s.snapshot = some snapshot)
      (he : snapshot.entries.get? p = some e) : Records s p e.sha256
  | pending {t : Transaction v} {pending : Pending v} {e : PendingEntry Name} {p : List Name}
      {d : Digest} (ht : t ∈ s.transactions) (hp : t.pending = some pending)
      (he : e ∈ pending.entries) (hn : e.Names p d) : Records s p d
  | reset {intent : Intent Name} {p : List Name} {e : Entry} (h : s.reset = some intent)
      (he : intent.entries.get? p = some e) : Records s p e.sha256

/-- Bytes that are given to a path are not those of the file, or the path is neither the file's in
any spelling nor a link to it. -/
def Clear (t : Tree v) (q : List Name) (i : ℕ × ℕ) (d : Digest) (p : List Name) (e : Digest) :
    Prop :=
  e = d → v.key p ≠ v.key q ∧ existingFileIdentity t p ≠ some i

/-- The path is that of no publication's temporary file, in any spelling. -/
def NotTemporary (v : Volume Name) (q : List Name) : Prop :=
  ∀ p id index, v.key (v.temporaryPath p id index) ≠ v.key q

/-- The file at `q` is no temporary file and has bytes that no record in `R` gives to it, and nothing
else is recorded. -/
structure Apart (R : List Name → Digest → Prop) (q : List Name) (i : ℕ × ℕ) (d : Digest)
    (s : RootState v) : Prop where
  lasting : NotTemporary v q
  find : s.outputs.find q = some (.file i d)
  clear : ∀ p e, R p e → Clear s.outputs q i d p e
  recorded : ∀ p e, Records s p e → R p e

theorem existingFileIdentity_eq_some {t : Tree v} {p : List Name} {i : ℕ × ℕ} :
    existingFileIdentity t p = some i ↔ ∃ d, t.find p = some (.file i d) := by
  unfold existingFileIdentity
  cases h : t.find p with
  | none => simp
  | some n => cases n <;> simp

section Records

variable {R : List Name → Digest → Prop}
variable {s t : RootState v} {q : List Name} {i : ℕ × ℕ} {d : Digest}

/-- Removing transactions, or what is pending in them, records nothing new. -/
theorem Records.of_transactions {p : List Name} {e : Digest} (h : Records t p e)
    (hsnapshot : t.snapshot = s.snapshot) (hreset : t.reset = s.reset)
    (htransactions : ∀ u ∈ t.transactions, ∀ pending, u.pending = some pending →
      ∃ w ∈ s.transactions, w.pending = some pending) : Records s p e := by
  cases h with
  | snapshot h he => exact .snapshot (hsnapshot ▸ h) he
  | pending hu hp he hn =>
    obtain ⟨w, hw, hwp⟩ := htransactions _ hu _ hp
    exact .pending hw hwp he hn
  | reset h he => exact .reset (hreset ▸ h) he

/-- Only the records change, and none is new. -/
theorem Apart.of_records (h : Apart R q i d s) (ho : t.outputs = s.outputs)
    (hr : ∀ p e, Records t p e → Records s p e) : Apart R q i d t := by
  refine ⟨h.lasting, ?_, fun p e he => ?_, fun p e he => h.recorded p e (hr p e he)⟩
  · rw [ho]
    exact h.find
  · rw [ho]
    exact h.clear p e he

/-- Only the files change, and not this one. -/
theorem Apart.of_outputs (h : Apart R q i d s) (hs : t.snapshot = s.snapshot)
    (ht : t.transactions = s.transactions) (hr : t.reset = s.reset)
    (hfind : t.outputs.find q = s.outputs.find q)
    (hidentity : ∀ p, existingFileIdentity t.outputs p = some i →
      existingFileIdentity s.outputs p = some i) : Apart R q i d t := by
  refine ⟨h.lasting, hfind.trans h.find, fun p e he hed => ?_, fun p e he => ?_⟩
  · have hclear := h.clear p e he hed
    exact ⟨hclear.1, fun hp => hclear.2 (hidentity p hp)⟩
  · exact h.recorded p e (he.of_transactions hs hr fun u hu pending hp => ⟨u, ht ▸ hu, hp⟩)

end Records

section Validation

variable {plan : Plan v} {t : Tree v} {payloads : Dictionary ℕ Digest}

end Validation

section Application

variable {R : List Name → Digest → Prop}
variable {s : RootState v} {q : List Name} {i : ℕ × ℕ} {d : Digest}

private theorem Apart.insert (h : Apart R q i d s) {p : List Name} {n : Node} {t : Tree v}
    (hkey : v.key p ≠ v.key q)
    (ht : ∀ r, t.find r = if v.key r = v.key p then some n else s.outputs.find r)
    (hn : ∀ e, n ≠ .file i e) : Apart R q i d { s with outputs := t } := by
  refine h.of_outputs rfl rfl rfl ?_ fun r hr => ?_
  · change t.find q = _
    rw [ht, if_neg (Ne.symm hkey)]
  · obtain ⟨e, he⟩ := existingFileIdentity_eq_some.mp hr
    replace he : t.find r = some (.file i e) := he
    rw [ht] at he
    split_ifs at he
    · exact absurd (Option.some.inj he) (hn e)
    · exact existingFileIdentity_eq_some.mpr ⟨e, he⟩

private theorem Apart.unlink (h : Apart R q i d s) {p : List Name} {t : Tree v}
    (hkey : v.key p ≠ v.key q)
    (ht : ∀ r, t.find r = if v.key r = v.key p then none else s.outputs.find r) :
    Apart R q i d { s with outputs := t } := by
  refine h.of_outputs rfl rfl rfl ?_ fun r hr => ?_
  · change t.find q = _
    rw [ht, if_neg (Ne.symm hkey)]
  · obtain ⟨e, he⟩ := existingFileIdentity_eq_some.mp hr
    replace he : t.find r = some (.file i e) := he
    rw [ht] at he
    split_ifs at he
    exact existingFileIdentity_eq_some.mpr ⟨e, he⟩

/-- While a temporary file is filled it is not the file at `q`. -/
private structure Filling (R : List Name → Digest → Prop) (q : List Name) (i : ℕ × ℕ) (d : Digest)
    (temporary : List Name) (s : RootState v) : Prop where
  apart : Apart R q i d s
  other : existingFileIdentity s.outputs temporary ≠ some i

variable {temporary : List Name}

private theorem Apart.used (h : Apart R q i d s) : i ∈ s.outputs.identities :=
  Tree.mem_identities (Tree.mem_items_of_find (Tree.file_ne_nil h.find) h.find)

private theorem Filling.create (h : Filling R q i d temporary s)
    (htemporary : v.key temporary ≠ v.key q) {e : Digest} {t : Tree v}
    (ht : s.outputs.createFile temporary e = some t) :
    Filling R q i d temporary { s with outputs := t } := by
  have hfind := Tree.createFile_eq_some ht
  have hnew : v.allocate s.outputs.identities ≠ i := by
    intro hi
    have hfresh := v.allocate_fresh s.outputs.identities
    rw [hi] at hfresh
    exact hfresh h.apart.used
  constructor
  · exact h.apart.insert htemporary hfind fun e' he => hnew (Node.file.inj he).1
  · intro hidentity
    obtain ⟨e', he⟩ := existingFileIdentity_eq_some.mp hidentity
    replace he : t.find temporary = some (.file i e') := he
    rw [hfind, if_pos rfl] at he
    exact hnew (Node.file.inj (Option.some.inj he)).1

private theorem identity_write {t t' : Tree v} {j : ℕ × ℕ} {e : Digest}
    (ht : ∀ r, t'.find r = (t.find r).map (Node.write j e)) (r : List Name) :
    existingFileIdentity t' r = existingFileIdentity t r := by
  unfold existingFileIdentity
  rw [ht]
  cases t.find r with
  | none => rfl
  | some n => cases n <;> rfl

private theorem Filling.write (h : Filling R q i d temporary s) {e : Digest} {t : Tree v}
    (ht : s.outputs.writeFile temporary e = some t) :
    Filling R q i d temporary { s with outputs := t } := by
  obtain ⟨j, e', hj, hfind⟩ := Tree.writeFile_eq_some ht
  have hne : i ≠ j := by
    rintro rfl
    exact h.other (existingFileIdentity_eq_some.mpr ⟨e', hj⟩)
  have hidentity := identity_write hfind
  constructor
  · refine h.apart.of_outputs rfl rfl rfl ?_ fun r hr => ?_
    · change t.find q = _
      rw [hfind, h.apart.find]
      simp [Node.write, hne]
    · rw [← hidentity]
      exact hr
  · change existingFileIdentity t temporary ≠ some i
    rw [hidentity]
    exact h.other

private theorem Filling.replace (h : Filling R q i d temporary s)
    (htemporary : v.key temporary ≠ v.key q) {p : List Name} (hkey : v.key p ≠ v.key q) {t : Tree v}
    (ht : s.outputs.replace temporary p = some t) : Apart R q i d { s with outputs := t } := by
  obtain ⟨j, e, hj, hfind⟩ := Tree.replace_eq_some ht
  have hne : j ≠ i := by
    rintro rfl
    exact h.other (existingFileIdentity_eq_some.mpr ⟨e, hj⟩)
  refine h.apart.of_outputs rfl rfl rfl ?_ fun r hr => ?_
  · change t.find q = _
    rw [hfind, if_neg (Ne.symm hkey), if_neg (Ne.symm htemporary)]
  · obtain ⟨e', he⟩ := existingFileIdentity_eq_some.mp hr
    replace he : t.find r = some (.file i e') := he
    rw [hfind] at he
    split_ifs at he
    · exact absurd (Node.file.inj (Option.some.inj he)).1 hne
    · exact existingFileIdentity_eq_some.mpr ⟨e', he⟩

end Application

section Transactions

variable {R : List Name → Digest → Prop}
variable {s : RootState v} {q : List Name} {i : ℕ × ℕ} {d : Digest}

/-- Transactions go, or what is pending in them. -/
theorem Apart.of_transactions (h : Apart R q i d s) {transactions : List (Transaction v)}
    (ht : ∀ u ∈ transactions, ∀ pending, u.pending = some pending →
      ∃ w ∈ s.transactions, w.pending = some pending) :
    Apart R q i d { s with transactions } :=
  h.of_records rfl fun _ _ hr => hr.of_transactions rfl rfl ht

variable {same : List Name → List Name → Bool} {claim : Claim Name}

/-- The snapshot changes, and what it records is known. -/
private theorem Apart.snapshot (h : Apart R q i d s) {new : Snapshot Name}
    (hnew : ∀ p e, new.entries.get? p = some e → R p e.sha256) :
    Apart R q i d { s with snapshot := some new } := by
  refine ⟨h.lasting, h.find, h.clear, fun p e he => ?_⟩
  cases he with
  | snapshot hs he =>
    cases hs
    exact hnew _ _ he
  | pending hu hp he hn => exact h.recorded _ _ (.pending hu hp he hn)
  | reset hr he => exact h.recorded _ _ (.reset hr he)

end Transactions

section Publication

variable {R : List Name → Digest → Prop} {q : List Name} {i : ℕ × ℕ} {d : Digest}

variable {t : Tree v}

private theorem Clear.congr {p r : List Name} {e : Digest} (h : Clear t q i d p e)
    (hkey : v.key p = v.key r) : Clear t q i d r e := by
  intro he
  have hidentity : existingFileIdentity t r = existingFileIdentity t p := by
    unfold existingFileIdentity
    rw [Tree.find_congr hkey]
  rw [hidentity, ← hkey]
  exact h he

variable {s : RootState v}

end Publication

/-- The file at `q` has bytes that nothing records for it. -/
def Foreign (q : List Name) (i : ℕ × ℕ) (d : Digest) (s : RootState v) : Prop :=
  Apart (Records s) q i d s

section Operations

variable {R : List Name → Digest → Prop} {q : List Name} {i : ℕ × ℕ} {d : Digest}
variable {s : RootState v} {α : Type} {p : Action v α}

theorem Apart.foreign (h : Apart R q i d s) : Foreign q i d s :=
  ⟨h.lasting, h.find, fun p e he => h.clear p e (h.recorded p e he), fun _ _ he => he⟩

variable {same : List Name → List Name → Bool} {plan : Plan v}

/-- Neither the outputs change nor the records. -/
private theorem Foreign.frame {t : RootState v} (h : Foreign q i d s) (ho : t.outputs = s.outputs)
    (hsnapshot : t.snapshot = s.snapshot) (hreset : t.reset = s.reset)
    (htransactions : t.transactions = s.transactions) : Foreign q i d t :=
  (h.of_records ho fun _ _ he => he.of_transactions hsnapshot hreset fun w hw _ hp =>
    ⟨w, htransactions ▸ hw, hp⟩).foreign

end Operations

/-- What a build, or the coordinator's caller, asks for. -/
inductive Operation (v : Volume Name) where
  | reconcile (plan : Plan v) (token id : Token)
  | validate (plan : Plan v)
  | publish (plan : Plan v) (target : Target) (stagingRoot : List Name) (id : Token)
  | reset (plan : Plan v) (token : Token)

/-- The states an operation can be killed in or end in. -/
def Operation.Stops (same : List Name → List Name → Bool) (s t : RootState v) :
    Operation v → Prop
  | .reconcile plan token id => (OutputCoordinator.reconcile same plan token id).Stops s t
  | .validate plan => (OutputCoordinator.validate same plan).Stops s t
  | .publish plan target stagingRoot id =>
    (OutputCoordinator.publish same plan target stagingRoot id).Stops s t
  | .reset plan token => (OutputCoordinator.reset same plan token).Stops s t

variable {same : List Name → List Name → Bool} {q : List Name} {i : ℕ × ℕ} {d : Digest}
variable {s t : RootState v}

private theorem fresh_inode (used : List (ℕ × ℕ)) :
    ((0, (used.map Prod.snd).max?.getD 0 + 1) : ℕ × ℕ) ∉ used := by
  intro h
  have hle : (used.map Prod.snd).max?.getD 0 + 1 ≤ (used.map Prod.snd).max?.getD 0 :=
    List.le_max?_getD_of_mem (List.mem_map.mpr ⟨_, h, rfl⟩)
  exact absurd hle (Nat.not_succ_le_self _)

/-- Names are numbers; `[1]` and what is below it looks generated. -/
def numberedVolume : Volume ℕ where
  caseSensitive := true
  casefold n := n
  casefold_casefold _ := rfl
  posixLe p q := decide (p ≤ q)
  generated p := p.head? = some 1
  stagingName n := n + 100
  stagedName := 0
  temporaryName n id index := 1000 + n + id + index
  emptyDigest := 0
  prefixes sha256 := [sha256 / 2]
  pendingFirst := false
  allocate used := (0, (used.map Prod.snd).max?.getD 0 + 1)
  allocate_fresh := fresh_inode

def numberedPlan : Plan numberedVolume where
  root := [0]
  buildRoot := [5]
  targets := [⟨7, [107]⟩]
  outputs := [⟨7, [1]⟩]
  generated := by decide
  portable := by decide
  repeatsNoTarget := by decide
  matchesOutputs identity := by simp
  expectedStaging := by decide

/-- A recorded output, a file of somebody else beside it, and what an interrupted publication could
have left. -/
def numberedOutputs : Tree numberedVolume :=
  (((Tree.empty.createFile [1] 10).bind fun t => t.createFile [2] 10).bind fun t =>
    t.createFile [1010] 30).getD .empty

/-- New bytes for the output. -/
def numberedStaging : Tree numberedVolume :=
  ((Tree.empty.makeDirectory [0]).bind fun t => t.createFile [0, 1] 20).getD .empty

def claimedState : RootState numberedVolume where
  claim := some ⟨[0], [5], 3⟩
  snapshot := some ⟨3, Dictionary.empty.set [1] ⟨10, 7⟩, 0⟩
  plan := some numberedPlan
  reset := none
  transactions := []
  outputs := numberedOutputs
  staging := Dictionary.empty.set [107] numberedStaging

def published : RootState numberedVolume :=
  ((publish (fun _ _ => false) numberedPlan 7 [107, 0] 9).run claimedState).2

end Protocyte.OutputCoordinator
