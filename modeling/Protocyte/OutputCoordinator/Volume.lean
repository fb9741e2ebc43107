import Protocyte.Foundation.Dictionary
import Mathlib.Data.List.Induction
import Mathlib.Data.List.Infix

/-! The files below an output root and the path functions that look at them. -/
namespace Protocyte.OutputCoordinator

open Foundation

/-- A SHA-256 digest; it stands for the bytes it was taken of. -/
abbrev Digest := ℕ

/-- The names of a volume. `casefold` is `str.casefold` and `generated` tests a folded path for the
generated suffixes; `stagingName` is `.protocyte-generation-staging-` with a target's identity,
`stagedName` the directory `generated` below it, and `temporaryName` is the name
`.{name}.protocyte-{transaction_id}-{index}.tmp`. `allocate` picks the device and inode of a new
file, `emptyDigest` is the digest of no bytes, and `prefixes` those of the beginnings that
`shutil.copyfileobj` leaves in a file while it copies. `pendingFirst` tells which entry of a
transaction directory `os.scandir` lists first. A case-insensitive volume takes names that fold
alike for one; it keeps them folded here, since the spelling of an entry is only ever read through
`casefold`. -/
structure Volume (Name : Type) where
  caseSensitive : Bool
  casefold : Name → Name
  casefold_casefold : ∀ n, casefold (casefold n) = casefold n
  posixLe : List Name → List Name → Bool
  generated : List Name → Bool
  stagingName : ℕ → Name
  stagedName : Name
  temporaryName : Name → ℕ → ℕ → Name
  emptyDigest : Digest
  prefixes : Digest → List Digest
  pendingFirst : Bool
  allocate : List (ℕ × ℕ) → ℕ × ℕ
  allocate_fresh : ∀ used, allocate used ∉ used

variable {Name : Type}

namespace Volume

variable (v : Volume Name)

def keyName (n : Name) : Name := if v.caseSensitive then n else v.casefold n

/-- What the volume tells paths apart by. -/
def key (p : List Name) : List Name := p.map v.keyName

def fold (p : List Name) : List Name := p.map v.casefold

/-- `destination.with_name` of the temporary file that a publication fills beside it. -/
def temporaryPath (p : List Name) (transactionId index : ℕ) : List Name :=
  p.dropLast ++ (p.getLast?.map fun name => v.temporaryName name transactionId index).toList

variable {v}

@[simp] theorem keyName_keyName (n : Name) : v.keyName (v.keyName n) = v.keyName n := by
  cases hcase : v.caseSensitive with
  | true => simp [keyName, hcase]
  | false => simp [keyName, hcase, v.casefold_casefold]

@[simp] theorem key_eq_nil {p : List Name} : v.key p = [] ↔ p = [] := List.map_eq_nil_iff

@[simp] theorem key_key (p : List Name) : v.key (v.key p) = v.key p := by
  unfold key
  rw [List.map_map]
  exact List.map_congr_left fun n _ => keyName_keyName n

@[simp] theorem key_dropLast (p : List Name) : v.key p.dropLast = (v.key p).dropLast :=
  List.map_dropLast

end Volume

inductive Node where
  | directory
  | file (identity : ℕ × ℕ) (sha256 : Digest)
  | special
deriving DecidableEq, Repr

namespace Node

/-- What becomes of an entry when bytes are written to a file. -/
def write (i : ℕ × ℕ) (d : Digest) : Node → Node
  | .file j e => .file j (if j = i then d else e)
  | .directory => .directory
  | .special => .special

theorem write_eq_file {i j : ℕ × ℕ} {d e : Digest} {n : Node} (h : n.write i d = .file j e) :
    ∃ e', n = .file j e' ∧ e = if j = i then d else e' := by
  cases n with
  | file k e' =>
    obtain ⟨rfl, rfl⟩ := Node.file.inj h
    exact ⟨e', rfl, rfl⟩
  | directory => cases h
  | special => cases h

end Node

/-- The entries below a root. Hard links share an identity and with it their bytes. -/
structure Tree (v : Volume Name) where
  nodes : Dictionary (List Name) Node
  normal : ∀ p n, (p, n) ∈ nodes.items → v.key p = p ∧ p ≠ []
  rooted : ∀ p n, (p, n) ∈ nodes.items →
    p.dropLast = [] ∨ (p.dropLast, Node.directory) ∈ nodes.items
  linked : ∀ p q i d e, (p, Node.file i d) ∈ nodes.items → (q, Node.file i e) ∈ nodes.items → d = e

variable {v : Volume Name}

namespace Tree

def identities (t : Tree v) : List (ℕ × ℕ) :=
  t.nodes.items.filterMap fun
    | (_, .file identity _) => some identity
    | _ => none

theorem mem_identities {t : Tree v} {p : List Name} {i : ℕ × ℕ} {d : Digest}
    (h : (p, .file i d) ∈ t.nodes.items) : i ∈ t.identities :=
  List.mem_filterMap.mpr ⟨(p, .file i d), h, rfl⟩

variable [DecidableEq Name]

def empty : Tree v where
  nodes := .empty
  normal := fun _ _ h => absurd h List.not_mem_nil
  rooted := fun _ _ h => absurd h List.not_mem_nil
  linked := fun _ _ _ _ _ h => absurd h List.not_mem_nil

def find (t : Tree v) (p : List Name) : Option Node :=
  if p = [] then some .directory else t.nodes.get? (v.key p)

section Find

variable {t : Tree v} {p q : List Name} {n : Node}

theorem find_congr (h : v.key p = v.key q) : t.find p = t.find q := by
  have hnil : p = [] ↔ q = [] := by
    rw [← Volume.key_eq_nil (v := v), h, Volume.key_eq_nil]
  simp only [find, hnil, h]

@[simp] theorem find_key (p : List Name) : t.find (v.key p) = t.find p :=
  find_congr (Volume.key_key p)

theorem mem_items_of_find (hp : p ≠ []) (h : t.find p = some n) : (v.key p, n) ∈ t.nodes.items := by
  rw [find, if_neg hp] at h
  exact Dictionary.get?_eq_some_iff.mp h

theorem find_of_mem_items (h : (p, n) ∈ t.nodes.items) : t.find p = some n := by
  obtain ⟨hkey, hp⟩ := t.normal p n h
  rw [find, if_neg hp, hkey]
  exact Dictionary.get?_eq_some_iff.mpr h

end Find

section Changes

/-- A new entry has the bytes of the file it is a link to. -/
def Agrees (t : Tree v) (n : Node) : Prop :=
  ∀ i d, n = .file i d → ∀ q e, (q, Node.file i e) ∈ t.nodes.items → e = d

theorem linked_set (t : Tree v) (p : List Name) (n : Node) (h : t.Agrees n) (q r : List Name)
    (i : ℕ × ℕ) (d e : Digest) (hq : (q, Node.file i d) ∈ (t.nodes.set (v.key p) n).items)
    (hr : (r, Node.file i e) ∈ (t.nodes.set (v.key p) n).items) : d = e := by
  rcases Dictionary.mem_items_set.mp hq with hq | ⟨hq, -⟩
  · rcases Dictionary.mem_items_set.mp hr with hr | ⟨hr, -⟩
    · have hnode := (Prod.mk.inj hq).2.trans (Prod.mk.inj hr).2.symm
      exact (Node.file.inj hnode).2
    · exact (h i d (Prod.mk.inj hq).2.symm r e hr).symm
  · rcases Dictionary.mem_items_set.mp hr with hr | ⟨hr, -⟩
    · exact h i e (Prod.mk.inj hr).2.symm q d hq
    · exact t.linked q r i d e hq hr

theorem normal_set (t : Tree v) (p : List Name) (n : Node) (hp : p ≠ []) (q : List Name) (m : Node)
    (h : (q, m) ∈ (t.nodes.set (v.key p) n).items) : v.key q = q ∧ q ≠ [] := by
  rcases Dictionary.mem_items_set.mp h with hq | ⟨hq, -⟩
  · obtain ⟨rfl, -⟩ := Prod.mk.inj hq
    exact ⟨Volume.key_key p, fun hnil => hp (Volume.key_eq_nil.mp hnil)⟩
  · exact t.normal q m hq

theorem rooted_set (t : Tree v) (p : List Name) (n : Node)
    (hparent : t.find p.dropLast = some .directory)
    (hold : n = .directory ∨ t.find p ≠ some .directory) (q : List Name) (m : Node)
    (h : (q, m) ∈ (t.nodes.set (v.key p) n).items) :
    q.dropLast = [] ∨ (q.dropLast, Node.directory) ∈ (t.nodes.set (v.key p) n).items := by
  have hkeep : ∀ r, (r, Node.directory) ∈ t.nodes.items →
      (r, Node.directory) ∈ (t.nodes.set (v.key p) n).items := by
    intro r hr
    by_cases hrp : r = v.key p
    · rcases hold with hn | hold
      · exact Dictionary.mem_items_set.mpr (.inl (by rw [hrp, hn]))
      · rw [hrp] at hr
        exact absurd ((find_key p).symm.trans (find_of_mem_items hr)) hold
    · exact Dictionary.mem_items_set.mpr (.inr ⟨hr, hrp⟩)
  rcases Dictionary.mem_items_set.mp h with hq | ⟨hq, -⟩
  · obtain ⟨rfl, -⟩ := Prod.mk.inj hq
    rw [← Volume.key_dropLast, Volume.key_eq_nil]
    by_cases hnil : p.dropLast = []
    · exact .inl hnil
    · exact .inr (hkeep _ (mem_items_of_find hnil hparent))
  · exact (t.rooted q m hq).imp_right (hkeep _)

def insert (t : Tree v) (p : List Name) (n : Node) (hp : p ≠ [])
    (hparent : t.find p.dropLast = some .directory)
    (hold : n = .directory ∨ t.find p ≠ some .directory) (hagrees : t.Agrees n) : Tree v where
  nodes := t.nodes.set (v.key p) n
  normal := t.normal_set p n hp
  rooted := t.rooted_set p n hparent hold
  linked := t.linked_set p n hagrees

omit [DecidableEq Name] in
theorem agrees_directory (t : Tree v) : t.Agrees .directory := by
  intro i d h
  cases h

omit [DecidableEq Name] in
theorem agrees_allocate (t : Tree v) (d : Digest) :
    t.Agrees (.file (v.allocate t.identities) d) := by
  intro i d' h q e hq
  rw [← (Node.file.inj h).1] at hq
  exact absurd (mem_identities hq) (v.allocate_fresh t.identities)

/-- `os.mkdir`. -/
def makeDirectory (t : Tree v) (p : List Name) : Option (Tree v) :=
  if h : p ≠ [] ∧ t.find p = none ∧ t.find p.dropLast = some .directory then
    some (t.insert p .directory h.1 h.2.2 (.inl rfl) t.agrees_directory)
  else none

theorem not_directory {t : Tree v} {p : List Name} (h : t.find p = none) :
    t.find p ≠ some .directory := by
  rw [h]
  exact (Option.some_ne_none _).symm

/-- `open` with mode `xb`, and the bytes that are written first. -/
def createFile (t : Tree v) (p : List Name) (sha256 : Digest) : Option (Tree v) :=
  if h : p ≠ [] ∧ t.find p = none ∧ t.find p.dropLast = some .directory then
    some (t.insert p (.file (v.allocate t.identities) sha256) h.1 h.2.2 (.inr (not_directory h.2.1))
      (t.agrees_allocate sha256))
  else none

omit [DecidableEq Name] in
theorem normal_write (t : Tree v) (i : ℕ × ℕ) (d : Digest) (q : List Name) (m : Node)
    (h : (q, m) ∈ (t.nodes.mapValues (Node.write i d)).items) : v.key q = q ∧ q ≠ [] := by
  obtain ⟨⟨r, n⟩, hmem, heq⟩ := List.mem_map.mp h
  obtain ⟨rfl, -⟩ := Prod.mk.inj heq
  exact t.normal r n hmem

omit [DecidableEq Name] in
theorem rooted_write (t : Tree v) (i : ℕ × ℕ) (d : Digest) (q : List Name) (m : Node)
    (h : (q, m) ∈ (t.nodes.mapValues (Node.write i d)).items) :
    q.dropLast = [] ∨ (q.dropLast, Node.directory) ∈ (t.nodes.mapValues (Node.write i d)).items := by
  obtain ⟨⟨r, n⟩, hmem, heq⟩ := List.mem_map.mp h
  obtain ⟨rfl, -⟩ := Prod.mk.inj heq
  exact (t.rooted r n hmem).imp_right fun hdir => List.mem_map.mpr ⟨_, hdir, rfl⟩

omit [DecidableEq Name] in
theorem linked_write (t : Tree v) (i : ℕ × ℕ) (d : Digest) (p q : List Name) (j : ℕ × ℕ)
    (e f : Digest) (hp : (p, Node.file j e) ∈ (t.nodes.mapValues (Node.write i d)).items)
    (hq : (q, Node.file j f) ∈ (t.nodes.mapValues (Node.write i d)).items) : e = f := by
  obtain ⟨⟨p', n⟩, hpmem, hpeq⟩ := List.mem_map.mp hp
  obtain ⟨⟨q', m⟩, hqmem, hqeq⟩ := List.mem_map.mp hq
  obtain ⟨e', rfl, he⟩ := Node.write_eq_file (Prod.mk.inj hpeq).2
  obtain ⟨f', rfl, hf⟩ := Node.write_eq_file (Prod.mk.inj hqeq).2
  rw [he, hf, t.linked p' q' j e' f' hpmem hqmem]

/-- The bytes of an open file change, under every name it has. -/
def writeFile (t : Tree v) (p : List Name) (sha256 : Digest) : Option (Tree v) :=
  match t.find p with
  | some (.file i _) => some {
      nodes := t.nodes.mapValues (Node.write i sha256)
      normal := t.normal_write i sha256
      rooted := t.rooted_write i sha256
      linked := t.linked_write i sha256 }
  | _ => none

theorem rooted_pop (t : Tree v) (p : List Name) (hdir : t.find p ≠ some .directory) (q : List Name)
    (m : Node) (h : (q, m) ∈ (t.nodes.pop (v.key p)).items) :
    q.dropLast = [] ∨ (q.dropLast, Node.directory) ∈ (t.nodes.pop (v.key p)).items := by
  apply (t.rooted q m (Dictionary.mem_items_pop.mp h).1).imp_right
  intro hmem
  refine Dictionary.mem_items_pop.mpr ⟨hmem, ?_⟩
  intro hkey
  replace hkey : q.dropLast = v.key p := hkey
  rw [hkey] at hmem
  exact hdir ((find_key p).symm.trans (find_of_mem_items hmem))

theorem normal_pop (t : Tree v) (p q : List Name) (m : Node)
    (h : (q, m) ∈ (t.nodes.pop (v.key p)).items) : v.key q = q ∧ q ≠ [] :=
  t.normal q m (Dictionary.mem_items_pop.mp h).1

theorem linked_pop (t : Tree v) (p q r : List Name) (i : ℕ × ℕ) (d e : Digest)
    (hq : (q, Node.file i d) ∈ (t.nodes.pop (v.key p)).items)
    (hr : (r, Node.file i e) ∈ (t.nodes.pop (v.key p)).items) : d = e :=
  t.linked q r i d e (Dictionary.mem_items_pop.mp hq).1 (Dictionary.mem_items_pop.mp hr).1

def remove (t : Tree v) (p : List Name) (hdir : t.find p ≠ some .directory) : Tree v where
  nodes := t.nodes.pop (v.key p)
  normal := t.normal_pop p
  rooted := t.rooted_pop p hdir
  linked := t.linked_pop p

/-- `os.unlink`. -/
def unlink (t : Tree v) (p : List Name) : Option (Tree v) :=
  if h : t.find p ≠ none ∧ t.find p ≠ some .directory then some (t.remove p h.2) else none

theorem agrees_remove (t : Tree v) {p : List Name} {n : Node} (h : t.find p = some n)
    (hdir : t.find p ≠ some .directory) (hp : p ≠ []) : (t.remove p hdir).Agrees n := by
  intro i d hn q e hq
  rw [hn] at h
  exact t.linked q (v.key p) i e d (Dictionary.mem_items_pop.mp hq).1 (mem_items_of_find hp h)

theorem file_ne_nil {t : Tree v} {p : List Name} {i : ℕ × ℕ} {d : Digest}
    (h : t.find p = some (.file i d)) : p ≠ [] := by
  rintro rfl
  cases h

theorem file_not_directory {t : Tree v} {p : List Name} {i : ℕ × ℕ} {d : Digest}
    (h : t.find p = some (.file i d)) : t.find p ≠ some .directory := by
  rw [h]
  exact fun hdir => Node.noConfusion (Option.some.inj hdir)

/-- `os.replace` of a file onto another path. -/
def replace (t : Tree v) (p q : List Name) : Option (Tree v) :=
  match h : t.find p with
  | some (.file i d) =>
    if hq : q ≠ [] ∧ (t.remove p (file_not_directory h)).find q ≠ some .directory ∧
        (t.remove p (file_not_directory h)).find q.dropLast = some .directory then
      some ((t.remove p (file_not_directory h)).insert q (.file i d) hq.1 hq.2.2 (.inr hq.2.1)
        (t.agrees_remove h (file_not_directory h) (file_ne_nil h)))
    else none
  | _ => none

variable {t t' : Tree v} {p q : List Name}

theorem find_insert {n : Node} (hp : p ≠ []) (hparent : t.find p.dropLast = some .directory)
    (hold : n = .directory ∨ t.find p ≠ some .directory) (hagrees : t.Agrees n) (q : List Name) :
    (t.insert p n hp hparent hold hagrees).find q =
      if v.key q = v.key p then some n else t.find q := by
  by_cases hq : q = []
  · have hne : ¬ v.key q = v.key p := by
      rw [hq]
      exact fun h => hp (Volume.key_eq_nil.mp h.symm)
    rw [if_neg hne, hq]
    rfl
  · rw [find, if_neg hq, find, if_neg hq]
    exact Dictionary.get?_set _ _ _

theorem find_remove (hdir : t.find p ≠ some .directory) (q : List Name) :
    (t.remove p hdir).find q = if v.key q = v.key p then none else t.find q := by
  have hpnil : p ≠ [] := by
    rintro rfl
    exact hdir rfl
  by_cases hq : q = []
  · have hne : ¬ v.key q = v.key p := by
      rw [hq]
      exact fun h => hpnil (Volume.key_eq_nil.mp h.symm)
    rw [if_neg hne, hq]
    rfl
  · rw [find, if_neg hq, find, if_neg hq]
    exact Dictionary.get?_pop _ _

theorem createFile_eq_some {d : Digest} (h : t.createFile p d = some t') (q : List Name) :
    t'.find q = if v.key q = v.key p then some (.file (v.allocate t.identities) d)
      else t.find q := by
  unfold createFile at h
  split_ifs at h with hp
  cases h
  exact find_insert _ _ _ _ q

/-- Writing to a file changes the bytes of its links and nothing else. -/
theorem writeFile_eq_some {d : Digest} (h : t.writeFile p d = some t') :
    ∃ i e, t.find p = some (.file i e) ∧
      ∀ q, t'.find q = (t.find q).map (Node.write i d) := by
  unfold writeFile at h
  split at h
  · rename_i i e hfile
    cases h
    refine ⟨i, e, hfile, fun q => ?_⟩
    by_cases hq : q = []
    · rw [hq]
      rfl
    · rw [find, if_neg hq, find, if_neg hq]
      exact Dictionary.get?_mapValues _ _ _
  · cases h

theorem replace_eq_some (h : t.replace p q = some t') :
    ∃ i d, t.find p = some (.file i d) ∧ ∀ r, t'.find r =
      if v.key r = v.key q then some (.file i d)
      else if v.key r = v.key p then none else t.find r := by
  unfold replace at h
  split at h
  · rename_i i d hfile
    split_ifs at h with hq
    cases h
    refine ⟨i, d, hfile, fun r => ?_⟩
    rw [find_insert, find_remove]
  · cases h

end Changes

section Paths

/-- The names in a directory; nothing where `os.scandir` raises `OSError`. -/
def scandir (t : Tree v) (current : List Name) : Option (List Name) :=
  if t.find current = some .directory then
    some (t.nodes.keys.filterMap fun path =>
      if path.dropLast = v.key current then path.getLast? else none)
  else none

/-- Every part of the path has exactly one spelling in the directory reached. -/
def spelledOnce (t : Tree v) (current : List Name) : List Name → Bool
  | [] => true
  | part :: parts =>
    match t.scandir current with
    | none => false
    | some names =>
      match names.filter fun name => v.casefold name = v.casefold part with
      | [name] => t.spelledOnce (current ++ [name]) parts
      | _ => false

/-- `project_path` rejects a link, and a file where a directory has to be. -/
def obstructed (t : Tree v) (p : List Name) : Bool :=
  p.inits.any fun q =>
    match t.find q with
    | none => false
    | some .directory => false
    | some (.file _ _) => q ≠ p
    | some .special => true

def outputPath (t : Tree v) (p : List Name) : Except String Unit :=
  if t.obstructed p then .error "filesystem path contains a link or has a non-directory ancestor"
  else .ok ()

/-- `os.path.samefile`, false where it raises `OSError`. -/
def samefile (t : Tree v) (p q : List Name) : Bool :=
  match t.find p, t.find q with
  | some (.file i _), some (.file j _) => i = j
  | some _, some _ => v.key p = v.key q
  | _, _ => false

def caseSpellingAlias (t : Tree v) (first second : List Name) : Except String Bool :=
  if first = second ∨ v.fold first ≠ v.fold second then .ok false
  else if t.spelledOnce [] first then do
    t.outputPath first
    t.outputPath second
    .ok (t.samefile first second)
  else .ok false

variable {t : Tree v} {p q : List Name}

end Paths

end Tree

end Protocyte.OutputCoordinator
