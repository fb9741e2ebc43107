import Protocyte.Names.Model
import Protocyte.Names.Scope
import Mathlib.Data.List.Sort

/-! Requests for emitted names, the candidates tried for them, and the allocation of a batch of
requests in a scope. -/
namespace Protocyte.Names

open Foundation

/-- The texts around a stem that does not end in an underscore. -/
def Shape.around : Shape → Text × Text
  | .template before after => (before, after)
  | .suffix text => ([], '_' :: text)

/-- Text that can stand before a stem. -/
def Leads (before : Text) : Prop := before = [] ∨ Plain before ∧ before.getLast? = some '_'

/-- Text that can follow a stem, with no digit in it. -/
def Follows (after : Text) : Prop :=
  Fragment after ∧ after.head? ∈ [none, some '_'] ∧ (after.all fun c => !c.isDigit) = true

theorem Follows.isDigit {after : Text} (h : Follows after) : ∀ c ∈ after, c.isDigit = false := by
  intro c hc
  exact Bool.not_eq_true' _ |>.mp (List.all_eq_true.mp h.2.2 c hc)

structure Shape.Fits (shape : Shape) : Prop where
  leads : Leads shape.around.1
  follows : Follows shape.around.2

/-- Members that get along in one scope under every stem that ends in a digit. -/
structure MembersFit (members : List EmittedNameMember) : Prop where
  nonempty : members ≠ []
  fits : ∀ m ∈ members, m.shape.Fits
  distinct : members.Pairwise fun a b => a.shape.around = b.shape.around →
    a.signature ≠ none ∧ b.signature ≠ none ∧ a.signature ≠ b.signature

instance (before : Text) : Decidable (Leads before) :=
  inferInstanceAs (Decidable (before = [] ∨ Plain before ∧ before.getLast? = some '_'))

instance (after : Text) : Decidable (Follows after) :=
  inferInstanceAs (Decidable
    (Fragment after ∧ after.head? ∈ [none, some '_'] ∧ (after.all fun c => !c.isDigit) = true))

theorem shapeFits_iff (shape : Shape) :
    (Leads shape.around.1 ∧ Follows shape.around.2) ↔ shape.Fits :=
  ⟨fun h => ⟨h.1, h.2⟩, fun h => ⟨h.leads, h.follows⟩⟩

instance (shape : Shape) : Decidable shape.Fits := decidable_of_iff _ (shapeFits_iff shape)

theorem membersFit_iff (members : List EmittedNameMember) :
    (members ≠ [] ∧ (∀ m ∈ members, m.shape.Fits) ∧
      members.Pairwise fun a b => a.shape.around = b.shape.around →
        a.signature ≠ none ∧ b.signature ≠ none ∧ a.signature ≠ b.signature) ↔
      MembersFit members :=
  ⟨fun h => ⟨h.1, h.2.1, h.2.2⟩, fun h => ⟨h.nonempty, h.fits, h.distinct⟩⟩

instance (members : List EmittedNameMember) : Decidable (MembersFit members) :=
  decidable_of_iff _ (membersFit_iff members)

/-- A request for a stem, of which a search through the candidates is known to end: the preferred
stem is a word apart from trailing underscores, and the members get along. -/
structure EmittedNameRequest where
  owner : Text
  preferred : Text
  members : List EmittedNameMember
  hashFallback : Bool := false
  priority : ℕ := 100
  stem : Stem preferred
  membersFit : MembersFit members

section Candidates

variable (sha256 : Sha256)

def ownerDigest (owner : Text) : Text := (hexdigest (sha256.digest (Utf8.encode owner))).take 12

def candidateBase (preferred : Text) : Text :=
  let stripped := rstripUnderscores preferred
  if stripped = [] then "protocyte_name".toList else stripped

def hashedCandidate (preferred owner : Text) : Text :=
  candidateBase preferred ++ "_protocyte_".toList ++ ownerDigest sha256 owner

/-- `f"{base}_protocyte_{digest}_{suffix}"` -/
def numberedCandidate (preferred owner : Text) (suffix : ℕ) : Text :=
  hashedCandidate sha256 preferred owner ++ '_' :: Nat.toDigits 10 suffix

/-- The items of `_allocation_candidates`, which has no last one. -/
def allocationCandidate (preferred owner : Text) (hashFallback : Bool) (index : ℕ) : Text :=
  match hashFallback, index with
  | _, 0 => preferred
  | true, 1 => hashedCandidate sha256 preferred owner
  | true, n + 2 => numberedCandidate sha256 preferred owner (n + 2)
  | false, 1 =>
    if preferred.getLast? = some '_' then preferred ++ cppDerivableIdentifierSuffix
    else preferred ++ ['_']
  | false, 2 => hashedCandidate sha256 preferred owner
  | false, n + 3 => numberedCandidate sha256 preferred owner (n + 2)

namespace EmittedNameRequest

variable (request : EmittedNameRequest)

def candidate (index : ℕ) : Text :=
  allocationCandidate sha256 request.preferred request.owner request.hashFallback index

def rendered (stem : Text) : List (Text × EmittedNameUse) :=
  request.members.map fun member =>
    (member.render stem, ⟨request.owner, member.kind, member.signature⟩)

end EmittedNameRequest

end Candidates

section Numbered

/-- A stem of the kind the numbered candidates are. -/
structure Numbered (stem : Text) : Prop extends Word stem where
  long : 16 < stem.length
  digit : ∃ d ∈ stem.getLast?, d.isDigit = true

variable {sha256 : Sha256} {stem preferred owner : Text} {shape shape' : Shape}

theorem word_candidateBase (h : Stem preferred) : Word (candidateBase preferred) := by
  have hne : rstripUnderscores preferred ≠ [] := Plain.ne_nil h.toPlain
  unfold candidateBase
  simp only [if_neg hne]
  exact h

private theorem alphanum_ownerDigest (sha256 : Sha256) (owner : Text) :
    ∀ c ∈ ownerDigest sha256 owner, c.isAlphanum = true :=
  fun _ hc => isAlphanum_of_mem_hexdigest (List.mem_of_mem_take hc)

private theorem length_ownerDigest (owner : Text) : (ownerDigest sha256 owner).length = 12 := by
  unfold ownerDigest
  rw [List.length_take, length_hexdigest, sha256.length_digest]
  rfl

private theorem getLast?_of_alphanum {text : Text} (h : ∀ c ∈ text, c.isAlphanum = true) :
    text.getLast? ≠ some '_' :=
  fun heq => ne_underscore_of_isAlphanum (h '_' (List.mem_of_getLast? heq)) rfl

theorem word_hashedCandidate (sha256 : Sha256) (owner : Text) (h : Stem preferred) :
    Word (hashedCandidate sha256 preferred owner) := by
  have hbase := word_candidateBase h
  have hdigest := alphanum_ownerDigest sha256 owner
  have hne : ownerDigest sha256 owner ≠ [] := by
    apply List.ne_nil_of_length_pos
    rw [length_ownerDigest]
    omega
  have hmark : Plain (candidateBase preferred ++ "_protocyte_".toList) :=
    hbase.toPlain.append (by decide) (.inl hbase.last)
  unfold hashedCandidate
  refine ⟨hmark.append (Fragment.of_alphanum hdigest) (.inr ?_), ?_⟩
  · intro heq
    exact ne_underscore_of_isAlphanum (hdigest '_' (List.mem_of_mem_head? heq)) rfl
  · rw [List.getLast?_append_of_ne_nil _ hne]
    exact getLast?_of_alphanum hdigest

private theorem isAlphanum_of_isDigit {c : Char} (h : c.isDigit = true) : c.isAlphanum = true := by
  simp [Char.isAlphanum, h]

theorem numbered_numberedCandidate (h : Stem preferred) (suffix : ℕ) :
    Numbered (numberedCandidate sha256 preferred owner suffix) := by
  have hhashed := word_hashedCandidate sha256 owner h
  have hdigits : ∀ c ∈ Nat.toDigits 10 suffix, c.isDigit = true :=
    fun c hc => Nat.isDigit_of_mem_toDigits (by omega) (by omega) hc
  have halphanum : ∀ c ∈ Nat.toDigits 10 suffix, c.isAlphanum = true :=
    fun c hc => isAlphanum_of_isDigit (hdigits c hc)
  have hne : Nat.toDigits 10 suffix ≠ [] := Nat.toDigits_ne_nil
  have hfragment : Fragment ('_' :: Nat.toDigits 10 suffix) := by
    apply Fragment.append (a := ['_']) (by decide) (Fragment.of_alphanum halphanum)
    right
    intro heq
    exact ne_underscore_of_isAlphanum (halphanum '_' (List.mem_of_mem_head? heq)) rfl
  have hlast : (numberedCandidate sha256 preferred owner suffix).getLast? =
      (Nat.toDigits 10 suffix).getLast? := by
    unfold numberedCandidate
    rw [List.getLast?_append_of_ne_nil _ (List.cons_ne_nil _ _), List.getLast?_cons_of_ne_nil hne]
  refine ⟨⟨hhashed.toPlain.append hfragment (.inl hhashed.last), ?_⟩, ?_, ?_⟩
  · rw [hlast]
    exact getLast?_of_alphanum halphanum
  · unfold numberedCandidate hashedCandidate
    rw [List.length_append, List.length_append, List.length_append, length_ownerDigest]
    show 16 < _ + 11 + 12 + _
    omega
  · rw [hlast]
    exact ⟨_, List.getLast?_eq_some_getLast hne, hdigits _ (List.getLast_mem hne)⟩

theorem render_of_last_ne (h : stem.getLast? ≠ some '_') :
    shape.render stem = shape.around.1 ++ stem ++ shape.around.2 := by
  cases shape with
  | template before after => rfl
  | suffix text =>
    show (if stem.getLast? = some '_' then _ else stem ++ ['_'] ++ text) = [] ++ stem ++ '_' :: text
    rw [if_neg h]
    simp

theorem Numbered.portable (h : Numbered stem) (hfits : shape.Fits) :
    isPortableIdentifier (shape.render stem) = true := by
  rw [render_of_last_ne h.last, isPortableIdentifier_iff]
  have hleads : Plain (shape.around.1 ++ stem) := by
    rcases hfits.leads with hnil | ⟨hplain, _⟩
    · rw [hnil]
      exact h.toPlain
    · exact hplain.append_plain h.toPlain
  constructor
  · apply hleads.append hfits.follows.1
    left
    rw [List.getLast?_append_of_ne_nil _ h.toPlain.ne_nil]
    exact h.last
  · intro hkeyword
    have hshort := (word_of_mem_cppKeywords hkeyword).2
    have hlong := h.long
    rw [List.length_append, List.length_append] at hshort
    omega

/-- What follows the last digit of a text is determined by the text. -/
private theorem append_inj_of_digit {x y a b : Text}
    (hx : ∃ d ∈ x.getLast?, d.isDigit = true) (hy : ∃ d ∈ y.getLast?, d.isDigit = true)
    (ha : ∀ c ∈ a, c.isDigit = false) (hb : ∀ c ∈ b, c.isDigit = false) (h : x ++ a = y ++ b) :
    x = y ∧ a = b := by
  have htail : ∀ {x a : Text}, (∃ d ∈ x.getLast?, d.isDigit = true) →
      (∀ c ∈ a, c.isDigit = false) →
      (x ++ a).reverse.takeWhile (fun c => !c.isDigit) = a.reverse := by
    rintro x a ⟨d, hd, hdigit⟩ ha
    rw [List.reverse_append, List.takeWhile_append_of_pos]
    · cases hr : x.reverse with
      | nil =>
        rw [List.reverse_eq_nil_iff.mp hr] at hd
        simp at hd
      | cons c rest =>
        rw [← List.head?_reverse, hr, List.head?_cons, Option.mem_some_iff] at hd
        rw [List.takeWhile_cons_of_neg (by simp [hd, hdigit]), List.append_nil]
    · intro c hc
      rw [ha c (List.mem_reverse.mp hc)]
      rfl
  have heq : a.reverse = b.reverse := by rw [← htail hx ha, ← htail hy hb, h]
  have hab := List.reverse_injective heq
  rw [hab] at h
  exact ⟨List.append_cancel_right h, hab⟩

theorem Numbered.around_inj (h : Numbered stem) (hfits : shape.Fits) (hfits' : shape'.Fits)
    (heq : shape.render stem = shape'.render stem) : shape.around = shape'.around := by
  rw [render_of_last_ne h.last, render_of_last_ne h.last] at heq
  have hlast : ∀ before : Text, ∃ d ∈ (before ++ stem).getLast?, d.isDigit = true := by
    intro before
    rw [List.getLast?_append_of_ne_nil _ h.toPlain.ne_nil]
    exact h.digit
  obtain ⟨hbefore, hafter⟩ := append_inj_of_digit (hlast _) (hlast _) hfits.follows.isDigit
    hfits'.follows.isDigit heq
  exact Prod.ext (List.append_cancel_right hbefore) hafter

theorem length_lt_numberedCandidate {n suffix : ℕ} (h : 10 ^ n ≤ suffix) :
    n < (numberedCandidate sha256 preferred owner suffix).length := by
  have hdigits : n < (Nat.toDigits 10 suffix).length := by
    rcases Nat.eq_zero_or_pos n with rfl | hpos
    · exact Nat.length_toDigits_pos
    · by_contra hle
      have hlt := (Nat.length_toDigits_le_iff (by omega) hpos).mp (Nat.le_of_not_lt hle)
      omega
  unfold numberedCandidate
  rw [List.length_append, List.length_cons]
  omega

theorem length_le_render (shape : Shape) (stem : Text) : stem.length ≤ (shape.render stem).length := by
  cases shape with
  | template before after =>
    show _ ≤ (before ++ stem ++ after).length
    rw [List.length_append, List.length_append]
    omega
  | suffix text =>
    show _ ≤ (if _ then stem ++ text ++ ['_'] else stem ++ ['_'] ++ text).length
    split_ifs <;> rw [List.length_append, List.length_append] <;> omega

end Numbered

namespace EmittedNameRequest

variable (sha256 : Sha256) (request : EmittedNameRequest)

theorem candidate_add_three (k : ℕ) :
    ∃ suffix, k ≤ suffix ∧ request.candidate sha256 (k + 3) =
      numberedCandidate sha256 request.preferred request.owner suffix := by
  unfold candidate
  cases request.hashFallback with
  | true => exact ⟨k + 1 + 2, by omega, rfl⟩
  | false => exact ⟨k + 2, by omega, rfl⟩

variable {request}

theorem numbered_candidate {k : ℕ} (h : 3 ≤ k) : Numbered (request.candidate sha256 k) := by
  obtain ⟨j, rfl⟩ := Nat.exists_eq_add_of_le' h
  obtain ⟨suffix, _, heq⟩ := request.candidate_add_three sha256 j
  rw [heq]
  exact numbered_numberedCandidate request.stem suffix

theorem length_lt_candidate (request : EmittedNameRequest) {n k : ℕ} (h : 10 ^ n + 3 ≤ k) :
    n < (request.candidate sha256 k).length := by
  obtain ⟨j, rfl⟩ := Nat.exists_eq_add_of_le' (Nat.le_trans (Nat.le_add_left 3 _) h)
  obtain ⟨suffix, hle, heq⟩ := request.candidate_add_three sha256 j
  rw [heq]
  exact length_lt_numberedCandidate (by omega)

theorem portable_rendered {k : ℕ} (h : 3 ≤ k) :
    ∀ u ∈ request.rendered (request.candidate sha256 k), isPortableIdentifier u.1 = true := by
  intro u hu
  obtain ⟨member, hmember, rfl⟩ := List.mem_map.mp hu
  exact (numbered_candidate sha256 h).portable (request.membersFit.fits member hmember)

theorem compatible_rendered {k : ℕ} (h : 3 ≤ k) :
    (request.rendered (request.candidate sha256 k)).Pairwise (Compatible Overloads) := by
  unfold rendered
  apply List.pairwise_map.mpr
  apply request.membersFit.distinct.imp_of_mem
  intro a b ha hb hdistinct heq
  exact hdistinct ((numbered_candidate sha256 h).around_inj (request.membersFit.fits a ha)
    (request.membersFit.fits b hb) heq)

/-- The search through the candidates of a request ends in every scope. -/
theorem exists_candidate (scope : EmittedNameScope) :
    ∃ k, scope.canAddAll (request.rendered (request.candidate sha256 k)) = true := by
  obtain ⟨k, hk⟩ := scope.names.exists_admits
    (fun k => request.rendered (request.candidate sha256 k))
    (Filter.eventually_atTop.mpr ⟨3, fun k hk => portable_rendered sha256 hk⟩)
    (Filter.eventually_atTop.mpr ⟨3, fun k hk => compatible_rendered sha256 hk⟩)
    (fun name => Filter.eventually_atTop.mpr ⟨10 ^ name.length + 3, by
      rintro k hk u hu rfl
      obtain ⟨member, _, rfl⟩ := List.mem_map.mp hu
      have hlt := length_lt_candidate sha256 request hk
      have hle := length_le_render member.shape (request.candidate sha256 k)
      exact absurd hlt (Nat.not_lt.mpr hle)⟩)
  exact ⟨k, EmittedNameScope.canAddAll_iff.mpr hk⟩

/-- The candidates start with a letter, those that are refused for their underscores as well. -/
theorem head_candidate (k : ℕ) : ∃ c ∈ (request.candidate sha256 k).head?, c.isAlpha = true := by
  have hpreferred : ∃ c ∈ request.preferred.head?, c.isAlpha = true := by
    obtain ⟨n, hn⟩ := rstripUnderscores_eq request.preferred
    obtain ⟨c, hc, halpha⟩ := request.stem.head
    refine ⟨c, ?_, halpha⟩
    rw [hn, List.head?_append_of_ne_nil _ request.stem.ne_nil]
    exact hc
  have hhashed : ∃ c ∈ (hashedCandidate sha256 request.preferred request.owner).head?,
      c.isAlpha = true := (word_hashedCandidate sha256 request.owner request.stem).head
  have happend : ∀ {a b : Text}, (∃ c ∈ a.head?, c.isAlpha = true) →
      ∃ c ∈ (a ++ b).head?, c.isAlpha = true := by
    rintro (_ | ⟨d, a⟩) b ⟨c, hc, halpha⟩
    · simp at hc
    · exact ⟨c, hc, halpha⟩
  unfold candidate allocationCandidate
  split
  · exact hpreferred
  · exact hhashed
  · exact happend hhashed
  · split_ifs
    · exact happend hpreferred
    · exact happend hpreferred
  · exact hhashed
  · exact happend hhashed

theorem Shape.exists_render (shape : Shape) (stem : Text) :
    ∃ before after, shape.render stem = before ++ (stem ++ after) := by
  cases shape with
  | template before after => exact ⟨before, after, List.append_assoc _ _ _⟩
  | suffix text =>
    unfold Shape.render
    split_ifs
    · exact ⟨[], text ++ ['_'], by simp⟩
    · exact ⟨[], '_' :: text, by simp⟩

/-- A candidate that is accepted is plain itself. -/
theorem plain_candidate {scope : EmittedNameScope} {k : ℕ}
    (h : scope.canAddAll (request.rendered (request.candidate sha256 k)) = true) :
    Plain (request.candidate sha256 k) := by
  obtain ⟨member, hmember⟩ := List.exists_mem_of_ne_nil _ request.membersFit.nonempty
  have hportable := (EmittedNameScope.canAddAll_iff.mp h).valid_of_mem _
    (List.mem_map.mpr ⟨member, hmember, rfl⟩)
  have hfragment := (Plain.of_portable hportable).toFragment
  obtain ⟨before, after, heq⟩ := Shape.exists_render member.shape (request.candidate sha256 k)
  rw [EmittedNameMember.render, heq] at hfragment
  exact ⟨hfragment.right.left, head_candidate sha256 k⟩

end EmittedNameRequest

namespace EmittedNameScope

variable (sha256 : Sha256) (scope : EmittedNameScope) (request : EmittedNameRequest)

/-- How many candidates the search passes over. -/
def candidateIndex : ℕ := Nat.find (request.exists_candidate sha256 scope)

theorem canAddAll_candidateIndex :
    scope.canAddAll (request.rendered (request.candidate sha256
      (scope.candidateIndex sha256 request))) = true :=
  Nat.find_spec (request.exists_candidate sha256 scope)

theorem plain_candidateIndex :
    Plain (request.candidate sha256 (scope.candidateIndex sha256 request)) :=
  request.plain_candidate sha256 (scope.canAddAll_candidateIndex sha256 request)

def grantedStem : PlainName :=
  ⟨request.candidate sha256 (scope.candidateIndex sha256 request),
    scope.plain_candidateIndex sha256 request⟩

variable {sha256 scope request} in
/-- The first candidate that can be added is granted. -/
theorem grantedStem_eq {k : ℕ}
    (h : scope.canAddAll (request.rendered (request.candidate sha256 k)) = true)
    (hbefore : ∀ n < k, scope.canAddAll (request.rendered (request.candidate sha256 n)) = false) :
    (scope.grantedStem sha256 request).1 = request.candidate sha256 k := by
  have hindex : scope.candidateIndex sha256 request = k := by
    unfold candidateIndex
    rw [Nat.find_eq_iff]
    refine ⟨h, fun n hn => ?_⟩
    rw [hbefore n hn]
    exact Bool.false_ne_true
  show request.candidate sha256 (scope.candidateIndex sha256 request) = _
  rw [hindex]

theorem admits_grantedStem :
    scope.names.Admits (request.rendered (scope.grantedStem sha256 request).1) :=
  canAddAll_iff.mp (scope.canAddAll_candidateIndex sha256 request)

def grant : EmittedNameScope :=
  ⟨scope.label, scope.names.add (request.rendered (scope.grantedStem sha256 request).1)
    (scope.admits_grantedStem sha256 request)⟩

end EmittedNameScope

def EmittedNameRequest.sortKey (request : EmittedNameRequest) : ℕ ×ₗ (Text ×ₗ Text) :=
  toLex (request.priority, toLex (request.preferred, request.owner))

/-- `sorted(requests, key=...)` -/
def sortRequests (requests : List EmittedNameRequest) : List EmittedNameRequest :=
  requests.insertionSort fun a b => a.sortKey ≤ b.sortKey

structure Allocation where
  scope : EmittedNameScope
  stems : Dictionary Text PlainName

def Allocation.step (sha256 : Sha256) (state : Allocation) (request : EmittedNameRequest) :
    Allocation :=
  ⟨state.scope.grant sha256 request,
    state.stems.set request.owner (state.scope.grantedStem sha256 request)⟩

def EmittedNameScope.allocate (sha256 : Sha256) (scope : EmittedNameScope)
    (requests : List EmittedNameRequest) : Allocation :=
  (sortRequests requests).foldl (Allocation.step sha256) ⟨scope, .empty⟩

/-- The stem of a request is known, and what is rendered from it is in the scope. -/
def Allocation.Records (state : Allocation) (request : EmittedNameRequest) : Prop :=
  ∃ stem, state.stems.get? request.owner = some stem ∧
    ∀ u ∈ request.rendered stem.1, u ∈ state.scope.names.uses

section Batches

variable {sha256 : Sha256} {state : Allocation} {scope : EmittedNameScope}
  {request other : EmittedNameRequest} {requests requests' : List EmittedNameRequest}

theorem Allocation.records_step : (state.step sha256 request).Records request :=
  ⟨state.scope.grantedStem sha256 request, Dictionary.get?_set_self _ _,
    fun _ hu => List.mem_append_right _ hu⟩

theorem Allocation.Records.step (h : state.Records other) (hne : other.owner ≠ request.owner) :
    (state.step sha256 request).Records other := by
  obtain ⟨stem, hstem, huses⟩ := h
  exact ⟨stem, (Dictionary.get?_set_of_ne hne).trans hstem,
    fun u hu => List.mem_append_left _ (huses u hu)⟩

theorem Allocation.uses_foldl (requests : List EmittedNameRequest) {u : Text × EmittedNameUse}
    (h : u ∈ state.scope.names.uses) :
    u ∈ (requests.foldl (Allocation.step sha256) state).scope.names.uses := by
  induction requests generalizing state with
  | nil => exact h
  | cons request requests ih => exact ih (List.mem_append_left _ h)

theorem Allocation.get?_foldl (requests : List EmittedNameRequest) {owner : Text}
    (h : (∃ stem, state.stems.get? owner = some stem) ∨ owner ∈ requests.map (·.owner)) :
    ∃ stem, (requests.foldl (Allocation.step sha256) state).stems.get? owner = some stem := by
  induction requests generalizing state with
  | nil => simpa using h
  | cons request requests ih =>
    apply ih
    by_cases heq : owner = request.owner
    · exact .inl ⟨state.scope.grantedStem sha256 request, heq ▸ Dictionary.get?_set_self _ _⟩
    · rcases h with ⟨stem, hstem⟩ | hmem
      · exact .inl ⟨stem, (Dictionary.get?_set_of_ne heq).trans hstem⟩
      · exact .inr ((List.mem_cons.mp hmem).resolve_left heq)

theorem Allocation.records_foldl (requests : List EmittedNameRequest)
    (hnodup : (requests.map (·.owner)).Nodup)
    (h : state.Records other ∧ other.owner ∉ requests.map (·.owner) ∨ other ∈ requests) :
    (requests.foldl (Allocation.step sha256) state).Records other := by
  induction requests generalizing state with
  | nil => exact (h.resolve_right List.not_mem_nil).1
  | cons request requests ih =>
    obtain ⟨hnew, hrest⟩ := List.nodup_cons.mp hnodup
    apply ih hrest
    rcases h with ⟨hrecords, hne⟩ | hmem
    · rw [List.map_cons, List.mem_cons, not_or] at hne
      exact .inl ⟨hrecords.step hne.1, hne.2⟩
    · rcases List.mem_cons.mp hmem with rfl | hmem
      · exact .inl ⟨Allocation.records_step, hnew⟩
      · exact .inr hmem

theorem sortRequests_perm (requests : List EmittedNameRequest) :
    (sortRequests requests).Perm requests :=
  List.perm_insertionSort _ _

theorem sortRequests_pairwise (requests : List EmittedNameRequest) :
    (sortRequests requests).Pairwise fun a b => a.sortKey ≤ b.sortKey :=
  List.pairwise_insertionSort (fun a b : EmittedNameRequest => a.sortKey ≤ b.sortKey) requests

theorem EmittedNameScope.uses_allocate {u : Text × EmittedNameUse} (h : u ∈ scope.names.uses) :
    u ∈ (scope.allocate sha256 requests).scope.names.uses :=
  Allocation.uses_foldl _ h

theorem EmittedNameScope.get?_allocate (h : request ∈ requests) :
    ∃ stem, (scope.allocate sha256 requests).stems.get? request.owner = some stem := by
  apply Allocation.get?_foldl
  right
  apply List.mem_map_of_mem
  exact (sortRequests_perm requests).mem_iff.mpr h

theorem EmittedNameScope.records_allocate (sha256 : Sha256) (scope : EmittedNameScope)
    (hnodup : (requests.map (·.owner)).Nodup) (h : request ∈ requests) :
    (scope.allocate sha256 requests).Records request := by
  apply Allocation.records_foldl
  · exact ((sortRequests_perm requests).map _).nodup_iff.mpr hnodup
  · exact .inr ((sortRequests_perm requests).mem_iff.mpr h)

/-- Requests with distinct owners are granted the same stems in whatever order they come. -/
theorem EmittedNameScope.allocate_perm (hnodup : (requests.map (·.owner)).Nodup)
    (h : requests.Perm requests') :
    scope.allocate sha256 requests = scope.allocate sha256 requests' := by
  have hsorted : sortRequests requests = sortRequests requests' := by
    apply List.Perm.eq_of_pairwise _ (sortRequests_pairwise requests)
      (sortRequests_pairwise requests')
      ((sortRequests_perm requests).trans (h.trans (sortRequests_perm requests').symm))
    intro a b ha hb hab hba
    have hkey := le_antisymm hab hba
    have howner : a.owner = b.owner := congrArg (fun key => (ofLex (ofLex key).2).2) hkey
    exact List.inj_on_of_nodup_map hnodup ((sortRequests_perm requests).mem_iff.mp ha)
      (h.mem_iff.mpr ((sortRequests_perm requests').mem_iff.mp hb)) howner
  unfold EmittedNameScope.allocate
  rw [hsorted]

end Batches

theorem membersFit_oneName : MembersFit [{}] := by decide

/-- Free names are granted without a digest. -/
def zeroSha256 : Sha256 := ⟨fun _ => List.replicate 32 0, fun _ => List.length_replicate⟩

theorem membersFit_sized : MembersFit [{}, { shape := .suffix "size".toList }] := by decide

/-- A request for a name and for what it is called with `_size` after it. -/
def valueRequest : EmittedNameRequest where
  owner := "value".toList
  preferred := "value".toList
  members := [{}, { shape := .suffix "size".toList }]
  stem := (plainIdentifier "value".toList).2.stem
  membersFit := membersFit_sized

def sizeRequest : EmittedNameRequest where
  owner := "size".toList
  preferred := "value_size".toList
  members := [{}]
  stem := (plainIdentifier "value_size".toList).2.stem
  membersFit := membersFit_oneName

theorem canAddAll_value :
    (EmittedNameScope.empty []).canAddAll (valueRequest.rendered "value".toList) = true := by
  decide +kernel

theorem admits_value :
    (EmittedNameScope.empty []).names.Admits (valueRequest.rendered "value".toList) :=
  EmittedNameScope.canAddAll_iff.mp canAddAll_value

def valueScope : EmittedNameScope := ⟨[], .add .empty _ admits_value⟩

theorem grantedStem_value :
    ((EmittedNameScope.empty []).grantedStem zeroSha256 valueRequest).1 = "value".toList :=
  EmittedNameScope.grantedStem_eq (k := 0) canAddAll_value fun n hn => absurd hn (Nat.not_lt_zero n)

theorem grant_value : (EmittedNameScope.empty []).grant zeroSha256 valueRequest = valueScope := by
  unfold EmittedNameScope.grant
  simp only [grantedStem_value]
  rfl

/-- The name is taken with `_size` after it, and gets an underscore. -/
theorem grantedStem_size :
    (valueScope.grantedStem zeroSha256 sizeRequest).1 = "value_size_".toList := by
  apply EmittedNameScope.grantedStem_eq (k := 1)
  · decide +kernel
  · decide +kernel

theorem EmittedNameScope.allocate_perm_sized :
    ∃ allocation,
      (EmittedNameScope.empty []).allocate zeroSha256 [valueRequest, sizeRequest] = allocation ∧
      (EmittedNameScope.empty []).allocate zeroSha256 [sizeRequest, valueRequest] = allocation ∧
      (allocation.stems.get? valueRequest.owner).map Subtype.val = some "value".toList ∧
      (allocation.stems.get? sizeRequest.owner).map Subtype.val = some "value_size_".toList := by
  have hperm : (EmittedNameScope.empty []).allocate zeroSha256 [sizeRequest, valueRequest] =
      (EmittedNameScope.empty []).allocate zeroSha256 [valueRequest, sizeRequest] :=
    EmittedNameScope.allocate_perm (by decide +kernel) (.swap _ _ _)
  have hsorted : sortRequests [valueRequest, sizeRequest] = [valueRequest, sizeRequest] :=
    List.Pairwise.insertionSort_eq (by decide +kernel)
  have hne : valueRequest.owner ≠ sizeRequest.owner := by decide
  refine ⟨_, rfl, hperm, ?_, ?_⟩
  · unfold allocate
    rw [hsorted, List.foldl_cons, List.foldl_cons, List.foldl_nil, Allocation.step,
      Dictionary.get?_set_of_ne hne, Allocation.step, Dictionary.get?_set_self]
    exact congrArg some grantedStem_value
  · unfold allocate
    rw [hsorted, List.foldl_cons, List.foldl_cons, List.foldl_nil, Allocation.step,
      Dictionary.get?_set_self, Allocation.step, grant_value]
    exact congrArg some grantedStem_size

end Protocyte.Names
