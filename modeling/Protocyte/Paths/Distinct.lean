import Protocyte.Paths.Portable

/-! Different names have different paths, unless one of them is written like the digest of the
other: a digest follows the mark of an escape, so a name can spell one. -/
namespace Protocyte.Paths

open Foundation

/-- The bytes that are spelled by a digest behind its mark: the first two digits are read as an
escape, the others as themselves. -/
def digestSpelling : List UInt8 → List UInt8
  | [] => []
  | byte :: rest => byte :: (rest.flatMap upperHex).map Utf8.byte

section Segments

variable (sha256 : Sha256) (unicode : Uppercase)

theorem upperDigest_eq (bytes : List UInt8) :
    upperDigest sha256 bytes = (sha256.digest bytes).flatMap upperHex := by
  unfold upperDigest hexdigest
  rw [List.map_flatMap]
  rfl

theorem flatMap_upperHex_inj {digest other : List UInt8}
    (h : digest.flatMap upperHex = other.flatMap upperHex) : digest = other := by
  induction digest generalizing other with
  | nil =>
    cases other with
    | nil => rfl
    | cons byte other => exact absurd h (by simp [upperHex_eq])
  | cons byte digest ih =>
    cases other with
    | nil => exact absurd h (by simp [upperHex_eq])
    | cons byte' other =>
      rw [List.flatMap_cons, List.flatMap_cons] at h
      obtain ⟨hbyte, hrest⟩ := List.append_inj h rfl
      rw [upperHex_inj hbyte, ih hrest]

theorem tilde_notMem_digits (digest : List UInt8) : '~' ∉ digest.flatMap upperHex := by
  intro hmem
  obtain ⟨byte, _, hbyte⟩ := List.mem_flatMap.mp hmem
  exact ne_tilde_of_alphanum (alphanum_upperHex hbyte) rfl

theorem Spells.digest {bytes digest : List UInt8} (hne : digest ≠ [])
    (h : Spells bytes ('~' :: digest.flatMap upperHex)) : bytes = digestSpelling digest := by
  obtain ⟨byte, digest, rfl⟩ := List.exists_cons_of_ne_nil hne
  generalize htext : '~' :: (byte :: digest).flatMap upperHex = text at h
  cases h with
  | nil => exact absurd htext (by simp)
  | safe hsafe rest => exact absurd (List.cons.inj htext).1.symm (safe_spelling hsafe).2.1
  | escape other rest =>
    have happend := (List.cons.inj htext).2
    rw [List.flatMap_cons] at happend
    obtain ⟨hbyte, rfl⟩ := List.append_inj happend rfl
    rw [upperHex_inj hbyte, rest.eq_of_notMem (tilde_notMem_digits digest)]
    rfl

/-- A segment that ends in the bytes a digest spells. -/
def SpellsDigest (segment : List Char) (bytes : List UInt8) : Prop :=
  digestSpelling (sha256.digest bytes) <:+ Utf8.encode segment

instance : DecidableRel (SpellsDigest sha256) := fun _ _ => inferInstanceAs (Decidable (_ <:+ _))

theorem spellsDigest_of_escaped {segment front : List Char} {bytes : List UInt8}
    (h : escapedSegment unicode segment = front ++ '~' :: upperDigest sha256 bytes) :
    SpellsDigest sha256 segment bytes := by
  have hspells := spells_escapedSegment unicode segment
  rw [h, upperDigest_eq] at hspells
  obtain ⟨first, rest, hencode, _, hrest⟩ := hspells.split
  have hne : sha256.digest bytes ≠ [] := by
    rw [← List.length_pos_iff, sha256.length_digest]
    omega
  unfold SpellsDigest
  rw [hencode, ← hrest.digest hne]
  exact List.suffix_append _ _

/-- Two segments with the same normalized form are the same, as far as digests tell. -/
theorem normalizeGeneratedSegment_inj {segment other : List Char} {maxBytes : ℕ}
    (hmax : 65 ≤ maxBytes)
    (h : normalizeGeneratedSegment sha256 unicode segment maxBytes =
      normalizeGeneratedSegment sha256 unicode other maxBytes)
    (hleft : maxBytes < (escapedSegment unicode segment).length →
      ¬SpellsDigest sha256 other (Utf8.encode segment))
    (hright : maxBytes < (escapedSegment unicode other).length →
      ¬SpellsDigest sha256 segment (Utf8.encode other))
    (hdigest : maxBytes < (escapedSegment unicode segment).length →
      maxBytes < (escapedSegment unicode other).length →
      sha256.digest (Utf8.encode segment) = sha256.digest (Utf8.encode other) →
      Utf8.encode segment = Utf8.encode other) : segment = other := by
  apply Utf8.encode_inj
  rcases normalizeGeneratedSegment_cases sha256 unicode segment hmax with
    ⟨_, heq⟩ | ⟨hlong, heq⟩ <;>
  rcases normalizeGeneratedSegment_cases sha256 unicode other hmax with
    ⟨_, heq'⟩ | ⟨hlong', heq'⟩ <;>
  rw [heq, heq'] at h
  · have hspells := spells_escapedSegment unicode segment
    rw [h] at hspells
    exact hspells.unique (spells_escapedSegment unicode other)
  · exact absurd (spellsDigest_of_escaped sha256 unicode h) (hright hlong')
  · exact absurd (spellsDigest_of_escaped sha256 unicode h.symm) (hleft hlong)
  · have hlength : ('~' :: upperDigest sha256 (Utf8.encode segment)).length =
        ('~' :: upperDigest sha256 (Utf8.encode other)).length := by
      rw [List.length_cons, List.length_cons, length_upperDigest, length_upperDigest]
    have hdigits := (List.cons.inj (List.append_inj' h hlength).2).2
    rw [upperDigest_eq, upperDigest_eq] at hdigits
    exact hdigest hlong hlong' (flatMap_upperHex_inj hdigits)

end Segments

section Names

variable (sha256 : Sha256) (unicode : Uppercase)

/-- The segments of a name without its suffix. -/
def nameSegments (protoName : List Char) : List (List Char) :=
  (removeSuffix ".proto".toList protoName).splitOn '/'

/-- The normalized base of a file. -/
def normalizedBase (protoName : List Char) : List Char :=
  normalizeGeneratedPath sha256 unicode (removeSuffix ".proto".toList protoName) ++
    ".protocyte".toList

/-- The segments whose digest stands in a path. -/
def hashedSegments (segments : List (List Char)) : List (List UInt8) :=
  (segments.dropLast.filter fun segment =>
      maxGeneratedPathComponentBytes < (escapedSegment unicode segment).length).map Utf8.encode ++
    (segments.getLast?.toList.filter fun segment =>
      maxGeneratedFileStemBytes < (escapedSegment unicode segment).length).map Utf8.encode

/-- The byte strings that are hashed for the path of a file. -/
def hashed (protoName : List Char) (path directoryBytes : Option ℕ) : List (List UInt8) :=
  hashedSegments unicode (nameSegments protoName) ++
    if generatedFileBase sha256 unicode protoName path directoryBytes =
        .ok (normalizedBase sha256 unicode protoName) then []
    else [Utf8.encode protoName]

/-- A segment of the first name spells a digest that is made for the second one. -/
def Imitates (protoName other : List Char) (path directoryBytes : Option ℕ) : Prop :=
  ∃ segment ∈ nameSegments protoName,
    ∃ bytes ∈ hashed sha256 unicode other path directoryBytes, SpellsDigest sha256 segment bytes

theorem mem_hashedSegments {init : List (List Char)} {last : List Char} {bytes : List UInt8} :
    bytes ∈ hashedSegments unicode (init ++ [last]) ↔
      (∃ segment ∈ init, maxGeneratedPathComponentBytes < (escapedSegment unicode segment).length ∧
        Utf8.encode segment = bytes) ∨
      maxGeneratedFileStemBytes < (escapedSegment unicode last).length ∧
        Utf8.encode last = bytes := by
  unfold hashedSegments
  rw [List.dropLast_concat, List.getLast?_concat, List.mem_append, List.mem_map, List.mem_map]
  simp only [List.mem_filter, decide_eq_true_eq, and_assoc, Option.toList_some,
    List.mem_singleton]
  constructor
  · rintro (hinit | ⟨segment, rfl, hlast⟩)
    · exact .inl hinit
    · exact .inr hlast
  · rintro (hinit | hlast)
    · exact .inl hinit
    · exact .inr ⟨last, rfl, hlast⟩

theorem map_inj_on {α β : Type} {f : α → β} {xs ys : List α}
    (hf : ∀ x ∈ xs, ∀ y ∈ ys, f x = f y → x = y) (h : xs.map f = ys.map f) : xs = ys := by
  induction xs generalizing ys with
  | nil =>
    cases ys with
    | nil => rfl
    | cons y ys => exact absurd h (by simp)
  | cons x xs ih =>
    cases ys with
    | nil => exact absurd h (by simp)
    | cons y ys =>
      rw [List.map_cons, List.map_cons] at h
      obtain ⟨hhead, htail⟩ := List.cons.inj h
      rw [hf x List.mem_cons_self y List.mem_cons_self hhead]
      congr 1
      apply ih _ htail
      intro x' hx' y' hy'
      exact hf x' (List.mem_cons_of_mem _ hx') y' (List.mem_cons_of_mem _ hy')

variable {protoName other : List Char} {path directoryBytes : Option ℕ}

/-- Names whose normalized paths are the same are the same, as far as digests tell. -/
theorem segments_inj {init init' : List (List Char)} {last last' : List Char}
    (hname : nameSegments protoName = init ++ [last])
    (hother : nameSegments other = init' ++ [last'])
    (h : components sha256 unicode init last = components sha256 unicode init' last')
    (hdigest : ∀ bytes ∈ hashed sha256 unicode protoName path directoryBytes,
      ∀ bytes' ∈ hashed sha256 unicode other path directoryBytes,
        sha256.digest bytes = sha256.digest bytes' → bytes = bytes')
    (hleft : ¬Imitates sha256 unicode protoName other path directoryBytes)
    (hright : ¬Imitates sha256 unicode other protoName path directoryBytes) :
    nameSegments protoName = nameSegments other := by
  have hmem : ∀ segment ∈ init, segment ∈ nameSegments protoName := by
    intro segment hsegment
    rw [hname]
    exact List.mem_append_left _ hsegment
  have hmem' : ∀ segment ∈ init', segment ∈ nameSegments other := by
    intro segment hsegment
    rw [hother]
    exact List.mem_append_left _ hsegment
  have hhashed : ∀ bytes ∈ hashedSegments unicode (init ++ [last]),
      bytes ∈ hashed sha256 unicode protoName path directoryBytes := by
    intro bytes hbytes
    unfold hashed
    rw [hname]
    exact List.mem_append_left _ hbytes
  have hhashed' : ∀ bytes ∈ hashedSegments unicode (init' ++ [last']),
      bytes ∈ hashed sha256 unicode other path directoryBytes := by
    intro bytes hbytes
    unfold hashed
    rw [hother]
    exact List.mem_append_left _ hbytes
  simp only [mem_hashedSegments] at hhashed hhashed'
  obtain ⟨hinits, hlasts⟩ := List.append_inj' h rfl
  have hinit : init = init' := by
    refine map_inj_on ?_ hinits
    intro segment hsegment segment' hsegment' heq
    have hhash := fun hlong => hhashed _ (.inl ⟨segment, hsegment, hlong, rfl⟩)
    have hhash' := fun hlong => hhashed' _ (.inl ⟨segment', hsegment', hlong, rfl⟩)
    apply normalizeGeneratedSegment_inj sha256 unicode (by decide) heq
    · exact fun hlong hspells => hright ⟨_, hmem' _ hsegment', _, hhash hlong, hspells⟩
    · exact fun hlong hspells => hleft ⟨_, hmem _ hsegment, _, hhash' hlong, hspells⟩
    · exact fun hlong hlong' => hdigest _ (hhash hlong) _ (hhash' hlong')
  have hlast : last = last' := by
    have heq := List.append_cancel_right (List.singleton_inj.mp hlasts)
    have hhash := fun hlong => hhashed _ (.inr ⟨hlong, rfl⟩)
    have hhash' := fun hlong => hhashed' _ (.inr ⟨hlong, rfl⟩)
    have hlastMem : last ∈ nameSegments protoName := by simp [hname]
    have hlastMem' : last' ∈ nameSegments other := by simp [hother]
    apply normalizeGeneratedSegment_inj sha256 unicode (by decide) heq
    · exact fun hlong hspells => hright ⟨_, hlastMem', _, hhash hlong, hspells⟩
    · exact fun hlong hspells => hleft ⟨_, hlastMem, _, hhash' hlong, hspells⟩
    · exact fun hlong hlong' => hdigest _ (hhash hlong) _ (hhash' hlong')
  rw [hname, hother, hinit, hlast]

theorem name_of_segments (hsuffix : ".proto".toList <:+ protoName)
    (hsuffix' : ".proto".toList <:+ other) (h : nameSegments protoName = nameSegments other) :
    protoName = other := by
  obtain ⟨front, rfl⟩ := hsuffix
  obtain ⟨front', rfl⟩ := hsuffix'
  unfold nameSegments at h
  rw [removeSuffix_append, removeSuffix_append] at h
  have hfront := congrArg ['/'].intercalate h
  rw [List.intercalate_splitOn, List.intercalate_splitOn] at hfront
  rw [hfront]

theorem base_cases {base : List Char}
    (h : generatedFileBase sha256 unicode protoName path directoryBytes = .ok base) :
    base = normalizedBase sha256 unicode protoName ∨
      base = '~' :: upperDigest sha256 (Utf8.encode protoName) ++ ".protocyte".toList ∧
        Utf8.encode protoName ∈ hashed sha256 unicode protoName path directoryBytes := by
  by_cases hnormal : base = normalizedBase sha256 unicode protoName
  · exact .inl hnormal
  · rcases generatedFileBase_cases sha256 unicode h with ⟨heq, _⟩ | ⟨heq, _⟩
    · exact .inl heq
    · refine .inr ⟨heq, ?_⟩
      unfold hashed
      rw [h, if_neg fun hok => hnormal (Except.ok.inj hok)]
      exact List.mem_append_right _ List.mem_cons_self

/-- A normalized base that is a folded one comes from a segment that spells the digest. -/
theorem imitates_of_folded {bytes : List UInt8}
    (h : normalizedBase sha256 unicode protoName =
      '~' :: upperDigest sha256 bytes ++ ".protocyte".toList) :
    ∃ segment ∈ nameSegments protoName, SpellsDigest sha256 segment bytes := by
  have hnone := separator_notMem (folded_component sha256 bytes).characters
  have hnormalized := List.append_cancel_right h
  obtain ⟨init, last, hsegments⟩ : ∃ init last, nameSegments protoName = init ++ [last] := by
    rcases List.eq_nil_or_concat (nameSegments protoName) with hnil | ⟨init, last, hconcat⟩
    · exact absurd hnil (List.splitOn_ne_nil _ _)
    · exact ⟨init, last, hconcat.trans List.concat_eq_append⟩
  rw [normalizeGeneratedPath_eq sha256 unicode hsegments (by simp)] at hnormalized
  cases init with
  | nil =>
    refine ⟨last, by simp [hsegments], ?_⟩
    have hmax : 65 ≤ maxGeneratedFileStemBytes := by decide
    have hlast : normalizeGeneratedSegment sha256 unicode last maxGeneratedFileStemBytes =
        '~' :: upperDigest sha256 bytes := hnormalized
    rcases normalizeGeneratedSegment_cases sha256 unicode last hmax with
      ⟨_, heq⟩ | ⟨hlong, heq⟩
    · have hescaped : escapedSegment unicode last = [] ++ '~' :: upperDigest sha256 bytes :=
        heq.symm.trans hlast
      exact spellsDigest_of_escaped sha256 unicode hescaped
    · have hlength := congrArg List.length (heq.symm.trans hlast)
      have hstem : maxGeneratedFileStemBytes = 241 := by decide
      rw [List.length_append, List.length_take, List.length_cons, List.length_cons,
        length_upperDigest, length_upperDigest, hstem] at hlength
      omega
  | cons segment init =>
    rw [List.cons_append, joinSegments_cons sha256 unicode segment (by simp)] at hnormalized
    have hmem : '/' ∈ '~' :: upperDigest sha256 bytes := by
      rw [← hnormalized]
      simp
    exact absurd (List.mem_append_left _ hmem) hnone

theorem components_of_base {init : List (List Char)} {last : List Char}
    (hsegments : nameSegments protoName = init ++ [last]) (hinit : ∀ segment ∈ init, segment ≠ []) :
    (normalizedBase sha256 unicode protoName ++ ".hpp".toList).splitOn '/' =
      components sha256 unicode init last := by
  unfold normalizedBase
  rw [append_suffix, normalizeGeneratedPath_eq sha256 unicode hsegments (by simp),
    splitOn_joinSegments sha256 unicode hinit]

/-- Two names for which no digest is imitated have different bases. -/
theorem generatedFileBase_distinct {base base' : List Char} (hne : protoName ≠ other)
    (hvalid : validateVirtualFileName protoName = .ok ())
    (hvalid' : validateVirtualFileName other = .ok ())
    (hsuffix : ".proto".toList <:+ protoName) (hsuffix' : ".proto".toList <:+ other)
    (hdigest : ∀ bytes ∈ hashed sha256 unicode protoName path directoryBytes,
      ∀ bytes' ∈ hashed sha256 unicode other path directoryBytes,
        sha256.digest bytes = sha256.digest bytes' → bytes = bytes')
    (hleft : ¬Imitates sha256 unicode protoName other path directoryBytes)
    (hright : ¬Imitates sha256 unicode other protoName path directoryBytes)
    (hbase : generatedFileBase sha256 unicode protoName path directoryBytes = .ok base)
    (hbase' : generatedFileBase sha256 unicode other path directoryBytes = .ok base') :
    base ≠ base' := by
  rintro rfl
  rcases base_cases sha256 unicode hbase with heq | ⟨heq, hhashed⟩ <;>
  rcases base_cases sha256 unicode hbase' with heq' | ⟨heq', hhashed'⟩
  · obtain ⟨init, last, hsegments, hinit⟩ := segments_of_name hvalid
    obtain ⟨init', last', hsegments', hinit'⟩ := segments_of_name hvalid'
    have hcomponents := components_of_base sha256 unicode hsegments hinit
    rw [← heq, heq', components_of_base sha256 unicode hsegments' hinit'] at hcomponents
    exact hne (name_of_segments hsuffix hsuffix' (segments_inj sha256 unicode hsegments hsegments'
      hcomponents.symm hdigest hleft hright))
  · obtain ⟨segment, hsegment, hspells⟩ := imitates_of_folded sha256 unicode (heq ▸ heq')
    exact hleft ⟨segment, hsegment, _, hhashed', hspells⟩
  · obtain ⟨segment, hsegment, hspells⟩ := imitates_of_folded sha256 unicode (heq' ▸ heq)
    exact hright ⟨segment, hsegment, _, hhashed, hspells⟩
  · have hdigits := (List.cons.inj (List.append_cancel_right (heq.symm.trans heq'))).2
    rw [upperDigest_eq, upperDigest_eq] at hdigits
    have hencode := hdigest _ hhashed _ hhashed' (flatMap_upperHex_inj hdigits)
    exact hne (Utf8.encode_inj hencode)

/-- A name that spells the digest of the long name: the escape of its first character is the
mark of the digest and its first two digits. -/
def imitatingName : List Char :=
  '*' :: (longNameDigest.drop 1).flatMap upperHex ++ ['.', 'p', 'r', 'o', 't', 'o']

theorem generatedFileBase_collides :
    ¬∀ (sha256 : Sha256) (unicode : Uppercase) (protoName other : List Char)
      (path directoryBytes : Option ℕ), protoName ≠ other →
      validateVirtualFileName protoName = .ok () → validateVirtualFileName other = .ok () →
      ".proto".toList <:+ protoName → ".proto".toList <:+ other →
      (∀ bytes ∈ hashed sha256 unicode protoName path directoryBytes ++
          hashed sha256 unicode other path directoryBytes,
        ∀ bytes' ∈ hashed sha256 unicode protoName path directoryBytes ++
            hashed sha256 unicode other path directoryBytes,
          sha256.digest bytes = sha256.digest bytes' → bytes = bytes') →
      ∀ base base', generatedFileBase sha256 unicode protoName path directoryBytes = .ok base →
        generatedFileBase sha256 unicode other path directoryBytes = .ok base' → base ≠ base' := by
  intro h
  exact h longNameSha256 caseless imitatingName longName (some 79) (some 67) (by decide +kernel)
    (by decide +kernel) (by decide +kernel) (by decide +kernel) (by decide +kernel)
    (by decide +kernel)
    "~2A46DF946F34559280ECF8E5087C1401F389E9FAE5C47497C647C828547EA878.protocyte".toList
    "~2A46DF946F34559280ECF8E5087C1401F389E9FAE5C47497C647C828547EA878.protocyte".toList
    (by decide +kernel) (by decide +kernel) rfl

theorem not_imitates_long : ∀ segment ∈ nameSegments "a.proto".toList,
    ∀ bytes ∈ hashed longNameSha256 caseless longName (some 79) (some 67),
      ¬SpellsDigest longNameSha256 segment bytes := by
  decide +kernel

theorem not_imitates_short : ∀ segment ∈ nameSegments longName,
    ∀ bytes ∈ hashed longNameSha256 caseless "a.proto".toList (some 79) (some 67),
      ¬SpellsDigest longNameSha256 segment bytes := by
  decide +kernel

theorem generatedFileBase_distinct_long :
    "a.protocyte".toList ≠
      "~2A46DF946F34559280ECF8E5087C1401F389E9FAE5C47497C647C828547EA878.protocyte".toList :=
  generatedFileBase_distinct longNameSha256 caseless
    (show "a.proto".toList ≠ longName by decide +kernel)
    (by decide +kernel) (by decide +kernel) (by decide +kernel) (by decide +kernel)
    (by decide +kernel)
    (fun ⟨segment, hsegment, bytes, hbytes, hspells⟩ =>
      not_imitates_long segment hsegment bytes hbytes hspells)
    (fun ⟨segment, hsegment, bytes, hbytes, hspells⟩ =>
      not_imitates_short segment hsegment bytes hbytes hspells)
    (show generatedFileBase longNameSha256 caseless _ (some 79) (some 67) = _ by decide +kernel)
    (by decide +kernel)

end Names

end Protocyte.Paths
