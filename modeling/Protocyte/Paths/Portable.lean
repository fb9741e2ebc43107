import Protocyte.Paths.Segments

/-! The paths of generated files are portable: the guarantees of a normalized segment, and that
joining, the suffix of the file and the budgets keep them. -/
namespace Protocyte.Paths

open Foundation

section Validation

structure ProtocyteError where
  message : String
  /-- The name the message is rendered with. -/
  context : List Char
deriving DecidableEq, Repr

/-- `PureWindowsPath(name).root` of a name without backslashes that does not start with `/` -/
def hasWindowsRoot (name : List Char) : Bool :=
  (name.drop 1).head? = some ':' && (name.drop 2).head? = some '/'

def unsafeSegments : List (List Char) := [[], ['.'], ['.', '.']]

def validateVirtualFileName (name : List Char) : Except ProtocyteError Unit :=
  if name = [] then .error ⟨"descriptor file name must not be empty", []⟩
  else if name.head? = some '-' then
    .error ⟨"descriptor file name must not begin with '-' because protoc interprets it as an option",
      name⟩
  else if name.contains '\x00' then
    .error ⟨"descriptor file name contains a null character", name⟩
  else if name.contains '\\' then
    .error ⟨"descriptor file name must use '/' separators", name⟩
  else if name.head? = some '/' || hasWindowsRoot name then
    .error ⟨"descriptor file name must be relative", name⟩
  else if (name.splitOn '/').any unsafeSegments.contains then
    .error ⟨"descriptor file name contains an unsafe path segment", name⟩
  else .ok ()

theorem segments_of_valid {name : List Char} (h : validateVirtualFileName name = .ok ()) :
    ∀ segment ∈ name.splitOn '/', segment ∉ unsafeSegments := by
  unfold validateVirtualFileName at h
  split_ifs at h with _ _ _ _ _ hsegments
  intro segment hsegment hunsafe
  exact hsegments (List.any_eq_true.mpr ⟨segment, hsegment, List.contains_iff_mem.mpr hunsafe⟩)

end Validation

/-- A path component every common file system takes. -/
structure PortableComponent (component : List Char) : Prop where
  ne_nil : component ≠ []
  length_le : (Utf8.encode component).length ≤ 255
  characters : ∀ c ∈ component, isPathCharacter c = true
  ne_dots : component ≠ ['.'] ∧ component ≠ ['.', '.']
  last : component.getLast? ≠ some '.'
  device : (component.takeWhile (· ≠ '.')).map Char.toUpper ∉ windowsReservedPathNames

/-- A relative path of portable components within the budgets. -/
structure PortablePath (path : List Char) (maxOutputPathBytes maxOutputDirectoryBytes : Option ℕ) :
    Prop where
  relative : path.head? ≠ some '/'
  components : ∀ component ∈ path.splitOn '/', PortableComponent component
  path_le : ∀ bytes ∈ maxOutputPathBytes, (Utf8.encode path).length ≤ bytes
  directory_le : ∀ bytes ∈ maxOutputDirectoryBytes,
    (Utf8.encode (directory path)).length ≤ bytes

section Characters

theorem ascii_of_isPathCharacter {c : Char} (h : isPathCharacter c = true) : c.toNat < 128 := by
  rcases Bool.or_eq_true_iff.mp h with halphanum | hsign
  · rcases Bool.or_eq_true_iff.mp halphanum with halpha | hdigit
    · rcases Bool.or_eq_true_iff.mp halpha with hupper | hlower
      · have hle : c.val ≤ 'Z'.val := (of_decide_eq_true (p := _ ∧ _) hupper).2
        exact Nat.lt_of_le_of_lt (UInt32.le_iff_toNat_le.mp hle) (by decide)
      · have hle : c.val ≤ 'z'.val := of_decide_eq_true (Bool.and_eq_true_iff.mp hlower).2
        exact Nat.lt_of_le_of_lt (UInt32.le_iff_toNat_le.mp hle) (by decide)
    · have hle : c.val ≤ '9'.val := of_decide_eq_true (Bool.and_eq_true_iff.mp hdigit).2
      exact Nat.lt_of_le_of_lt (UInt32.le_iff_toNat_le.mp hle) (by decide)
  · have hsigns : (['.', '_', '-', '~'].all fun d => d.toNat < 128) = true := by decide
    exact of_decide_eq_true (List.all_eq_true.mp hsigns c (List.contains_iff_mem.mp hsign))

theorem isPathCharacter_of_alphanum {c : Char} (h : c.isAlphanum = true) :
    isPathCharacter c = true := by
  unfold isPathCharacter
  rw [h]
  rfl

theorem ne_separator {c : Char} (h : isPathCharacter c = true) : c ≠ '/' := by
  rintro rfl
  exact absurd h (by decide)

theorem separator_notMem {text : List Char} (h : ∀ c ∈ text, isPathCharacter c = true) :
    '/' ∉ text := fun hmem => ne_separator (h '/' hmem) rfl

end Characters

section Segment

variable (sha256 : Sha256) (unicode : Uppercase) (segment : List Char) {maxBytes : ℕ}

theorem normalizeGeneratedSegment_cases (hmax : 65 ≤ maxBytes) :
    ((escapedSegment unicode segment).length ≤ maxBytes ∧
      normalizeGeneratedSegment sha256 unicode segment maxBytes =
        escapedSegment unicode segment) ∨
      maxBytes < (escapedSegment unicode segment).length ∧
        normalizeGeneratedSegment sha256 unicode segment maxBytes =
          (escapedSegment unicode segment).take (maxBytes - 65) ++
            '~' :: upperDigest sha256 (Utf8.encode segment) := by
  rw [normalizeGeneratedSegment_eq hmax]
  split_ifs with hfits
  · exact .inl ⟨hfits, rfl⟩
  · exact .inr ⟨Nat.lt_of_not_le hfits, rfl⟩

theorem length_normalizeGeneratedSegment (hmax : 65 ≤ maxBytes) :
    (normalizeGeneratedSegment sha256 unicode segment maxBytes).length ≤ maxBytes := by
  rcases normalizeGeneratedSegment_cases sha256 unicode segment hmax with ⟨hfits, heq⟩ | ⟨hlong, heq⟩
  · rw [heq]
    exact hfits
  · rw [heq, List.length_append, List.length_take, List.length_cons, length_upperDigest]
    omega

theorem characters_normalizeGeneratedSegment (hmax : 65 ≤ maxBytes) :
    ∀ c ∈ normalizeGeneratedSegment sha256 unicode segment maxBytes,
      isPathCharacter c = true := by
  have hescaped := (spells_escapedSegment unicode segment).characters
  rcases normalizeGeneratedSegment_cases sha256 unicode segment hmax with ⟨_, heq⟩ | ⟨_, heq⟩
  · rw [heq]
    exact hescaped
  · rw [heq]
    intro c hc
    rcases List.mem_append.mp hc with hc | hc
    · exact hescaped c (List.mem_of_mem_take hc)
    · rcases List.mem_cons.mp hc with rfl | hc
      · decide
      · exact isPathCharacter_of_alphanum (alphanum_upperDigest hc)

theorem getLast?_upperDigest (front : List Char) (bytes : List UInt8) :
    (front ++ '~' :: upperDigest sha256 bytes).getLast? ≠ some '.' := by
  have hne : upperDigest sha256 bytes ≠ [] := by
    rw [← List.length_pos_iff, length_upperDigest]
    omega
  rw [List.getLast?_append, List.getLast?_cons, List.getLast?_eq_some_getLast hne]
  intro hlast
  have hdot : (upperDigest sha256 bytes).getLast hne = '.' := by simpa using hlast
  have halphanum := alphanum_upperDigest (List.getLast_mem hne)
  rw [hdot] at halphanum
  exact absurd halphanum (by decide)

theorem getLast?_normalizeGeneratedSegment (hmax : 65 ≤ maxBytes) :
    (normalizeGeneratedSegment sha256 unicode segment maxBytes).getLast? ≠ some '.' := by
  rcases normalizeGeneratedSegment_cases sha256 unicode segment hmax with ⟨_, heq⟩ | ⟨_, heq⟩
  · rw [heq]
    exact getLast?_escapedSegment unicode segment
  · rw [heq]
    exact getLast?_upperDigest _ _ _

theorem device_normalizeGeneratedSegment (hmax : 65 ≤ maxBytes) :
    ((normalizeGeneratedSegment sha256 unicode segment maxBytes).takeWhile (· ≠ '.')).map
      Char.toUpper ∉ windowsReservedPathNames := by
  rcases normalizeGeneratedSegment_cases sha256 unicode segment hmax with ⟨_, heq⟩ | ⟨_, heq⟩
  · rw [heq]
    exact device_escapedSegment unicode segment
  · rw [heq]
    rcases stem_cut (escapedSegment unicode segment)
      (upperDigest sha256 (Utf8.encode segment)) (maxBytes - 65) with hmark | hstem
    · exact fun hreserved => (notMem_of_reserved hreserved).2 hmark
    · rw [hstem]
      exact device_escapedSegment unicode segment

theorem normalizeGeneratedSegment_ne_nil {segment : List Char} (hmax : 65 ≤ maxBytes)
    (hne : segment ≠ []) :
    normalizeGeneratedSegment sha256 unicode segment maxBytes ≠ [] := by
  rcases normalizeGeneratedSegment_cases sha256 unicode segment hmax with ⟨_, heq⟩ | ⟨_, heq⟩
  · rw [heq]
    exact (spells_escapedSegment unicode segment).ne_nil (encode_ne_nil hne)
  · rw [heq]
    exact List.append_ne_nil_of_right_ne_nil _ (List.cons_ne_nil _ _)

theorem characters_suffix : ∀ c ∈ generatedFileSuffix, isPathCharacter c = true :=
  List.all_eq_true.mp (by decide)

theorem takeWhile_append_dot (text rest : List Char) :
    (text ++ '.' :: rest).takeWhile (· ≠ '.') = text.takeWhile (· ≠ '.') := by
  rw [List.takeWhile_append, List.takeWhile_cons_of_neg (p := fun c => decide (c ≠ '.'))
    (by decide), List.append_nil]
  split_ifs with hwhole
  · exact (List.takeWhile_prefix _).eq_of_length hwhole |>.symm
  · rfl

theorem length_encode_of_characters {text : List Char}
    (h : ∀ c ∈ text, isPathCharacter c = true) : (Utf8.encode text).length = text.length := by
  apply Utf8.length_encode_of_ascii
  intro c hc
  exact ascii_of_isPathCharacter (h c hc)

/-- A text of path characters that ends in no dot is a component when it is short and no device. -/
theorem portableComponent_of {component : List Char} (hne : component ≠ [])
    (hlength : component.length ≤ 255) (hcharacters : ∀ c ∈ component, isPathCharacter c = true)
    (hlast : component.getLast? ≠ some '.')
    (hdevice : (component.takeWhile (· ≠ '.')).map Char.toUpper ∉ windowsReservedPathNames) :
    PortableComponent component := by
  have hdots : component ≠ ['.'] ∧ component ≠ ['.', '.'] := by
    constructor
    · rintro rfl
      exact hlast rfl
    · rintro rfl
      exact hlast rfl
  exact ⟨hne, (length_encode_of_characters hcharacters).trans_le hlength, hcharacters, hdots,
    hlast, hdevice⟩

theorem portable_directory {segment : List Char} (hne : segment ≠ []) :
    PortableComponent
      (normalizeGeneratedSegment sha256 unicode segment maxGeneratedPathComponentBytes) := by
  have hmax : 65 ≤ maxGeneratedPathComponentBytes := by decide
  exact portableComponent_of (normalizeGeneratedSegment_ne_nil sha256 unicode hmax hne)
    (length_normalizeGeneratedSegment sha256 unicode segment hmax)
    (characters_normalizeGeneratedSegment sha256 unicode segment hmax)
    (getLast?_normalizeGeneratedSegment sha256 unicode segment hmax)
    (device_normalizeGeneratedSegment sha256 unicode segment hmax)

/-- The last segment is followed by the suffix of the file. -/
theorem portable_file :
    PortableComponent
      (normalizeGeneratedSegment sha256 unicode segment maxGeneratedFileStemBytes ++
        generatedFileSuffix) := by
  have hmax : 65 ≤ maxGeneratedFileStemBytes := by decide
  have hsuffix : generatedFileSuffix = '.' :: "protocyte.hpp".toList := rfl
  apply portableComponent_of
  · rw [hsuffix]
    exact List.append_ne_nil_of_right_ne_nil _ (List.cons_ne_nil _ _)
  · have hstem := length_normalizeGeneratedSegment sha256 unicode segment hmax
    rw [List.length_append]
    exact Nat.add_le_add_right hstem _
  · intro c hc
    rcases List.mem_append.mp hc with hc | hc
    · exact characters_normalizeGeneratedSegment sha256 unicode segment hmax c hc
    · exact characters_suffix c hc
  · have hlast : generatedFileSuffix.getLast? = some 'p' := rfl
    rw [List.getLast?_append, hlast]
    exact fun h => absurd (Option.some.inj h) (by decide)
  · rw [hsuffix, takeWhile_append_dot]
    exact device_normalizeGeneratedSegment sha256 unicode segment hmax

end Segment

section Splitting

variable {α : Type} [DecidableEq α] {a : α}

theorem notMem_of_mem_splitOn {xs piece : List α} (h : piece ∈ xs.splitOn a) : a ∉ piece := by
  induction xs generalizing piece with
  | nil =>
    rw [List.splitOn_nil, List.mem_singleton] at h
    rw [h]
    exact List.not_mem_nil
  | cons x xs ih =>
    rw [List.splitOn_cons_eq_if_modifyHead] at h
    split_ifs at h with hx
    · rcases List.mem_cons.mp h with rfl | h
      · exact List.not_mem_nil
      · exact ih h
    · obtain ⟨first, rest, hsplit⟩ := List.exists_cons_of_ne_nil (List.splitOn_ne_nil a xs)
      rw [hsplit] at h ih
      rcases List.mem_cons.mp h with rfl | h
      · intro hmem
        rcases List.mem_cons.mp hmem with rfl | hmem
        · exact hx (beq_self_eq_true a)
        · exact ih List.mem_cons_self hmem
      · exact ih (List.mem_cons_of_mem _ h)

theorem mem_splitOn_of_mem (a : α) {xs : List α} {x : α} (h : x ∈ xs) :
    x = a ∨ ∃ piece ∈ xs.splitOn a, x ∈ piece := by
  induction xs with
  | nil => exact absurd h List.not_mem_nil
  | cons y xs ih =>
    rw [List.splitOn_cons_eq_if_modifyHead]
    split_ifs with hy
    · rcases List.mem_cons.mp h with rfl | h
      · exact .inl (beq_iff_eq.mp hy)
      · rcases ih h with heq | ⟨piece, hpiece, hmem⟩
        · exact .inl heq
        · exact .inr ⟨piece, List.mem_cons_of_mem _ hpiece, hmem⟩
    · obtain ⟨first, rest, hsplit⟩ := List.exists_cons_of_ne_nil (List.splitOn_ne_nil a xs)
      rw [hsplit] at ih ⊢
      rcases List.mem_cons.mp h with rfl | h
      · exact .inr ⟨_, List.mem_cons_self, List.mem_cons_self⟩
      · rcases ih h with heq | ⟨piece, hpiece, hmem⟩
        · exact .inl heq
        · rcases List.mem_cons.mp hpiece with rfl | hpiece
          · exact .inr ⟨_, List.mem_cons_self, List.mem_cons_of_mem _ hmem⟩
          · exact .inr ⟨piece, List.mem_cons_of_mem _ hpiece, hmem⟩

/-- Text without a separator goes to the last piece. -/
theorem splitOn_append_of_notMem (front : List α) {rest : List α} (h : a ∉ rest) :
    ∃ init last, front.splitOn a = init ++ [last] ∧
      (front ++ rest).splitOn a = init ++ [last ++ rest] := by
  induction front with
  | nil => exact ⟨[], [], List.splitOn_nil a, List.splitOn_eq_singleton h⟩
  | cons x front ih =>
    obtain ⟨init, last, hfront, hwhole⟩ := ih
    rw [List.cons_append, List.splitOn_cons_eq_if_modifyHead, List.splitOn_cons_eq_if_modifyHead,
      hfront, hwhole]
    split_ifs with hx
    · exact ⟨[] :: init, last, rfl, rfl⟩
    · cases init with
      | nil => exact ⟨[], x :: last, rfl, rfl⟩
      | cons first init => exact ⟨(x :: first) :: init, last, rfl, rfl⟩

theorem directory_append {text rest : List Char} (h : '/' ∉ rest) :
    directory (text ++ rest) = directory text := by
  unfold directory
  rw [List.reverse_append, List.dropWhile_append_of_pos]
  intro c hc
  apply decide_eq_true
  rintro rfl
  exact h (List.mem_reverse.mp hc)

theorem directory_of_notMem {text : List Char} (h : '/' ∉ text) : directory text = [] := by
  have hnil : directory ([] ++ text) = directory [] := directory_append h
  rwa [List.nil_append] at hnil

/-- The directory of a path is made of characters of it. -/
theorem directory_subset (text : List Char) : ∀ c ∈ directory text, c ∈ text := by
  intro c hc
  have htail := List.mem_of_mem_tail (List.mem_reverse.mp hc)
  exact List.mem_reverse.mp ((List.dropWhile_suffix _).subset htail)

end Splitting

section Paths

variable (sha256 : Sha256) (unicode : Uppercase)

/-- The components of the path of a file whose name has these segments. -/
def components (init : List (List Char)) (last : List Char) : List (List Char) :=
  init.map (normalizeGeneratedSegment sha256 unicode · maxGeneratedPathComponentBytes) ++
    [normalizeGeneratedSegment sha256 unicode last maxGeneratedFileStemBytes ++
      generatedFileSuffix]

theorem intercalate_components (init : List (List Char)) (last : List Char) :
    ['/'].intercalate (components sha256 unicode init last) =
      joinSegments sha256 unicode (init ++ [last]) ++ generatedFileSuffix := by
  induction init with
  | nil => simp [components, joinSegments]
  | cons segment init ih =>
    have hne : components sha256 unicode init last ≠ [] :=
      List.append_ne_nil_of_right_ne_nil _ (List.cons_ne_nil _ _)
    rw [List.cons_append, joinSegments_cons sha256 unicode segment (by simp), List.append_assoc,
      List.cons_append, ← ih]
    show ['/'].intercalate (_ :: components sha256 unicode init last) = _
    rw [List.intercalate_cons_of_ne_nil hne, List.append_assoc, List.singleton_append]

theorem components_portable {init : List (List Char)} (h : ∀ segment ∈ init, segment ≠ [])
    (last : List Char) :
    ∀ component ∈ components sha256 unicode init last, PortableComponent component := by
  intro component hcomponent
  rcases List.mem_append.mp hcomponent with hdirectory | hfile
  · obtain ⟨segment, hsegment, rfl⟩ := List.mem_map.mp hdirectory
    exact portable_directory sha256 unicode (h segment hsegment)
  · rw [List.mem_singleton.mp hfile]
    exact portable_file sha256 unicode last

theorem splitOn_joinSegments {init : List (List Char)} (h : ∀ segment ∈ init, segment ≠ [])
    (last : List Char) :
    (joinSegments sha256 unicode (init ++ [last]) ++ generatedFileSuffix).splitOn '/' =
      components sha256 unicode init last := by
  have hportable := components_portable sha256 unicode h last
  rw [← intercalate_components]
  apply List.splitOn_intercalate
  · intro component hcomponent
    exact separator_notMem (hportable component hcomponent).characters
  · exact List.append_ne_nil_of_right_ne_nil _ (List.cons_ne_nil _ _)

theorem proto_notMem : '/' ∉ ".proto".toList := by decide

/-- The segments of a name without its suffix, of which only the last can be empty. -/
theorem segments_of_name {name : List Char} (h : validateVirtualFileName name = .ok ()) :
    ∃ init last, (removeSuffix ".proto".toList name).splitOn '/' = init ++ [last] ∧
      ∀ segment ∈ init, segment ≠ [] := by
  have hsegments := segments_of_valid h
  by_cases hsuffix : ".proto".toList <:+ name
  · obtain ⟨front, rfl⟩ := hsuffix
    obtain ⟨init, last, hfront, hname⟩ :=
      splitOn_append_of_notMem front (a := '/') proto_notMem
    refine ⟨init, last, by rw [removeSuffix_append, hfront], ?_⟩
    rintro segment hsegment rfl
    rw [hname] at hsegments
    exact hsegments [] (List.mem_append_left _ hsegment) (by decide)
  · rw [removeSuffix_of_not hsuffix]
    rcases List.eq_nil_or_concat (name.splitOn '/') with hnil | ⟨init, last, hsplit⟩
    · exact absurd hnil (List.splitOn_ne_nil '/' name)
    · rw [List.concat_eq_append] at hsplit
      refine ⟨init, last, hsplit, ?_⟩
      rintro segment hsegment rfl
      rw [hsplit] at hsegments
      exact hsegments [] (List.mem_append_left _ hsegment) (by decide)

theorem normalizeGeneratedPath_eq {name : List Char} {segments : List (List Char)}
    (h : name.splitOn '/' = segments) (hne : segments ≠ []) :
    normalizeGeneratedPath sha256 unicode name = joinSegments sha256 unicode segments := by
  unfold normalizeGeneratedPath
  simp only [h]
  exact intercalate_eq_joinSegments sha256 unicode hne

theorem minHashedGeneratedFilePathBytes_eq : minHashedGeneratedFilePathBytes = 79 := by decide

/-- With the whole path budget, a folded name keeps nothing but its digest. -/
theorem sliceTo_folded (readable digest : List Char) (hdigest : digest.length = 64) :
    sliceTo readable (((79 : ℕ) : ℤ) - generatedFileSuffix.length -
      generatedPathDigestSeparatorBytes - digest.length) = [] := by
  have hsuffix : generatedFileSuffix.length = 14 := by decide
  have hseparator : generatedPathDigestSeparatorBytes = 1 := rfl
  rw [hdigest, hsuffix, hseparator]
  rfl

/-- The base of a file: its normalized path when that fits the budgets, a digest of its name
otherwise. -/
theorem generatedFileBase_cases {protoName base : List Char} {path directoryBytes : Option ℕ}
    (h : generatedFileBase sha256 unicode protoName path directoryBytes = .ok base) :
    (base = normalizeGeneratedPath sha256 unicode (removeSuffix ".proto".toList protoName) ++
        ".protocyte".toList ∧
      (∀ bytes ∈ path, (base ++ ".hpp".toList).length ≤ bytes) ∧
      ∀ bytes ∈ directoryBytes, (directory base).length ≤ bytes) ∨
      base = '~' :: upperDigest sha256 (Utf8.encode protoName) ++ ".protocyte".toList ∧
        ∀ bytes ∈ path, 79 ≤ bytes := by
  unfold generatedFileBase at h
  simp only [minHashedGeneratedFilePathBytes_eq] at h
  generalize normalizeGeneratedPath sha256 unicode (removeSuffix ".proto".toList protoName) ++
    ".protocyte".toList = normalizedBase at h ⊢
  split_ifs at h with hbudgeted hfits hsmall
  · cases path <;> cases directoryBytes <;> simp_all
  · left
    obtain rfl := Except.ok.inj h
    obtain ⟨hpath, hdirectory⟩ := Bool.and_eq_true_iff.mp hfits
    have hpath := of_decide_eq_true hpath
    have hdirectory := of_decide_eq_true hdirectory
    refine ⟨rfl, ?_, ?_⟩
    · rintro bytes rfl
      exact hpath.trans (Nat.min_le_right _ _)
    · rintro bytes rfl
      rcases hdirectory with hnil | hle
      · rw [hnil]
        exact Nat.zero_le _
      · exact hle.trans (Nat.min_le_right _ _)
  · right
    have hlarge : ∀ bytes ∈ path, 79 ≤ bytes := by
      intro bytes hbytes
      by_contra hlt
      exact hsmall ⟨bytes, hbytes, Nat.lt_of_not_le hlt⟩
    refine ⟨?_, hlarge⟩
    have hdigest : ((hexdigest (sha256.digest (Utf8.encode protoName))).map
        Char.toUpper).length = 64 := length_upperDigest _
    rw [← Except.ok.inj h]
    cases path with
    | none =>
      simp only [sliceTo_folded _ _ hdigest]
      rfl
    | some bytes =>
      simp only [Nat.min_eq_left (hlarge bytes rfl), sliceTo_folded _ _ hdigest]
      rfl

/-- Budgets from the stable ones on do not change the base of a file. -/
theorem generatedFileBase_stable (protoName : List Char) {pathBytes directoryBytes : ℕ}
    (hpath : 79 ≤ pathBytes) (hdirectory : 67 ≤ directoryBytes) :
    generatedFileBase sha256 unicode protoName (some pathBytes) (some directoryBytes) =
      generatedFileBase sha256 unicode protoName (some 79) (some 67) := by
  have hstable : stableBudgetedGeneratedDirectoryBytes = 67 := by decide
  have hsmall : ∀ {bytes : ℕ}, 79 ≤ bytes → ¬∃ b ∈ some bytes, b < 79 := by
    rintro bytes hle ⟨b, hb, hlt⟩
    obtain rfl := Option.mem_some_iff.mp hb
    omega
  unfold generatedFileBase
  simp only [minHashedGeneratedFilePathBytes_eq, hstable, Nat.min_eq_left hpath,
    Nat.min_eq_left hdirectory, Nat.min_self, if_neg (hsmall hpath), if_neg (hsmall le_rfl),
    Option.isSome_some]

theorem append_suffix (normalized : List Char) :
    normalized ++ ".protocyte".toList ++ ".hpp".toList = normalized ++ generatedFileSuffix := by
  rw [List.append_assoc]
  rfl

theorem joined_components {init : List (List Char)} (h : ∀ segment ∈ init, segment ≠ [])
    (last : List Char) :
    ∀ component ∈ (joinSegments sha256 unicode (init ++ [last]) ++ generatedFileSuffix).splitOn '/',
      PortableComponent component := by
  rw [splitOn_joinSegments sha256 unicode h]
  exact components_portable sha256 unicode h last

theorem folded_component (bytes : List UInt8) :
    PortableComponent ('~' :: upperDigest sha256 bytes ++ generatedFileSuffix) := by
  have hcharacters : ∀ c ∈ '~' :: upperDigest sha256 bytes, isPathCharacter c = true := by
    intro c hc
    rcases List.mem_cons.mp hc with rfl | hc
    · decide
    · exact isPathCharacter_of_alphanum (alphanum_upperDigest hc)
  have hsuffix : generatedFileSuffix = '.' :: "protocyte.hpp".toList := rfl
  apply portableComponent_of
  · exact List.cons_ne_nil _ _
  · rw [List.length_append, List.length_cons, length_upperDigest]
    decide
  · intro c hc
    rcases List.mem_append.mp hc with hc | hc
    · exact hcharacters c hc
    · exact characters_suffix c hc
  · have hlast : generatedFileSuffix.getLast? = some 'p' := rfl
    rw [List.getLast?_append, hlast]
    exact fun h => absurd (Option.some.inj h) (by decide)
  · rw [hsuffix, takeWhile_append_dot]
    intro hreserved
    apply (notMem_of_reserved hreserved).2
    rw [List.takeWhile_cons_of_pos (p := fun c => decide (c ≠ '.')) (by decide)]
    exact List.mem_cons_self

/-- A path whose components are portable is relative and made of bytes as many as characters. -/
theorem portablePath_of {path : List Char} {maxOutputPathBytes maxOutputDirectoryBytes : Option ℕ}
    (hcomponents : ∀ component ∈ path.splitOn '/', PortableComponent component)
    (hpath : ∀ bytes ∈ maxOutputPathBytes, path.length ≤ bytes)
    (hdirectory : ∀ bytes ∈ maxOutputDirectoryBytes, (directory path).length ≤ bytes) :
    PortablePath path maxOutputPathBytes maxOutputDirectoryBytes := by
  have hascii : Utf8.Ascii path := by
    intro c hc
    rcases mem_splitOn_of_mem '/' hc with rfl | ⟨component, hmem, hc⟩
    · decide
    · exact ascii_of_isPathCharacter ((hcomponents component hmem).characters c hc)
  have hdirectoryAscii : Utf8.Ascii (directory path) :=
    fun c hc => hascii c (directory_subset path c hc)
  refine ⟨?_, hcomponents, ?_, ?_⟩
  · intro hhead
    obtain ⟨rest, rfl⟩ := List.head?_eq_some_iff.mp hhead
    have hempty : [] ∈ ('/' :: rest).splitOn '/' := by
      rw [List.splitOn_cons_eq_if_modifyHead, if_pos (beq_self_eq_true '/')]
      exact List.mem_cons_self
    exact (hcomponents [] hempty).ne_nil rfl
  · rw [Utf8.length_encode_of_ascii hascii]
    exact hpath
  · rw [Utf8.length_encode_of_ascii hdirectoryAscii]
    exact hdirectory

/-- The path of the header of an accepted file is portable and within its budgets, and the same
for all budgets from the stable ones on. -/
theorem generatedFileBase_portable {protoName : List Char}
    (h : validateVirtualFileName protoName = .ok ()) :
    (∀ path directoryBytes base,
      generatedFileBase sha256 unicode protoName path directoryBytes = .ok base →
        PortablePath (base ++ ".hpp".toList) path directoryBytes) ∧
      ∀ pathBytes directoryBytes pathBytes' directoryBytes', 79 ≤ pathBytes →
        67 ≤ directoryBytes → 79 ≤ pathBytes' → 67 ≤ directoryBytes' →
        generatedFileBase sha256 unicode protoName (some pathBytes) (some directoryBytes) =
          generatedFileBase sha256 unicode protoName (some pathBytes') (some directoryBytes') := by
  constructor
  · intro path directoryBytes base hbase
    rcases generatedFileBase_cases sha256 unicode hbase with
      ⟨heq, hpath, hdirectory⟩ | ⟨rfl, hpath⟩
    · obtain ⟨init, last, hsplit, hinit⟩ := segments_of_name h
      rw [normalizeGeneratedPath_eq sha256 unicode hsplit (by simp)] at heq
      apply portablePath_of
      · rw [heq, append_suffix]
        exact joined_components sha256 unicode hinit last
      · exact hpath
      · rw [directory_append (by decide)]
        exact hdirectory
    · have hfolded := folded_component sha256 (Utf8.encode protoName)
      have hnone : '/' ∉ '~' :: upperDigest sha256 (Utf8.encode protoName) ++ generatedFileSuffix :=
        separator_notMem hfolded.characters
      apply portablePath_of
      · rw [append_suffix, List.splitOn_eq_singleton hnone]
        exact List.forall_mem_singleton.mpr hfolded
      · intro bytes hbytes
        have hsuffix : generatedFileSuffix.length = 14 := by decide
        rw [append_suffix, List.length_append, List.length_cons, length_upperDigest, hsuffix]
        exact hpath bytes hbytes
      · intro bytes _
        rw [append_suffix, directory_of_notMem hnone]
        exact Nat.zero_le _
  · intro pathBytes directoryBytes pathBytes' directoryBytes' hpath hdirectory hpath' hdirectory'
    rw [generatedFileBase_stable sha256 unicode protoName hpath hdirectory,
      generatedFileBase_stable sha256 unicode protoName hpath' hdirectory']

/-- A name of one segment that the smallest budgets do not hold. -/
def longName : List Char := List.replicate 71 'a' ++ ['.', 'p', 'r', 'o', 't', 'o']

def longNameDigest : List UInt8 :=
  [0x2A, 0x46, 0xDF, 0x94, 0x6F, 0x34, 0x55, 0x92, 0x80, 0xEC, 0xF8, 0xE5, 0x08, 0x7C, 0x14, 0x01,
    0xF3, 0x89, 0xE9, 0xFA, 0xE5, 0xC4, 0x74, 0x97, 0xC6, 0x47, 0xC8, 0x28, 0x54, 0x7E, 0xA8, 0x78]

def longNameTable (bytes : List UInt8) : List UInt8 :=
  if bytes = Utf8.encode longName then longNameDigest else List.replicate 32 0

theorem length_longNameTable (bytes : List UInt8) : (longNameTable bytes).length = 32 := by
  unfold longNameTable
  split_ifs
  · rfl
  · exact List.length_replicate

/-- SHA-256 on the long name. -/
def longNameSha256 : Sha256 := ⟨longNameTable, length_longNameTable⟩

theorem caseless_foreign (c : Char) (h : 128 ≤ c.toNat) (_ : asciiUppercase c = none) :
    ∃ d ∈ [c], 128 ≤ d.toNat := ⟨c, List.mem_cons_self, h⟩

/-- Upper case that leaves the other characters beyond ASCII alone. -/
def caseless : Uppercase := ⟨fun c => [c], caseless_foreign⟩

theorem generatedFileBase_portable_long :
    PortablePath
      ("~2A46DF946F34559280ECF8E5087C1401F389E9FAE5C47497C647C828547EA878.protocyte".toList ++
        ".hpp".toList) (some 79) (some 67) :=
  (generatedFileBase_portable longNameSha256 caseless
    (show validateVirtualFileName longName = .ok () by decide +kernel)).1
    (some 79) (some 67) _ (by decide +kernel)

end Paths

end Protocyte.Paths
