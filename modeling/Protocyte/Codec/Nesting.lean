import Protocyte.Codec.Schema
import Protocyte.Runtime.Tags

/-! How deep the bytes of a message nest. The layers are those of the schema: the messages of its
fields, the entries of its maps, and the groups no field has. -/
namespace Protocyte
open Foundation.Wire

/-- What a stretch of records is read as. -/
inductive Layer
  | message (id : ℕ)
  | entry (value : ValueKind)
  | group

def ValueKind.layer : ValueKind → Option Layer
  | message id _ => some (.message id)
  | scalar _ | string | bytes => none

def SingularKind.layer : SingularKind → Option Layer
  | value kind => kind.layer
  | byteArray .. => none

def FieldKind.layer : FieldKind → Option Layer
  | implicit kind _ | explicit kind .. => kind.layer
  | «repeated» kind .. => kind.layer
  | map _ value _ => some (.entry value)

/-- What the payload after a tag starts with: as many bytes as its length says, as far as they are
there, or the rest, when it is a group's. -/
inductive Payload : WireType → List UInt8 → List UInt8 → Prop
  | len {ls : List UInt8} {n : ℕ} (h : Varint ls n) (xs : List UInt8) :
    Payload .len (ls ++ xs) (xs.take n)
  | group (xs : List UInt8) : Payload .sgroup xs xs

/-- A value of the wire type, after the tag. -/
def Tag.Whole (tag : Tag) (bs : List UInt8) : Prop :=
  ∃ d t, Body d tag.fieldNumber tag.wireType.code bs t

/-- Any number of records. -/
def Complete (bs : List UInt8) : Prop := ∃ d ts, Records (Body d) bs ts

namespace Schema

/-- The layer a tag opens. -/
def opens (S : Schema) : Layer → Tag → Option Layer
  | _, ⟨_, .sgroup⟩ => some .group
  | .message id, ⟨number, .len⟩ => ((S id).find number).bind fun i => ((S id).kind i).layer
  | .entry value, ⟨number, .len⟩ => if number = 2 then value.layer else none
  | _, _ => none

/-- A tag opens a layer, and `N` holds of what is in it. -/
def Enters (S : Schema) (N : Layer → List UInt8 → Prop) (layer : Layer) (tag : Tag)
    (after : List UInt8) : Prop :=
  ∃ inner content, S.opens layer tag = some inner ∧ Payload tag.wireType after content ∧
    N inner content

/-- The bytes of a layer open so many layers inside one another. -/
def Nests (S : Schema) : ℕ → Layer → List UInt8 → Prop
  | 0, _, _ => True
  | d + 1, layer, bytes => ∃ before ks after tag, bytes = before ++ (ks ++ after) ∧
    Complete before ∧ Key ks tag.fieldNumber tag.wireType.code ∧
    S.Enters (S.Nests d) layer tag after

end Schema

namespace Payload

variable {w : WireType} {xs ys content content' : List UInt8}

theorem unique (h : Payload w xs content) (h' : Payload w xs content') : content' = content := by
  cases h with
  | group => cases h'; rfl
  | @len ls n hls after =>
    generalize hxs : ls ++ after = zs at h'
    cases h' with
    | len hms =>
      obtain ⟨rfl, rfl⟩ := hls.unique hms hxs
      rw [List.append_cancel_left hxs]

/-- More bytes leave the start of a payload what it is. -/
theorem append (h : Payload w xs content) (ys : List UInt8) :
    ∃ more, Payload w (xs ++ ys) (content ++ more) := by
  cases h with
  | group => exact ⟨ys, .group _⟩
  | @len ls n hls after =>
    refine ⟨ys.take (n - after.length), ?_⟩
    rw [List.append_assoc, ← List.take_append]
    exact .len hls _

theorem length_le (h : Payload w xs content) : content.length ≤ xs.length := by
  cases h with
  | group => exact Nat.le_refl _
  | len hls after =>
    rw [List.length_append, List.length_take]
    omega

end Payload

theorem complete_nil : Complete [] := ⟨0, [], .nil⟩

theorem Complete.cons {tag : Tag} {ks bs cs : List UInt8}
    (hk : Key ks tag.fieldNumber tag.wireType.code) (hb : tag.Whole bs) (hc : Complete cs) :
    Complete (ks ++ (bs ++ cs)) := by
  obtain ⟨d, t, ht⟩ := hb
  obtain ⟨e, ts, hts⟩ := hc
  refine ⟨max d e, t :: ts, .cons hk (ht.mono (Nat.le_max_left d e)) ?_⟩
  exact hts.mono fun _ _ _ _ h => h.mono (Nat.le_max_right d e)

/-- The value after a tag takes the same bytes wherever it is read. -/
theorem Tag.Whole.unique {tag : Tag} {bs cs xs ys : List UInt8} (hb : tag.Whole bs)
    (hc : tag.Whole cs) (h : bs ++ xs = cs ++ ys) : bs = cs := by
  obtain ⟨d, t, ht⟩ := hb
  obtain ⟨e, u, hu⟩ := hc
  exact ((body_canonical (max d e)).unique (ht.mono (Nat.le_max_left d e))
    (hu.mono (Nat.le_max_right d e)) h).1

theorem Tag.not_whole_egroup (f : ℕ) (bs : List UInt8) : ¬(Tag.mk f .egroup).Whole bs := by
  intro ⟨d, t, h⟩
  exact not_body_four d f bs t h

theorem key_tag_unique {tag tag' : Tag} {ks ls xs ys : List UInt8}
    (hk : Key ks tag.fieldNumber tag.wireType.code)
    (hl : Key ls tag'.fieldNumber tag'.wireType.code) (h : ks ++ xs = ls ++ ys) :
    tag' = tag ∧ ks = ls ∧ xs = ys := by
  obtain ⟨rfl, hn, hc⟩ := hk.unique hl h
  refine ⟨?_, rfl, List.append_cancel_left h⟩
  cases tag
  cases tag'
  rw [Tag.mk.injEq]
  exact ⟨hn.symm, WireType.code_injective hc.symm⟩

/-- Records in front are none, or a first one and more of them. -/
theorem Complete.eq_nil_or {bs : List UInt8} (h : Complete bs) :
    bs = [] ∨ ∃ (tag : Tag) (ks cs ds : List UInt8), bs = ks ++ (cs ++ ds) ∧
      Key ks tag.fieldNumber tag.wireType.code ∧ tag.Whole cs ∧ Complete ds := by
  obtain ⟨d, ts, hts⟩ := h
  cases hts with
  | nil => exact .inl rfl
  | @cons m c ks cs ds t ts hk hb ht =>
    obtain ⟨w, rfl⟩ : ∃ w : WireType, c = w.code :=
      ⟨.ofCode c, (WireType.code_ofCode hk.2.2.2).symm⟩
    exact .inr ⟨⟨m, w⟩, ks, cs, ds, rfl, hk, ⟨d, t, hb⟩, d, ts, ht⟩

namespace Schema

variable {S : Schema} {d : ℕ} {layer inner : Layer} {tag : Tag} {ks bs xs : List UInt8}

@[simp] theorem opens_sgroup (S : Schema) (layer : Layer) (f : ℕ) :
    S.opens layer ⟨f, .sgroup⟩ = some .group := by
  cases layer <;> rfl

/-- Only payloads with a length and groups are layers. -/
theorem wireType_of_opens (h : S.opens layer tag = some inner) :
    tag.wireType = .len ∨ tag.wireType = .sgroup := by
  obtain ⟨f, w⟩ := tag
  cases w with
  | len => exact .inl rfl
  | sgroup => exact .inr rfl
  | varint | i64 | egroup | i32 | reserved6 | reserved7 => cases layer <;> cases h

theorem not_enters_egroup {N : Layer → List UInt8 → Prop} (f : ℕ) :
    ¬S.Enters N layer ⟨f, .egroup⟩ xs := by
  intro ⟨inner, content, h, _⟩
  rcases wireType_of_opens h with h | h <;> cases h

/-- What a tag opens here. -/
theorem Nests.here (hk : Key ks tag.fieldNumber tag.wireType.code)
    (h : S.Enters (S.Nests d) layer tag xs) : S.Nests (d + 1) layer (ks ++ xs) :=
  ⟨[], ks, xs, tag, rfl, complete_nil, hk, h⟩

/-- What is opened after a record. -/
theorem Nests.later (hk : Key ks tag.fieldNumber tag.wireType.code) (hb : tag.Whole bs)
    (h : S.Nests d layer xs) : S.Nests d layer (ks ++ (bs ++ xs)) := by
  cases d with
  | zero => trivial
  | succ d =>
    obtain ⟨before, ls, after, tag', rfl, hbefore, hl, henters⟩ := h
    refine ⟨ks ++ (bs ++ before), ls, after, tag', ?_, .cons hk hb hbefore, hl, henters⟩
    simp only [List.append_assoc]

/-- More bytes nest no less. -/
theorem Nests.append (h : S.Nests d layer xs) (ys : List UInt8) : S.Nests d layer (xs ++ ys) := by
  induction d generalizing layer xs ys with
  | zero => trivial
  | succ d ih =>
    obtain ⟨before, ls, after, tag, rfl, hbefore, hl, inner, content, hopens, hp, hn⟩ := h
    obtain ⟨more, hmore⟩ := hp.append ys
    refine ⟨before, ls, after ++ ys, tag, by simp only [List.append_assoc], hbefore, hl, inner, _,
      hopens, hmore, ih hn more⟩

theorem not_nests_nil : ¬S.Nests (d + 1) layer [] := by
  intro ⟨before, ls, after, tag, h, _, hl, _⟩
  have hpos := hl.length_pos
  have hlength := congrArg List.length h
  simp only [List.length_nil, List.length_append] at hlength
  omega

/-- Every layer takes a byte at least. -/
theorem Nests.le_length (h : S.Nests d layer xs) : d ≤ xs.length := by
  induction d generalizing layer xs with
  | zero => exact Nat.zero_le _
  | succ d ih =>
    obtain ⟨before, ls, after, tag, rfl, _, hl, inner, content, _, hp, hn⟩ := h
    have hcontent := Nat.le_trans (ih hn) hp.length_le
    have hpos := hl.length_pos
    simp only [List.length_append]
    omega

/-- A record, and what follows it, nest no deeper than each. -/
theorem not_nests_cons (hk : Key ks tag.fieldNumber tag.wireType.code) (hb : tag.Whole bs)
    (henters : ¬S.Enters (S.Nests d) layer tag (bs ++ xs)) (hxs : ¬S.Nests (d + 1) layer xs) :
    ¬S.Nests (d + 1) layer (ks ++ (bs ++ xs)) := by
  intro ⟨before, ls, after, tag', h, hbefore, hl, henters'⟩
  rcases Complete.eq_nil_or hbefore with rfl | ⟨first, ms, cs, ds, rfl, hm, hc, hds⟩
  · obtain ⟨rfl, -, rfl⟩ := key_tag_unique hk hl h
    exact henters henters'
  · simp only [List.append_assoc] at h
    obtain ⟨rfl, -, h⟩ := key_tag_unique hk hm h
    obtain rfl := hb.unique hc h
    exact hxs ⟨ds, ls, after, tag', List.append_cancel_left h, hds, hl, henters'⟩

/-- Nothing is read past the end of a group. -/
theorem not_nests_end {f : ℕ} (hk : Key ks f 4) : ¬S.Nests (d + 1) layer (ks ++ xs) := by
  intro ⟨before, ls, after, tag', h, hbefore, hl, henters'⟩
  have hend : Key ks (Tag.mk f .egroup).fieldNumber (Tag.mk f .egroup).wireType.code := hk
  rcases Complete.eq_nil_or hbefore with rfl | ⟨first, ms, cs, ds, rfl, hm, hc, hds⟩
  · obtain ⟨rfl, -, -⟩ := key_tag_unique hend hl h
    exact not_enters_egroup f henters'
  · simp only [List.append_assoc] at h
    obtain ⟨rfl, -, -⟩ := key_tag_unique hend hm h
    exact Tag.not_whole_egroup f cs hc

/-- The groups of `d` levels nest no deeper. -/
private def GroupsFit (S : Schema) (d : ℕ) : Prop :=
  ∀ e f bs ts xs, d = e + 1 → Members (Body e) f bs ts → ¬S.Nests d .group (bs ++ xs)

private theorem not_enters_of_groups (hgroups : GroupsFit S d) {t : Tree}
    (hb : Body d tag.fieldNumber tag.wireType.code bs t)
    (hopens : ∀ inner, S.opens layer tag = some inner → tag.wireType = .sgroup)
    (xs : List UInt8) : ¬S.Enters (S.Nests d) layer tag (bs ++ xs) := by
  intro ⟨inner, content, h, hp, hn⟩
  obtain ⟨f, w⟩ := tag
  obtain rfl : w = .sgroup := hopens inner h
  rw [opens_sgroup] at h
  cases h
  cases hp
  cases d with
  | zero => exact not_leaf_three hb
  | succ d =>
    rcases hb with hb | ⟨_, ts, _, hm⟩
    · exact not_leaf_three hb
    · exact hgroups d _ bs ts xs rfl hm hn

private theorem not_nests_members_of_groups (hgroups : GroupsFit S d) {f : ℕ} {ts : List Tree}
    (h : Members (Body d) f bs ts) (xs : List UInt8) : ¬S.Nests (d + 1) .group (bs ++ xs) := by
  induction h with
  | close hk => exact not_nests_end hk
  | @member m c ks bs cs t ts hk hb _ ih =>
    obtain ⟨w, rfl⟩ : ∃ w : WireType, c = w.code :=
      ⟨.ofCode c, (WireType.code_ofCode hk.2.2.2).symm⟩
    rw [List.append_assoc, List.append_assoc]
    have hk' : Key ks (Tag.mk m w).fieldNumber (Tag.mk m w).wireType.code := hk
    refine not_nests_cons hk' ⟨d, t, hb⟩ ?_ ih
    refine not_enters_of_groups hgroups hb (fun inner h => ?_) _
    cases w with
    | sgroup => rfl
    | varint | i64 | len | egroup | i32 | reserved6 | reserved7 => cases h

private theorem groupsFit (S : Schema) (d : ℕ) : GroupsFit S d := by
  induction d with
  | zero => exact fun e f bs ts xs h => absurd h (Nat.succ_ne_zero e).symm
  | succ d ih =>
    intro e f bs ts xs h hm
    obtain rfl := Nat.succ.inj h
    exact not_nests_members_of_groups ih hm xs

/-- The value of a field that is no layer, unless it is a group, within a budget of levels. -/
theorem not_enters_body {t : Tree} (hb : Body d tag.fieldNumber tag.wireType.code bs t)
    (hopens : ∀ inner, S.opens layer tag = some inner → tag.wireType = .sgroup)
    (xs : List UInt8) : ¬S.Enters (S.Nests d) layer tag (bs ++ xs) :=
  not_enters_of_groups (groupsFit S d) hb hopens xs

end Schema

end Protocyte
