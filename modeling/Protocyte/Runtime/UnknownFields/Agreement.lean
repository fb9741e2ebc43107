import Protocyte.Runtime.UnknownFields.Read

/-! The four walkers of unknown fields agree: skipping, decoding, reading into storage and writing
canonically accept the same bytes and stop at the same offset. -/
namespace Protocyte
open Foundation.Computation Foundation.Wire

variable {bytes : List UInt8} {o : ℕ} {s : Parse ByteVec} {tag : Tag} {reader : Reader}

/-- The record at the offset, seen from behind its tag. -/
private theorem record_behind_tag (hrest : s.reader.rest = bytes.drop o)
    (htag : readTag s.reader = .ok tag reader) : ∃ ks xs, bytes.drop o = ks ++ xs ∧
      Key ks tag.fieldNumber tag.wireType.code ∧ reader = s.reader.advance ks.length ∧
      reader.rest = xs := by
  obtain ⟨ks, xs, hks, hkey, rfl⟩ := readTag_eq_ok.mp htag
  refine ⟨ks, xs, hrest ▸ hks, hkey, rfl, ?_⟩
  rw [Reader.rest_advance, hks, List.drop_left]

private theorem decoded_iff_body (hrest : s.reader.rest = bytes.drop o)
    (htag : readTag s.reader = .ok tag reader) (d : ℕ) :
    (∃ r, decodeUnknownFieldAt bytes o d = .ok r) ↔
      ∃ bs xs t, reader.rest = bs ++ xs ∧ Body d tag.fieldNumber tag.wireType.code bs t := by
  obtain ⟨ks, ys, hks, hkey, -, hys⟩ := record_behind_tag hrest htag
  constructor
  · rintro ⟨r, hr⟩
    obtain ⟨ls, bs, xs, t, hls, hlkey, hb, -⟩ := decodeUnknownFieldAt_sound hr
    rw [hks] at hls
    obtain ⟨rfl, hn, hc⟩ := hkey.unique hlkey hls
    rw [← hn, ← hc] at hb
    exact ⟨bs, xs, t, hys.trans (List.append_cancel_left hls), hb⟩
  · rintro ⟨bs, xs, t, hbs, hb⟩
    obtain ⟨hn, hc⟩ := (body_canonical d).number_code hb
    rw [← hn, ← hc] at hkey hb
    obtain ⟨r, hr, -⟩ := decodeUnknownFieldAt_complete (hks.trans (by rw [← hys, hbs])) hkey hb
    exact ⟨r, hr⟩

/-- Where the decoded record ends and what its canonical form is. -/
private theorem decoded_of_body (hrest : s.reader.rest = bytes.drop o)
    (htag : readTag s.reader = .ok tag reader) {d : ℕ} {bs xs : List UInt8} {t : Tree}
    (hbs : reader.rest = bs ++ xs) (hb : Body d tag.fieldNumber tag.wireType.code bs t)
    {r : DecodedUnknownField} (hr : decodeUnknownFieldAt bytes o d = .ok r) :
    (reader.advance bs.length).position = s.reader.position + (r.nextOffset - o) ∧
      Records (Body d) (subspan bytes o (r.nextOffset - o)) [t] := by
  obtain ⟨ks, ys, hks, hkey, rfl, hys⟩ := record_behind_tag hrest htag
  obtain ⟨hn, hc⟩ := (body_canonical d).number_code hb
  rw [← hn, ← hc] at hkey hb
  rw [← hys, hbs] at hks
  obtain ⟨hnext, -, -⟩ := (decodeUnknownFieldAt_sound hr).shows hks hkey hb
  have hlen : r.nextOffset - o = (ks ++ bs).length := by
    rw [hnext, List.length_append]; omega
  have hle : (ks ++ bs).length ≤ s.reader.rest.length := by
    rw [hrest, hks]; simp
  refine ⟨?_, ?_⟩
  · rw [Reader.advance_advance, ← List.length_append, s.reader.position_advance hle, hlen]
  · rw [subspan, hlen, hks, ← List.append_assoc, List.take_left]
    exact .singleton hkey hb

/-- After the tag at an offset, skipping succeeds exactly when decoding does, and reading does
when memory and the storage limit allow; they end at one offset, and what is stored is what the
canonical writer makes of the bytes between. -/
theorem unknown_field_walkers_agree (bytes : List UInt8) (o : ℕ) (s : Parse ByteVec) (tag : Tag)
    (reader : Reader) (hrest : s.reader.rest = bytes.drop o) (hpos : s.reader.position = o)
    (htag : readTag s.reader = .ok tag reader) :
    let behind : Parse ByteVec := { s with reader }
    ((∃ s', skipField tag.wireType tag.fieldNumber behind = .ok () s') ↔
        ∃ r, decodeUnknownFieldAt bytes o s.levels = .ok r) ∧
      (s.ctx.AlwaysGrants →
        (∀ r c, decodeUnknownFieldAt bytes o s.levels = .ok r →
          writeCanonicalUnknownFields (subspan bytes o (r.nextOffset - o)) s.levels
            ([] : List UInt8) = .ok () c →
          s.obj.size + c.length ≤ s.ctx.limits.maxUnknownFieldBytes) →
        ((∃ s', readUnknownField tag.wireType tag.fieldNumber behind = .ok () s') ↔
          ∃ r, decodeUnknownFieldAt bytes o s.levels = .ok r)) ∧
      (∀ s₁ r, skipField tag.wireType tag.fieldNumber behind = .ok () s₁ →
        decodeUnknownFieldAt bytes o s.levels = .ok r → s₁.reader.position = r.nextOffset) ∧
      (∀ s₂, readUnknownField tag.wireType tag.fieldNumber behind = .ok () s₂ →
        ∃ r c, decodeUnknownFieldAt bytes o s.levels = .ok r ∧
          s₂.reader.position = r.nextOffset ∧
          writeCanonicalUnknownFields (subspan bytes o (r.nextOffset - o)) s.levels
            ([] : List UInt8) = .ok () c ∧
          s₂.obj.items = s.obj.items ++ c) := by
  intro behind
  obtain ⟨ks, xs, hks, hkey, -⟩ := record_behind_tag hrest htag
  have hf : tag.fieldNumber ≤ maxNumber := hkey.2.2.1
  have hlevels : behind.levels = s.levels := rfl
  have hdec := decoded_iff_body hrest htag s.levels
  have hread := readUnknownField_exits tag.wireType hf behind
  have hnext : ∀ {r : DecodedUnknownField}, decodeUnknownFieldAt bytes o s.levels = .ok r →
      o + (r.nextOffset - o) = r.nextOffset := by
    intro r hr
    obtain ⟨ks, bs, xs, t, -, -, -, hn, -⟩ := decodeUnknownFieldAt_sound hr
    omega
  refine ⟨?_, fun hg hroom => ?_, fun s₁ r hskip hr => ?_, fun s₂ hs₂ => ?_⟩
  · rw [hdec]
    constructor
    · rintro ⟨s', hs'⟩
      obtain ⟨bs, xs, n, hbs, ⟨t, ht⟩, -, -⟩ := skipField_accepts _ _ _ s' hs'
      exact ⟨bs, xs, t, hbs, ht⟩
    · rintro ⟨bs, xs, t, hbs, ht⟩
      obtain ⟨n, -, hs'⟩ := skipField_passes (s := behind) hbs ht
      exact ⟨_, hs'⟩
  · constructor
    · rintro ⟨s', hs'⟩
      obtain ⟨bs, xs, t, hbs, ht, -⟩ := hread.ok hs'
      exact hdec.mpr ⟨bs, xs, t, hbs, ht⟩
    · rintro ⟨r, hr⟩
      obtain ⟨bs, xs, t, hbs, ht⟩ := hdec.mp ⟨r, hr⟩
      have hrec := (decoded_of_body hrest htag hbs ht hr).2
      have hc := hroom r t.encode hr (by
        rw [(writes_canonical hrec).unbounded, encodeAll_singleton, List.nil_append])
      exact readUnknownField_complete hf (s := behind) hbs ht ⟨hg, hc⟩
  · obtain ⟨bs, xs, n, hbs, ⟨t, ht⟩, -, rfl⟩ := skipField_accepts _ _ _ s₁ hskip
    rw [Parse.moved_reader, (decoded_of_body hrest htag hbs ht hr).1, hpos, hnext hr]
  · obtain ⟨bs, xs, t, hbs, ht, hstored⟩ := hread.ok hs₂
    obtain ⟨r, hr⟩ := hdec.mpr ⟨bs, xs, t, hbs, ht⟩
    obtain ⟨hend, hrec⟩ := decoded_of_body hrest htag hbs ht hr
    rw [hlevels] at hrec
    refine ⟨r, t.encode, hr, ?_, ?_, hstored.items⟩
    · rw [hstored.reader]
      exact hend.trans (by rw [hpos, hnext hr])
    · rw [(writes_canonical hrec).unbounded, encodeAll_singleton, List.nil_append]

/-- A group with a padded member, at the start of its buffer. -/
theorem unknown_field_walkers_agree_group :
    (∃ s' : Parse ByteVec, skipField .sgroup 1 { ctx := {}, obj := Vec.empty, reader :=
        (sliceAt [0x0b, 0x08, 0x81, 0x00, 0x0c] 0).advance 1 } = .ok () s') ↔
      ∃ r, decodeUnknownFieldAt [0x0b, 0x08, 0x81, 0x00, 0x0c] 0 100 = .ok r :=
  (unknown_field_walkers_agree [0x0b, 0x08, 0x81, 0x00, 0x0c] 0
    { ctx := {}, obj := Vec.empty, reader := sliceAt [0x0b, 0x08, 0x81, 0x00, 0x0c] 0 } ⟨1, .sgroup⟩
    ((sliceAt [0x0b, 0x08, 0x81, 0x00, 0x0c] 0).advance 1) rfl rfl (by rfl)).1

end Protocyte
