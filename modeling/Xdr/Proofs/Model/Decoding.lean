import Xdr.Proofs.Model.Acceptance

/-!
# Decoding data

Bytes that the layout of a datum admits are read as that datum, if its lengths and counts are within
the ceiling (`decode_of_laid`). The budget for references is never short: between two references to
the same name lies a word of its own.
-/

namespace Xdr.Schema

open Reading

variable {definitions : Definitions Schema} {ceiling : UInt32}

/-- A reference is read as what it stands for, one level further down. -/
theorem reading_ref {name : String} {body : Schema} (h : definitions.lookup name = some body)
    (depth : Nat) : reading definitions ceiling (depth + 1) (.ref name) =
      .later fun _ => reading definitions ceiling depth body := by
  rw [reading, readingWith, Definitions.meaning_succ _ _ _ _ h]
  rfl

/-- Where enough references are followed, what the layout admits is read as the datum: as many as
there are in front of the first word, and for each word as many as there are definitions. -/
def Read (definitions : Definitions Schema) (ceiling : UInt32) (schema : Schema) (datum : Datum)
    (outline : Outline) : Prop :=
  ∀ {chain depth : Nat} {policy : PaddingPolicy} {bytes : List UInt8},
    Grounded definitions chain schema →
    chain + definitions.length * (outline.layout.length / 4) ≤ depth →
    outline.Within ceiling → outline.layout.Admits policy bytes →
    (reading definitions ceiling depth schema).Accepts policy bytes datum

/-- Parts that are each read are so one after the other. -/
theorem acceptsAll_of_parts {read : Schema → Reading Unit Datum} {policy : PaddingPolicy}
    {schemas : List Schema} {data : List Datum} {outline : Outline} {bytes : List UInt8}
    (h : Parts (fun schema datum front => ∀ bytes, front.Within ceiling →
      front.layout.Admits policy bytes → (read schema).Accepts policy bytes datum)
      schemas data outline)
    (hwithin : outline.Within ceiling) (hadmits : outline.layout.Admits policy bytes) :
    AcceptsAll policy (schemas.map read) bytes data := by
  induction h generalizing bytes with
  | nil => exact ⟨Layout.admits_nil_iff.mp hadmits, rfl⟩
  | cons hhead _ ih =>
      obtain ⟨hfrontWithin, hbackWithin⟩ := Outline.within_append_iff.mp hwithin
      obtain ⟨front, back, rfl, hfront, hback⟩ := Layout.admits_append_iff.mp hadmits
      exact ⟨front, back, _, _, rfl, rfl, hhead _ hfrontWithin hfront, ih hbackWithin hback⟩

/-- The parts of a datum are read where there are enough references for all their words. -/
theorem acceptsAll_read {policy : PaddingPolicy} {schemas : List Schema} {data : List Datum}
    {outline : Outline} {bytes : List UInt8} {chain depth : Nat}
    (h : Parts (Read definitions ceiling) schemas data outline)
    (hgrounded : ∀ schema ∈ schemas, Grounded definitions chain schema)
    (hdepth : chain + definitions.length * (outline.layout.length / 4) ≤ depth)
    (hwithin : outline.Within ceiling) (hadmits : outline.layout.Admits policy bytes) :
    AcceptsAll policy (schemas.map (reading definitions ceiling depth)) bytes data := by
  refine acceptsAll_of_parts (h.imp_of_mem (fun front => front.layout.length)
    (fun _ _ => List.length_append) ?_) hwithin hadmits
  intro schema hschema datum _ front hle hread bytes hfrontWithin hfront
  refine hread (hgrounded schema hschema) ?_ hfrontWithin hfront
  have := Nat.mul_le_mul_left definitions.length (Nat.div_le_div_right (c := 4) hle)
  omega

/-- A tuple is read where its elements are, and so is a record. -/
theorem read_tuple {declared : Nat} {elements : List Schema} {data : List Datum}
    {outline : Outline} (hdeclared : declared = elements.length)
    (hread : Parts (Read definitions ceiling) elements data outline) :
    Read definitions ceiling (.tuple declared elements) (.tuple data) outline := by
  intro _ _ _ _ hgrounded hdepth hwithin hadmits
  refine accepts_tuple_iff.mpr ⟨data, rfl, hdeclared.ge, ?_⟩
  refine acceptsAll_read hread (fun element helement => ?_) hdepth hwithin hadmits
  exact hgrounded.of_subset (direct_subset_directs helement)

/-- A datum is read from what its layout admits. -/
theorem Laid.read {schema : Schema} {datum : Datum} {outline : Outline}
    (h : Laid definitions schema datum outline) :
    Read definitions ceiling schema datum outline := by
  induction h with
  | bool value => exact fun _ _ _ hadmits => accepts_bool_iff.mpr ⟨value, rfl, hadmits⟩
  | int8 value => exact fun _ _ _ hadmits => accepts_int8_iff.mpr ⟨value, rfl, hadmits⟩
  | int16 value => exact fun _ _ _ hadmits => accepts_int16_iff.mpr ⟨value, rfl, hadmits⟩
  | int32 value => exact fun _ _ _ hadmits => accepts_int32_iff.mpr ⟨value, rfl, hadmits⟩
  | int64 value => exact fun _ _ _ hadmits => accepts_int64_iff.mpr ⟨value, rfl, hadmits⟩
  | uint8 value => exact fun _ _ _ hadmits => accepts_uint8_iff.mpr ⟨value, rfl, hadmits⟩
  | uint16 value => exact fun _ _ _ hadmits => accepts_uint16_iff.mpr ⟨value, rfl, hadmits⟩
  | uint32 value => exact fun _ _ _ hadmits => accepts_asWord_iff.mpr ⟨value, rfl, hadmits⟩
  | uint64 value => exact fun _ _ _ hadmits => accepts_asHyper_iff.mpr ⟨value, rfl, hadmits⟩
  | float bits => exact fun _ _ _ hadmits => accepts_asWord_iff.mpr ⟨bits, rfl, hadmits⟩
  | double bits => exact fun _ _ _ hadmits => accepts_asHyper_iff.mpr ⟨bits, rfl, hadmits⟩
  | char value => exact fun _ _ _ hadmits => accepts_char_iff.mpr ⟨value, rfl, hadmits⟩
  | unit => exact fun _ _ _ hadmits => ⟨Layout.admits_nil_iff.mp hadmits, rfl⟩
  | string text =>
      intro _ _ _ _ _ _ hwithin hadmits
      exact accepts_string_iff.mpr ⟨text, rfl, Outline.within_sized_iff.mp hwithin, hadmits⟩
  | bytes data =>
      intro _ _ _ _ _ _ hwithin hadmits
      exact accepts_bytes_iff.mpr ⟨data, rfl, Outline.within_sized_iff.mp hwithin, hadmits⟩
  | identifier value => exact fun _ _ _ hadmits => accepts_asWord_iff.mpr ⟨value, rfl, hadmits⟩
  | absent =>
      intro _ _ _ _ _ _ _ hadmits
      exact accepts_option_iff.mpr (Or.inl ⟨rfl, Layout.admits_word_iff.mp hadmits⟩)
  | present h ih =>
      intro _ _ _ _ _ hdepth hwithin hadmits
      obtain ⟨_, hinner⟩ := Outline.within_append_iff.mp hwithin
      obtain ⟨rest, rfl, hrest⟩ := Layout.admits_word_append_iff.mp hadmits
      have hcontent := ih h.grounded (Layout.behind_word hdepth) hinner hrest
      exact accepts_option_iff.mpr (Or.inr ⟨_, rest, rfl, rfl, hcontent⟩)
  | wrapper h ih => exact ih
  | tuple hdeclared _ ih => exact read_tuple hdeclared (ih.imp fun hpart => hpart.2)
  | record hdeclared _ ih => exact read_tuple hdeclared (ih.imp fun hpart => hpart.2)
  | @seq element told visit data outline _ htake hparts ih =>
      intro _ _ _ _ _ hdepth hwithin hadmits
      have hread : Parts (Read definitions ceiling) (List.replicate data.length element) data
        outline := ih.imp fun hpart => hpart.2
      obtain ⟨hcount, helements⟩ := Outline.within_append_iff.mp hwithin
      obtain ⟨rest, rfl, hrest⟩ := Layout.admits_word_append_iff.mp hadmits
      refine (accepts_seq_iff htake).mpr
        ⟨data, rest, rfl, Outline.within_count_iff.mp hcount, rfl, ?_⟩
      exact acceptsAll_read hread (hparts.forall_kind Laid.grounded) (Layout.behind_word hdepth)
        helements hrest
  | @map key value told visit entries outline _ htake hparts ih =>
      intro _ _ _ _ _ hdepth hwithin hadmits
      have hread : Parts (Read definitions ceiling) (entryKinds key value entries.length)
        (Datum.flat entries) outline := ih.imp fun hpart => hpart.2
      obtain ⟨hcount, hentries⟩ := Outline.within_append_iff.mp hwithin
      obtain ⟨rest, rfl, hrest⟩ := Layout.admits_word_append_iff.mp hadmits
      refine (accepts_map_iff htake).mpr
        ⟨entries, rest, rfl, Outline.within_count_iff.mp hcount, rfl, ?_⟩
      exact acceptsAll_read hread (hparts.forall_kind Laid.grounded) (Layout.behind_word hdepth)
        hentries hrest
  | @variant variants index selected content outline hselect h ih =>
      intro _ _ _ _ _ hdepth hwithin hadmits
      obtain ⟨_, hinner⟩ := Outline.within_append_iff.mp hwithin
      obtain ⟨rest, rfl, hrest⟩ := Layout.admits_word_append_iff.mp hadmits
      have hcontent := ih h.grounded (Layout.behind_word hdepth) hinner hrest
      exact accepts_enumeration_iff.mpr
        ⟨index, selected, content, rest, rfl, hselect, rfl, hcontent⟩
  | @fixedOpaque length data hlength =>
      exact fun _ _ _ hadmits => accepts_fixedOpaque_iff.mpr ⟨data, rfl, hlength, hadmits⟩
  | ref hbody h ih =>
      intro _ depth _ _ hgrounded hdepth hwithin hadmits
      obtain ⟨chain, rfl, hbodyGrounded⟩ := hgrounded.body List.mem_cons_self hbody
      obtain ⟨depth, rfl⟩ := Nat.exists_eq_add_of_le' (show 1 ≤ depth by omega)
      rw [reading_ref hbody]
      exact ih hbodyGrounded (by omega) hwithin hadmits

/-- Bytes that the layout of a datum admits are read as that datum, whatever is left behind them, if
its lengths and counts are within the ceiling. -/
theorem decode_of_laid {schema : Schema} {datum : Datum} {outline : Outline}
    {policy : PaddingPolicy} {bytes : List UInt8} (h : Laid definitions schema datum outline)
    (hwithin : outline.Within ceiling) (hadmits : outline.layout.Admits policy bytes) {left : Nat}
    (hleft : bytes.length ≤ left) :
    (schema.decode definitions ceiling left).Accepts policy bytes datum := by
  rw [hadmits.length_eq] at hleft
  exact h.read h.grounded (definitions.budget_le (by omega)) hwithin hadmits

end Xdr.Schema
