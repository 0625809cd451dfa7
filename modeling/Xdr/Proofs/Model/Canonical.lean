import Xdr.Proofs.Model.Decoding

/-!
# Canonicity of data

Where writers and readers of a schema agree on what is on the wire (`Schema.Symmetric`), a datum
that is read is one of the schema within the ceiling, and it is read only from what its layout
admits (`laid_of_accepts`).
-/

namespace Xdr.Schema

open Reading

mutual
/-- Writers and readers of the schema agree on what is on the wire: the true numbers of elements are
announced and declared, and readers ask until the end. Left out are what is written and not read at
all, and the wrapper that hands out the bytes of opaque data in another shape than it takes them
in. -/
def Symmetric : Schema → Prop
  | option inner => inner.Symmetric
  | wrapper inner => inner.Symmetric
  | tuple declared elements => declared = elements.length ∧ AllSymmetric elements
  | record declared fields => declared = fields.length ∧ AllSymmetric fields
  | seq element told visit => told = .actual ∧ visit.take = none ∧ element.Symmetric
  | map key value told visit =>
      told = .actual ∧ visit.take = none ∧ key.Symmetric ∧ value.Symmetric
  | enumeration variants => AllSymmetric variants
  | readable => False
  | opaqueWrapper _ => False
  | _ => True

/-- Writers and readers of each of the schemas agree. -/
def AllSymmetric : List Schema → Prop
  | [] => True
  | schema :: schemas => schema.Symmetric ∧ AllSymmetric schemas
end

theorem AllSymmetric.of_mem {schemas : List Schema} (h : AllSymmetric schemas) {schema : Schema}
    (hmem : schema ∈ schemas) : schema.Symmetric := by
  induction schemas with
  | nil => cases hmem
  | cons head schemas ih =>
      rcases List.mem_cons.mp hmem with rfl | hmem
      · exact h.1
      · exact ih h.2 hmem

variable {definitions : Definitions Schema} {ceiling : UInt32} {policy : PaddingPolicy}

/-- The schema is read only from layouts of data within the ceiling. -/
def Sound (definitions : Definitions Schema) (ceiling : UInt32) (policy : PaddingPolicy)
    (reading : Reading Unit Datum) (schema : Schema) : Prop :=
  ∀ {datum : Datum} {consumed : List UInt8}, reading.Accepts policy consumed datum →
    ∃ outline, Laid definitions schema datum outline ∧ outline.Within ceiling ∧
      outline.layout.Admits policy consumed

/-- Parts that are read only from layouts are so one after the other. -/
theorem parts_of_acceptsAll {read : Schema → Reading Unit Datum} {schemas : List Schema}
    {data : List Datum} {consumed : List UInt8}
    (hsound : ∀ schema ∈ schemas, Sound definitions ceiling policy (read schema) schema)
    (h : AcceptsAll policy (schemas.map read) consumed data) :
    ∃ outline, Parts (Laid definitions) schemas data outline ∧ outline.Within ceiling ∧
      outline.layout.Admits policy consumed := by
  induction schemas generalizing consumed data with
  | nil =>
      obtain ⟨rfl, rfl⟩ := h
      exact ⟨∅, .nil, Outline.within_plain ceiling [], Layout.admits_nil_iff.mpr rfl⟩
  | cons schema schemas ih =>
      obtain ⟨front, back, datum, others, rfl, rfl, hdatum, hothers⟩ := h
      obtain ⟨first, hfirst, hfirstWithin, hfront⟩ := hsound schema List.mem_cons_self hdatum
      obtain ⟨rest, hrest, hrestWithin, hback⟩ :=
        ih (fun other hmem => hsound other (List.mem_cons_of_mem _ hmem)) hothers
      refine ⟨first ++ rest, .cons hfirst hrest, ?_, hfront.append hback⟩
      exact Outline.within_append_iff.mpr ⟨hfirstWithin, hrestWithin⟩

/-- Where anything without a length or count is read from its layout, the schema is read only from
layouts. -/
theorem sound_plain {ι : Type} {reading : Reading Unit Datum} {schema : Schema} {make : ι → Datum}
    {layout : ι → Layout}
    (hlaid : ∀ value, Laid definitions schema (make value) (.plain (layout value)))
    (haccepts : ∀ {datum consumed}, reading.Accepts policy consumed datum →
      ∃ value, datum = make value ∧ (layout value).Admits policy consumed) :
    Sound definitions ceiling policy reading schema := by
  intro datum consumed h
  obtain ⟨value, rfl, hadmits⟩ := haccepts h
  exact ⟨_, hlaid value, Outline.within_plain ceiling _, hadmits⟩

/-- Elements behind their count have an outline if they have one in a row. -/
theorem within_behind_count {elements : Nat} {outline : Outline} {rest : List UInt8}
    (hmax : elements ≤ ceiling.toNat) (hwithin : outline.Within ceiling)
    (hadmits : outline.layout.Admits policy rest) :
    (Outline.count elements ++ outline).Within ceiling ∧
      (Outline.count elements ++ outline).layout.Admits policy
        (wordImage (UInt32.ofNat elements) ++ rest) := by
  refine ⟨Outline.within_append_iff.mpr ⟨Outline.within_count_iff.mpr hmax, hwithin⟩, ?_⟩
  exact Layout.admits_word_append_iff.mpr ⟨rest, rfl, hadmits⟩

variable {resolve : Schema → Schema} {named : String → Reading Unit Datum}

/-- A symmetric schema is read only from layouts if the named ones are. -/
theorem sound_readingWith
    (hnamed : ∀ name, Sound definitions ceiling policy (named name) (ref name))
    {schema : Schema} (hsymmetric : schema.Symmetric) :
    Sound definitions ceiling policy (readingWith ceiling resolve named schema) schema := by
  induction schema with
  | bool => exact sound_plain .bool accepts_bool_iff.mp
  | int8 => exact sound_plain .int8 accepts_int8_iff.mp
  | int16 => exact sound_plain .int16 accepts_int16_iff.mp
  | int32 => exact sound_plain .int32 accepts_int32_iff.mp
  | int64 => exact sound_plain .int64 accepts_int64_iff.mp
  | uint8 => exact sound_plain .uint8 accepts_uint8_iff.mp
  | uint16 => exact sound_plain .uint16 accepts_uint16_iff.mp
  | uint32 => exact sound_plain .uint32 accepts_asWord_iff.mp
  | uint64 => exact sound_plain .uint64 accepts_asHyper_iff.mp
  | float => exact sound_plain .float accepts_asWord_iff.mp
  | double => exact sound_plain .double accepts_asHyper_iff.mp
  | char => exact sound_plain .char accepts_char_iff.mp
  | unit =>
      intro _ _ h
      obtain ⟨rfl, rfl⟩ := h
      exact ⟨_, .unit, Outline.within_plain ceiling [], Layout.admits_nil_iff.mpr rfl⟩
  | string =>
      intro _ _ h
      obtain ⟨text, rfl, hmax, hadmits⟩ := accepts_string_iff.mp h
      exact ⟨_, .string text, Outline.within_sized_iff.mpr hmax, hadmits⟩
  | bytes =>
      intro _ _ h
      obtain ⟨data, rfl, hmax, hadmits⟩ := accepts_bytes_iff.mp h
      exact ⟨_, .bytes data, Outline.within_sized_iff.mpr hmax, hadmits⟩
  | identifier => exact sound_plain .identifier accepts_asWord_iff.mp
  | option inner ih =>
      intro _ _ h
      rcases accepts_option_iff.mp h with ⟨rfl, himage⟩ | ⟨content, rest, rfl, rfl, hcontent⟩
      · exact ⟨_, .absent, Outline.within_plain ceiling _, Layout.admits_word_iff.mpr himage⟩
      · obtain ⟨outline, hlaid, hwithin, hadmits⟩ := ih hsymmetric hcontent
        refine ⟨_, .present hlaid, ?_, Layout.admits_word_append_iff.mpr ⟨rest, rfl, hadmits⟩⟩
        exact Outline.within_append_iff.mpr ⟨Outline.within_plain ceiling _, hwithin⟩
  | wrapper inner ih =>
      intro _ _ h
      obtain ⟨outline, hlaid, hwithin, hadmits⟩ := ih hsymmetric h
      exact ⟨outline, .wrapper hlaid, hwithin, hadmits⟩
  | tuple declared elements ih =>
      intro _ _ h
      obtain ⟨hdeclared, helements⟩ := hsymmetric
      obtain ⟨data, rfl, _, hall⟩ := accepts_tuple_iff.mp h
      obtain ⟨outline, hparts, hwithin, hadmits⟩ :=
        parts_of_acceptsAll (fun element hmem => ih element hmem (helements.of_mem hmem)) hall
      exact ⟨outline, .tuple hdeclared hparts, hwithin, hadmits⟩
  | record declared fields ih =>
      intro _ _ h
      obtain ⟨hdeclared, hfields⟩ := hsymmetric
      obtain ⟨data, rfl, _, hall⟩ := accepts_record_iff.mp h
      obtain ⟨outline, hparts, hwithin, hadmits⟩ :=
        parts_of_acceptsAll (fun field hmem => ih field hmem (hfields.of_mem hmem)) hall
      exact ⟨outline, .record hdeclared hparts, hwithin, hadmits⟩
  | seq element told visit ih =>
      intro _ _ h
      obtain ⟨rfl, htake, helement⟩ := hsymmetric
      obtain ⟨data, rest, rfl, hmax, rfl, hall⟩ := (accepts_seq_iff htake).mp h
      have hsound : ∀ kind ∈ List.replicate data.length element,
          Sound definitions ceiling policy (readingWith ceiling resolve named kind) kind := by
        intro kind hkind
        rw [(List.mem_replicate.mp hkind).2]
        exact ih helement
      obtain ⟨outline, hparts, hwithin, hadmits⟩ := parts_of_acceptsAll hsound hall
      exact ⟨_, .seq rfl htake hparts, within_behind_count hmax hwithin hadmits⟩
  | map key value told visit ihKey ihValue =>
      intro _ _ h
      obtain ⟨rfl, htake, hkey, hvalue⟩ := hsymmetric
      obtain ⟨entries, rest, rfl, hmax, rfl, hall⟩ := (accepts_map_iff htake).mp h
      have hsound : ∀ kind ∈ entryKinds key value entries.length,
          Sound definitions ceiling policy (readingWith ceiling resolve named kind) kind := by
        intro kind hkind
        rcases eq_or_eq_of_mem_entryKinds hkind with rfl | rfl
        · exact ihKey hkey
        · exact ihValue hvalue
      obtain ⟨outline, hparts, hwithin, hadmits⟩ := parts_of_acceptsAll hsound hall
      exact ⟨_, .map rfl htake hparts, within_behind_count hmax hwithin hadmits⟩
  | enumeration variants ih =>
      intro _ _ h
      obtain ⟨index, selected, content, rest, rfl, hselect, rfl, hcontent⟩ :=
        accepts_enumeration_iff.mp h
      have hselected : selected ∈ variants := List.mem_of_getElem? hselect
      obtain ⟨outline, hlaid, hwithin, hadmits⟩ :=
        ih selected hselected (AllSymmetric.of_mem hsymmetric hselected) hcontent
      refine ⟨_, .variant hselect hlaid, ?_, Layout.admits_word_append_iff.mpr ⟨rest, rfl, hadmits⟩⟩
      exact Outline.within_append_iff.mpr ⟨Outline.within_plain ceiling _, hwithin⟩
  | fixedOpaque length =>
      intro _ _ h
      obtain ⟨data, rfl, hlength, hadmits⟩ := accepts_fixedOpaque_iff.mp h
      exact ⟨_, .fixedOpaque hlength, Outline.within_plain ceiling _, hadmits⟩
  | ref name =>
      intro _ _ h
      exact hnamed name h
  | readable => exact False.elim hsymmetric
  | opaqueWrapper inner => exact False.elim hsymmetric
  | _ =>
      intro _ _ h
      exact False.elim h

/-- A datum that is read is one of the schema within the ceiling, and it is read only from what its
layout admits. -/
theorem laid_of_accepts {depth : Nat} {schema : Schema} {datum : Datum} {consumed : List UInt8}
    (hdefinitions : ∀ name body, definitions.lookup name = some body → body.Symmetric)
    (hsymmetric : schema.Symmetric)
    (h : (schema.reading definitions ceiling depth).Accepts policy consumed datum) :
    ∃ outline, Laid definitions schema datum outline ∧ outline.Within ceiling ∧
      outline.layout.Admits policy consumed := by
  induction depth generalizing schema datum consumed with
  | zero =>
      refine sound_readingWith (fun name datum consumed hnamed => ?_) hsymmetric h
      exact False.elim hnamed
  | succ depth ih =>
      refine sound_readingWith (fun name datum consumed hnamed => ?_) hsymmetric h
      cases hbody : definitions.lookup name with
      | none =>
          simp only [Definitions.meaning, hbody] at hnamed
          exact False.elim hnamed
      | some body =>
          rw [Definitions.meaning_succ _ _ _ _ hbody] at hnamed
          obtain ⟨outline, hlaid, hwithin, hadmits⟩ := ih (hdefinitions name body hbody) hnamed
          exact ⟨outline, .ref hbody hlaid, hwithin, hadmits⟩

end Xdr.Schema
