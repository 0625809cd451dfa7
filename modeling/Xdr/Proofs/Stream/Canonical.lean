import Xdr.Proofs.Stream.Decoding

/-!
# Canonicity of typed values

A target is replaced by a value within the limits of its type, and only from what the layout of the
value admits (`laid_of_accepts`). The zero values that new targets start from are targets of their
types wherever they are read into, since reading follows every reference that they were built from
(`holds_zero_of_accepts`).
-/

namespace Xdr.Ty

open Xdr.Filter

variable {definitions : Definitions Ty} {policy : PaddingPolicy} {consumed : List UInt8}
  {target value : Value}

/-! ### Zero values that are read into -/

/-- Reading into the zero value of a type reads into the zero values of the names that the type
mentions directly. Where references of the zero value were cut off, `void` stands in their place. -/
theorem forall_direct_of_accepts {zero : Ty → Value} {named : String → Filter Value}
    {zeros : String → Value} {P : String → Prop}
    (hnamed : ∀ name target consumed value, target = zeros name ∨ target = .void →
      ((named name).decode target).Accepts policy consumed value → P name) {type : Ty}
    (htarget : target = zeroWith zeros type ∨ target = .void)
    (h : ((filterWith zero named type).decode target).Accepts policy consumed value) :
    ∀ name ∈ type.direct, P name := by
  induction type generalizing target consumed value with
  | fixedArray length element ih =>
      intro name hmem
      rw [direct] at hmem
      split at hmem
      · cases hmem
      · next hlength =>
          obtain ⟨targets, items, hproject, _, hall⟩ := accepts_within_iff.mp h
          rcases htarget with rfl | rfl
          · obtain rfl := Option.some.inj hproject
            rw [accepts_fixedArray_iff, List.map_replicate] at hall
            obtain ⟨front, item, hitem⟩ :=
              hall.accepts_of_mem (List.mem_replicate.mpr ⟨hlength, rfl⟩)
            exact ih (Or.inl rfl) hitem name hmem
          · cases hproject
  | struct parts ih =>
      intro name hmem
      obtain ⟨part, hpart, hname⟩ := mem_directs.mp hmem
      rw [filterWith_struct] at h
      obtain ⟨targets, items, hproject, _, hstruct⟩ := accepts_within_iff.mp h
      rcases htarget with rfl | rfl
      · rw [zeroWith, zerosWith_eq_map] at hproject
        obtain rfl := Option.some.inj hproject
        obtain ⟨_, hall⟩ := accepts_struct_iff.mp hstruct
        rw [List.zipWith_map, List.zipWith_self] at hall
        obtain ⟨front, item, hitem⟩ := hall.accepts_of_mem (List.mem_map_of_mem hpart)
        exact ih part hpart (Or.inl rfl) hitem name hname
      · cases hproject
  | ref other =>
      intro name hmem
      obtain rfl := List.mem_singleton.mp hmem
      exact hnamed name target consumed value htarget h
  | _ => exact fun _ hmem => absurd hmem List.not_mem_nil

/-- A type whose zero value is read into is grounded. -/
theorem grounded_of_accepts {depth level : Nat} {type : Ty}
    (htarget : target = zeroWith (definitions.meaning zeroWith .void level) type ∨ target = .void)
    (h : ((type.filter definitions depth).decode target).Accepts policy consumed value) :
    Grounded definitions depth type := by
  induction depth generalizing level type target consumed value with
  | zero =>
      refine forall_direct_of_accepts (fun name target consumed value _ haccepts => ?_) htarget h
      exact False.elim haccepts
  | succ depth ih =>
      refine forall_direct_of_accepts (fun name target consumed value hzero haccepts => ?_)
        htarget h
      cases hbody : definitions.lookup name with
      | none =>
          simp only [Definitions.meaning, hbody] at haccepts
          exact False.elim haccepts
      | some body =>
          rw [Definitions.meaning_succ _ _ _ _ hbody] at haccepts
          refine ⟨body, hbody, ?_⟩
          cases level with
          | zero =>
              have hvoid : target = .void := hzero.elim id id
              exact @ih consumed target value 0 body (Or.inr hvoid) haccepts
          | succ level =>
              rw [Definitions.meaning_succ _ _ _ _ hbody] at hzero
              exact ih hzero haccepts

/-- A zero value that is read into is a target of its type. -/
theorem holds_zero_of_accepts {depth : Nat} {type : Ty}
    (h : ((type.filter definitions depth).decode (zero definitions type)).Accepts policy consumed
      value) : Holds definitions type (zero definitions type) := by
  have hgrounded := grounded_of_accepts (Or.inl rfl) h
  exact holds_zero fun name hmem => (hgrounded name hmem).within_length

/-! ### What is read is within limits -/

/-- The type is read only from layouts of values within its limits. -/
def Sound (definitions : Definitions Ty) (policy : PaddingPolicy) (filter : Filter Value)
    (type : Ty) : Prop :=
  ∀ {target value : Value} {consumed : List UInt8}, Holds definitions type target →
    (filter.decode target).Accepts policy consumed value →
    ∃ layout, Laid definitions type value layout ∧ layout.Admits policy consumed

/-- A type whose values are all within its limits is read only from layouts if its filter is. -/
theorem sound_within {ι : Type} {filter : Filter ι} {type : Ty} {make : ι → Value}
    {project : Value → Option ι} {layout : ι → Layout}
    (hlaid : ∀ new, Laid definitions type (make new) (layout new))
    (haccepts : ∀ {old consumed new}, (filter.decode old).Accepts policy consumed new →
      (layout new).Admits policy consumed) :
    Sound definitions policy (filter.within make project) type := by
  intro _ _ _ _ h
  obtain ⟨_, new, _, rfl, hread⟩ := accepts_within_iff.mp h
  exact ⟨_, hlaid new, haccepts hread⟩

/-- Parts that are read only from layouts are so one after the other. -/
theorem parts_of_acceptsAll {filter : Ty → Filter Value} {parts : List Ty}
    {targets items : List Value}
    (hsound : ∀ part ∈ parts, Sound definitions policy (filter part) part)
    (htargets : List.Forall₂ (Holds definitions) parts targets)
    (h : Reading.AcceptsAll policy
      (List.zipWith (fun part => (filter part).decode) parts targets) consumed items) :
    ∃ layout, Parts (Laid definitions) parts items layout ∧ layout.Admits policy consumed := by
  induction htargets generalizing consumed items with
  | nil =>
      obtain ⟨rfl, rfl⟩ := h
      exact ⟨[], .nil, Layout.admits_nil_iff.mpr rfl⟩
  | cons htarget _ ih =>
      obtain ⟨front, back, item, others, rfl, rfl, hitem, hothers⟩ := h
      obtain ⟨first, hfirst, hfront⟩ := hsound _ List.mem_cons_self htarget hitem
      obtain ⟨rest, hrest, hback⟩ := ih (fun part hmem => hsound part (List.mem_cons_of_mem _ hmem))
        hothers
      exact ⟨first ++ rest, .cons hfirst hrest, hfront.append hback⟩

/-- A filter is sound if those of the named types are and zero values are targets of the types that
they are read into. -/
theorem sound_filterWith {zero : Ty → Value} {named : String → Filter Value}
    (hzero : ∀ type value consumed,
      ((filterWith zero named type).decode (zero type)).Accepts policy consumed value →
      Holds definitions type (zero type))
    (hnamed : ∀ name, Sound definitions policy (named name) (ref name)) (type : Ty) :
    Sound definitions policy (filterWith zero named type) type := by
  induction type with
  | int32 => exact sound_within .int32 accepts_int32_iff.mp
  | uint32 => exact sound_within .uint32 accepts_uint32_iff.mp
  | int64 => exact sound_within .int64 accepts_int64_iff.mp
  | uint64 => exact sound_within .uint64 accepts_uint64_iff.mp
  | float => exact sound_within .float accepts_float_iff.mp
  | double => exact sound_within .double accepts_double_iff.mp
  | bool => exact sound_within .bool accepts_bool_iff.mp
  | void =>
      intro _ _ _ _ h
      obtain ⟨_, _, _, rfl, hread⟩ := accepts_within_iff.mp h
      exact ⟨_, .void, Layout.admits_nil_iff.mpr hread.1⟩
  | quadruple =>
      intro _ _ _ _ h
      obtain ⟨_, _, _, _, hread⟩ := accepts_within_iff.mp h
      exact False.elim hread
  | openEnum => exact sound_within .openEnum accepts_int32_iff.mp
  | enumeration members =>
      intro _ _ _ _ h
      obtain ⟨_, new, _, rfl, hread⟩ := accepts_within_iff.mp h
      obtain ⟨hmem, hadmits⟩ := accepts_enumeration_iff.mp hread
      exact ⟨_, .enumeration hmem, hadmits⟩
  | fixedOpaque length =>
      intro _ _ _ hholds h
      cases hholds with
      | @fixedOpaque _ buffer hbuffer =>
          obtain ⟨_, data, hproject, rfl, hread⟩ := accepts_within_iff.mp h
          obtain rfl := Option.some.inj hproject
          obtain ⟨hlength, hadmits⟩ := accepts_fixedOpaque_iff.mp hread
          exact ⟨_, .fixedOpaque (hlength.trans hbuffer), hadmits⟩
  | bytes max =>
      intro _ _ _ _ h
      obtain ⟨_, data, _, rfl, hread⟩ := accepts_within_iff.mp h
      obtain ⟨hmax, hadmits⟩ := accepts_bytes_iff.mp hread
      exact ⟨_, .bytes hmax, hadmits⟩
  | string max =>
      intro _ _ _ _ h
      obtain ⟨_, text, _, rfl, hread⟩ := accepts_within_iff.mp h
      obtain ⟨hmax, hadmits⟩ := accepts_string_iff.mp hread
      exact ⟨_, .string hmax, hadmits⟩
  | fixedArray length element ih =>
      intro _ _ _ hholds h
      cases hholds with
      | @fixedArray _ _ targets htargets =>
          obtain ⟨_, items, hproject, rfl, hread⟩ := accepts_within_iff.mp h
          obtain rfl := Option.some.inj hproject
          have hlength : length = targets.length := by simpa using htargets.length_eq
          have hall := accepts_fixedArray_iff.mp hread
          rw [← zipWith_replicate_left (fun part => (filterWith zero named part).decode) hlength]
            at hall
          have hsound : ∀ part ∈ List.replicate length element,
              Sound definitions policy (filterWith zero named part) part := by
            intro part hpart
            rw [(List.mem_replicate.mp hpart).2]
            exact ih
          obtain ⟨layout, hparts, hadmits⟩ := parts_of_acceptsAll hsound htargets hall
          exact ⟨layout, .fixedArray hparts, hadmits⟩
  | varArray max element ih =>
      intro _ _ _ _ h
      obtain ⟨_, items, _, rfl, hread⟩ := accepts_within_iff.mp h
      obtain ⟨hmax, rest, rfl, hall⟩ := accepts_varArray_iff.mp hread
      have hzeros : List.Forall₂ (Holds definitions) (List.replicate items.length element)
          (List.replicate items.length (zero element)) := by
        rw [← List.map_replicate]
        refine forall₂_map_zero fun part hpart => ?_
        obtain ⟨hlength, rfl⟩ := List.mem_replicate.mp hpart
        obtain ⟨front, item, hitem⟩ := hall.accepts_of_mem (List.mem_replicate.mpr ⟨hlength, rfl⟩)
        exact hzero part item front hitem
      have hsound : ∀ part ∈ List.replicate items.length element,
          Sound definitions policy (filterWith zero named part) part := by
        intro part hpart
        rw [(List.mem_replicate.mp hpart).2]
        exact ih
      rw [← List.zipWith_replicate' (f := fun part => (filterWith zero named part).decode)] at hall
      obtain ⟨layout, hparts, hadmits⟩ := parts_of_acceptsAll hsound hzeros hall
      exact ⟨_, .varArray hmax hparts, Layout.admits_word_append_iff.mpr ⟨rest, rfl, hadmits⟩⟩
  | optional inner ih =>
      intro _ _ _ _ h
      obtain ⟨_, new, _, rfl, hread⟩ := accepts_within_iff.mp h
      cases new with
      | none => exact ⟨_, .absent, Layout.admits_word_iff.mpr (accepts_optional_iff.mp hread)⟩
      | some content =>
          obtain ⟨rest, rfl, hinner⟩ := accepts_optional_iff.mp hread
          obtain ⟨layout, hlaid, hadmits⟩ := ih (hzero inner content rest hinner) hinner
          exact ⟨_, .present hlaid, Layout.admits_word_append_iff.mpr ⟨rest, rfl, hadmits⟩⟩
  | struct parts ih =>
      intro _ _ _ hholds h
      cases hholds with
      | @struct _ targets htargets =>
          rw [filterWith_struct] at h
          obtain ⟨_, items, hproject, rfl, hread⟩ := accepts_within_iff.mp h
          obtain rfl := Option.some.inj hproject
          obtain ⟨_, hall⟩ := accepts_struct_iff.mp hread
          rw [List.zipWith_map_left] at hall
          obtain ⟨layout, hparts, hadmits⟩ := parts_of_acceptsAll ih htargets hall
          exact ⟨layout, .struct hparts, hadmits⟩
  | union arms fallback ih =>
      intro _ _ _ _ h
      rw [filterWith_union] at h
      obtain ⟨_, ⟨discriminant, arm⟩, _, rfl, hread⟩ := accepts_within_iff.mp h
      obtain ⟨_, _, rest, harm, rfl, hselected⟩ := accepts_union_iff.mp hread
      obtain ⟨selected, hselect, hpair⟩ := Option.map_eq_some_iff.mp harm
      obtain ⟨rfl, rfl⟩ := Prod.mk.inj hpair
      obtain ⟨layout, hlaid, hadmits⟩ :=
        ih discriminant selected hselect (hzero selected arm rest hselected) hselected
      exact ⟨_, .union hselect hlaid, Layout.admits_word_append_iff.mpr ⟨rest, rfl, hadmits⟩⟩
  | ref name => exact hnamed name

/-- A target of the type is replaced by a value within its limits, and only from what the layout of
the value admits. -/
theorem laid_of_accepts {depth : Nat} {type : Ty} (hholds : Holds definitions type target)
    (h : ((type.filter definitions depth).decode target).Accepts policy consumed value) :
    ∃ layout, Laid definitions type value layout ∧ layout.Admits policy consumed := by
  suffices hsound : ∀ type, Sound definitions policy (filter definitions depth type) type from
    hsound type hholds h
  clear hholds h
  have hzero : ∀ depth type value consumed,
      ((filter definitions depth type).decode (zero definitions type)).Accepts policy consumed
        value →
      Holds definitions type (zero definitions type) :=
    fun _ _ _ _ haccepts => holds_zero_of_accepts haccepts
  induction depth with
  | zero => exact sound_filterWith (hzero 0) fun _ _ _ _ _ haccepts => False.elim haccepts
  | succ depth ih =>
      refine sound_filterWith (hzero (depth + 1)) fun name => ?_
      intro target value consumed hholds haccepts
      cases hholds with
      | ref hbody hinner =>
          rw [Definitions.meaning_succ _ _ _ _ hbody] at haccepts
          obtain ⟨layout, hlaid, hadmits⟩ := ih _ hinner haccepts
          exact ⟨layout, .ref hbody hlaid, hadmits⟩

end Xdr.Ty
