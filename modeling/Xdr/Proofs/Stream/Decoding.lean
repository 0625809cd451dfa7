import Xdr.Proofs.Acceptance.Filters
import Xdr.Proofs.Stream.Filter
import Xdr.Proofs.Stream.Layout

/-!
# Decoding typed values

Bytes that the layout of a value admits are read as that value, into any target of the type
(`decode_of_laid`). The budget for references is never short: between two references to the same
name lies a word of its own.
-/

namespace Xdr.Ty

open Xdr.Filter

variable {definitions : Definitions Ty}

/-! ### Zero values -/

theorem zerosWith_eq_map (named : String → Value) (parts : List Ty) :
    zerosWith named parts = parts.map (zeroWith named) := by
  induction parts with
  | nil => rfl
  | cons part parts ih => rw [zerosWith, ih, List.map_cons]

/-- The zero values of parts are targets of the parts. -/
theorem forall₂_map_zero {zero : Ty → Value} {parts : List Ty}
    (h : ∀ part ∈ parts, Holds definitions part (zero part)) :
    List.Forall₂ (Holds definitions) parts (parts.map zero) :=
  List.forall₂_map_right_iff.mpr (List.forall₂_same.mpr h)

/-- A zero value is a target of its type, if the zero values of the names it mentions directly
are. -/
theorem holds_zeroWith {named : String → Value} {type : Ty}
    (hnamed : ∀ name ∈ type.direct, Holds definitions (ref name) (named name)) :
    Holds definitions type (zeroWith named type) := by
  induction type with
  | int32 => exact .int32 0
  | uint32 => exact .uint32 0
  | int64 => exact .int64 0
  | uint64 => exact .uint64 0
  | float => exact .float 0
  | double => exact .double 0
  | bool => exact .bool false
  | void => exact .void
  | quadruple => exact .quadruple
  | openEnum => exact .openEnum 0
  | enumeration members => exact .enumeration members 0
  | fixedOpaque length => exact .fixedOpaque List.length_replicate
  | bytes max => exact .bytes max []
  | string max => exact .string max ""
  | fixedArray length element ih =>
      rw [zeroWith, ← List.map_replicate]
      refine .fixedArray (forall₂_map_zero fun part hpart => ?_)
      obtain ⟨hlength, rfl⟩ := List.mem_replicate.mp hpart
      exact ih fun name hmem => hnamed name (by rwa [direct, if_neg hlength])
  | varArray max element _ => exact .varArray max element []
  | optional inner _ => exact .absent inner
  | struct parts ih =>
      rw [zeroWith, zerosWith_eq_map]
      refine .struct (forall₂_map_zero fun part hpart => ih part hpart fun name hmem => ?_)
      exact hnamed name (mem_directs.mpr ⟨part, hpart, hmem⟩)
  | union arms fallback _ => exact .union arms fallback 0 .void
  | ref name => exact hnamed name (List.mem_singleton_self name)

/-- The zero value of a grounded type is a target of the type. -/
theorem holds_zero {type : Ty} (h : Grounded definitions definitions.length type) :
    Holds definitions type (zero definitions type) := by
  unfold zero
  generalize definitions.length = depth at h
  induction depth generalizing type with
  | zero => exact holds_zeroWith fun name hmem => False.elim (h name hmem)
  | succ depth ih =>
      refine holds_zeroWith fun name hmem => ?_
      obtain ⟨body, hbody, hinner⟩ := h name hmem
      rw [Definitions.meaning_succ _ _ _ _ hbody]
      exact .ref hbody (ih hinner)

/-! ### What is read is the layout -/

/-- Where enough references are followed, a target of the type takes what the layout admits for the
value: as many as there are in front of the first word, and for each word as many as there are
definitions. -/
def Read (definitions : Definitions Ty) (type : Ty) (value : Value) (layout : Layout) : Prop :=
  ∀ {chain depth : Nat} {target : Value} {policy : PaddingPolicy} {bytes : List UInt8},
    Holds definitions type target → Grounded definitions chain type →
    chain + definitions.length * (layout.length / 4) ≤ depth → layout.Admits policy bytes →
    ((type.filter definitions depth).decode target).Accepts policy bytes value

/-- Parts that are each read are so one after the other. -/
theorem acceptsAll_of_parts {decode : Ty → Value → Reading Value Value} {policy : PaddingPolicy}
    {parts : List Ty} {items targets : List Value} {layout : Layout} {bytes : List UInt8}
    (h : Parts (fun part item front => ∀ target bytes, Holds definitions part target →
      front.Admits policy bytes → (decode part target).Accepts policy bytes item)
      parts items layout)
    (htargets : List.Forall₂ (Holds definitions) parts targets)
    (hadmits : layout.Admits policy bytes) :
    Reading.AcceptsAll policy (List.zipWith decode parts targets) bytes items := by
  induction h generalizing targets bytes with
  | nil => exact ⟨Layout.admits_nil_iff.mp hadmits, rfl⟩
  | cons hhead _ ih =>
      obtain ⟨front, back, rfl, hfront, hback⟩ := Layout.admits_append_iff.mp hadmits
      cases htargets with
      | cons htarget htargets =>
          exact ⟨front, back, _, _, rfl, rfl, hhead _ _ htarget hfront, ih htargets hback⟩

/-- The parts of a value are read where there are enough references for all their words. -/
theorem acceptsAll_read {policy : PaddingPolicy} {parts : List Ty}
    {items targets : List Value} {layout : Layout} {bytes : List UInt8} {chain depth : Nat}
    (h : Parts (Read definitions) parts items layout)
    (htargets : List.Forall₂ (Holds definitions) parts targets)
    (hgrounded : ∀ part ∈ parts, Grounded definitions chain part)
    (hdepth : chain + definitions.length * (layout.length / 4) ≤ depth)
    (hadmits : layout.Admits policy bytes) :
    Reading.AcceptsAll policy
      (List.zipWith (fun part => (part.filter definitions depth).decode) parts targets)
      bytes items := by
  refine acceptsAll_of_parts (h.imp_of_mem List.length (fun _ _ => List.length_append) ?_) htargets
    hadmits
  intro part hpart item _ front hle hread target bytes htarget hfront
  refine hread htarget (hgrounded part hpart) ?_ hfront
  have := Nat.mul_le_mul_left definitions.length (Nat.div_le_div_right (c := 4) hle)
  omega

/-- Where a filter on another kind of value reads from a layout, whatever it reads into, the type
whose filter it is does so for all its targets. -/
theorem read_within {ι : Type} {inner : Filter ι} {type : Ty} {make : ι → Value}
    {project : Value → Option ι} {new : ι} {layout : Layout}
    (hfilter : ∀ depth, type.filter definitions depth = inner.within make project)
    (hproject : ∀ {target}, Holds definitions type target → ∃ old, project target = some old)
    (haccepts : ∀ {old policy bytes}, layout.Admits policy bytes →
      (inner.decode old).Accepts policy bytes new) : Read definitions type (make new) layout := by
  intro _ depth _ _ _ hholds _ _ hadmits
  obtain ⟨old, hold⟩ := hproject hholds
  rw [hfilter]
  exact accepts_within_iff.mpr ⟨old, new, hold, rfl, haccepts hadmits⟩

/-- A target of an optional is one, whether or not there is anything in it. -/
theorem Holds.exists_option {inner : Ty} {target : Value}
    (h : Holds definitions (.optional inner) target) : ∃ old, target.option? = some old := by
  cases h with
  | absent => exact ⟨none, rfl⟩
  | present _ old => exact ⟨some old, rfl⟩

/-- A value within the limits of its type is read from what its layout admits. -/
theorem Laid.read {type : Ty} {value : Value} {layout : Layout}
    (h : Laid definitions type value layout) : Read definitions type value layout := by
  induction h with
  | int32 value =>
      refine read_within (fun _ => rfl) (fun hholds => ?_) accepts_int32_iff.mpr
      cases hholds with
      | int32 old => exact ⟨old, rfl⟩
  | uint32 value =>
      refine read_within (fun _ => rfl) (fun hholds => ?_) accepts_uint32_iff.mpr
      cases hholds with
      | uint32 old => exact ⟨old, rfl⟩
  | int64 value =>
      refine read_within (fun _ => rfl) (fun hholds => ?_) accepts_int64_iff.mpr
      cases hholds with
      | int64 old => exact ⟨old, rfl⟩
  | uint64 value =>
      refine read_within (fun _ => rfl) (fun hholds => ?_) accepts_uint64_iff.mpr
      cases hholds with
      | uint64 old => exact ⟨old, rfl⟩
  | float bits =>
      refine read_within (fun _ => rfl) (fun hholds => ?_) accepts_float_iff.mpr
      cases hholds with
      | float old => exact ⟨old, rfl⟩
  | double bits =>
      refine read_within (fun _ => rfl) (fun hholds => ?_) accepts_double_iff.mpr
      cases hholds with
      | double old => exact ⟨old, rfl⟩
  | bool value =>
      refine read_within (fun _ => rfl) (fun hholds => ?_) accepts_bool_iff.mpr
      cases hholds with
      | bool old => exact ⟨old, rfl⟩
  | void =>
      intro _ _ _ _ _ hholds _ _ hadmits
      cases hholds with
      | void =>
          exact accepts_within_iff.mpr ⟨(), (), rfl, rfl, Layout.admits_nil_iff.mp hadmits, rfl⟩
  | openEnum value =>
      refine read_within (fun _ => rfl) (fun hholds => ?_) accepts_int32_iff.mpr
      cases hholds with
      | openEnum old => exact ⟨old, rfl⟩
  | @enumeration members value hmem =>
      refine read_within (fun _ => rfl) (fun hholds => ?_) fun hadmits =>
        accepts_enumeration_iff.mpr ⟨hmem, hadmits⟩
      cases hholds with
      | enumeration members old => exact ⟨old, rfl⟩
  | @fixedOpaque length data hlength =>
      intro _ _ _ _ _ hholds _ _ hadmits
      cases hholds with
      | @fixedOpaque _ buffer hbuffer =>
          exact accepts_within_iff.mpr ⟨buffer, data, rfl, rfl,
            accepts_fixedOpaque_iff.mpr ⟨hlength.trans hbuffer.symm, hadmits⟩⟩
  | @bytes max data hmax =>
      refine read_within (fun _ => rfl) (fun hholds => ?_) fun hadmits =>
        accepts_bytes_iff.mpr ⟨hmax, hadmits⟩
      cases hholds with
      | bytes max buffer => exact ⟨buffer, rfl⟩
  | @string max text hmax =>
      refine read_within (fun _ => rfl) (fun hholds => ?_) fun hadmits =>
        accepts_string_iff.mpr ⟨hmax, hadmits⟩
      cases hholds with
      | string max old => exact ⟨old, rfl⟩
  | @fixedArray length element items layout hparts ih =>
      intro _ depth _ _ _ hholds hgrounded hdepth hadmits
      cases hholds with
      | @fixedArray _ _ targets htargets =>
          have hread : Parts (Read definitions) (List.replicate length element) items layout :=
            ih.imp fun hpart => hpart.2
          have hlength : length = targets.length := by simpa using htargets.length_eq
          refine accepts_within_iff.mpr ⟨targets, items, rfl, rfl, accepts_fixedArray_iff.mpr ?_⟩
          show Reading.AcceptsAll _ (targets.map (filter definitions depth element).decode) _ _
          rw [← zipWith_replicate_left (fun part => (filter definitions depth part).decode) hlength]
          refine acceptsAll_read hread htargets (fun part hpart => ?_) hdepth hadmits
          exact hgrounded.of_subset (direct_subset_fixedArray hpart)
  | @varArray max element items layout hmax hparts ih =>
      intro _ depth _ _ _ hholds _ hdepth hadmits
      cases hholds with
      | varArray _ _ targets =>
          have hread : Parts (Read definitions) (List.replicate items.length element) items
            layout := ih.imp fun hpart => hpart.2
          have hgrounded := hparts.forall_kind Laid.grounded
          have hzeros : List.Forall₂ (Holds definitions) (List.replicate items.length element)
              (List.replicate items.length (zero definitions element)) := by
            rw [← List.map_replicate]
            exact forall₂_map_zero fun part hpart => holds_zero (hgrounded part hpart)
          obtain ⟨rest, rfl, hrest⟩ := Layout.admits_word_append_iff.mp hadmits
          have hall := acceptsAll_read hread hzeros hgrounded (Layout.behind_word hdepth) hrest
          rw [List.zipWith_replicate'] at hall
          exact accepts_within_iff.mpr
            ⟨targets, items, rfl, rfl, accepts_varArray_iff.mpr ⟨hmax, rest, rfl, hall⟩⟩
  | @absent inner =>
      intro _ _ _ _ _ hholds _ _ hadmits
      obtain ⟨old, hold⟩ := hholds.exists_option
      exact accepts_within_iff.mpr
        ⟨old, none, hold, rfl, accepts_optional_iff.mpr (Layout.admits_word_iff.mp hadmits)⟩
  | @present inner value layout h ih =>
      intro _ _ target _ _ hholds _ hdepth hadmits
      obtain ⟨old, hold⟩ := hholds.exists_option
      obtain ⟨rest, rfl, hrest⟩ := Layout.admits_word_append_iff.mp hadmits
      have hinner := ih (holds_zero h.grounded) h.grounded (Layout.behind_word hdepth) hrest
      exact accepts_within_iff.mpr
        ⟨old, some value, hold, rfl, accepts_optional_iff.mpr ⟨rest, rfl, hinner⟩⟩
  | @struct parts items layout hparts ih =>
      intro _ depth _ _ _ hholds hgrounded hdepth hadmits
      cases hholds with
      | @struct _ targets htargets =>
          have hread : Parts (Read definitions) parts items layout := ih.imp fun hpart => hpart.2
          rw [filter, filterWith_struct]
          refine accepts_within_iff.mpr ⟨targets, items, rfl, rfl, accepts_struct_iff.mpr ⟨?_, ?_⟩⟩
          · rw [List.length_map, htargets.length_eq]
          · rw [List.zipWith_map_left]
            refine acceptsAll_read hread htargets (fun part hpart => ?_) hdepth hadmits
            exact hgrounded.of_subset (direct_subset_struct hpart)
  | @union arms fallback discriminant selected arm layout hselect h ih =>
      intro _ depth _ _ _ hholds _ hdepth hadmits
      cases hholds with
      | union _ _ oldDiscriminant oldArm =>
          obtain ⟨rest, rfl, hrest⟩ := Layout.admits_word_append_iff.mp hadmits
          have hinner := ih (holds_zero h.grounded) h.grounded (Layout.behind_word hdepth) hrest
          rw [filter, filterWith_union]
          refine accepts_within_iff.mpr ⟨(oldDiscriminant, oldArm), (discriminant, arm), rfl, rfl,
            accepts_union_iff.mpr ⟨fun _ => zero definitions selected,
              filter definitions depth selected, rest, ?_, rfl, hinner⟩⟩
          rw [hselect]
          rfl
  | ref hbody h ih =>
      intro chain depth _ _ _ hholds hgrounded hdepth hadmits
      obtain ⟨chain, rfl, hbodyGrounded⟩ := hgrounded.body List.mem_cons_self hbody
      obtain ⟨depth, rfl⟩ := Nat.exists_eq_add_of_le' (show 1 ≤ depth by omega)
      cases hholds with
      | ref hfound hholds =>
          obtain rfl := Option.some.inj (hfound.symm.trans hbody)
          rw [decode_ref hbody]
          exact ih hholds hbodyGrounded (by omega) hadmits

/-- Bytes that the layout of a value admits are read as that value, into any target of the type and
whatever is left behind them. -/
theorem decode_of_laid {type : Ty} {value target : Value} {layout : Layout} {policy : PaddingPolicy}
    {bytes : List UInt8} (h : Laid definitions type value layout)
    (htarget : Holds definitions type target) (hadmits : layout.Admits policy bytes) {left : Nat}
    (hleft : bytes.length ≤ left) :
    (type.decode definitions left target).Accepts policy bytes value := by
  rw [hadmits.length_eq] at hleft
  exact h.read htarget h.grounded (definitions.budget_le (by omega)) hadmits

end Xdr.Ty
