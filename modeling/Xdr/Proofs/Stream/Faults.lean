import Xdr.Proofs.Faults
import Xdr.Proofs.References
import Xdr.Proofs.Stream.Filter
import Xdr.Proofs.Stream.Layout

/-!
# Faults of typed values

The filters of all types are regular in both directions (`Ty.regular_filter`).
-/

namespace Xdr

namespace Filter

variable {α β : Type}

/-- The filter is regular in both directions. -/
structure Regular (filter : Filter α) : Prop where
  encode : ∀ value, (filter.encode value).Regular
  decode : ∀ target, (filter.decode target).Regular

theorem regular_int32 : int32.Regular :=
  ⟨fun _ => Plan.regular_one (.int32 _), fun _ => ⟨rfl, fun _ => trivial⟩⟩

theorem regular_uint32 : uint32.Regular :=
  ⟨fun _ => Plan.regular_one (.uint32 _), fun _ => ⟨rfl, fun _ => trivial⟩⟩

theorem regular_int64 : int64.Regular :=
  ⟨fun _ => Plan.regular_one (.int64 _), fun _ => ⟨rfl, fun _ => trivial⟩⟩

theorem regular_uint64 : uint64.Regular :=
  ⟨fun _ => Plan.regular_one (.uint64 _), fun _ => ⟨rfl, fun _ => trivial⟩⟩

theorem regular_float : float.Regular :=
  ⟨fun _ => Plan.regular_one (.float _), fun _ => ⟨rfl, fun _ => trivial⟩⟩

theorem regular_double : double.Regular :=
  ⟨fun _ => Plan.regular_one (.double _), fun _ => ⟨rfl, fun _ => trivial⟩⟩

theorem regular_bool : bool.Regular :=
  ⟨fun _ => Plan.regular_one (.uint32 _), fun _ => Reading.regular_bool fun _ => trivial⟩

theorem regular_void : void.Regular :=
  ⟨fun _ => Plan.regular_empty, fun _ => trivial⟩

theorem regular_quadruple : quadruple.Regular :=
  ⟨fun _ => Plan.regular_refuse rfl, fun _ => rfl⟩

theorem regular_enumeration (members : List Int32) : (enumeration members).Regular := by
  refine ⟨fun value => ?_, fun target => ⟨rfl, fun bytes => ?_⟩⟩
  · show Plan.Regular (if value ∈ members then _ else _)
    split
    · exact Plan.regular_one (.int32 value)
    · exact Plan.regular_refuse rfl
  · show Reading.Regular (if (wordOfImage bytes).toInt32 ∈ members then _ else _)
    split
    · trivial
    · exact Reading.regular_fault rfl

theorem regular_fixedOpaque : fixedOpaque.Regular :=
  ⟨fun _ => Plan.regular_one (.fixedOpaque _),
    fun _ => Reading.regular_fixedOpaque fun _ => trivial⟩

theorem regular_bytes (max : UInt32) : (bytes max).Regular :=
  ⟨fun _ => regular_encodeSized _ _ _ _, fun buffer => Reading.regular_sized .bytes max buffer⟩

theorem regular_string (max : UInt32) : (string max).Regular :=
  ⟨fun _ => regular_encodeSized _ _ _ _, fun target => Reading.regular_string max target⟩

/-- The values of a row are each written as regular plans. -/
theorem Regular.concat {element : Filter α} (h : element.Regular) (values : List α) :
    (Plan.concat (values.map element.encode)).Regular := by
  refine Plan.regular_concat fun plan hmem => ?_
  obtain ⟨value, _, rfl⟩ := List.mem_map.mp hmem
  exact h.encode value

theorem regular_fixedArray {element : Filter α} (h : element.Regular) :
    (fixedArray element).Regular := by
  refine ⟨h.concat, fun targets => Reading.regular_inOrder fun pair hmem => ?_⟩
  obtain ⟨target, _, rfl⟩ := List.mem_map.mp hmem
  exact h.decode target

theorem regular_varArray {element : Filter α} (max : UInt32) (zero : Unit → α)
    (h : element.Regular) : (varArray max zero element).Regular := by
  refine ⟨fun values => ?_, fun targets => ⟨rfl, fun bytes => ?_⟩⟩
  · show Plan.Regular (if values.length ≤ max.toNat then _ else _)
    split
    · exact (Plan.regular_one (.uint32 _)).append (h.concat values)
    · exact Plan.regular_refuse rfl
  · show Reading.Regular (if wordOfImage bytes ≤ max then _ else _)
    split
    · have helement : (Reading.later fun _ => element.decode (zero ())).Regular :=
        h.decode (zero ())
      exact Reading.regular_replicate helement _ _
    · exact Reading.regular_fault rfl

theorem regular_optional {inner : Filter α} (zero : Unit → α) (h : inner.Regular) :
    (optional zero inner).Regular := by
  refine ⟨fun value => ?_, fun target => ⟨rfl, fun bytes => ?_⟩⟩
  · cases value with
    | none => exact Plan.regular_one (.uint32 0)
    | some content => exact (Plan.regular_one (.uint32 1)).append (h.encode content)
  · show Reading.Regular (if wordOfImage bytes = 0 then _
      else if wordOfImage bytes = 1 then _
      else _)
    split
    · trivial
    · split
      · exact ⟨h.decode (zero ()), fun _ => trivial⟩
      · exact Reading.regular_fault rfl

theorem regular_struct {parts : List (Filter α)} (h : ∀ part ∈ parts, part.Regular) :
    (struct parts).Regular := by
  refine ⟨fun values => ?_, fun targets => ?_⟩
  · show Plan.Regular (if parts.length = values.length then _ else _)
    split
    · refine Plan.regular_concat fun plan hmem => ?_
      rw [← List.map_uncurry_zip_eq_zipWith] at hmem
      obtain ⟨⟨part, value⟩, hpair, rfl⟩ := List.mem_map.mp hmem
      exact (h part (List.of_mem_zip hpair).1).encode value
    · exact Plan.regular_refuse rfl
  · show Reading.Regular (if parts.length = targets.length then _ else _)
    split
    · refine Reading.regular_inOrder fun pair hmem => ?_
      rw [← List.map_uncurry_zip_eq_zipWith] at hmem
      obtain ⟨⟨part, target⟩, hpair, rfl⟩ := List.mem_map.mp hmem
      exact (h part (List.of_mem_zip hpair).1).decode target
    · exact rfl

theorem regular_union {arm : Int32 → Option ((Unit → α) × Filter α)}
    (h : ∀ discriminant entry, arm discriminant = some entry → entry.2.Regular) :
    (union arm).Regular := by
  refine ⟨fun ⟨discriminant, value⟩ => ?_, fun target => ⟨rfl, fun bytes => ?_⟩⟩
  · refine (Plan.regular_one (.int32 discriminant)).append ?_
    split
    · next harm => exact (h _ _ harm).encode value
    · exact Plan.regular_refuse rfl
  · dsimp only
    split
    · next harm => exact ((h _ _ harm).decode _).map
    · exact Reading.regular_fault rfl

theorem Regular.within {filter : Filter α} (h : filter.Regular) (inject : α → β)
    (project : β → Option α) : (filter.within inject project).Regular := by
  refine ⟨fun value => ?_, fun target => ?_⟩
  · cases hvalue : project value with
    | none =>
        rw [encode_within_of_none hvalue]
        exact Plan.regular_refuse rfl
    | some part =>
        rw [encode_within_of_some hvalue]
        exact h.encode part
  · cases htarget : project target with
    | none =>
        rw [decode_within_of_none htarget]
        exact rfl
    | some part =>
        rw [decode_within_of_some htarget]
        exact (h.decode part).map

end Filter

namespace Ty

open Xdr.Filter

/-- A filter is regular if those of the named types are. -/
theorem regular_filterWith {zero : Ty → Value} {named : String → Filter Value}
    (hnamed : ∀ name, (named name).Regular) (type : Ty) : (filterWith zero named type).Regular := by
  induction type with
  | int32 => exact regular_int32.within _ _
  | uint32 => exact regular_uint32.within _ _
  | int64 => exact regular_int64.within _ _
  | uint64 => exact regular_uint64.within _ _
  | float => exact regular_float.within _ _
  | double => exact regular_double.within _ _
  | bool => exact regular_bool.within _ _
  | void => exact regular_void.within _ _
  | quadruple => exact regular_quadruple.within _ _
  | openEnum => exact regular_int32.within _ _
  | enumeration members => exact (regular_enumeration members).within _ _
  | fixedOpaque length => exact regular_fixedOpaque.within _ _
  | bytes max => exact (regular_bytes max).within _ _
  | string max => exact (regular_string max).within _ _
  | fixedArray length element ih => exact (regular_fixedArray ih).within _ _
  | varArray max element ih => exact (regular_varArray max _ ih).within _ _
  | optional inner ih => exact (regular_optional _ ih).within _ _
  | struct parts ih =>
      rw [filterWith_struct]
      refine (regular_struct fun part hmem => ?_).within _ _
      obtain ⟨type, htype, rfl⟩ := List.mem_map.mp hmem
      exact ih type htype
  | union arms fallback ih =>
      rw [filterWith_union]
      refine (regular_union fun discriminant entry harm => ?_).within _ _
      obtain ⟨selected, hselect, rfl⟩ := Option.map_eq_some_iff.mp harm
      exact ih discriminant selected hselect
  | ref name => exact ⟨(hnamed name).encode, (hnamed name).decode⟩

/-- The filter of every type is regular, however deep references are followed. -/
theorem regular_filter (definitions : Definitions Ty) (depth : Nat) (type : Ty) :
    (filter definitions depth type).Regular := by
  refine regular_filterWith (fun name => ?_) type
  refine Definitions.meaning_induction (motive := fun _ named => Filter.Regular named) (fun _ => ?_)
    (fun named hnamed _ body _ => regular_filterWith hnamed body) depth name
  exact ⟨fun _ => Plan.regular_refuse rfl, fun _ => rfl⟩

end Ty

end Xdr
