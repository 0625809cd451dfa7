import Xdr.Proofs.Refusal
import Xdr.Proofs.Stream.Filter
import Xdr.Proofs.Stream.Layout

/-!
# Typed values on poisoned contexts

Types of which nothing goes through a stream are `Vacuous`. Values of all other types are refused by
a poisoned context, which leaves their targets as they are (`Ty.encode_stalls`, `Ty.decode_stalls`).
-/

namespace Xdr

namespace Filter

variable {α β : Type}

/-- Where the filter is idle, there is nothing to do for the value in either direction. Otherwise a
poisoned context refuses it. -/
structure Stalls (idle : Prop) (filter : Filter α) (value : α) : Prop where
  encode : (filter.encode value).Stalls idle Plan.Refused
  decode : (filter.decode value).Stalls idle value

/-- A value that is refused in both directions. -/
theorem stalls_of_not {idle : Prop} {filter : Filter α} {value : α} (hidle : ¬ idle)
    (hencode : (filter.encode value).Refused) (hdecode : (filter.decode value).Refused value) :
    filter.Stalls idle value :=
  ⟨Plan.stalls_of_not hidle hencode, Reading.stalls_of_not hidle hdecode⟩

/-- A value is dealt with in a larger type as it is in its own. -/
theorem Stalls.within {idle : Prop} {filter : Filter α} {value : α} (h : filter.Stalls idle value)
    {inject : α → β} {project : β → Option α} (hproject : project (inject value) = some value) :
    (filter.within inject project).Stalls idle (inject value) := by
  refine ⟨?_, ?_⟩
  · rw [encode_within_of_some hproject]
    exact h.encode
  · rw [decode_within_of_some hproject]
    exact ⟨fun hidle => (h.decode.returns hidle).map _ _,
      fun hidle => (h.decode.refused hidle).map _ _⟩

theorem refused_enumeration (members : List Int32) (value : Int32) :
    ((enumeration members).encode value).Refused := by
  show Plan.Refused (if value ∈ members then _ else _)
  split
  · exact Plan.refused_one _
  · exact Plan.refused_refuse rfl

theorem refused_varArray (max : UInt32) (zero : Unit → α) (element : Filter α) (values : List α) :
    ((varArray max zero element).encode values).Refused := by
  show Plan.Refused (if values.length ≤ max.toNat then _ else _)
  split
  · exact (Plan.refused_one _).append _
  · exact Plan.refused_refuse rfl

end Filter

namespace Ty

open Xdr.Filter

variable {definitions : Definitions Ty} {depth : Nat}

/-- Nothing goes through a stream for values of the type. Opaque data of no length is not among
these: there is an item for it, though one without bytes. -/
inductive Vacuous (definitions : Definitions Ty) : Ty → Prop where
  | void : Vacuous definitions void
  | emptyArray (element) : Vacuous definitions (fixedArray 0 element)
  | fixedArray (length) {element} : Vacuous definitions element →
      Vacuous definitions (fixedArray length element)
  | struct {parts} : (∀ part ∈ parts, Vacuous definitions part) →
      Vacuous definitions (struct parts)
  | ref {name body} : definitions.lookup name = some body → Vacuous definitions body →
      Vacuous definitions (ref name)

theorem vacuous_fixedArray_iff {length : Nat} {element : Ty} :
    Vacuous definitions (fixedArray length element) ↔
      ∀ part ∈ List.replicate length element, Vacuous definitions part := by
  constructor
  · intro h part hpart
    obtain ⟨hlength, rfl⟩ := List.mem_replicate.mp hpart
    cases h with
    | emptyArray => exact absurd rfl hlength
    | fixedArray _ h => exact h
  · intro h
    cases length with
    | zero => exact .emptyArray element
    | succ length => exact .fixedArray _ (h element (List.mem_replicate.mpr ⟨by simp, rfl⟩))

theorem vacuous_struct_iff {parts : List Ty} :
    Vacuous definitions (struct parts) ↔ ∀ part ∈ parts, Vacuous definitions part := by
  refine ⟨fun h => ?_, .struct⟩
  cases h with
  | struct h => exact h

theorem vacuous_ref_iff {name : String} {body : Ty} (hbody : definitions.lookup name = some body) :
    Vacuous definitions (ref name) ↔ Vacuous definitions body := by
  refine ⟨fun h => ?_, .ref hbody⟩
  cases h with
  | ref hfound h =>
      obtain rfl := Option.some.inj (hfound.symm.trans hbody)
      exact h

/-- Where as many references are followed as there are in front of the first word, there is nothing
to do for the value if its type is vacuous, and a poisoned context refuses it otherwise. -/
def Stalled (definitions : Definitions Ty) (type : Ty) (value : Value) : Prop :=
  ∀ chain depth : Nat, Grounded definitions chain type → chain ≤ depth →
    (filter definitions depth type).Stalls (Vacuous definitions type) value

/-- The first part of a row that is not vacuous decides on the row, in both directions. -/
theorem stalls_row {parts : List Ty} {items : List Value} {chain : Nat}
    (h : List.Forall₂ (fun part item => ∃ _ : Holds definitions part item,
      Stalled definitions part item) parts items)
    (hgrounded : ∀ part ∈ parts, Grounded definitions chain part) (hdepth : chain ≤ depth) :
    (Plan.concat (List.zipWith (fun part => (filter definitions depth part).encode) parts
        items)).Stalls (∀ part ∈ parts, Vacuous definitions part) Plan.Refused ∧
      (Reading.inOrder (List.zipWith (fun part target =>
        (target, (filter definitions depth part).decode target)) parts items) []).Stalls
          (∀ part ∈ parts, Vacuous definitions part) items := by
  have hstalls := ((List.forall₂_and_left parts items).mpr ⟨hgrounded, h⟩).imp
    fun _ _ ⟨hpart, _, hstalled⟩ => hstalled _ _ hpart hdepth
  exact ⟨Plan.concat_stalls (fun hfirst => hfirst.append) (hstalls.imp fun _ _ h => h.encode),
    Reading.inOrder_stalls [] (hstalls.imp fun _ _ h => h.decode)⟩

/-- A value for which there is an item of its own in front of everything else. -/
theorem stalled_within {ι : Type} {inner : Nat → Filter ι} {type : Ty} (make : ι → Value)
    (project : Value → Option ι) (value : ι) (hbusy : ¬ Vacuous definitions type)
    (hfilter : ∀ depth, type.filter definitions depth = (inner depth).within make project)
    (hproject : project (make value) = some value)
    (hencode : ∀ depth, ((inner depth).encode value).Refused)
    (hdecode : ∀ depth, ((inner depth).decode value).Refused value) :
    Stalled definitions type (make value) := by
  intro _ depth _ _
  rw [hfilter]
  exact (Filter.stalls_of_not hbusy (hencode depth) (hdecode depth)).within hproject

/-- Values of a type are dealt with by a poisoned context as the type says, whatever is in them. -/
theorem Holds.stalled {type : Ty} {value : Value} (h : Holds definitions type value) :
    Stalled definitions type value := by
  -- all types but these start with an item: those of nothing, and rows, which follow their parts
  induction h with
  | int32 value =>
      exact stalled_within .int32 Value.int32? value (fun hidle => by cases hidle)
        (fun _ => rfl) rfl (fun _ => Plan.refused_one _) (fun _ => Reading.refused_request)
  | uint32 value =>
      exact stalled_within .uint32 Value.uint32? value (fun hidle => by cases hidle)
        (fun _ => rfl) rfl (fun _ => Plan.refused_one _) (fun _ => Reading.refused_request)
  | int64 value =>
      exact stalled_within .int64 Value.int64? value (fun hidle => by cases hidle)
        (fun _ => rfl) rfl (fun _ => Plan.refused_one _) (fun _ => Reading.refused_request)
  | uint64 value =>
      exact stalled_within .uint64 Value.uint64? value (fun hidle => by cases hidle)
        (fun _ => rfl) rfl (fun _ => Plan.refused_one _) (fun _ => Reading.refused_request)
  | float bits =>
      exact stalled_within .float Value.float? bits (fun hidle => by cases hidle)
        (fun _ => rfl) rfl (fun _ => Plan.refused_one _) (fun _ => Reading.refused_request)
  | double bits =>
      exact stalled_within .double Value.double? bits (fun hidle => by cases hidle)
        (fun _ => rfl) rfl (fun _ => Plan.refused_one _) (fun _ => Reading.refused_request)
  | bool value =>
      exact stalled_within .bool Value.bool? value (fun hidle => by cases hidle)
        (fun _ => rfl) rfl (fun _ => Plan.refused_one _) (fun _ => Reading.refused_request)
  | void =>
      intro _ depth _ _
      have hidle : Filter.void.Stalls (Vacuous definitions .void) () :=
        ⟨⟨fun _ => rfl, fun hbusy => absurd .void hbusy⟩,
          ⟨fun _ _ => rfl, fun hbusy => absurd .void hbusy⟩⟩
      exact hidle.within rfl
  | quadruple =>
      exact stalled_within .ofVoid Value.void? () (fun hidle => by cases hidle)
        (fun _ => rfl) rfl (fun _ => Plan.refused_refuse rfl)
        (fun _ => Reading.refused_refuse rfl ())
  | openEnum value =>
      exact stalled_within .int32 Value.int32? value (fun hidle => by cases hidle)
        (fun _ => rfl) rfl (fun _ => Plan.refused_one _) (fun _ => Reading.refused_request)
  | enumeration members value =>
      exact stalled_within .int32 Value.int32? value (fun hidle => by cases hidle)
        (fun _ => rfl) rfl (fun _ => refused_enumeration members value)
        (fun _ => Reading.refused_request)
  | fixedOpaque =>
      exact stalled_within .bytes Value.bytes? _ (fun hidle => by cases hidle)
        (fun _ => rfl) rfl (fun _ => Plan.refused_one _) (fun _ => Reading.refused_request)
  | bytes max data =>
      exact stalled_within .bytes Value.bytes? data (fun hidle => by cases hidle)
        (fun _ => rfl) rfl (fun _ => refused_encodeSized _ _ _ _)
        (fun _ => Reading.refused_request)
  | string max text =>
      exact stalled_within .string Value.string? text (fun hidle => by cases hidle)
        (fun _ => rfl) rfl (fun _ => refused_encodeSized _ _ _ _)
        (fun _ => Reading.refused_request.andThen (fun _ => text) _)
  | @fixedArray length element items hitems ih =>
      intro _ depth hgrounded hdepth
      have hlength : length = items.length := by simpa using hitems.length_eq
      obtain ⟨hencode, hdecode⟩ := stalls_row ih
        (fun part hpart => hgrounded.of_subset (direct_subset_fixedArray hpart)) hdepth
      rw [← vacuous_fixedArray_iff, zipWith_replicate_left _ hlength] at hencode hdecode
      have hrow : (Filter.fixedArray (filter definitions depth element)).Stalls
        (Vacuous definitions (.fixedArray length element)) items := ⟨hencode, hdecode⟩
      exact hrow.within rfl
  | varArray max element items =>
      exact stalled_within .list Value.list? items (fun hidle => by cases hidle)
        (fun _ => rfl) rfl (fun _ => refused_varArray _ _ _ _)
        (fun _ => Reading.refused_request)
  | absent inner =>
      exact stalled_within .ofOption Value.option? none (fun hidle => by cases hidle)
        (fun _ => rfl) rfl (fun _ => Plan.refused_one _) (fun _ => Reading.refused_request)
  | present inner value =>
      exact stalled_within .ofOption Value.option? (some value) (fun hidle => by cases hidle)
        (fun _ => rfl) rfl (fun _ => (Plan.refused_one _).append _)
        (fun _ => Reading.refused_request)
  | @struct parts items hitems ih =>
      intro _ depth hgrounded hdepth
      have hlength : (parts.map (filter definitions depth)).length = items.length := by
        rw [List.length_map, hitems.length_eq]
      obtain ⟨hencode, hdecode⟩ := stalls_row ih
        (fun part hpart => hgrounded.of_subset (direct_subset_struct hpart)) hdepth
      rw [← vacuous_struct_iff] at hencode hdecode
      have hrow : (Filter.struct (parts.map (filter definitions depth))).Stalls
          (Vacuous definitions (.struct parts)) items := by
        refine ⟨?_, ?_⟩
        · show Plan.Stalls _ _ (if _ then _ else _)
          rwa [if_pos hlength, List.zipWith_map_left]
        · show Reading.Stalls _ (if _ then _ else _) _
          rwa [if_pos hlength, List.zipWith_map_left]
      rw [filter, filterWith_struct]
      exact hrow.within rfl
  | union arms fallback discriminant arm =>
      exact stalled_within .ofUnion Value.union? (discriminant, arm) (fun hidle => by cases hidle)
        (fun _ => rfl) rfl (fun _ => (Plan.refused_one _).append _)
        (fun _ => Reading.refused_request)
  | ref hbody h ih =>
      intro chain depth hgrounded hdepth
      obtain ⟨chain, rfl, hbodyGrounded⟩ := hgrounded.body List.mem_cons_self hbody
      obtain ⟨depth, rfl⟩ := Nat.exists_eq_add_of_le' (show 1 ≤ depth by omega)
      have hinner := ih chain depth hbodyGrounded (by omega)
      rw [vacuous_ref_iff hbody]
      refine ⟨?_, ?_⟩
      · rw [encode_ref hbody]
        exact hinner.encode
      · rw [decode_ref hbody]
        exact ⟨hinner.decode.returns, hinner.decode.refused⟩

/-- What a poisoned encoder makes of a value of a type. -/
theorem encode_stalls {type : Ty} {value : Value} (h : Holds definitions type value) :
    (type.encode definitions value).Stalls (Vacuous definitions type) Plan.Refused := by
  have hbudget := definitions.budget_le (Nat.le_refl (value.depth + 1))
  exact (h.stalled _ _ h.grounded (by omega)).encode

/-- What a poisoned decoder makes of a target of a type. -/
theorem decode_stalls {type : Ty} {target : Value} (h : Holds definitions type target)
    (left : Nat) :
    (type.decode definitions left target).Stalls (Vacuous definitions type) target := by
  have hbudget := definitions.budget_le (show left / 4 + 1 + 1 ≤ left / 4 + 2 by omega)
  exact (h.stalled _ _ h.grounded (by omega)).decode

end Ty

end Xdr
