import Xdr.Proofs.Lengths
import Xdr.Proofs.Stream.Filter
import Xdr.Proofs.Stream.Layout

/-!
# Accepted lengths of typed values

A `Meter` says which lengths are accepted when values of one type are written and when targets are
replaced, as a filter says what is written and read. `Ty.meter` puts the meter of a type together
from those of its parts: byte strings and strings have a length of their own, counts and words in
front of other values are none. The statement to read first is `Ty.logs_filter`: the filter of a
type logs just the lengths of its meter.
-/

namespace Xdr

/-- The lengths that are accepted in the two directions of one type. -/
structure Meter (α : Type) where
  /-- Those accepted when this value is written. -/
  written : α → Lengths Transport.Sink
  /-- Those accepted when this target is replaced. -/
  read : α → Lengths Transport.Source

namespace Meter

variable {α β : Type}

/-- No value of the type has a length of its own. -/
def nothing : Meter α where
  written _ := .nothing
  read _ := .nothing

/-- Opaque data of at most `max` bytes. -/
def bytes (max : UInt32) : Meter (List UInt8) where
  written data := .within .bytes max data
  read _ := .announced .bytes max

/-- A string of at most `max` bytes in front of its first NUL. -/
def string (max : UInt32) : Meter String where
  written text := .within .string max (Text.untilNul (Text.bytes text))
  read _ := .announced .string max

/-- The lengths of values that are written one after the other. -/
def writtenRow (element : Filter α) (meter : Meter α) (values : List α) : Lengths Transport.Sink :=
  .row (values.map fun value => ((element.encode value).run, meter.written value))

/-- The lengths of values back to back. -/
def fixedArray (element : Filter α) (meter : Meter α) : Meter (List α) where
  written values := meter.writtenRow element values
  read targets := .row (targets.map fun target => ((element.decode target).run, meter.read target))

/-- The lengths of values behind their count. -/
def varArray (max : UInt32) (zero : Unit → α) (element : Filter α) (meter : Meter α) :
    Meter (List α) where
  written values :=
    if values.length ≤ max.toNat then
      .behind (.uint32 (UInt32.ofNat values.length)) (meter.writtenRow element values)
    else .nothing
  read _ := .behindWord fun count =>
    if count ≤ max then
      .row (List.replicate count.toNat ((element.decode (zero ())).run, meter.read (zero ())))
    else .nothing

/-- The lengths of a value that may be absent. -/
def optional (zero : Unit → α) (meter : Meter α) : Meter (Option α) where
  written
    | none => .nothing
    | some value => .behind (.uint32 1) (meter.written value)
  read _ := .behindWord fun present => if present = 1 then meter.read (zero ()) else .nothing

/-- The lengths of parts of different types. -/
def struct (parts : List (Filter α × Meter α)) : Meter (List α) where
  written values :=
    if parts.length = values.length then
      .row ((parts.zip values).map fun (part, value) =>
        ((part.1.encode value).run, part.2.written value))
    else .nothing
  read targets :=
    if parts.length = targets.length then
      .row ((parts.zip targets).map fun (part, target) =>
        ((part.1.decode target).run, part.2.read target))
    else .nothing

/-- The lengths of the arm that a discriminant selects. -/
def union (arm : Int32 → Option ((Unit → α) × Meter α)) : Meter (Int32 × α) where
  written
    | (discriminant, value) => .behind (.int32 discriminant) <|
        match arm discriminant with
        | some (_, meter) => meter.written value
        | none => .nothing
  read _ := .behindWord fun w =>
    match arm w.toInt32 with
    | some (zero, meter) => meter.read (zero ())
    | none => .nothing

/-- The same lengths for values of a larger type. -/
def within (project : β → Option α) (inner : Meter α) : Meter β where
  written value :=
    match project value with
    | some part => inner.written part
    | none => .nothing
  read target :=
    match project target with
    | some part => inner.read part
    | none => .nothing

@[simp] theorem within_nothing (project : β → Option α) :
    (nothing : Meter α).within project = nothing := by
  unfold within nothing
  congr 1 <;> funext value <;> cases project value <;> rfl

end Meter

namespace Ty

mutual
/-- The meter of a type, given the filters and the meters of the named types and the values that new
targets start from. -/
def meterWith (zero : Ty → Value) (filters : String → Filter Value)
    (meters : String → Meter Value) : Ty → Meter Value
  | bytes max => (Meter.bytes max).within Value.bytes?
  | string max => (Meter.string max).within Value.string?
  | fixedArray _ element =>
      (Meter.fixedArray (filterWith zero filters element)
        (meterWith zero filters meters element)).within Value.list?
  | varArray max element =>
      (Meter.varArray max (fun _ => zero element) (filterWith zero filters element)
        (meterWith zero filters meters element)).within Value.list?
  | optional inner =>
      (Meter.optional (fun _ => zero inner) (meterWith zero filters meters inner)).within
        Value.option?
  | struct parts =>
      (Meter.struct ((filtersWith zero filters parts).zip
        (partMeters zero filters meters parts))).within Value.list?
  | union arms fallback =>
      (Meter.union (selectArm (armMeters zero filters meters arms)
        (fallbackMeter zero filters meters fallback))).within Value.union?
  | ref name => meters name
  | _ => .nothing

/-- The meters of the parts. -/
def partMeters (zero : Ty → Value) (filters : String → Filter Value)
    (meters : String → Meter Value) : List Ty → List (Meter Value)
  | [] => []
  | part :: parts => meterWith zero filters meters part :: partMeters zero filters meters parts

/-- The arms with their zero values and meters. -/
def armMeters (zero : Ty → Value) (filters : String → Filter Value)
    (meters : String → Meter Value) :
    List (List Int32 × Ty) → List (List Int32 × (Unit → Value) × Meter Value)
  | [] => []
  | arm :: arms => armMeter zero filters meters arm :: armMeters zero filters meters arms

/-- An arm with its zero value and meter. -/
def armMeter (zero : Ty → Value) (filters : String → Filter Value)
    (meters : String → Meter Value) :
    List Int32 × Ty → List Int32 × (Unit → Value) × Meter Value
  | (cases, selected) => (cases, fun _ => zero selected, meterWith zero filters meters selected)

/-- The fallback with its zero value and meter. -/
def fallbackMeter (zero : Ty → Value) (filters : String → Filter Value)
    (meters : String → Meter Value) : Option Ty → Option ((Unit → Value) × Meter Value)
  | none => none
  | some selected => some (fun _ => zero selected, meterWith zero filters meters selected)
end

/-- The meter of a name whose references are followed at most `depth` deep. -/
def namedMeter (definitions : Definitions Ty) : (depth : Nat) → String → Meter Value
  | 0, _ => .nothing
  | depth + 1, name =>
      match definitions.lookup name with
      | some body =>
          body.meterWith (zero definitions)
            (definitions.meaning (filterWith (zero definitions)) unresolved depth)
            (namedMeter definitions depth)
      | none => .nothing

/-- The meter of a type whose references are followed at most `depth` deep. -/
def meter (definitions : Definitions Ty) (depth : Nat) : Ty → Meter Value :=
  meterWith (zero definitions)
    (definitions.meaning (filterWith (zero definitions)) unresolved depth)
    (namedMeter definitions depth)

/-- The lengths that are accepted when a value is written. -/
def written (definitions : Definitions Ty) (type : Ty) (value : Value) : Lengths Transport.Sink :=
  (type.meter definitions ((definitions.length + 1) * (value.depth + 1))).written value

/-- The lengths that are accepted when a target is replaced from a source with this many bytes
left. -/
def read (definitions : Definitions Ty) (type : Ty) (left : Nat) (target : Value) :
    Lengths Transport.Source :=
  (type.meter definitions ((definitions.length + 1) * (left / 4 + 2))).read target

theorem partMeters_eq_map (zero : Ty → Value) (filters : String → Filter Value)
    (meters : String → Meter Value) (parts : List Ty) :
    partMeters zero filters meters parts = parts.map (meterWith zero filters meters) := by
  induction parts with
  | nil => rfl
  | cons part parts ih => rw [partMeters, ih, List.map_cons]

/-- The arm that a discriminant selects has the meter of its type. -/
theorem selectArm_armMeters (zero : Ty → Value) (filters : String → Filter Value)
    (meters : String → Meter Value) (arms : List (List Int32 × Ty)) (fallback : Option Ty)
    (discriminant : Int32) :
    selectArm (armMeters zero filters meters arms) (fallbackMeter zero filters meters fallback)
        discriminant =
      (selectArm arms fallback discriminant).map fun selected =>
        (fun _ => zero selected, meterWith zero filters meters selected) := by
  induction arms with
  | nil => cases fallback <;> rfl
  | cons arm arms ih =>
      obtain ⟨cases, type⟩ := arm
      unfold selectArm at ih ⊢
      by_cases hmem : discriminant ∈ cases
      · simp [armMeters, armMeter, hmem]
      · simpa [armMeters, armMeter, hmem] using ih

end Ty

/-! ### Filters -/

namespace Filter

variable {α β : Type}

/-- The filter logs the lengths of the meter in both directions. -/
structure Logs (filter : Filter α) (meter : Meter α) : Prop where
  encode : ∀ value, (filter.encode value).Logs (meter.written value)
  decode : ∀ target, (filter.decode target).Logs (meter.read target)

theorem logs_int32 : int32.Logs .nothing :=
  ⟨fun _ => Plan.logs_one _ rfl, fun _ => Reading.logs_number fun _ => Reading.logs_done _⟩

theorem logs_uint32 : uint32.Logs .nothing :=
  ⟨fun _ => Plan.logs_one _ rfl, fun _ => Reading.logs_number fun _ => Reading.logs_done _⟩

theorem logs_int64 : int64.Logs .nothing :=
  ⟨fun _ => Plan.logs_one _ rfl, fun _ => Reading.logs_hyper fun _ => Reading.logs_done _⟩

theorem logs_uint64 : uint64.Logs .nothing :=
  ⟨fun _ => Plan.logs_one _ rfl, fun _ => Reading.logs_hyper fun _ => Reading.logs_done _⟩

theorem logs_float : float.Logs .nothing :=
  ⟨fun _ => Plan.logs_one _ rfl, fun _ => Reading.logs_number fun _ => Reading.logs_done _⟩

theorem logs_double : double.Logs .nothing :=
  ⟨fun _ => Plan.logs_one _ rfl, fun _ => Reading.logs_hyper fun _ => Reading.logs_done _⟩

theorem logs_bool : bool.Logs .nothing :=
  ⟨fun _ => Plan.logs_one _ rfl, fun _ => Reading.logs_bool fun _ => Reading.logs_done _⟩

theorem logs_void : void.Logs .nothing :=
  ⟨fun _ => Plan.logs_empty, fun _ => Reading.logs_done _⟩

theorem logs_quadruple : quadruple.Logs .nothing :=
  ⟨fun _ => Plan.logs_refuse rfl, fun _ => Reading.logs_refuse rfl⟩

theorem logs_enumeration (members : List Int32) : (enumeration members).Logs .nothing := by
  unfold enumeration
  refine ⟨fun value => ?_, fun target => ?_⟩ <;> dsimp only
  · split
    · exact Plan.logs_one _ rfl
    · exact Plan.logs_refuse rfl
  · refine Reading.logs_number fun w => ?_
    split
    · exact Reading.logs_done _
    · exact Reading.logs_fault rfl

theorem logs_fixedOpaque : fixedOpaque.Logs .nothing :=
  ⟨fun _ => Plan.logs_one _ rfl, fun _ => Reading.logs_fixedOpaque fun _ => Reading.logs_done _⟩

theorem logs_bytes (max : UInt32) : (bytes max).Logs (.bytes max) :=
  ⟨fun _ => logs_encodeSized _ _ _ _, fun buffer => Reading.logs_sized .bytes max buffer⟩

theorem logs_string (max : UInt32) : (string max).Logs (.string max) :=
  ⟨fun _ => logs_encodeSized _ _ _ _, fun target => Reading.logs_string max target⟩

theorem Logs.concat {element : Filter α} {meter : Meter α} (h : element.Logs meter)
    (values : List α) :
    (Plan.concat (values.map element.encode)).Logs (meter.writtenRow element values) :=
  Plan.logs_concat element.encode meter.written fun value _ => h.encode value

theorem logs_fixedArray {element : Filter α} {meter : Meter α} (h : element.Logs meter) :
    (fixedArray element).Logs (.fixedArray element meter) :=
  ⟨h.concat, fun _ =>
    Reading.logs_inOrder id element.decode meter.read (fun target _ => h.decode target) []⟩

theorem logs_varArray {element : Filter α} {meter : Meter α} (max : UInt32) (zero : Unit → α)
    (h : element.Logs meter) :
    (varArray max zero element).Logs (.varArray max zero element meter) := by
  unfold varArray Meter.varArray
  refine ⟨fun values => ?_, fun targets => ?_⟩ <;> dsimp only
  · split
    · exact (h.concat values).behind rfl
    · exact Plan.logs_refuse rfl
  · refine Reading.logs_word fun count => ?_
    split
    · have helement :
          (Reading.later fun _ => element.decode (zero ())).Logs (meter.read (zero ())) :=
        h.decode (zero ())
      exact Reading.logs_replicate helement _ _
    · exact Reading.logs_fault rfl

theorem logs_optional {inner : Filter α} {meter : Meter α} (zero : Unit → α)
    (h : inner.Logs meter) : (optional zero inner).Logs (.optional zero meter) := by
  unfold optional Meter.optional
  refine ⟨fun value => ?_, fun target => ?_⟩ <;> dsimp only
  · cases value with
    | none => exact Plan.logs_one _ rfl
    | some content => exact (h.encode content).behind rfl
  · refine Reading.logs_word fun present => ?_
    by_cases habsent : present = 0
    · rw [if_pos habsent, if_neg (habsent ▸ by decide)]
      exact Reading.logs_done _
    · rw [if_neg habsent]
      split
      · exact (h.decode (zero ())).andThen_quiet fun _ => Reading.logs_done _
      · exact Reading.logs_fault rfl

theorem logs_struct {ι : Type} {parts : List ι} {filter : ι → Filter α} {meter : ι → Meter α}
    (h : ∀ part ∈ parts, (filter part).Logs (meter part)) :
    (struct (parts.map filter)).Logs
      (.struct (parts.map fun part => (filter part, meter part))) := by
  have hpair : ∀ {values : List α}, ∀ pair ∈ parts.zip values,
      (filter pair.1).Logs (meter pair.1) :=
    fun pair hmem => h pair.1 (List.of_mem_zip hmem).1
  unfold struct Meter.struct
  refine ⟨fun values => ?_, fun targets => ?_⟩ <;> dsimp only <;>
    rw [List.length_map, List.length_map]
  · split
    · rw [List.zipWith_map_left, ← List.map_uncurry_zip_eq_zipWith, List.zip_map_left, List.map_map]
      exact Plan.logs_concat _ (fun pair => (meter pair.1).written pair.2) fun pair hmem =>
        (hpair pair hmem).encode pair.2
    · exact Plan.logs_refuse rfl
  · split
    · rw [List.zipWith_map_left, ← List.map_uncurry_zip_eq_zipWith, List.zip_map_left, List.map_map]
      exact Reading.logs_inOrder _ _ (fun pair => (meter pair.1).read pair.2)
        (fun pair hmem => (hpair pair hmem).decode pair.2) []
    · exact Reading.logs_refuse rfl

theorem logs_union {arm : Int32 → Option ((Unit → α) × Filter α)}
    {meters : Int32 → Option ((Unit → α) × Meter α)}
    (h : ∀ discriminant, Option.Rel (fun entry meter => entry.1 = meter.1 ∧ entry.2.Logs meter.2)
      (arm discriminant) (meters discriminant)) : (union arm).Logs (.union meters) := by
  unfold union Meter.union
  refine ⟨fun ⟨discriminant, value⟩ => ?_, fun target => ?_⟩ <;> dsimp only
  · refine Plan.Logs.behind rfl ?_
    have harm := h discriminant
    generalize arm discriminant = entry, meters discriminant = meter at harm ⊢
    cases harm with
    | none => exact Plan.logs_refuse rfl
    | some hentry => exact hentry.2.encode value
  · refine Reading.logs_word fun w => ?_
    have harm := h w.toInt32
    generalize arm w.toInt32 = entry, meters w.toInt32 = meter at harm ⊢
    cases harm with
    | none => exact Reading.logs_fault rfl
    | @some entry meter hentry =>
        obtain ⟨zero, filter⟩ := entry
        obtain ⟨_, meter⟩ := meter
        obtain ⟨rfl, hfilter⟩ := hentry
        exact (hfilter.decode _).map _ _

theorem Logs.within {filter : Filter α} {meter : Meter α} (h : filter.Logs meter)
    (inject : α → β) (project : β → Option α) :
    (filter.within inject project).Logs (meter.within project) := by
  refine ⟨fun value => ?_, fun target => ?_⟩
  · cases hvalue : project value with
    | none =>
        simp only [encode_within_of_none hvalue, Meter.within, hvalue]
        exact Plan.logs_refuse rfl
    | some part =>
        simp only [encode_within_of_some hvalue, Meter.within, hvalue]
        exact h.encode part
  · cases htarget : project target with
    | none =>
        simp only [decode_within_of_none htarget, Meter.within, htarget]
        exact Reading.logs_refuse rfl
    | some part =>
        simp only [decode_within_of_some htarget, Meter.within, htarget]
        exact (h.decode part).map _ _

/-- A filter within another one logs no lengths if it does not by itself. -/
theorem Logs.within_quiet {filter : Filter α} (h : filter.Logs .nothing) (inject : α → β)
    (project : β → Option α) : (filter.within inject project).Logs .nothing := by
  have hwithin := h.within inject project
  rwa [Meter.within_nothing] at hwithin

end Filter

/-! ### Types -/

namespace Ty

open Xdr.Filter

/-- A filter logs the lengths of its meter if those of the named types do. -/
theorem logs_filterWith {zero : Ty → Value} {filters : String → Filter Value}
    {meters : String → Meter Value} (hnamed : ∀ name, (filters name).Logs (meters name))
    (type : Ty) : (filterWith zero filters type).Logs (meterWith zero filters meters type) := by
  induction type with
  | int32 => exact logs_int32.within_quiet _ _
  | uint32 => exact logs_uint32.within_quiet _ _
  | int64 => exact logs_int64.within_quiet _ _
  | uint64 => exact logs_uint64.within_quiet _ _
  | float => exact logs_float.within_quiet _ _
  | double => exact logs_double.within_quiet _ _
  | bool => exact logs_bool.within_quiet _ _
  | void => exact logs_void.within_quiet _ _
  | quadruple => exact logs_quadruple.within_quiet _ _
  | openEnum => exact logs_int32.within_quiet _ _
  | enumeration members => exact (logs_enumeration members).within_quiet _ _
  | fixedOpaque length => exact logs_fixedOpaque.within_quiet _ _
  | bytes max => exact (logs_bytes max).within _ _
  | string max => exact (logs_string max).within _ _
  | fixedArray length element ih => exact (logs_fixedArray ih).within _ _
  | varArray max element ih => exact (logs_varArray max _ ih).within _ _
  | optional inner ih => exact (logs_optional _ ih).within _ _
  | struct parts ih =>
      rw [filterWith, meterWith, filtersWith_eq_map, partMeters_eq_map, List.zip_map']
      exact (logs_struct ih).within _ _
  | union arms fallback ih =>
      rw [filterWith_union, meterWith]
      refine (logs_union fun discriminant => ?_).within _ _
      rw [selectArm_armMeters]
      cases hselect : selectArm arms fallback discriminant with
      | none => exact .none
      | some selected => exact .some ⟨rfl, ih discriminant selected hselect⟩
  | ref name => exact ⟨(hnamed name).encode, (hnamed name).decode⟩

/-- The filter of every name logs the lengths of its meter. -/
theorem logs_named (definitions : Definitions Ty) (depth : Nat) (name : String) :
    (definitions.meaning (filterWith (zero definitions)) unresolved depth name).Logs
      (namedMeter definitions depth name) := by
  have hunresolved : unresolved.Logs .nothing :=
    ⟨fun _ => Plan.logs_refuse rfl, fun _ => Reading.logs_refuse rfl⟩
  induction depth generalizing name with
  | zero => exact hunresolved
  | succ depth ih =>
      rw [namedMeter]
      cases hbody : definitions.lookup name with
      | none => simpa only [Definitions.meaning, hbody] using hunresolved
      | some body =>
          rw [Definitions.meaning_succ _ _ _ _ hbody]
          exact logs_filterWith ih body

/-- The filter of every type logs the lengths of its meter, however deep references are followed. -/
theorem logs_filter (definitions : Definitions Ty) (depth : Nat) (type : Ty) :
    (filter definitions depth type).Logs (type.meter definitions depth) :=
  logs_filterWith (logs_named definitions depth) type

end Ty

end Xdr
