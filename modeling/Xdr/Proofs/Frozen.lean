import Xdr.Proofs.Poison
import Xdr.Proofs.Stream.Refusal

/-!
# What poisoned contexts answer

A poisoned context stays poisoned, its transport is not used again, and what a step answers is
settled by the step alone: direct calls are refused, typed values are refused unless nothing goes
through the stream for their type, and a target or a buffer is handed back as it was. The statement
to read first is `frozen_of_poisoned`.
-/

namespace Xdr

/-- Every direct call that writes starts with something a poisoned encoder refuses. -/
theorem Put.refused_plan (call : Put) : call.plan.Refused := by
  cases call with
  | bytes data max => exact Filter.refused_encodeSized _ _ _ _
  | string text max => exact Filter.refused_encodeSized _ _ _ _
  | _ => exact Plan.refused_one _

/-- The buffer that a direct call brings along. -/
def Get.buffer : Get → Option Value
  | bytesInto _ buffer => some (.bytes buffer)
  | fixedOpaque buffer => some (.bytes buffer)
  | _ => none

/-- Every direct call that reads starts with a request, and a poisoned decoder leaves the buffer as
it is. -/
theorem Get.refused_reading (call : Get) : call.reading.Refused call.buffer := by
  cases call with
  | bytes max => exact Reading.refused_request.map _ _
  | string max => exact (Reading.refused_request.andThen _ _).map _ _
  | bytesInto max buffer => exact Reading.refused_request.map _ _
  | _ => exact Reading.refused_request

/-- What a poisoned encoder answers to a step. Nothing is said about data of the data model. -/
def EncodeStep.Refused (catalog : Catalog) : EncodeStep → Except Error Unit → Prop
  | typed type value, answer => type.Holds catalog.types value →
      (type.Vacuous catalog.types → answer = .ok ()) ∧
        (¬ type.Vacuous catalog.types → answer = .error .poisoned)
  | put _, answer => answer = .error .poisoned
  | datum _ _, _ => True
  | fault error, answer => answer = .error error

/-- What a poisoned decoder answers to a step, and what the target and the buffer hold then. Nothing
is said about data of the data model, which has no targets. -/
def DecodeStep.Refused (catalog : Catalog) : DecodeStep → DecodeAnswer → Prop
  | typed type target, answer =>
      let before := target.getD (type.zero catalog.types)
      type.Holds catalog.types before →
        (type.Vacuous catalog.types → answer = { shown := some (.value before) }) ∧
          (¬ type.Vacuous catalog.types →
            answer = { shown := some (.value before), error := some .poisoned })
  | get call, answer =>
      answer = { shown := call.buffer.map .value, error := some .poisoned }
  | datum _, _ => True
  | fault error, answer => answer = { error := some error }

theorem EncodeStep.refused_run {catalog : Catalog} {encoder : Encoder}
    (hpoisoned : encoder.poisoned = true) (step : EncodeStep) :
    step.Refused catalog (step.run catalog encoder).1 := by
  cases step with
  | typed type value =>
      intro hholds
      have hstalls := Ty.encode_stalls hholds
      refine ⟨fun hvacuous => ?_, fun hbusy => ?_⟩
      · rw [run, hstalls.empty hvacuous]
        rfl
      · rw [run, hstalls.blocked hbusy encoder hpoisoned]
  | put call => exact congrArg Prod.fst (call.refused_plan encoder hpoisoned)
  | datum schema content => trivial
  | fault error => rfl

theorem DecodeStep.refused_run {catalog : Catalog} {decoder : Decoder}
    (hpoisoned : decoder.poisoned = true) (step : DecodeStep) :
    step.Refused catalog (step.run catalog decoder).1 := by
  cases step with
  | typed type target =>
      intro hholds
      have hstalls := Ty.decode_stalls hholds decoder.transport.rest.length
      refine ⟨fun hvacuous => ?_, fun hbusy => ?_⟩
      · simp only [run, hstalls.returns hvacuous decoder]
        rfl
      · simp only [run, hstalls.refused hbusy decoder hpoisoned]
        rfl
  | get call =>
      show _ = _
      simp only [run, call.refused_reading decoder hpoisoned]
      rfl
  | datum schema => trivial
  | fault error => rfl

/-- However many steps are run on a poisoned context, it is poisoned and its transport has not been
touched, and the next step is answered accordingly. -/
theorem frozen_of_poisoned (catalog : Catalog) :
    (∀ encoder : Encoder, encoder.poisoned = true → ∀ later : List EncodeStep,
      (EncodeStep.after catalog later encoder).poisoned = true ∧
        (EncodeStep.after catalog later encoder).transport = encoder.transport ∧
        ∀ step : EncodeStep,
          step.Refused catalog (step.run catalog (EncodeStep.after catalog later encoder)).1) ∧
    ∀ decoder : Decoder, decoder.poisoned = true → ∀ later : List DecodeStep,
      (DecodeStep.after catalog later decoder).poisoned = true ∧
        (DecodeStep.after catalog later decoder).transport = decoder.transport ∧
        ∀ step : DecodeStep,
          step.Refused catalog (step.run catalog (DecodeStep.after catalog later decoder)).1 := by
  constructor
  · intro encoder hpoisoned later
    have hfrozen : (EncodeStep.after catalog later encoder).Frozen encoder.transport :=
      EncodeStep.frozen_after ⟨hpoisoned, rfl⟩ later
    exact ⟨hfrozen.poisoned, hfrozen.transport_eq, EncodeStep.refused_run hfrozen.poisoned⟩
  · intro decoder hpoisoned later
    have hfrozen : (DecodeStep.after catalog later decoder).Frozen decoder.transport :=
      DecodeStep.frozen_after ⟨hpoisoned, rfl⟩ later
    exact ⟨hfrozen.poisoned, hfrozen.transport_eq, DecodeStep.refused_run hfrozen.poisoned⟩

/-- An empty struct, and a struct of which one part is on the wire, behind a step that could not be
carried out anyway. The target of the second keeps its elements. -/
theorem frozen_of_poisoned_structs :
    let idle : Ty := .struct [.void, .fixedArray 0 .int32]
    let nothing : Value := .list [.void, .list []]
    let busy : Ty := .struct [.void, .varArray 1 .int32]
    let numbers : Value := .list [.void, .list [.int32 5, .int32 6]]
    let encoder : Encoder := { transport := {}, poisoned := true }
    let written := EncodeStep.after {} [.typed busy numbers] encoder
    let decoder : Decoder := { transport := { rest := [0, 0, 0, 0] }, poisoned := true }
    let read := DecodeStep.after {} [.get .bool] decoder
    (written.transport = encoder.transport ∧
        ((EncodeStep.typed idle nothing).run {} written).1 = .ok () ∧
        ((EncodeStep.typed busy numbers).run {} written).1 = .error .poisoned) ∧
      read.transport = decoder.transport ∧
        ((DecodeStep.typed idle (some nothing)).run {} read).1 =
          { shown := some (.value nothing) } ∧
        ((DecodeStep.typed busy (some numbers)).run {} read).1 =
          { shown := some (.value numbers), error := some .poisoned } := by
  intro idle nothing busy numbers encoder written decoder read
  have hidle : idle.Vacuous [] :=
    .struct (List.forall_mem_cons.mpr ⟨.void, List.forall_mem_singleton.mpr (.emptyArray _)⟩)
  have hbusy : ¬ busy.Vacuous [] := fun h => by
    have hparts := Ty.vacuous_struct_iff.mp h
    cases hparts (.varArray 1 .int32) (by simp)
  have hnothing : idle.Holds [] nothing := .struct (.cons .void (.cons (.fixedArray .nil) .nil))
  have hnumbers : busy.Holds [] numbers := .struct (.cons .void (.cons (.varArray _ _ _) .nil))
  obtain ⟨-, hwritten, hencode⟩ :=
    (frozen_of_poisoned {}).1 encoder rfl [.typed busy numbers]
  obtain ⟨-, hread, hdecode⟩ := (frozen_of_poisoned {}).2 decoder rfl [.get .bool]
  exact ⟨⟨hwritten, (hencode (.typed idle nothing) hnothing).1 hidle,
      (hencode (.typed busy numbers) hnumbers).2 hbusy⟩, hread,
    (hdecode (.typed idle (some nothing)) hnothing).1 hidle,
    (hdecode (.typed busy (some numbers)) hnumbers).2 hbusy⟩

end Xdr
