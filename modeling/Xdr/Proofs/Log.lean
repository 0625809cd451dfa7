import Xdr.Proofs.Calls
import Xdr.Proofs.Model.Lengths
import Xdr.Proofs.Stream.Lengths

/-!
# What the log tells

The log, the poison flag and the answer of a step tell the same story: the lengths accepted on the
way, and one fault with the error that the caller gets, if there is one and it is fatal. The
statement to read first is `log_agrees`.
-/

namespace Xdr

/-- The lengths accepted in a direct call that writes. -/
def Put.lengths : Put → Lengths Transport.Sink
  | bytes data max => .within .bytes max data
  | string text max => .within .string max (Text.untilNul (Text.bytes text))
  | _ => .nothing

/-- The lengths accepted in a direct call that reads. A count that is read for its own sake is not
the length of anything. -/
def Get.lengths : Get → Lengths Transport.Source
  | bytes max => .announced .bytes max
  | bytesInto max _ => .announced .bytes max
  | string max => .announced .string max
  | _ => .nothing

/-- The lengths accepted in a step on an encoder. -/
def EncodeStep.lengths (catalog : Catalog) (step : EncodeStep) : Lengths Transport.Sink :=
  fun encoder =>
    match step with
    | typed type value => type.written catalog.types value encoder
    | put call => call.lengths encoder
    | datum schema content =>
        schema.written catalog.schemas encoder.config.maxLength content encoder
    | fault _ => []

/-- The lengths accepted in a step on a decoder. -/
def DecodeStep.lengths (catalog : Catalog) (step : DecodeStep) : Lengths Transport.Source :=
  fun decoder =>
    match step with
    | typed type target =>
        type.read catalog.types decoder.transport.rest.length
          (target.getD (type.zero catalog.types)) decoder
    | get call => call.lengths decoder
    | datum schema =>
        schema.read catalog.schemas decoder.config.maxLength decoder.transport.rest.length decoder
    | fault _ => []

/-- What was logged between two contexts recounts how a step ended. There is one fault if the
context is poisoned and none otherwise, it has the error that was returned, the context is
poisoned if and only if a fatal error was returned, and there is one event for each accepted
length. -/
def Context.Recounts {τ : Type} (before after : Context τ) (returned : Option Error)
    (lengths : List (SizedKind × Nat)) : Prop :=
  ∃ emitted, after.events.toList = before.events.toList ++ emitted ∧
    emitted.countP (fun event => event.level = "debug") = (if after.poisoned then 1 else 0) ∧
    (∀ event ∈ emitted, event.level = "debug" →
      ∃ operation error, event = .fault operation error ∧ returned = some error) ∧
    (after.poisoned = true ↔ ∃ error, returned = some error ∧ error.fatal = true) ∧
    emitted.countP (fun event => event.level = "trace") = lengths.length

/-- Events of one level are counted at that level and at no other. -/
theorem Event.countP_level {events : List Event} {level : String}
    (h : ∀ event ∈ events, event.level = level) (other : String) :
    events.countP (fun event => event.level = other) =
      if level = other then events.length else 0 := by
  split
  · next hlevel =>
      refine List.countP_eq_length.mpr fun event hmem => ?_
      exact decide_eq_true ((h event hmem).trans hlevel)
  · next hlevel =>
      refine List.countP_eq_zero.mpr fun event hmem => ?_
      rw [h event hmem]
      simpa using hlevel

/-- A log of lengths and a fatal error recounts how it came about. -/
theorem Context.Logs.recounts {τ : Type} {before after : Context τ} {returned : Option Error}
    {lengths : List (SizedKind × Nat)} (h : before.Logs after returned lengths) :
    before.Recounts after returned lengths := by
  obtain ⟨hpoisoned, operation, hevents⟩ := h
  have htraced : ∀ event ∈ lengths.map Event.accepted, event.level = "trace" := by
    intro event hmem
    obtain ⟨length, -, rfl⟩ := List.mem_map.mp hmem
    rfl
  have hfaults : ∀ event ∈ (returned.filter Error.fatal).toList.map (Event.fault operation),
      event.level = "debug" := by
    intro event hmem
    obtain ⟨error, -, rfl⟩ := List.mem_map.mp hmem
    rfl
  refine ⟨_, hevents, ?_, fun event hmem hlevel => ?_, ?_, ?_⟩
  · rw [List.countP_append, Event.countP_level htraced, Event.countP_level hfaults,
      if_neg (by decide), if_pos rfl, List.length_map, hpoisoned]
    cases returned with
    | none => rfl
    | some error => cases hfatal : error.fatal <;> simp [Option.filter, hfatal]
  · rcases List.mem_append.mp hmem with hlength | hfault
    · rw [htraced event hlength] at hlevel
      exact absurd hlevel (by decide)
    · obtain ⟨error, herror, rfl⟩ := List.mem_map.mp hfault
      exact ⟨operation, error, rfl, (Option.mem_filter_iff.mp (Option.mem_toList.mp herror)).1⟩
  · rw [hpoisoned]
    cases returned <;> simp
  · rw [List.countP_append, Event.countP_level htraced, Event.countP_level hfaults, if_pos rfl,
      if_neg (by decide), List.length_map]
    rfl

/-! ### Steps -/

/-- The plan of a direct call logs its lengths. -/
theorem Put.logs_plan (call : Put) : call.plan.Logs call.lengths := by
  cases call with
  | bytes data max => exact (Filter.logs_bytes max).encode data
  | string text max => exact (Filter.logs_string max).encode text
  | _ => exact Plan.logs_one _ rfl

/-- The reading of a direct call logs its lengths. -/
theorem Get.logs_reading (call : Get) : call.reading.Logs call.lengths := by
  cases call with
  | bool =>
      rw [reading]
      exact Reading.logs_bool fun _ => Reading.logs_done _
  | length max =>
      rw [reading]
      refine Reading.logs_number fun w => ?_
      split
      · exact Reading.logs_done _
      · exact Reading.logs_fault rfl
  | bytes max => exact (Reading.logs_sized _ _ _).map _ _
  | string max => exact (Reading.logs_string _ _).map _ _
  | bytesInto max buffer => exact (Reading.logs_sized _ _ _).map _ _
  | fixedOpaque buffer =>
      rw [reading]
      exact Reading.logs_fixedOpaque fun _ => Reading.logs_done _
  -- the other calls read a single number
  | _ => exact Reading.logs_bytes fun _ => Reading.logs_done _

/-- A step on an encoder logs its lengths and its error. -/
theorem EncodeStep.logs_run (catalog : Catalog) {step : EncodeStep} {encoder : Encoder}
    (husable : encoder.poisoned = false) (hstep : ∀ error, step ≠ .fault error) :
    encoder.Logs (step.run catalog encoder).2 (Plan.errorOf (step.run catalog encoder).1)
      (step.lengths catalog encoder) := by
  cases step with
  | typed type value => exact (Ty.logs_filter _ _ type).encode value encoder husable
  | put call => exact call.logs_plan encoder husable
  | datum schema content => exact Schema.logs_plan _ schema content encoder husable
  | fault error => exact absurd rfl (hstep error)

/-- A step on a decoder logs its lengths and its error. -/
theorem DecodeStep.logs_run (catalog : Catalog) {step : DecodeStep} {decoder : Decoder}
    (husable : decoder.poisoned = false) (hstep : ∀ error, step ≠ .fault error) :
    decoder.Logs (step.run catalog decoder).2 (step.run catalog decoder).1.error
      (step.lengths catalog decoder) := by
  cases step with
  | typed type target =>
      rw [run, DecodeAnswer.error_ofResult]
      exact (Ty.logs_filter _ _ type).decode _ decoder husable
  | get call =>
      rw [run, DecodeAnswer.error_ofResult]
      exact call.logs_reading decoder husable
  | datum schema =>
      rw [run, DecodeAnswer.error_ofResult]
      exact Schema.logs_reading _ schema _ decoder husable
  | fault error => exact absurd rfl (hstep error)

/-- On a context that is not poisoned, the log recounts every step but a fault that the owner
raises: the lengths it accepted, the error it returned if that is fatal, and whether it left the
context poisoned. -/
theorem log_agrees (catalog : Catalog) :
    (∀ (step : EncodeStep) (encoder after : Encoder) (result : Except Error Unit),
      encoder.poisoned = false → (∀ error, step ≠ .fault error) →
      step.run catalog encoder = (result, after) →
      encoder.Recounts after (Plan.errorOf result) (step.lengths catalog encoder)) ∧
    ∀ (step : DecodeStep) (decoder after : Decoder) (answer : DecodeAnswer),
      decoder.poisoned = false → (∀ error, step ≠ .fault error) →
      step.run catalog decoder = (answer, after) →
      decoder.Recounts after answer.error (step.lengths catalog decoder) := by
  constructor
  · intro step encoder after result husable hstep hrun
    have hlogs := EncodeStep.logs_run catalog husable hstep
    rw [hrun] at hlogs
    exact hlogs.recounts
  · intro step decoder after answer husable hstep hrun
    have hlogs := DecodeStep.logs_run catalog husable hstep
    rw [hrun] at hlogs
    exact hlogs.recounts

/-- A record is written up to a string over the ceiling, and a sequence of strings is read up to one
that is cut off behind its length. -/
theorem log_agrees_cut :
    let write : EncodeStep := .datum (.record 3 [.bytes, .string, .string])
      (.tuple [.bytes [1], .string "four", .string "longer"])
    let encoder : Encoder := { transport := {}, config := { maxLength := 5 } }
    let written := (write.run {} encoder).2
    let read : DecodeStep := .datum (.seq .string .actual {})
    let decoder : Decoder :=
      { transport := { rest := [0, 0, 0, 3, 0, 0, 0, 1, 65, 0, 0, 0, 0, 0, 0, 2, 66] } }
    let ended := (read.run {} decoder).2
    ((write.run {} encoder).1 = .error (.lengthExceeded 5 6) ∧
      write.lengths {} encoder = [(.bytes, 1), (.bytes, 4)] ∧
      encoder.Recounts written (some (.lengthExceeded 5 6)) [(.bytes, 1), (.bytes, 4)]) ∧
    (read.run {} decoder).1 = { error := some .shortRead } ∧
      read.lengths {} decoder = [(.string, 1), (.string, 2)] ∧
      decoder.Recounts ended (some .shortRead) [(.string, 1), (.string, 2)] := by
  intro write encoder written read decoder ended
  have hwrite : (write.run {} encoder).1 = .error (.lengthExceeded 5 6) := by decide +kernel
  have hwritten : write.lengths {} encoder = [(.bytes, 1), (.bytes, 4)] := by decide +kernel
  have hread : (read.run {} decoder).1 = { error := some .shortRead } := by
    decide +kernel
  have hlengths : read.lengths {} decoder = [(.string, 1), (.string, 2)] := by decide +kernel
  refine ⟨⟨hwrite, hwritten, ?_⟩, hread, hlengths, ?_⟩
  · rw [← hwritten]
    exact (log_agrees {}).1 write encoder written _ rfl (by simp [write]) (Prod.ext hwrite rfl)
  · rw [← hlengths]
    exact (log_agrees {}).2 read decoder ended _ rfl (by simp [read]) (Prod.ext hread rfl)

end Xdr
