import Xdr.Proofs.Model.Faults
import Xdr.Proofs.Runs
import Xdr.Proofs.Stream.Faults

/-!
# Poisoned contexts

A step that ends with a fatal error leaves its context poisoned, and no later step on a poisoned
context touches the transport. The statement to read first is `poisoned_of_fatal`.
-/

namespace Xdr

/-! ### Runs on poisoned contexts -/

namespace Context

variable {τ : Type}

/-- The context is poisoned and uses this transport. -/
structure Frozen (context : Context τ) (transport : τ) : Prop where
  poisoned : context.poisoned = true
  transport_eq : context.transport = transport

/-- A refusal leaves a frozen context frozen. -/
theorem Frozen.refuse {context : Context τ} {transport : τ} (h : context.Frozen transport)
    (refusal : Refusal) : (context.refuse refusal).2.Frozen transport := by
  refine ⟨?_, (context.refuse_transport refusal).trans h.transport_eq⟩
  unfold Context.refuse
  split
  · exact h.poisoned
  · split
    · exact h.poisoned
    · rfl

end Context

/-- Carrying out a plan leaves a frozen encoder frozen. -/
theorem Plan.frozen_run {encoder : Encoder} {sink : Transport.Sink} (h : encoder.Frozen sink)
    (plan : Plan) : (plan.run encoder).2.Frozen sink := by
  obtain ⟨items, refusal⟩ := plan
  cases items with
  | cons item items =>
      have hemit : item.emit encoder = (.error .poisoned, encoder) := if_pos h.poisoned
      simp only [run, emitAll, hemit]
      exact h
  | nil =>
      cases refusal with
      | none => exact h
      | some refusal => exact h.refuse refusal

/-- Carrying out a reading leaves a frozen decoder frozen. -/
theorem Reading.frozen_run {κ α : Type} {decoder : Decoder} {source : Transport.Source}
    (h : decoder.Frozen source) (reading : Reading κ α) :
    (reading.run decoder).2.Frozen source := by
  induction reading generalizing decoder with
  | done value => exact h
  | refuse refusal kept => exact h.refuse refusal
  | request operation count untouched kept next ih =>
      rw [run_request, if_pos h.poisoned]
      exact h
  | note event next ih => exact ih ⟨h.poisoned, h.transport_eq⟩
  | mark part next ih => exact ih h
  | checkPadding operation padding kept next ih =>
      rw [run_checkPadding]
      split
      · exact ih h
      · exact ⟨rfl, h.transport_eq⟩
  | later next ih => exact ih () h
  | andThen first keep next ihFirst ihNext =>
      have hfirst := ihFirst h
      rw [run_andThen]
      rcases hrun : first.run decoder with ⟨stopped | value, between⟩ <;> rw [hrun] at hfirst
      · exact hfirst
      · exact ihNext value hfirst

/-! ### Steps -/

theorem Put.regular_plan (call : Put) : call.plan.Regular := by
  cases call with
  | bytes data max => exact (Filter.regular_bytes max).encode data
  | string text max => exact (Filter.regular_string max).encode text
  | _ => exact Plan.regular_one (by constructor)

theorem Get.regular_reading (call : Get) : call.reading.Regular := by
  cases call with
  | bool =>
      rw [reading]
      refine Reading.regular_bool fun value => ?_
      trivial
  | length max =>
      rw [reading]
      refine Reading.regular_length fun w => ?_
      trivial
  | bytes max => exact (Reading.regular_sized _ _ _).map
  | string max => exact (Reading.regular_string _ _).map
  | bytesInto max buffer => exact (Reading.regular_sized _ _ _).map
  | fixedOpaque buffer =>
      rw [reading]
      refine Reading.regular_fixedOpaque fun data => ?_
      trivial
  -- the other calls read a single number
  | _ => exact ⟨rfl, fun _ => trivial⟩

namespace EncodeStep

variable {catalog : Catalog}

/-- A step leaves a frozen encoder frozen. -/
theorem frozen_run {encoder : Encoder} {sink : Transport.Sink} (h : encoder.Frozen sink)
    (step : EncodeStep) : (step.run catalog encoder).2.Frozen sink := by
  cases step with
  | typed type value => exact Plan.frozen_run h _
  | put call => exact Plan.frozen_run h _
  | datum schema content => exact Plan.frozen_run h _
  | fault error => exact ⟨rfl, h.transport_eq⟩

/-- Any number of steps leave a frozen encoder frozen. -/
theorem frozen_after {encoder : Encoder} {sink : Transport.Sink} (h : encoder.Frozen sink)
    (steps : List EncodeStep) : (EncodeStep.after catalog steps encoder).Frozen sink := by
  induction steps generalizing encoder with
  | nil => exact h
  | cons step steps ih => exact ih (frozen_run h step)

/-- A step on a usable encoder that ends with a fatal error poisons it. -/
theorem frozen_of_fatal {step : EncodeStep} {encoder after : Encoder} {error : Error}
    (husable : encoder.poisoned = false) (hrun : step.run catalog encoder = (.error error, after))
    (hfatal : error.fatal = true) : after.Frozen after.transport := by
  refine ⟨?_, rfl⟩
  have hreflects : ∀ {plan : Plan}, plan.Regular → plan.run encoder = (.error error, after) →
      after.poisoned = true := by
    intro plan hregular hplan
    have hpoisoned := Plan.reflects_run hregular husable
    rw [hplan] at hpoisoned
    exact Eq.trans hpoisoned hfatal
  cases step with
  | typed type value => exact hreflects ((Ty.regular_filter _ _ type).encode value) hrun
  | put call => exact hreflects call.regular_plan hrun
  | datum schema content => exact hreflects (Schema.regular_plan _ _ schema content) hrun
  | fault error =>
      obtain ⟨_, rfl⟩ := Prod.mk.inj hrun
      rfl

end EncodeStep

namespace DecodeStep

variable {catalog : Catalog}

/-- A step leaves a frozen decoder frozen. -/
theorem frozen_run {decoder : Decoder} {source : Transport.Source} (h : decoder.Frozen source)
    (step : DecodeStep) : (step.run catalog decoder).2.Frozen source := by
  cases step with
  | typed type target => exact Reading.frozen_run h _
  | get call => exact Reading.frozen_run h _
  | datum schema => exact Reading.frozen_run h _
  | fault error => exact ⟨rfl, h.transport_eq⟩

/-- Any number of steps leave a frozen decoder frozen. -/
theorem frozen_after {decoder : Decoder} {source : Transport.Source} (h : decoder.Frozen source)
    (steps : List DecodeStep) : (DecodeStep.after catalog steps decoder).Frozen source := by
  induction steps generalizing decoder with
  | nil => exact h
  | cons step steps ih => exact ih (frozen_run h step)

/-- A step on a usable decoder that ends with a fatal error poisons it. -/
theorem frozen_of_fatal {step : DecodeStep} {decoder after : Decoder} {answer : DecodeAnswer}
    {error : Error} (husable : decoder.poisoned = false)
    (hrun : step.run catalog decoder = (answer, after)) (herror : answer.error = some error)
    (hfatal : error.fatal = true) : after.Frozen after.transport := by
  refine ⟨?_, rfl⟩
  obtain ⟨rfl, rfl⟩ := Prod.mk.inj hrun
  have hreflects : ∀ {κ α : Type} {reading : Reading κ α} {keep : κ → Option Shown}
      {deliver : α → Shown}, reading.Regular →
      (DecodeAnswer.ofResult keep deliver (reading.run decoder).1).error = some error →
      (reading.run decoder).2.poisoned = true := by
    intro κ α reading keep deliver hregular hanswer
    have hpoisoned := Reading.reflects_run hregular husable
    cases hresult : (reading.run decoder).1 with
    | ok value =>
        rw [hresult] at hanswer
        cases hanswer
    | error stopped =>
        rw [hresult] at hanswer hpoisoned
        obtain rfl := Option.some.inj hanswer
        exact Eq.trans hpoisoned hfatal
  cases step with
  | typed type target => exact hreflects ((Ty.regular_filter _ _ type).decode _) herror
  | get call => exact hreflects call.regular_reading herror
  | datum schema => exact hreflects (Schema.regular_reading _ _ schema) herror
  | fault error => rfl

end DecodeStep

/-- A step that ends with a fatal error on a usable context leaves it poisoned, wherever in the data
of the step that was, and from then on no step moves another byte. -/
theorem poisoned_of_fatal (catalog : Catalog) :
    (∀ (step : EncodeStep) (encoder after : Encoder) (error : Error), encoder.poisoned = false →
      step.run catalog encoder = (.error error, after) → error.fatal = true →
      after.poisoned = true ∧ ∀ later : List EncodeStep,
        (EncodeStep.after catalog later after).poisoned = true ∧
          (EncodeStep.after catalog later after).transport = after.transport) ∧
    ∀ (step : DecodeStep) (decoder after : Decoder) (answer : DecodeAnswer) (error : Error),
      decoder.poisoned = false → step.run catalog decoder = (answer, after) →
      answer.error = some error → error.fatal = true →
      after.poisoned = true ∧ ∀ later : List DecodeStep,
        (DecodeStep.after catalog later after).poisoned = true ∧
          (DecodeStep.after catalog later after).transport = after.transport := by
  constructor
  · intro step encoder after error husable hrun hfatal
    have hfrozen := EncodeStep.frozen_of_fatal husable hrun hfatal
    refine ⟨hfrozen.poisoned, fun later => ?_⟩
    have hlater : (EncodeStep.after catalog later after).Frozen _ :=
      EncodeStep.frozen_after hfrozen later
    exact ⟨hlater.poisoned, hlater.transport_eq⟩
  · intro step decoder after answer error husable hrun herror hfatal
    have hfrozen := DecodeStep.frozen_of_fatal husable hrun herror hfatal
    refine ⟨hfrozen.poisoned, fun later => ?_⟩
    have hlater : (DecodeStep.after catalog later after).Frozen _ :=
      DecodeStep.frozen_after hfrozen later
    exact ⟨hlater.poisoned, hlater.transport_eq⟩

/-- A sink that stops in the middle of a hyper, and a source that ends in the middle of one. -/
theorem poisoned_of_fatal_hyper :
    let write : EncodeStep := .typed (.optional .int64) (.present (.int64 7))
    let encoder : Encoder := { transport := { schedule := { halt := some ⟨6, none⟩ } } }
    let written := (write.run {} encoder).2
    let read : DecodeStep := .datum (.option .int64)
    let decoder : Decoder := { transport := { rest := [0, 0, 0, 1, 0, 0] } }
    let ended := (read.run {} decoder).2
    ((write.run {} encoder).1 = .error .shortWrite ∧ written.transport.taken.size = 6 ∧
        written.poisoned = true ∧ ∀ later : List EncodeStep,
          (EncodeStep.after {} later written).poisoned = true ∧
            (EncodeStep.after {} later written).transport = written.transport) ∧
      (read.run {} decoder).1 = { error := some .shortRead } ∧ ended.transport.rest = [] ∧
        ended.poisoned = true ∧ ∀ later : List DecodeStep,
          (DecodeStep.after {} later ended).poisoned = true ∧
            (DecodeStep.after {} later ended).transport = ended.transport := by
  intro write encoder written read decoder ended
  have hwrite : (write.run {} encoder).1 = .error .shortWrite := by decide +kernel
  have hread : (read.run {} decoder).1 = { error := some .shortRead } := by
    decide +kernel
  have htaken : (write.run {} encoder).2.transport.taken.size = 6 := by decide +kernel
  have hrest : (read.run {} decoder).2.transport.rest = [] := by decide +kernel
  refine ⟨⟨hwrite, htaken, ?_⟩, hread, hrest, ?_⟩
  · exact (poisoned_of_fatal {}).1 write encoder written _ rfl (Prod.ext hwrite rfl) rfl
  · exact (poisoned_of_fatal {}).2 read decoder ended _ _ rfl (Prod.ext hread rfl) rfl rfl

/-- Other errors leave a context usable even if bytes were moved: a quadruple-precision number is
refused behind the word that says it is there, and what follows is written or read right behind that
word. -/
theorem not_poisoned_of_moved :
    (¬ ∀ (catalog : Catalog) (step : EncodeStep) (encoder after : Encoder) (error : Error),
        encoder.poisoned = false → step.run catalog encoder = (.error error, after) →
        encoder.transport.taken.size < after.transport.taken.size → after.poisoned = true) ∧
      ¬ ∀ (catalog : Catalog) (step : DecodeStep) (decoder after : Decoder) (answer : DecodeAnswer)
          (error : Error), decoder.poisoned = false → step.run catalog decoder = (answer, after) →
          answer.error = some error →
          after.transport.rest.length < decoder.transport.rest.length → after.poisoned = true := by
  constructor
  · intro hpoisons
    let step : EncodeStep := .typed (.optional .quadruple) (.present .void)
    let encoder : Encoder := { transport := {} }
    have hrun : (step.run {} encoder).1 = .error (.unsupported "quadruple") := by decide +kernel
    have hmoved : (step.run {} encoder).2.transport.taken.size = 4 := by decide +kernel
    have husable : (step.run {} encoder).2.poisoned = false := by decide +kernel
    have hpoisoned := hpoisons {} step encoder (step.run {} encoder).2 _ rfl (Prod.ext hrun rfl)
      (by rw [hmoved]; decide)
    rw [husable] at hpoisoned
    cases hpoisoned
  · intro hpoisons
    let step : DecodeStep := .typed (.optional .quadruple) none
    let decoder : Decoder := { transport := { rest := [0, 0, 0, 1] } }
    have hrun : (step.run {} decoder).1.error = some (.unsupported "quadruple") := by decide +kernel
    have hmoved : (step.run {} decoder).2.transport.rest = [] := by decide +kernel
    have husable : (step.run {} decoder).2.poisoned = false := by decide +kernel
    have hpoisoned := hpoisons {} step decoder (step.run {} decoder).2 _ _ rfl rfl hrun
      (by rw [hmoved]; decide)
    rw [husable] at hpoisoned
    cases hpoisoned

end Xdr
