import Xdr.Message
import Xdr.Proofs.Delivery.Reading
import Xdr.Proofs.Model.Budget
import Xdr.Proofs.Model.RoundTrip
import Xdr.Proofs.Model.Canonical
import Xdr.Proofs.Stream.Budget

/-!
# Decoding from any source

What a run of steps reads from a source is what it reads from a byte string. If the source halts,
that is the byte string up to the halt, and the step that needs more reports the failure of the
source in place of a short read. The statement to read first is `decode_truncated`.
-/

namespace Xdr

open Transport

/-- Named types have values of finite size, and readers of named schemas come back to the same name
only behind a word. Other types have no values to decode into, and other schemas are never read to
an end. -/
structure Catalog.Guarded (catalog : Catalog) : Prop where
  types : catalog.types.Guarded Ty.direct
  schemas : catalog.schemas.Guarded (Schema.leading catalog.schemas)

namespace DecodeStep

variable {catalog : Catalog} {more : List UInt8} {limit : Nat} {ending ending' : Failure}
  {first second : Decoder}

/-- A target that is given is one of the type that is read. -/
def Suits (catalog : Catalog) : DecodeStep → Prop
  | typed type (some target) => type.Holds catalog.types target
  | _ => True

/-- A new target is never overfull, and neither is one that suits the step. -/
theorem Suits.not_overfull {type : Ty} {target : Option Value}
    (h : (typed type target).Suits catalog) :
    ¬ type.Overfull catalog.types (target.getD (type.zero catalog.types)) := by
  cases target with
  | none => exact Ty.not_overfull_zeroWith _ type
  | some given => exact Ty.Holds.not_overfull h

/-- Carry out a step with the budget for references of a decoder whose source has this many bytes
left. -/
def runWith (catalog : Catalog) (left : Nat) (step : DecodeStep) (decoder : Decoder) :
    DecodeAnswer × Decoder :=
  match step with
  | typed type target =>
      let (result, after) :=
        (type.decode catalog.types left (target.getD (type.zero catalog.types))).run decoder
      (.ofResult (some ∘ .value) .value result, after)
  | get call =>
      let (result, after) := call.reading.run decoder
      (.ofResult (Option.map .value) .value result, after)
  | datum schema =>
      let (result, after) :=
        (schema.decode catalog.schemas decoder.config.maxLength left).run decoder
      (.ofResult (fun _ => none) .datum result, after)
  | fault error => ({ error := some error }, decoder.fault .user error)

theorem run_eq_runWith (step : DecodeStep) (decoder : Decoder) :
    step.run catalog decoder = step.runWith catalog decoder.transport.rest.length decoder := by
  cases step <;> rfl

/-- A larger budget makes no difference. -/
theorem run_eq_of_le (hguarded : catalog.Guarded) {step : DecodeStep} (hsuits : step.Suits catalog)
    {decoder : Decoder} {left : Nat} (hle : decoder.transport.rest.length ≤ left) :
    step.run catalog decoder = step.runWith catalog left decoder := by
  cases step with
  | typed type target =>
      have hagrees := Ty.decode_agrees hguarded.types hsuits.not_overfull hle decoder
        (Nat.le_refl _)
      simp only [run, runWith, hagrees]
  | get call => rfl
  | datum schema =>
      have hagrees : (schema.decode catalog.schemas decoder.config.maxLength _).run decoder =
          (schema.decode catalog.schemas decoder.config.maxLength left).run decoder :=
        Schema.decode_agrees hguarded.schemas schema hle decoder (Nat.le_refl _)
      simp only [run, runWith, hagrees]
  | fault error => rfl

theorem advances_run (catalog : Catalog) (step : DecodeStep) (decoder : Decoder) :
    decoder.Advances (step.run catalog decoder).2 := by
  cases step with
  | fault error => exact .of_transport_eq rfl
  | _ => exact Reading.advances_run _ decoder

/-- However many steps are run, no byte gets lost. -/
theorem advances_after (steps : List DecodeStep) (decoder : Decoder) :
    decoder.Advances (after catalog steps decoder) := by
  induction steps generalizing decoder with
  | nil => exact .of_transport_eq rfl
  | cons step steps ih => exact (advances_run catalog step decoder).trans (ih _)

/-- A decoder that has failed at the end stays there, whatever steps are run. -/
theorem spent_after {decoder : Decoder} (h : decoder.Spent limit) (steps : List DecodeStep) :
    (after catalog steps decoder).Spent limit := by
  have hfrozen : (after catalog steps decoder).Frozen decoder.transport :=
    frozen_after ⟨h.poisoned, rfl⟩ steps
  exact ⟨hfrozen.poisoned, by rw [hfrozen.transport_eq, h.moved]⟩

/-- How a step ends on two decoders that were side by side. -/
inductive Ends (more : List UInt8) (limit : Nat) (ending ending' : Failure) :
    DecodeAnswer × Decoder → DecodeAnswer × Decoder → Prop where
  | same (answer) {first second} : Decoder.Beside more limit ending ending' first second →
      Ends more limit ending ending' (answer, first) (answer, second)
  | short (shown) {first second} : more = [] →
      Decoder.Beside more limit ending ending' first second →
      Ends more limit ending ending' ({ shown, error := some (.ofRead ending) }, first)
        ({ shown, error := some (.ofRead ending') }, second)
  | beyond (shown answer) {first second} : more ≠ [] → Decoder.Spent limit first →
      limit < second.transport.moved →
      Ends more limit ending ending' ({ shown, error := some (.ofRead ending) }, first)
        (answer, second)

/-- If both sources end at the same place, the answers differ at most in how the sources end. -/
theorem Ends.level {answer answer' : DecodeAnswer × Decoder}
    (h : Ends [] limit ending ending' answer answer') :
    answer'.1.shown = answer.1.shown ∧
      Decoder.Beside [] limit ending ending' answer.2 answer'.2 := by
  cases h with
  | same _ hnext => exact ⟨rfl, hnext⟩
  | short _ _ hnext => exact ⟨rfl, hnext⟩
  | beyond _ _ hmore _ _ => exact absurd rfl hmore

/-- If the second source goes on, a step fails on the first decoder if it gets across the limit on
the second, and has the same answer on both otherwise. -/
theorem Ends.of_more {answer answer' : DecodeAnswer × Decoder}
    (h : Ends more limit ending ending' answer answer') (hmore : more ≠ []) :
    (limit < answer'.2.transport.moved → answer.1.error = some (.ofRead ending)) ∧
      (answer'.2.transport.moved ≤ limit → answer.1 = answer'.1) := by
  cases h with
  | same answer hnext =>
      exact ⟨fun hlt => absurd hnext.moved_le (Nat.not_le_of_lt hlt), fun _ => rfl⟩
  | short _ hnone _ => exact absurd hnone hmore
  | beyond _ _ _ _ hbehind =>
      exact ⟨fun _ => rfl, fun hle => absurd hle (Nat.not_le_of_lt hbehind)⟩

/-- A step that is a reading ends as the reading does. -/
theorem ends_ofResult {κ α : Type} {keep : κ → Option Shown} {deliver : α → Shown}
    {result result' : Except (Stopped κ) α × Decoder}
    (h : Decoder.Ends more limit ending ending' result result') :
    Ends more limit ending ending' (.ofResult keep deliver result.1, result.2)
      (.ofResult keep deliver result'.1, result'.2) := by
  cases h with
  | same result hnext => exact .same _ hnext
  | short kept hmore hnext => exact .short (keep kept) hmore hnext
  | beyond kept result hmore hspent hbehind =>
      exact .beyond (keep kept) _ hmore hspent hbehind

/-- With the same budget, a step ends alike on two decoders that are side by side, or it asks for
more than the first source offers. -/
theorem runWith_beside (step : DecodeStep) (left : Nat)
    (h : Decoder.Beside more limit ending ending' first second) :
    Ends more limit ending ending' (step.runWith catalog left first)
      (step.runWith catalog left second) := by
  cases step with
  | typed type target => exact ends_ofResult (Reading.run_beside _ h)
  | get call => exact ends_ofResult (Reading.run_beside _ h)
  | datum schema =>
      rw [runWith, runWith, h.config]
      exact ends_ofResult (Reading.run_beside _ h)
  | fault error => exact .same _ ⟨h.config, rfl, h.moved, h.offers⟩

/-- Two decoders that are side by side, the source of the second holding no less than that of the
first. -/
structure Paired (more : List UInt8) (limit : Nat) (ending ending' : Failure)
    (first second : Decoder) : Prop where
  beside : Decoder.Beside more limit ending ending' first second
  length_le : first.transport.rest.length ≤ second.transport.rest.length

/-- As long as both are at the same position, that stays so. -/
theorem Paired.advance {next next' : Decoder} (h : Paired more limit ending ending' first second)
    (hfirst : first.Advances next) (hsecond : second.Advances next')
    (hbeside : Decoder.Beside more limit ending ending' next next') :
    Paired more limit ending ending' next next' := by
  have hsize := hfirst.moved_add_length
  have hsize' := hsecond.moved_add_length
  have hmoved := h.beside.moved
  have hmoved' := hbeside.moved
  have hle := h.length_le
  exact ⟨hbeside, by omega⟩

/-- A step ends alike on two decoders that are side by side, or it asks for more than the first
source offers. -/
theorem run_beside (hguarded : catalog.Guarded) {step : DecodeStep} (hsuits : step.Suits catalog)
    (h : Paired more limit ending ending' first second) :
    Ends more limit ending ending' (step.run catalog first) (step.run catalog second) := by
  rw [run_eq_of_le hguarded hsuits h.length_le, run_eq_runWith step second]
  exact step.runWith_beside _ h.beside

/-- A poisoned decoder answers a step without looking at its source. -/
theorem run_eq_of_poisoned (hguarded : catalog.Guarded) {step : DecodeStep}
    (hsuits : step.Suits catalog) (h : Paired more limit ending ending' first second)
    (hpoisoned : first.poisoned = true) :
    (step.run catalog second).1 = (step.run catalog first).1 := by
  rw [run_eq_of_le hguarded hsuits h.length_le, run_eq_runWith step second]
  have hconfig := h.beside.config
  have hresult : ∀ {κ α : Type} (reading : Reading κ α) (keep : κ → Option Shown)
      (deliver : α → Shown), DecodeAnswer.ofResult keep deliver (reading.run second).1 =
        .ofResult keep deliver (reading.run first).1 := fun reading _ _ => by
    rw [reading.run_eq_of_poisoned hpoisoned (h.beside.poisoned.trans hpoisoned) hconfig]
  cases step with
  | typed type target => exact hresult _ _ _
  | get call => exact hresult _ _ _
  | datum schema =>
      rw [runWith, runWith, hconfig]
      exact hresult (schema.decode catalog.schemas first.config.maxLength
        second.transport.rest.length) (fun _ => none) Shown.datum
  | fault error => rfl

/-- Decoders whose sources end at the same place stay side by side, whatever happens. -/
theorem after_level (hguarded : catalog.Guarded) {steps : List DecodeStep}
    (hsuits : ∀ step ∈ steps, step.Suits catalog)
    (h : Paired [] limit ending ending' first second) :
    Paired [] limit ending ending' (after catalog steps first) (after catalog steps second) := by
  induction steps generalizing first second with
  | nil => exact h
  | cons step steps ih =>
      obtain ⟨hstep, hsteps⟩ := List.forall_mem_cons.mp hsuits
      have hnext := (run_beside hguarded hstep h).level.2
      exact ih hsteps (h.advance (advances_run _ _ first) (advances_run _ _ second) hnext)

/-- If the second source goes on, the decoders are side by side, or the first has stopped for good
and the second has gone on. -/
theorem after_ahead (hguarded : catalog.Guarded) {steps : List DecodeStep}
    (hsuits : ∀ step ∈ steps, step.Suits catalog) (hmore : more ≠ [])
    (h : Paired more limit ending ending' first second) :
    Paired more limit ending ending' (after catalog steps first) (after catalog steps second) ∨
      (after catalog steps first).Spent limit ∧
        limit < (after catalog steps second).transport.moved := by
  induction steps generalizing first second with
  | nil => exact .inl h
  | cons step steps ih =>
      obtain ⟨hstep, hsteps⟩ := List.forall_mem_cons.mp hsuits
      have hends := run_beside hguarded hstep h
      have hfirst := advances_run catalog step first
      have hsecond := advances_run catalog step second
      simp only [after, List.foldl_cons]
      generalize step.run catalog first = answer at hends hfirst ⊢
      generalize step.run catalog second = answer' at hends hsecond ⊢
      cases hends with
      | same _ hnext => exact ih hsteps (h.advance hfirst hsecond hnext)
      | short _ hnone _ => exact absurd hnone hmore
      | @beyond _ _ next next' _ hspent hbehind =>
          refine .inr ⟨spent_after hspent steps, ?_⟩
          exact hbehind.trans_le (advances_after steps next').moved_le

/-- How a step on a source that fails compares with the same step on the bytes in front of the
failure. The step that gets across it is the one that gets there on the whole byte string. -/
structure Truncated (offset : Nat) (failure : Failure) (full : Decoder)
    (fullNext cutNext next : DecodeAnswer × Decoder) : Prop where
  shown : next.1.shown = cutNext.1.shown
  poisoned : next.2.poisoned = cutNext.2.poisoned
  moved : next.2.transport.moved = cutNext.2.transport.moved
  crossing : full.transport.moved ≤ offset → offset < fullNext.2.transport.moved →
    cutNext.1.error = some .shortRead ∧ next.1.error = some (.ofRead failure)
  otherwise : offset < full.transport.moved ∨ fullNext.2.transport.moved ≤ offset →
    next.1.error = cutNext.1.error

theorem truncated_step (hguarded : catalog.Guarded) {step : DecodeStep}
    (hsuits : step.Suits catalog) {cut actual full : Decoder} (hmore : more ≠ [])
    (hcut : Paired [] limit { kind := .unexpectedEnd } ending cut actual)
    (hfull : Paired more limit { kind := .unexpectedEnd } { kind := .unexpectedEnd } cut full ∧
        Paired more limit ending { kind := .unexpectedEnd } actual full ∨
      cut.Spent limit ∧ limit < full.transport.moved) :
    Truncated limit ending full (step.run catalog full) (step.run catalog cut)
      (step.run catalog actual) := by
  obtain ⟨hshown, hbeside⟩ := (run_beside hguarded hsuits hcut).level
  refine ⟨hshown, hbeside.poisoned, hbeside.moved, fun hle hlt => ?_, fun haside => ?_⟩
  -- the whole byte string shows that the step needs more than either of the others has
  · rcases hfull with ⟨hcutFull, hactualFull⟩ | ⟨-, hbehind⟩
    · exact ⟨((run_beside hguarded hsuits hcutFull).of_more hmore).1 hlt,
        ((run_beside hguarded hsuits hactualFull).of_more hmore).1 hlt⟩
    · exact absurd hle (Nat.not_le_of_lt hbehind)
  -- it shows that both have enough, or it has left them behind, poisoned
  · rcases hfull with ⟨hcutFull, hactualFull⟩ | ⟨hspent, -⟩
    · have hle := haside.resolve_left (Nat.not_lt_of_le hcutFull.beside.moved_le)
      rw [((run_beside hguarded hsuits hcutFull).of_more hmore).2 hle,
        ((run_beside hguarded hsuits hactualFull).of_more hmore).2 hle]
    · rw [run_eq_of_poisoned hguarded hsuits hcut hspent.poisoned]

/-- Where neither source halts, both hold the same bytes all along. -/
structure Level (limit : Nat) (plain actual : Decoder) : Prop where
  beside : Decoder.Beside [] limit { kind := .unexpectedEnd } { kind := .unexpectedEnd } plain
    actual
  rest_eq : actual.transport.rest = plain.transport.rest

/-- As long as both are at the same position, that stays so. -/
theorem Level.advance {plain actual next next' : Decoder} (h : Level limit plain actual)
    (hplain : plain.Advances next) (hactual : actual.Advances next')
    (hbeside : Decoder.Beside [] limit { kind := .unexpectedEnd } { kind := .unexpectedEnd } next
      next') : Level limit next next' := by
  obtain ⟨given, hrest, hmoved⟩ := hplain
  obtain ⟨given', hrest', hmoved'⟩ := hactual
  have hstart := h.beside.moved
  have hend := hbeside.moved
  rw [h.rest_eq, hrest] at hrest'
  -- as many bytes were given from the front of the same byte string
  exact ⟨hbeside, (List.append_inj_right hrest' (by omega)).symm⟩

/-- A step has the same answer on both, and leaves them with the same bytes. -/
theorem run_level (step : DecodeStep) {plain actual : Decoder} (h : Level limit plain actual) :
    (step.run catalog actual).1 = (step.run catalog plain).1 ∧
      Level limit (step.run catalog plain).2 (step.run catalog actual).2 := by
  have hplain := advances_run catalog step plain
  have hactual := advances_run catalog step actual
  have hends : Ends [] limit { kind := .unexpectedEnd } { kind := .unexpectedEnd }
      (step.run catalog plain) (step.run catalog actual) := by
    rw [run_eq_runWith, run_eq_runWith, h.rest_eq]
    exact step.runWith_beside _ h.beside
  generalize step.run catalog plain = answer at hends hplain ⊢
  generalize step.run catalog actual = answer' at hends hactual ⊢
  cases hends with
  | same _ hnext => exact ⟨rfl, h.advance hplain hactual hnext⟩
  | short _ _ hnext => exact ⟨rfl, h.advance hplain hactual hnext⟩
  | beyond _ _ hmore _ _ => exact absurd rfl hmore

/-- So has a run. -/
theorem after_level_of_unfailing (steps : List DecodeStep) {plain actual : Decoder}
    (h : Level limit plain actual) :
    Level limit (after catalog steps plain) (after catalog steps actual) := by
  induction steps generalizing plain actual with
  | nil => exact h
  | cons step steps ih => exact ih (step.run_level h).2

end DecodeStep

/-! ### New decoders -/

variable {schedule : Schedule} {wire : List UInt8}

theorem DecodeStep.level_new (h : schedule.Unfailing) (wire : List UInt8) (config : Config) :
    DecodeStep.Level wire.length { transport := { rest := wire }, config }
      { transport := { rest := wire, schedule }, config } := by
  refine ⟨⟨rfl, rfl, rfl, wire, ?_, ?_, Nat.zero_add _⟩, rfl⟩
  · exact Source.offers_rest Schedule.unfailing_default
  · rw [List.append_nil]
    exact Source.offers_rest h

/-- A source that is cut off at its halt offers what lies in front of the halt. -/
theorem Transport.Source.offers_take (hsteady : schedule.Steady) {halt : Halt}
    (hhalt : schedule.halt = some halt) {wire : List UInt8} (hlt : halt.offset < wire.length) :
    Source.Offers { rest := wire, schedule } (wire.take halt.offset) (Source.ending halt) := by
  refine ⟨hsteady, ⟨wire.drop halt.offset, (List.take_append_drop _ _).symm, ?_⟩, ?_, ?_⟩
  · exact fun hnone => by cases hnone.symm.trans hhalt
  · intro other hother
    obtain rfl := Option.some.inj (hother.symm.trans hhalt)
    rw [List.length_take_of_le (Nat.le_of_lt hlt), Nat.zero_add]
  · rw [hhalt]
    rfl

theorem DecodeStep.paired_new (hsteady : schedule.Steady) {halt : Halt}
    (hhalt : schedule.halt = some halt) (hlt : halt.offset < wire.length) (config : Config) :
    DecodeStep.Paired [] halt.offset { kind := .unexpectedEnd } (Source.ending halt)
        { transport := { rest := wire.take halt.offset }, config }
        { transport := { rest := wire, schedule }, config } ∧
      DecodeStep.Paired (wire.drop halt.offset) halt.offset { kind := .unexpectedEnd }
        { kind := .unexpectedEnd } { transport := { rest := wire.take halt.offset }, config }
        { transport := { rest := wire }, config } ∧
      DecodeStep.Paired (wire.drop halt.offset) halt.offset (Source.ending halt)
        { kind := .unexpectedEnd } { transport := { rest := wire, schedule }, config }
        { transport := { rest := wire }, config } := by
  have hcut : Source.Offers { rest := wire.take halt.offset } (wire.take halt.offset)
      { kind := .unexpectedEnd } := Source.offers_rest Schedule.unfailing_default
  have hactual := Source.offers_take hsteady hhalt hlt
  have hfull : Source.Offers { rest := wire } (wire.take halt.offset ++ wire.drop halt.offset)
      { kind := .unexpectedEnd } := by
    rw [List.take_append_drop]
    exact Source.offers_rest Schedule.unfailing_default
  have hlimit : 0 + (wire.take halt.offset).length = halt.offset := by
    rw [List.length_take_of_le (Nat.le_of_lt hlt), Nat.zero_add]
  have hle : (wire.take halt.offset).length ≤ wire.length := List.length_take_le' _ _
  refine ⟨⟨⟨rfl, rfl, rfl, _, hcut, ?_, hlimit⟩, hle⟩,
    ⟨⟨rfl, rfl, rfl, _, hcut, hfull, hlimit⟩, hle⟩,
    ⟨⟨rfl, rfl, rfl, _, hactual, hfull, hlimit⟩, Nat.le_refl _⟩⟩
  rwa [List.append_nil]

namespace Schema

variable {definitions : Definitions Schema} {config : Config}

/-- A datum is read from a source without a halt as from the bytes that it gives. -/
theorem fromSource_unfailing (h : schedule.Unfailing) (schema : Schema) :
    (schema.fromSource { rest := wire, schedule } config definitions).1 =
        schema.fromBytes wire config definitions ∧
      (schema.fromSource { rest := wire, schedule } config definitions).2.moved =
        (schema.fromSource { rest := wire } config definitions).2.moved := by
  have hends := Reading.run_beside (schema.decode definitions config.maxLength wire.length)
    (DecodeStep.level_new h wire config).beside
  simp only [fromBytes, fromSource]
  generalize Reading.run _ { transport := { rest := wire }, config } = answer at hends ⊢
  generalize Reading.run _ { transport := { rest := wire, schedule }, config } = answer' at hends ⊢
  cases hends with
  | same result hnext => cases result <;> exact ⟨rfl, hnext.moved⟩
  | short kept _ hnext => exact ⟨rfl, hnext.moved⟩
  | beyond _ _ hmore _ _ => exact absurd rfl hmore

/-- What is left of a source lies behind its position. -/
theorem rest_fromSource (schema : Schema) :
    (schema.fromSource { rest := wire, schedule } config definitions).2.rest =
      wire.drop (schema.fromSource { rest := wire, schedule } config definitions).2.moved := by
  have hadvances := (schema.decode definitions config.maxLength wire.length).advances_run
    { transport := { rest := wire, schedule }, config }
  simp only [fromSource]
  generalize Reading.run _ { transport := { rest := wire, schedule }, config } = answer
    at hadvances ⊢
  obtain ⟨given, hrest, hmoved⟩ := hadvances
  have hdrop : wire.drop answer.2.transport.moved = answer.2.transport.rest := by
    rw [show wire = _ from hrest, hmoved, Nat.zero_add, List.drop_left]
  obtain ⟨_ | datum, after⟩ := answer <;> exact hdrop.symm

end Schema

/-- A source that gives its bytes in pieces, with calls in between that are interrupted, is read
like the bytes themselves, whatever the steps. If it halts within them, it is read like the bytes in
front of the halt, except that the step that asks for more reports how the source ends. Without a
halt a datum is read as from memory, and where writers and readers agree, reading it uses up as many
bytes as writing it takes. -/
theorem decode_truncated (catalog : Catalog) (config : Config) (schedule : Schedule)
    (hsteady : schedule.Steady) (wire : List UInt8) :
    (schedule.halt = none → ∀ (before : List DecodeStep) (step : DecodeStep),
      let plain := DecodeStep.after catalog before { transport := { rest := wire }, config }
      let actual :=
        DecodeStep.after catalog before { transport := { rest := wire, schedule }, config }
      let plainNext := step.run catalog plain
      let next := step.run catalog actual
      next.1 = plainNext.1 ∧ next.2.poisoned = plainNext.2.poisoned ∧
        next.2.transport.moved = plainNext.2.transport.moved ∧
        next.2.transport.rest = plainNext.2.transport.rest) ∧
    (∀ halt, schedule.halt = some halt → halt.offset < wire.length → catalog.Guarded →
      ∀ (before : List DecodeStep) (step : DecodeStep),
      (∀ earlier ∈ before, earlier.Suits catalog) → step.Suits catalog →
      let full := DecodeStep.after catalog before { transport := { rest := wire }, config }
      let cut := DecodeStep.after catalog before
        { transport := { rest := wire.take halt.offset }, config }
      let actual :=
        DecodeStep.after catalog before { transport := { rest := wire, schedule }, config }
      DecodeStep.Truncated halt.offset (Source.ending halt) full (step.run catalog full)
        (step.run catalog cut) (step.run catalog actual)) ∧
    (schedule.halt = none → ∀ (definitions : Definitions Schema) (schema : Schema),
      let answer := schema.fromSource { rest := wire, schedule } config definitions
      let plainAnswer := schema.fromSource { rest := wire } config definitions
      answer.1 = schema.fromBytes wire config definitions ∧
        answer.2.moved = plainAnswer.2.moved ∧ answer.2.rest = wire.drop answer.2.moved ∧
        ((∀ name body, definitions.lookup name = some body → body.Symmetric) →
          schema.Symmetric → ∀ datum, answer.1 = .ok datum →
          ∃ bytes, schema.toBytes datum config definitions = .ok bytes ∧
            answer.2.moved = bytes.length)) := by
  refine ⟨fun hnone before step => ?_, fun halt hhalt hlt hguarded before step hbefore hstep => ?_,
    fun hnone definitions schema => ?_⟩
  · have hlevel : DecodeStep.Level wire.length
        (DecodeStep.after catalog before { transport := { rest := wire }, config })
        (DecodeStep.after catalog before { transport := { rest := wire, schedule }, config }) :=
      DecodeStep.after_level_of_unfailing before (DecodeStep.level_new ⟨hnone, hsteady⟩ wire config)
    obtain ⟨hanswer, hnext⟩ := step.run_level hlevel
    exact ⟨hanswer, hnext.beside.poisoned, hnext.beside.moved, hnext.rest_eq⟩
  · have hmore : wire.drop halt.offset ≠ [] := by
      simpa using hlt
    obtain ⟨hcut, hcutFull, hactualFull⟩ := DecodeStep.paired_new hsteady hhalt hlt config
    -- the run on the whole byte string tells which step it is that gets across the halt
    refine DecodeStep.truncated_step hguarded hstep hmore
      (DecodeStep.after_level hguarded hbefore hcut) ?_
    rcases DecodeStep.after_ahead hguarded hbefore hmore hcutFull with hcutFull | hstopped
    · rcases DecodeStep.after_ahead hguarded hbefore hmore hactualFull with hactualFull | hstopped
      · exact .inl ⟨hcutFull, hactualFull⟩
      · exact absurd hcutFull.beside.moved_le (Nat.not_le_of_lt hstopped.2)
    · exact .inr hstopped
  · obtain ⟨hresult, hmoved⟩ := Schema.fromSource_unfailing ⟨hnone, hsteady⟩ schema
    refine ⟨hresult, hmoved, schema.rest_fromSource, fun hdefinitions hsymmetric datum hdatum => ?_⟩
    exact Schema.toBytes_of_fromSource hdefinitions hsymmetric hdatum

/-- A chain of integers behind an integer, from a source that gives three bytes a call, interrupts
the second one, and fails after six bytes. Without the failure the bytes are also an integer and an
optional one. -/
theorem decode_truncated_chain :
    let failure : Failure := { kind := .brokenPipe }
    let whole : Schedule := { limit := fun _ => some 3, interrupts := [1] }
    let schedule : Schedule := { whole with halt := some ⟨6, some failure⟩ }
    let catalog : Catalog :=
      { types := [("chain", .struct [.int32, .optional (.ref "chain")])] }
    let wire : List UInt8 := [0, 0, 0, 7, 0, 0, 0, 1, 0, 0, 0, 0]
    let step : DecodeStep := .typed (.ref "chain") none
    let cut := DecodeStep.after catalog [.get .int32] { transport := { rest := wire.take 6 } }
    let actual := DecodeStep.after catalog [.get .int32] { transport := { rest := wire, schedule } }
    let schema : Schema := .tuple 2 [.int32, .option .int32]
    let datum : Datum := .tuple [.int32 7, .present (.int32 0)]
    let answer := schema.fromSource { rest := wire, schedule := whole }
    schedule.Steady ∧ catalog.Guarded ∧
      (step.run catalog cut).1.error = some .shortRead ∧
      (step.run catalog actual).1.error = some (.transport failure) ∧
      (step.run catalog actual).2.transport.moved = (step.run catalog cut).2.transport.moved ∧
      schema.Symmetric ∧ answer.1 = .ok datum ∧
      ∃ bytes, schema.toBytes datum = .ok bytes ∧ answer.2.moved = bytes.length := by
  intro failure whole schedule catalog wire step cut actual schema datum answer
  have hsteady : schedule.Steady := fun _ hzero => by cases hzero
  have hguarded : catalog.Guarded := by
    refine ⟨fun name body hbody => ?_, fun name body hbody => by cases hbody⟩
    have hname : name = "chain" := by
      by_contra hne
      simp [catalog, List.lookup_cons, beq_false_of_ne hne] at hbody
    obtain rfl := hname
    exact ⟨_, rfl, fun _ hmem => absurd hmem List.not_mem_nil⟩
  have htruncated := (decode_truncated catalog {} schedule hsteady wire).2.1 ⟨6, some failure⟩ rfl
    (by decide) hguarded [.get .int32] step (by simp [DecodeStep.Suits]) trivial
  have hbefore : (DecodeStep.after catalog [.get .int32]
      { transport := { rest := wire } }).transport.moved = 4 := by decide +kernel
  have hstep : (DecodeStep.after catalog [.get .int32, step]
      { transport := { rest := wire } }).transport.moved = 12 := by decide +kernel
  have hcrossing := htruncated.crossing (hbefore.trans_le (by decide))
    ((show 6 < 12 by decide).trans_eq hstep.symm)
  obtain ⟨hanswer, -, -, hlength⟩ :=
    (decode_truncated catalog {} whole (fun _ hzero => by cases hzero) wire).2.2 rfl [] schema
  have hread : schema.fromBytes wire = .ok datum := by decide +kernel
  have hsymmetric : schema.Symmetric := by simp [schema, Schema.Symmetric, Schema.AllSymmetric]
  have hdatum := hanswer.trans hread
  exact ⟨hsteady, hguarded, hcrossing.1, hcrossing.2, htruncated.moved, hsymmetric, hdatum,
    hlength (fun _ _ hbody => by cases hbody) hsymmetric datum hdatum⟩

end Xdr
