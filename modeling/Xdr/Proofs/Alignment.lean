import Xdr.Proofs.Delivery.Decoding
import Xdr.Proofs.Writing

/-!
# Alignment

Whatever is written or read, and however it ends, a context stays on the boundary of a word: every
item is a number of whole words, every request asks for whole words, and refusals move nothing. Only
a transport that stops can leave a context in the middle of a word. The statement to read first is
`aligned_after`.
-/

namespace Xdr

open Transport

/-- Every item fills whole words, with its length and its padding where it has them. -/
theorem Item.Primitive.length_image_mod {item : Item} (h : item.Primitive) :
    item.image.length % 4 = 0 := by
  cases h with
  | fixedOpaque data => exact length_padded_mod data
  | sized kind data =>
      have hpadded := length_padded_mod data
      simp only [Item.sized, List.length_append, length_wordImage]
      omega
  | int32 | uint32 | float => exact congrArg (· % 4) (length_wordImage _)
  | int64 | uint64 | double => exact congrArg (· % 4) (length_hyperImage _)

/-! ### Encoders -/

namespace Plan

/-- The items of a regular plan fill whole words. -/
theorem Regular.length_image_mod {plan : Plan} (h : plan.Regular) : plan.image.length % 4 = 0 := by
  have hitems := h.items
  unfold image
  generalize plan.items = items at hitems
  induction items with
  | nil => rfl
  | cons item items ih =>
      obtain ⟨hitem, hothers⟩ := List.forall_mem_cons.mp hitems
      have hfront := hitem.length_image_mod
      have hback := ih hothers
      rw [List.flatMap_cons, List.length_append]
      omega

/-- A regular plan writes whole words to a sink that takes everything, be the encoder usable or
not. -/
theorem Regular.aligned_run {plan : Plan} (h : plan.Regular) {encoder : Encoder}
    (hunfailing : encoder.transport.schedule.Unfailing) :
    (plan.run encoder).2.transport.schedule.Unfailing ∧
      ∃ written, (plan.run encoder).2.transport.taken.toList =
        encoder.transport.taken.toList ++ written ∧ written.length % 4 = 0 := by
  cases hpoisoned : encoder.poisoned with
  | true =>
      have hfrozen := plan.frozen_run (⟨hpoisoned, rfl⟩ : encoder.Frozen encoder.transport)
      rw [hfrozen.transport_eq]
      exact ⟨hunfailing, [], (List.append_nil _).symm, rfl⟩
  | false =>
      obtain ⟨hafter, htaken⟩ := plan.taken_run ⟨hpoisoned, hunfailing⟩
      exact ⟨hafter, plan.image, htaken, h.length_image_mod⟩

end Plan

namespace EncodeStep

variable (catalog : Catalog)

/-- A step carries out a regular plan, or raises a fault. -/
theorem run_eq (step : EncodeStep) (encoder : Encoder) :
    (∃ plan : Plan, plan.Regular ∧ step.run catalog encoder = plan.run encoder) ∨
      ∃ error, step.run catalog encoder = (.error error, encoder.fault .user error) := by
  cases step with
  | typed type value => exact .inl ⟨_, (Ty.regular_filter _ _ type).encode value, rfl⟩
  | put call => exact .inl ⟨_, call.regular_plan, rfl⟩
  | datum schema content => exact .inl ⟨_, Schema.regular_plan _ _ schema content, rfl⟩
  | fault error => exact .inr ⟨error, rfl⟩

/-- A step writes whole words to a sink that takes everything. -/
theorem aligned_run (step : EncodeStep) {encoder : Encoder}
    (hunfailing : encoder.transport.schedule.Unfailing) :
    (step.run catalog encoder).2.transport.schedule.Unfailing ∧
      ∃ written, (step.run catalog encoder).2.transport.taken.toList =
        encoder.transport.taken.toList ++ written ∧ written.length % 4 = 0 := by
  rcases step.run_eq catalog encoder with ⟨plan, hregular, hrun⟩ | ⟨error, hrun⟩
  · rw [hrun]
    exact hregular.aligned_run hunfailing
  · rw [hrun]
    exact ⟨hunfailing, [], (List.append_nil _).symm, rfl⟩

end EncodeStep

/-! ### Decoders -/

namespace Reading

variable {κ α : Type}

/-- A regular reading reads whole words, unless one of its requests fails. -/
theorem aligned_run {reading : Reading κ α} (hregular : reading.Regular) (decoder : Decoder) :
    (reading.run decoder).2.transport.moved % 4 = decoder.transport.moved % 4 ∨
      ∃ failure kept, (reading.run decoder).1 = .error ⟨.ofRead failure, kept⟩ := by
  induction reading generalizing decoder with
  | done value => exact .inl rfl
  | refuse refusal kept => exact .inl (by rw [run_refuse, decoder.refuse_transport])
  | request operation count untouched kept next ih =>
      obtain ⟨hcount, hnext⟩ := hregular
      obtain ⟨given, -, hmoved, -, hresult⟩ := decoder.transport.readExact_spec count
      rw [run_request, Context.useTransport_eq]
      split
      · exact .inl rfl
      · generalize decoder.transport.readExact count = answer at hmoved hresult ⊢
        obtain ⟨failure | bytes, source⟩ := answer
        · exact .inr ⟨failure, kept, rfl⟩
        · refine (ih bytes (hnext bytes) { decoder with transport := source }).imp_left fun h => ?_
          have hgiven : given.length = count := hresult.2
          have hsource : source.moved = decoder.transport.moved + given.length := hmoved
          rw [h]
          show source.moved % 4 = _
          omega
  | note event next ih => exact ih hregular (decoder.record event)
  | mark part next ih => exact ih hregular decoder
  | checkPadding operation padding kept next ih =>
      rw [run_checkPadding]
      split
      · exact ih hregular decoder
      · exact .inl rfl
  | later next ih => exact ih () hregular decoder
  | andThen first keep next ihFirst ihNext =>
      have hfirst := ihFirst hregular.1 decoder
      rw [run_andThen]
      generalize first.run decoder = answer at hfirst ⊢
      obtain ⟨stopped | value, between⟩ := answer
      · refine hfirst.imp_right fun ⟨failure, kept, hstopped⟩ => ⟨failure, keep kept, ?_⟩
        rw [Except.error.inj hstopped]
        rfl
      · rcases hfirst with hfirst | ⟨failure, kept, hstopped⟩
        · refine (ihNext value (hregular.2 value) between).imp_left fun h => h.trans hfirst
        · cases hstopped

end Reading

namespace DecodeStep

variable {catalog : Catalog}

/-- The step has hit the end of its source, or the source has failed. A fault that the owner of the
decoder raises is neither, whatever its error. -/
def Broken : DecodeStep → DecodeAnswer → Prop
  | fault _, _ => False
  | _, answer => ∃ failure, answer.error = some (.ofRead failure)

/-- No step of the run hits the end of the source or a failure of it. -/
def Unbroken (catalog : Catalog) : List DecodeStep → Decoder → Prop
  | [], _ => True
  | step :: steps, decoder =>
      ¬ step.Broken (step.run catalog decoder).1 ∧
        Unbroken catalog steps (step.run catalog decoder).2

/-- A step reads whole words, unless it breaks off. -/
theorem aligned_run {step : DecodeStep} {decoder : Decoder}
    (h : ¬ step.Broken (step.run catalog decoder).1) :
    (step.run catalog decoder).2.transport.moved % 4 = decoder.transport.moved % 4 := by
  have haligned : ∀ {κ α : Type} {reading : Reading κ α} {keep : κ → Option Shown}
      {deliver : α → Shown}, reading.Regular →
      (¬ ∃ failure, (DecodeAnswer.ofResult keep deliver (reading.run decoder).1).error =
        some (.ofRead failure)) →
      (reading.run decoder).2.transport.moved % 4 = decoder.transport.moved % 4 := by
    intro κ α reading keep deliver hregular hquiet
    rcases Reading.aligned_run hregular decoder with haligned | ⟨failure, kept, hstopped⟩
    · exact haligned
    · exact absurd ⟨failure, by rw [hstopped]; rfl⟩ hquiet
  cases step with
  | typed type target => exact haligned ((Ty.regular_filter _ _ type).decode _) h
  | get call => exact haligned call.regular_reading h
  | datum schema => exact haligned (Schema.regular_reading _ _ schema) h
  | fault error => rfl

/-- Any number of steps read whole words, unless one of them breaks off. -/
theorem moved_after_mod {steps : List DecodeStep} {decoder : Decoder}
    (h : Unbroken catalog steps decoder) :
    (after catalog steps decoder).transport.moved % 4 = decoder.transport.moved % 4 := by
  induction steps generalizing decoder with
  | nil => rfl
  | cons step steps ih => exact (ih h.2).trans (aligned_run h.1)

end DecodeStep

/-- Whatever steps are run on an encoder whose sink takes everything, and whatever errors they end
with, whole words have been written. Whatever steps are run on a decoder, whole words have been
read, unless a step has hit the end of the source or a failure of it. -/
theorem aligned_after (catalog : Catalog) :
    (∀ (encoder : Encoder) (steps : List EncodeStep), encoder.transport.schedule.Unfailing →
      ∃ written, (EncodeStep.after catalog steps encoder).transport.taken.toList =
        encoder.transport.taken.toList ++ written ∧ written.length % 4 = 0) ∧
    ∀ (decoder : Decoder) (steps : List DecodeStep), DecodeStep.Unbroken catalog steps decoder →
      ∃ consumed, decoder.transport.rest =
          consumed ++ (DecodeStep.after catalog steps decoder).transport.rest ∧
        (DecodeStep.after catalog steps decoder).transport.moved =
          decoder.transport.moved + consumed.length ∧ consumed.length % 4 = 0 := by
  constructor
  · intro encoder steps hunfailing
    induction steps generalizing encoder with
    | nil => exact ⟨[], (List.append_nil _).symm, rfl⟩
    | cons step steps ih =>
        obtain ⟨hnext, front, hfront, hmod⟩ := step.aligned_run catalog hunfailing
        obtain ⟨back, hback, hmod'⟩ := ih _ hnext
        refine ⟨front ++ back, ?_, ?_⟩
        · rw [← List.append_assoc, ← hfront]
          exact hback
        · rw [List.length_append]
          omega
  · intro decoder steps hunbroken
    obtain ⟨consumed, hrest, hmoved⟩ := @DecodeStep.advances_after catalog steps decoder
    have hmod := DecodeStep.moved_after_mod hunbroken
    exact ⟨consumed, hrest, hmoved, by omega⟩

/-- A sink that takes three bytes a call gets twelve bytes of a struct whose second part is no
member of the enumeration, and nothing of the step after it. A string behind a boolean is cut off
by padding that is not zero, and the words behind it stay where they are. -/
theorem aligned_after_refusals :
    let parts : Ty := .struct [.bytes 8, .enumeration [1]]
    let writes : List EncodeStep :=
      [.typed parts (.list [.bytes [1, 2, 3, 4, 5], .int32 2]), .put (.bool true)]
    let encoder : Encoder := { transport := { schedule := { limit := fun _ => some 3 } } }
    let written := EncodeStep.after {} writes encoder
    let reads : List DecodeStep := [.get .bool, .datum .string, .get .int32]
    let decoder : Decoder :=
      { transport := { rest := [0, 0, 0, 1, 0, 0, 0, 1, 65, 0, 7, 0, 0, 0, 0, 9] } }
    let read := DecodeStep.after {} reads decoder
    encoder.transport.schedule.Unfailing ∧
      (∃ image, written.transport.taken.toList = encoder.transport.taken.toList ++ image ∧
        image.length % 4 = 0) ∧
      written.transport.taken.size = 12 ∧ DecodeStep.Unbroken {} reads decoder ∧
      (∃ consumed, decoder.transport.rest = consumed ++ read.transport.rest ∧
        read.transport.moved = decoder.transport.moved + consumed.length ∧
        consumed.length % 4 = 0) ∧
      read.transport.moved = 12 := by
  intro parts writes encoder written reads decoder read
  have hunfailing : encoder.transport.schedule.Unfailing := ⟨rfl, fun _ h => by cases h⟩
  have hpadding : ∀ failure, Error.ofRead failure ≠ .invalidPadding := by
    intro failure h
    unfold Error.ofRead at h
    split at h <;> cases h
  have hpoisoned : ∀ failure, Error.ofRead failure ≠ .poisoned := by
    intro failure h
    unfold Error.ofRead at h
    split at h <;> cases h
  have hunbroken : DecodeStep.Unbroken {} reads decoder := by
    refine ⟨fun ⟨failure, h⟩ => ?_, fun ⟨failure, h⟩ => ?_, fun ⟨failure, h⟩ => ?_, trivial⟩
    · have hanswer : (DecodeStep.run {} (.get .bool) decoder).1.error = none := by decide +kernel
      cases hanswer.symm.trans h
    · have hanswer : (DecodeStep.run {} (.datum .string)
          (DecodeStep.after {} [.get .bool] decoder)).1.error = some .invalidPadding := by
        decide +kernel
      exact hpadding failure (Option.some.inj (h.symm.trans hanswer))
    · have hanswer : (DecodeStep.run {} (.get .int32)
          (DecodeStep.after {} [.get .bool, .datum .string] decoder)).1.error =
          some .poisoned := by decide +kernel
      exact hpoisoned failure (Option.some.inj (h.symm.trans hanswer))
  have hsize : (EncodeStep.after {} writes encoder).transport.taken.size = 12 := by decide +kernel
  have hmoved : (DecodeStep.after {} reads decoder).transport.moved = 12 := by decide +kernel
  exact ⟨hunfailing, (aligned_after {}).1 encoder writes hunfailing, hsize, hunbroken,
    (aligned_after {}).2 decoder reads hunbroken, hmoved⟩

end Xdr
