import Xdr.Plan
import Xdr.Proofs.Transport

/-!
# What a plan writes

A plan that ends without a refusal writes the images of its items (`run_of_writes`), and one that
ends with a refusal answers with its error (`run_of_refusal`), on every encoder that can go on.
-/

namespace Xdr

/-- What an item does on an encoder that is not poisoned is what its write does, apart from the
event that is logged in front of it. -/
theorem Item.emit_usable (item : Item) {encoder : Encoder} (husable : encoder.poisoned = false) :
    ∃ noted : Encoder, noted.transport = encoder.transport ∧ noted.poisoned = false ∧
      noted.config = encoder.config ∧ item.emit encoder =
        match encoder.transport.writeAll item.image with
        | (.ok (), sink) => (.ok (), { noted with transport := sink })
        | (.error failure, sink) => (.error (.ofWrite failure),
            Context.fault { noted with transport := sink } item.operation (.ofWrite failure)) := by
  have hnoted : ∃ noted, noted = item.event.elim encoder encoder.record ∧
      noted.transport = encoder.transport ∧ noted.poisoned = false ∧
      noted.config = encoder.config := by
    refine ⟨_, rfl, ?_⟩
    cases item.event with
    | none => exact ⟨rfl, husable, rfl⟩
    | some event => exact ⟨rfl, husable, rfl⟩
  obtain ⟨noted, hnoted, htransport, hpoisoned, hconfig⟩ := hnoted
  refine ⟨noted, htransport, hpoisoned, hconfig, ?_⟩
  simp only [emit, if_neg (show ¬ encoder.poisoned = true by simp [husable]), ← hnoted,
    Context.useTransport_eq, htransport]
  rcases encoder.transport.writeAll item.image with ⟨_ | _, sink⟩ <;> rfl

/-- An item is written as a whole, and the encoder can go on. -/
theorem Item.emit_ready (item : Item) {encoder : Encoder} (hready : encoder.Ready) :
    ∃ after, item.emit encoder = (.ok (), after) ∧
      after.transport.taken.toList = encoder.transport.taken.toList ++ item.image ∧
      Encoder.Ready after ∧ after.config = encoder.config := by
  obtain ⟨noted, _, hpoisoned, hconfig, hemit⟩ := item.emit_usable hready.usable
  obtain ⟨sink, hwrite, hschedule, htaken⟩ :=
    encoder.transport.writeAll_unfailing item.image hready.unfailing
  refine ⟨{ noted with transport := sink }, ?_, htaken,
    ⟨hpoisoned, hschedule ▸ hready.unfailing⟩, hconfig⟩
  rw [hemit, hwrite]

namespace Plan

/-- The plan has no refusal, and its items have these bytes. -/
def Writes (plan : Plan) (bytes : List UInt8) : Prop :=
  plan.refusal = none ∧ plan.image = bytes

theorem writes_empty : empty.Writes [] :=
  ⟨rfl, rfl⟩

theorem writes_one (item : Item) : (one item).Writes item.image :=
  ⟨rfl, by simp [image, one]⟩

/-- One item writes the bytes that its image is equal to. -/
theorem writes_item (item : Item) {bytes : List UInt8} (h : item.image = bytes) :
    (one item).Writes bytes :=
  h ▸ writes_one item

/-- One plan after the other writes the bytes of the one, then those of the other. -/
theorem Writes.append {first second : Plan} {front back : List UInt8} (hfirst : first.Writes front)
    (hsecond : second.Writes back) : (first ++ second).Writes (front ++ back) := by
  obtain ⟨items, refusal⟩ := first
  obtain ⟨hnone, himage⟩ := hfirst
  cases hnone
  exact ⟨hsecond.1, by rw [← himage, ← hsecond.2]; exact List.flatMap_append⟩

variable {plan : Plan} {encoder : Encoder}

/-- Items are written one after the other. -/
theorem emitAll_ready (items : List Item) {encoder : Encoder} (hready : encoder.Ready) :
    ∃ after, emitAll items encoder = (.ok (), after) ∧
      after.transport.taken.toList =
        encoder.transport.taken.toList ++ items.flatMap Item.image ∧
      Encoder.Ready after ∧ after.config = encoder.config := by
  induction items generalizing encoder with
  | nil => exact ⟨encoder, rfl, (List.append_nil _).symm, hready, rfl⟩
  | cons item items ih =>
      obtain ⟨between, hemit, htaken, hbetween, hconfig⟩ := item.emit_ready hready
      obtain ⟨after, hrest, hafter, hlast, hsame⟩ := ih hbetween
      refine ⟨after, ?_, ?_, hlast, hsame.trans hconfig⟩
      · simp only [emitAll, hemit, hrest]
      · rw [hafter, htaken, List.flatMap_cons, List.append_assoc]

/-- The bytes of a plan are written, whether or not a refusal follows them. -/
theorem taken_run (plan : Plan) (hready : encoder.Ready) :
    (plan.run encoder).2.transport.schedule.Unfailing ∧
      (plan.run encoder).2.transport.taken.toList =
        encoder.transport.taken.toList ++ plan.image := by
  obtain ⟨after, hitems, htaken, hafter, -⟩ := emitAll_ready plan.items hready
  have htransport : (plan.run encoder).2.transport = after.transport := by
    simp only [run, hitems]
    cases plan.refusal with
    | none => rfl
    | some refusal => exact after.refuse_transport refusal
  rw [htransport]
  exact ⟨hafter.unfailing, htaken⟩

/-- Without a refusal, the bytes of a plan are written and the encoder can go on. -/
theorem run_of_writes {bytes : List UInt8} (hready : encoder.Ready) (h : plan.Writes bytes) :
    ∃ after, plan.run encoder = (.ok (), after) ∧
      after.transport.taken.toList = encoder.transport.taken.toList ++ bytes ∧
      Encoder.Ready after ∧ after.config = encoder.config := by
  obtain ⟨after, hitems, htaken, hafter, hconfig⟩ := emitAll_ready plan.items hready
  refine ⟨after, ?_, ?_, hafter, hconfig⟩
  · simp only [run, hitems, h.1]
  · rw [htaken, ← h.2, image]

/-- With a refusal, the answer is its error. -/
theorem run_of_refusal {refusal : Refusal} (hready : encoder.Ready)
    (h : plan.refusal = some refusal) : (plan.run encoder).1 = .error refusal.error := by
  obtain ⟨after, hitems, _, hafter, _⟩ := emitAll_ready plan.items hready
  simp only [run, hitems, h, Context.refuse, hafter.usable, Bool.and_false]
  cases refusal.fault <;> rfl

end Plan

end Xdr
