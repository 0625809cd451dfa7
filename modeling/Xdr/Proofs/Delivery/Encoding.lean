import Xdr.Message
import Xdr.Proofs.Delivery
import Xdr.Proofs.Poison
import Xdr.Proofs.Writing

/-!
# Encoding to any sink

What a sink takes of a run is what a sink without limits takes of the same run, up to the halt if
there is one. Two encoders, one on each sink, are either side by side (`Encoder.Beside`), or the
first has gone on beyond the halt, where the second has stopped for good (`Encoder.Beyond`). The
statement to read first is `encode_truncated`.
-/

namespace Xdr

open Transport

namespace Encoder

/-- The second encoder has written a leading part of what the first has written, on a sink with the
same schedule as at the start. -/
structure Extends (before after : Encoder) : Prop where
  taken : ∃ more, after.transport.taken.toList = before.transport.taken.toList ++ more
  schedule : after.transport.schedule = before.transport.schedule

theorem Extends.refl (encoder : Encoder) : encoder.Extends encoder :=
  ⟨⟨[], (List.append_nil _).symm⟩, rfl⟩

theorem Extends.trans {first second third : Encoder} (h : first.Extends second)
    (hnext : second.Extends third) : first.Extends third := by
  obtain ⟨more, hmore⟩ := h.taken
  obtain ⟨others, hothers⟩ := hnext.taken
  refine ⟨⟨more ++ others, ?_⟩, hnext.schedule.trans h.schedule⟩
  rw [hothers, hmore, List.append_assoc]

/-- Two encoders that have written the same and are as usable as one another. The sink of the first
takes everything, and that of the second has not passed its halt. -/
structure Beside (schedule : Schedule) (ideal actual : Encoder) : Prop where
  config : actual.config = ideal.config
  poisoned : actual.poisoned = ideal.poisoned
  taken : actual.transport.taken = ideal.transport.taken
  unfailing : ideal.transport.schedule.Unfailing
  schedule_eq : actual.transport.schedule = schedule
  steady : schedule.Steady
  opened : actual.transport.Open

/-- The second encoder has stopped for good at the halt of its sink, and the first has written
more. -/
structure Beyond (halt : Halt) (ideal actual : Encoder) : Prop where
  poisoned : actual.poisoned = true
  taken : ∃ more, more ≠ [] ∧
    ideal.transport.taken.toList = actual.transport.taken.toList ++ more
  halted : actual.transport.taken.size = halt.offset

/-- What the first encoder writes afterwards makes no difference. -/
theorem Beyond.extend {halt : Halt} {ideal after actual : Encoder} (h : Beyond halt ideal actual)
    (hafter : ideal.Extends after) : Beyond halt after actual := by
  obtain ⟨more, hmore, htaken⟩ := h.taken
  obtain ⟨others, hothers⟩ := hafter.taken
  refine ⟨h.poisoned, ⟨more ++ others, ?_, ?_⟩, h.halted⟩
  · simp [hmore]
  · rw [hothers, htaken, List.append_assoc]

/-- So does what the second encoder refuses from then on. -/
theorem Beyond.freeze {halt : Halt} {ideal actual after : Encoder} (h : Beyond halt ideal actual)
    (hafter : after.Frozen actual.transport) : Beyond halt ideal after := by
  obtain ⟨more, hmore, htaken⟩ := h.taken
  refine ⟨hafter.poisoned, ⟨more, hmore, ?_⟩, ?_⟩
  · rw [hafter.transport_eq, htaken]
  · rw [hafter.transport_eq, h.halted]

/-- The second sink holds what the first took up to the halt. -/
theorem Beyond.taken_eq {halt : Halt} {ideal actual : Encoder} (h : Beyond halt ideal actual) :
    actual.transport.taken.toList = ideal.transport.taken.toList.take halt.offset := by
  obtain ⟨more, -, htaken⟩ := h.taken
  rw [htaken, List.take_left']
  exact h.halted

theorem Beyond.lt {halt : Halt} {ideal actual : Encoder} (h : Beyond halt ideal actual) :
    halt.offset < ideal.transport.taken.size := by
  obtain ⟨more, hmore, htaken⟩ := h.taken
  have hlength := congrArg List.length htaken
  have hpositive := List.length_pos_iff.mpr hmore
  have hhalted := h.halted
  rw [List.length_append, Array.length_toList, Array.length_toList] at hlength
  omega

/-- How an operation ends on two encoders that were side by side: in the same way, or in front of
the end of what the first writes. -/
inductive Ends (schedule : Schedule) :
    Except Error Unit × Encoder → Except Error Unit × Encoder → Prop where
  | same (answer) {ideal actual} : Beside schedule ideal actual →
      Ends schedule (answer, ideal) (answer, actual)
  | cut (answer) {halt ideal actual} : schedule.halt = some halt → Beyond halt ideal actual →
      Ends schedule (answer, ideal) (.error (.ofWrite (Sink.ending halt)), actual)

end Encoder

/-! ### Items and plans -/

theorem Item.extends_emit (item : Item) (encoder : Encoder) :
    encoder.Extends (item.emit encoder).2 := by
  by_cases hpoisoned : encoder.poisoned = true
  · have hemit : item.emit encoder = (.error .poisoned, encoder) := if_pos hpoisoned
    rw [hemit]
    exact .refl encoder
  · obtain ⟨noted, -, -, -, hemit⟩ := item.emit_usable (by simpa using hpoisoned)
    obtain ⟨moved, _, -, htaken, -, hschedule⟩ := encoder.transport.writeAll_spec item.image
    rw [hemit]
    generalize encoder.transport.writeAll item.image = written at htaken hschedule ⊢
    rcases written with ⟨_ | _, sink⟩ <;> exact ⟨⟨moved, htaken⟩, hschedule⟩

/-- An item comes through to both sinks, or it takes the second to its halt. -/
theorem Item.emit_beside (item : Item) {schedule : Schedule} {ideal actual : Encoder}
    (h : Encoder.Beside schedule ideal actual) :
    Encoder.Ends schedule (item.emit ideal) (item.emit actual) := by
  by_cases hpoisoned : ideal.poisoned = true
  · have hideal : item.emit ideal = (.error .poisoned, ideal) := if_pos hpoisoned
    have hactual : item.emit actual = (.error .poisoned, actual) :=
      if_pos (h.poisoned.trans hpoisoned)
    rw [hideal, hactual]
    exact .same _ h
  -- the first sink takes the image as a whole, and the second a leading part of it
  have husable : ideal.poisoned = false := by simpa using hpoisoned
  obtain ⟨after, hideal, htaken, hready, hconfig⟩ := item.emit_ready ⟨husable, h.unfailing⟩
  obtain ⟨noted, -, hnoted, hnotedConfig, hactual⟩ := item.emit_usable (h.poisoned.trans husable)
  obtain ⟨moved, rest, hsplit, hmoved, hrest, hschedule⟩ :=
    actual.transport.writeAll_spec item.image
  have hwrite := Sink.writeAll_steady item.image (h.schedule_eq ▸ h.steady) h.opened
  rw [hideal, hactual]
  generalize actual.transport.writeAll item.image = written at hmoved hrest hschedule hwrite ⊢
  obtain ⟨answer, sink⟩ := written
  rcases hwrite with ⟨rfl, hopen⟩ | ⟨halt, hhalt, rfl, hlt, hsize⟩
  · obtain rfl := hrest.mp rfl
    refine .same _ ⟨?_, ?_, ?_, hready.unfailing, hschedule.trans h.schedule_eq, h.steady, hopen⟩
    · exact hnotedConfig.trans (h.config.trans hconfig.symm)
    · exact hnoted.trans hready.usable.symm
    · refine Array.toList_inj.mp (hmoved.trans ?_)
      rw [htaken, hsplit, h.taken, List.append_nil]
  · refine .cut _ (h.schedule_eq ▸ hhalt) ⟨rfl, ⟨rest, fun hnone => ?_, ?_⟩, hsize⟩
    · cases hrest.mpr hnone
    · rw [htaken, hsplit, ← List.append_assoc, ← h.taken, ← hmoved]
      rfl

/-- A refusal looks at the poison flag and leaves the transport alone. -/
theorem Encoder.Beside.refuse {schedule : Schedule} {ideal actual : Encoder}
    (h : Encoder.Beside schedule ideal actual) (refusal : Refusal) :
    (actual.refuse refusal).1 = (ideal.refuse refusal).1 ∧
      Encoder.Beside schedule (ideal.refuse refusal).2 (actual.refuse refusal).2 := by
  obtain ⟨hconfig, hpoisoned, htaken, hunfailing, hschedule, hsteady, hopen⟩ := h
  unfold Context.refuse
  rw [hpoisoned]
  split
  · exact ⟨rfl, hconfig, hpoisoned, htaken, hunfailing, hschedule, hsteady, hopen⟩
  · split
    · exact ⟨rfl, hconfig, hpoisoned, htaken, hunfailing, hschedule, hsteady, hopen⟩
    · exact ⟨rfl, hconfig, rfl, htaken, hunfailing, hschedule, hsteady, hopen⟩

theorem Encoder.extends_refuse (encoder : Encoder) (refusal : Refusal) :
    encoder.Extends (encoder.refuse refusal).2 := by
  have htransport := encoder.refuse_transport refusal
  exact ⟨⟨[], by rw [htransport, List.append_nil]⟩, by rw [htransport]⟩

namespace Plan

variable {schedule : Schedule} {ideal actual : Encoder}

theorem extends_emitAll (items : List Item) (encoder : Encoder) :
    encoder.Extends (emitAll items encoder).2 := by
  induction items generalizing encoder with
  | nil => exact .refl encoder
  | cons item items ih =>
      have hitem := item.extends_emit encoder
      rw [emitAll]
      generalize item.emit encoder = written at hitem ⊢
      rcases written with ⟨_ | _, written⟩
      · exact hitem
      · exact hitem.trans (ih written)

theorem emitAll_beside (items : List Item) (h : Encoder.Beside schedule ideal actual) :
    Encoder.Ends schedule (emitAll items ideal) (emitAll items actual) := by
  induction items generalizing ideal actual with
  | nil => exact .same _ h
  | cons item items ih =>
      have hitem := item.emit_beside h
      rw [emitAll, emitAll]
      generalize item.emit ideal = first at hitem ⊢
      generalize item.emit actual = second at hitem ⊢
      cases hitem with
      | same answer hnext =>
          cases answer with
          | error error => exact .same _ hnext
          | ok => exact ih hnext
      | @cut answer halt between _ hhalt hbeyond =>
          cases answer with
          | error error => exact .cut _ hhalt hbeyond
          | ok => exact .cut _ hhalt (hbeyond.extend (extends_emitAll items between))

theorem extends_run (plan : Plan) (encoder : Encoder) : encoder.Extends (plan.run encoder).2 := by
  obtain ⟨items, refusal⟩ := plan
  have hitems := extends_emitAll items encoder
  simp only [run]
  generalize emitAll items encoder = written at hitems ⊢
  rcases written with ⟨_ | _, written⟩
  · exact hitems
  · cases refusal with
    | none => exact hitems
    | some refusal => exact hitems.trans (written.extends_refuse refusal)

/-- A plan is carried out alike on both encoders, or only a part of it gets through to the second
sink. -/
theorem run_beside (plan : Plan) (h : Encoder.Beside schedule ideal actual) :
    Encoder.Ends schedule (plan.run ideal) (plan.run actual) := by
  obtain ⟨items, refusal⟩ := plan
  have hitems := emitAll_beside items h
  simp only [run]
  generalize emitAll items ideal = first at hitems ⊢
  generalize emitAll items actual = second at hitems ⊢
  cases hitems with
  | same answer hnext =>
      cases answer with
      | error error => exact .same _ hnext
      | ok =>
          cases refusal with
          | none => exact .same _ hnext
          | some refusal =>
              obtain ⟨herror, hrefused⟩ := hnext.refuse refusal
              simp only [herror]
              exact .same _ hrefused
  | @cut answer halt between _ hhalt hbeyond =>
      cases answer with
      | error error => exact .cut _ hhalt hbeyond
      | ok =>
          cases refusal with
          | none => exact .cut _ hhalt hbeyond
          | some refusal => exact .cut _ hhalt (hbeyond.extend (between.extends_refuse refusal))

end Plan

/-! ### Steps -/

namespace EncodeStep

variable {catalog : Catalog} {schedule : Schedule} {ideal actual : Encoder}

theorem extends_run (step : EncodeStep) (encoder : Encoder) :
    encoder.Extends (step.run catalog encoder).2 := by
  cases step with
  | fault error => exact ⟨⟨[], (List.append_nil _).symm⟩, rfl⟩
  | _ => exact Plan.extends_run _ encoder

/-- A step is carried out alike on both encoders, or only a part of what it writes gets through to
the second sink. -/
theorem run_beside (step : EncodeStep) (h : Encoder.Beside schedule ideal actual) :
    Encoder.Ends schedule (step.run catalog ideal) (step.run catalog actual) := by
  cases step with
  | typed type value => exact Plan.run_beside _ h
  | put call => exact Plan.run_beside _ h
  | datum schema content =>
      rw [run, run, h.config]
      exact Plan.run_beside _ h
  | fault error =>
      exact .same _ ⟨h.config, rfl, h.taken, h.unfailing, h.schedule_eq, h.steady, h.opened⟩

theorem run_beyond (step : EncodeStep) {halt : Halt} (h : Encoder.Beyond halt ideal actual) :
    Encoder.Beyond halt (step.run catalog ideal).2 (step.run catalog actual).2 :=
  (h.extend (step.extends_run ideal)).freeze (frozen_run ⟨h.poisoned, rfl⟩ step)

/-- Once the second encoder has stopped, nothing changes that. -/
theorem after_beyond (steps : List EncodeStep) {halt : Halt}
    (h : Encoder.Beyond halt ideal actual) :
    Encoder.Beyond halt (after catalog steps ideal) (after catalog steps actual) := by
  induction steps generalizing ideal actual with
  | nil => exact h
  | cons step steps ih => exact ih (step.run_beyond h)

/-- After any number of steps the encoders are side by side, or the second has stopped for good. -/
theorem after_beside (steps : List EncodeStep) (h : Encoder.Beside schedule ideal actual) :
    Encoder.Beside schedule (after catalog steps ideal) (after catalog steps actual) ∨
      ∃ halt, schedule.halt = some halt ∧
        Encoder.Beyond halt (after catalog steps ideal) (after catalog steps actual) := by
  induction steps generalizing ideal actual with
  | nil => exact .inl h
  | cons step steps ih =>
      have hstep : Encoder.Ends schedule (step.run catalog ideal) (step.run catalog actual) :=
        step.run_beside h
      simp only [after, List.foldl_cons]
      generalize step.run catalog ideal = first at hstep ⊢
      generalize step.run catalog actual = second at hstep ⊢
      cases hstep with
      | same _ hnext => exact ih hnext
      | cut _ hhalt hbeyond => exact .inr ⟨_, hhalt, after_beyond steps hbeyond⟩

/-- How a step with a halting sink compares with the same step on a sink that takes everything. -/
structure Truncated (halt : Halt) (ideal actual : Encoder)
    (idealNext next : Except Error Unit × Encoder) : Prop where
  taken : next.2.transport.taken.toList = idealNext.2.transport.taken.toList.take halt.offset
  /-- What ends in front of the halt is not affected. -/
  within : idealNext.2.transport.taken.size ≤ halt.offset →
    next.1 = idealNext.1 ∧ next.2.poisoned = idealNext.2.poisoned
  crossing : ideal.transport.taken.size ≤ halt.offset →
    halt.offset < idealNext.2.transport.taken.size →
    next.1 = .error (.ofWrite (Sink.ending halt)) ∧ next.2.poisoned = true
  /-- Behind the halt the sink is not even called. -/
  behind : halt.offset < ideal.transport.taken.size → next.2.transport = actual.transport

theorem truncated_beside (step : EncodeStep) {halt : Halt} (hhalt : schedule.halt = some halt)
    (h : Encoder.Beside schedule ideal actual) :
    Truncated halt ideal actual (step.run catalog ideal) (step.run catalog actual) := by
  have hstep : Encoder.Ends schedule (step.run catalog ideal) (step.run catalog actual) :=
    step.run_beside h
  have hopen : ideal.transport.taken.size ≤ halt.offset :=
    h.taken ▸ h.opened halt (h.schedule_eq ▸ hhalt)
  generalize step.run catalog ideal = first at hstep ⊢
  generalize step.run catalog actual = second at hstep ⊢
  cases hstep with
  | @same answer idealNext next hnext =>
      have hnextOpen : idealNext.transport.taken.size ≤ halt.offset :=
        hnext.taken ▸ hnext.opened halt (hnext.schedule_eq ▸ hhalt)
      refine ⟨?_, fun _ => ⟨rfl, hnext.poisoned⟩, fun _ hlt => ?_, fun hlt => ?_⟩
      · rw [hnext.taken, List.take_of_length_le hnextOpen]
      · exact absurd hnextOpen (Nat.not_le_of_lt hlt)
      · exact absurd hopen (Nat.not_le_of_lt hlt)
  | cut answer hother hbeyond =>
      obtain rfl := Option.some.inj (hother.symm.trans hhalt)
      refine ⟨hbeyond.taken_eq, fun hle => ?_, fun _ _ => ⟨rfl, hbeyond.poisoned⟩, fun hlt => ?_⟩
      · exact absurd hle (Nat.not_le_of_lt hbeyond.lt)
      · exact absurd hopen (Nat.not_le_of_lt hlt)

theorem truncated_beyond (step : EncodeStep) {halt : Halt} (h : Encoder.Beyond halt ideal actual) :
    Truncated halt ideal actual (step.run catalog ideal) (step.run catalog actual) := by
  have hnext : Encoder.Beyond halt (step.run catalog ideal).2 (step.run catalog actual).2 :=
    step.run_beyond h
  have hfrozen : (step.run catalog actual).2.Frozen actual.transport :=
    frozen_run ⟨h.poisoned, rfl⟩ step
  refine ⟨hnext.taken_eq, fun hle => ?_, fun hle => ?_, fun _ => hfrozen.transport_eq⟩
  · exact absurd hle (Nat.not_le_of_lt hnext.lt)
  · exact absurd hle (Nat.not_le_of_lt h.lt)

end EncodeStep

/-- New encoders with the same settings are side by side. -/
theorem Encoder.beside_new {schedule : Schedule} (hsteady : schedule.Steady) (config : Config) :
    Encoder.Beside schedule { transport := {}, config } { transport := { schedule }, config } :=
  ⟨rfl, rfl, rfl, Schedule.unfailing_default, rfl, hsteady, fun _ _ => Nat.zero_le _⟩

/-- A sink that takes data in pieces, with calls in between that are interrupted, takes what a sink
without limits takes of the same run, up to its halt if it has one. Up to there the steps have the
same answers, and the step that gets across it fails and poisons the encoder. Without a halt a
datum is delivered as it is laid out in memory. -/
theorem encode_truncated (catalog : Catalog) (config : Config) (schedule : Schedule)
    (hsteady : schedule.Steady) :
    (∀ (before : List EncodeStep) (step : EncodeStep),
      let ideal := EncodeStep.after catalog before { transport := {}, config }
      let actual := EncodeStep.after catalog before { transport := { schedule }, config }
      let idealNext := step.run catalog ideal
      let next := step.run catalog actual
      (schedule.halt = none → next.1 = idealNext.1 ∧ next.2.poisoned = idealNext.2.poisoned ∧
        next.2.transport.taken = idealNext.2.transport.taken) ∧
      ∀ halt, schedule.halt = some halt →
        EncodeStep.Truncated halt ideal actual idealNext next) ∧
    (schedule.halt = none → ∀ (definitions : Definitions Schema) (schema : Schema) (datum : Datum),
      let written := schema.toSink datum { schedule } definitions
      written.1.map (fun _ => written.2.taken.toList) = schema.toBytes datum {} definitions) := by
  constructor
  · intro before step ideal actual idealNext next
    rcases EncodeStep.after_beside before (Encoder.beside_new hsteady config) with
      hbeside | ⟨halt, hhalt, hbeyond⟩
    · refine ⟨fun hnone => ?_, fun halt hhalt => step.truncated_beside hhalt hbeside⟩
      have hstep : Encoder.Ends schedule idealNext next := step.run_beside hbeside
      generalize idealNext = first at hstep ⊢
      generalize next = second at hstep ⊢
      cases hstep with
      | same _ hnext => exact ⟨rfl, hnext.poisoned, hnext.taken⟩
      | cut _ hhalt _ => cases hnone.symm.trans hhalt
    · refine ⟨fun hnone => ?_, fun other hother => ?_⟩
      · cases hnone.symm.trans hhalt
      · obtain rfl := Option.some.inj (hhalt.symm.trans hother)
        exact step.truncated_beyond hbeyond
  · intro hnone definitions schema datum written
    have hrun := (schema.encode definitions ({} : Config).maxLength datum).run_beside
      (Encoder.beside_new hsteady {})
    simp only [written, Schema.toSink, Schema.toBytes]
    generalize Plan.run _ _ = first at hrun ⊢
    generalize Plan.run _ _ = second at hrun ⊢
    cases hrun with
    | cut _ hhalt _ => cases hnone.symm.trans hhalt
    | same answer hnext =>
        cases answer with
        | error error => rfl
        | ok => exact congrArg (Except.ok ∘ Array.toList) hnext.taken

/-- A pair of integers on a sink that takes three bytes a call, interrupts the second one, and fails
after six bytes. -/
theorem encode_truncated_pair :
    let failure : Failure := { kind := .brokenPipe }
    let schedule : Schedule :=
      { limit := fun _ => some 3, interrupts := [1], halt := some ⟨6, some failure⟩ }
    let step : EncodeStep := .put (.int32 7)
    let ideal := EncodeStep.after {} [step] { transport := {} }
    let actual := EncodeStep.after {} [step] { transport := { schedule } }
    schedule.Steady ∧ ideal.transport.taken.size ≤ 6 ∧
      (step.run {} ideal).2.transport.taken.toList = [0, 0, 0, 7, 0, 0, 0, 7] ∧
      (step.run {} actual).1 = .error (.transport failure) ∧
      (step.run {} actual).2.poisoned = true ∧
      (step.run {} actual).2.transport.taken.toList = [0, 0, 0, 7, 0, 0] := by
  intro failure schedule step ideal actual
  have hsteady : schedule.Steady := fun _ hzero => by cases hzero
  have hbefore : (EncodeStep.after {} [.put (.int32 7)]
      { transport := {} }).transport.taken.size = 4 := by decide +kernel
  have hwritten : (EncodeStep.after {} [.put (.int32 7), .put (.int32 7)]
      { transport := {} }).transport.taken.toList = [0, 0, 0, 7, 0, 0, 0, 7] := by decide +kernel
  have hideal : ideal.transport.taken.size ≤ 6 := hbefore.trans_le (by decide)
  have htruncated :=
    ((encode_truncated {} {} schedule hsteady).1 [step] step).2 ⟨6, some failure⟩ rfl
  have hcrossing := htruncated.crossing hideal <|
    (show 6 < 8 by decide).trans_eq (congrArg List.length hwritten).symm
  refine ⟨hsteady, hideal, hwritten, hcrossing.1, hcrossing.2, ?_⟩
  exact htruncated.taken.trans (congrArg (List.take 6) hwritten)

end Xdr
