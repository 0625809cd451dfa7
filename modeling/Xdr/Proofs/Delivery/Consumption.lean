import Xdr.Proofs.Delivery.Decoding

/-!
# What a run consumes

Nothing behind the bytes that a run consumes has any part in its answers, and nothing in front of
them can be missing: on a byte string that is cut off, the step that gets across the cut is short of
bytes, and no step after it reads anything. The statement to read first is
`determined_by_consumed`.
-/

namespace Xdr

open Transport

namespace DecodeStep

variable {catalog : Catalog} {more : List UInt8} {limit : Nat} {first second : Decoder}

/-- What the caller of a step learns: the answer, the position behind it, and whether the decoder
cannot go on. -/
def report (answer : DecodeAnswer × Decoder) : DecodeAnswer × Nat × Bool :=
  (answer.1, answer.2.transport.moved, answer.2.poisoned)

/-- Decoders on byte strings of which the one continues the other. -/
abbrev Continued (more : List UInt8) (limit : Nat) (first second : Decoder) : Prop :=
  Paired more limit { kind := .unexpectedEnd } { kind := .unexpectedEnd } first second

/-- New decoders on such byte strings. -/
theorem continued_new (config : Config) (front back : List UInt8) :
    Continued back front.length { transport := { rest := front }, config }
      { transport := { rest := front ++ back }, config } := by
  refine ⟨⟨rfl, rfl, rfl, front, ?_, ?_, Nat.zero_add _⟩, ?_⟩
  · exact Source.offers_rest Schedule.unfailing_default
  · exact Source.offers_rest Schedule.unfailing_default
  · exact (List.prefix_append front back).length_le

/-- The run after a step starts no further back than the step. -/
theorem moved_le_after (step : DecodeStep) (steps : List DecodeStep) (decoder : Decoder) :
    (step.run catalog decoder).2.transport.moved ≤
      (after catalog (step :: steps) decoder).transport.moved :=
  (advances_after steps (step.run catalog decoder).2).moved_le

/-- As long as a run on the longer byte string stays in front of the end of the shorter one, it is
the same on both. -/
theorem trace_of_moved_le (hguarded : catalog.Guarded) {steps : List DecodeStep}
    (hsuits : ∀ step ∈ steps, step.Suits catalog) (h : Continued more limit first second)
    (hle : (after catalog steps second).transport.moved ≤ limit) :
    (trace catalog steps first).map report = (trace catalog steps second).map report := by
  induction steps generalizing first second with
  | nil => rfl
  | cons step steps ih =>
      obtain ⟨hstep, hsteps⟩ := List.forall_mem_cons.mp hsuits
      have hends := run_beside hguarded hstep h
      have hfirst := advances_run catalog step first
      have hsecond := advances_run catalog step second
      have hnext := (moved_le_after step steps second).trans hle
      rw [after, List.foldl_cons] at hle
      rw [trace, trace, List.map_cons, List.map_cons]
      generalize step.run catalog first = answer at *
      generalize step.run catalog second = answer' at *
      cases hends with
      | same answer hbeside =>
          rw [ih hsteps (h.advance hfirst hsecond hbeside) hle, report, report, hbeside.moved,
            hbeside.poisoned]
      | short shown _ hbeside =>
          rw [ih hsteps (h.advance hfirst hsecond hbeside) hle, report, report, hbeside.moved,
            hbeside.poisoned]
      | beyond _ _ _ _ hbehind => exact absurd hnext (Nat.not_le_of_lt hbehind)

/-- A run on the shorter byte string that is never short of bytes is the same on the longer one. -/
theorem trace_of_not_short (hguarded : catalog.Guarded) {steps : List DecodeStep}
    (hsuits : ∀ step ∈ steps, step.Suits catalog) (h : Continued more limit first second)
    (hnever : ∀ seen ∈ (trace catalog steps first).map report, seen.1.error ≠ some .shortRead) :
    (trace catalog steps second).map report = (trace catalog steps first).map report := by
  induction steps generalizing first second with
  | nil => rfl
  | cons step steps ih =>
      obtain ⟨hstep, hsteps⟩ := List.forall_mem_cons.mp hsuits
      have hends := run_beside hguarded hstep h
      have hfirst := advances_run catalog step first
      have hsecond := advances_run catalog step second
      rw [trace, List.map_cons] at hnever
      obtain ⟨hanswer, hnever⟩ := List.forall_mem_cons.mp hnever
      rw [trace, trace, List.map_cons, List.map_cons]
      generalize step.run catalog first = answer at *
      generalize step.run catalog second = answer' at *
      cases hends with
      | same answer hbeside =>
          rw [ih hsteps (h.advance hfirst hsecond hbeside) hnever, report, report, hbeside.moved,
            hbeside.poisoned]
      | short _ _ _ => exact absurd rfl hanswer
      | beyond _ _ _ _ _ => exact absurd rfl hanswer

/-- A run that gets across the end of the shorter byte string does so in one of its steps. The steps
in front of it are the same on both, and on the shorter one that step is short of bytes. -/
theorem exists_crossing (hguarded : catalog.Guarded) {steps : List DecodeStep}
    (hsuits : ∀ step ∈ steps, step.Suits catalog) (h : Continued more limit first second)
    (hlt : limit < (after catalog steps second).transport.moved) :
    ∃ before step later, steps = before ++ step :: later ∧
      (after catalog before second).transport.moved ≤ limit ∧
      limit < (step.run catalog (after catalog before second)).2.transport.moved ∧
      (trace catalog before first).map report = (trace catalog before second).map report ∧
      (step.run catalog (after catalog before first)).1.error = some .shortRead ∧
      (step.run catalog (after catalog before first)).2.Spent limit := by
  induction steps generalizing first second with
  | nil => exact absurd h.beside.moved_le (Nat.not_le_of_lt hlt)
  | cons step steps ih =>
      obtain ⟨hstep, hsteps⟩ := List.forall_mem_cons.mp hsuits
      have hends := run_beside hguarded hstep h
      have hfirst := advances_run catalog step first
      have hsecond := advances_run catalog step second
      rcases Nat.lt_or_ge limit (step.run catalog second).2.transport.moved with hcross | hbefore
      · refine ⟨[], step, steps, rfl, h.beside.moved_le, hcross, rfl, ?_⟩
        generalize step.run catalog second = answer' at hends hcross
        show (step.run catalog first).1.error = _ ∧ (step.run catalog first).2.Spent limit
        generalize step.run catalog first = answer at hends ⊢
        cases hends with
        | same _ hbeside => exact absurd hbeside.moved_le (Nat.not_le_of_lt hcross)
        | short _ _ hbeside => exact absurd hbeside.moved_le (Nat.not_le_of_lt hcross)
        | beyond _ _ _ hspent _ => exact ⟨rfl, hspent⟩
      · -- the crossing lies further on, and this step is the same on both
        have hbeside : Paired more limit { kind := .unexpectedEnd } { kind := .unexpectedEnd }
            (step.run catalog first).2 (step.run catalog second).2 := by
          refine h.advance hfirst hsecond ?_
          generalize step.run catalog first = answer at hends
          generalize step.run catalog second = answer' at hends hbefore
          cases hends with
          | same _ hbeside => exact hbeside
          | short _ _ hbeside => exact hbeside
          | beyond _ _ _ _ hbehind => exact absurd hbefore (Nat.not_le_of_lt hbehind)
        have hsame : (trace catalog [step] first).map report =
            (trace catalog [step] second).map report :=
          trace_of_moved_le hguarded (fun _ hmem => List.mem_singleton.mp hmem ▸ hstep) h hbefore
        rw [after, List.foldl_cons] at hlt
        obtain ⟨before, crossing, later, rfl, hle, hcross, htrace, hshort⟩ := ih hsteps hbeside hlt
        refine ⟨step :: before, crossing, later, rfl, hle, hcross, ?_, hshort⟩
        rw [trace, trace, List.map_cons, List.map_cons, htrace]
        exact congrArg (· :: _) (List.singleton_inj.mp hsame)

/-- Every step on a frozen decoder leaves it frozen. -/
theorem frozen_trace {decoder : Decoder} {source : Transport.Source} (h : decoder.Frozen source)
    (steps : List DecodeStep) :
    ∀ answer ∈ trace catalog steps decoder, answer.2.Frozen source := by
  induction steps generalizing decoder with
  | nil => exact fun _ hmem => absurd hmem List.not_mem_nil
  | cons step steps ih =>
      rw [trace]
      exact List.forall_mem_cons.mpr ⟨frozen_run h step, ih (frozen_run h step)⟩

end DecodeStep

/-- A run that is never short of bytes is determined by the bytes it consumes: on another byte
string that starts with them every step has the same answer and ends at the same position. If the
byte string is cut off in front of the last of them, the steps up to the cut are still the same,
the step that gets across it is short of bytes, having used up what there is, and nothing is read
any more. -/
theorem determined_by_consumed (catalog : Catalog) (hguarded : catalog.Guarded) (config : Config)
    (steps : List DecodeStep) (hsuits : ∀ step ∈ steps, step.Suits catalog) (wire : List UInt8) :
    let start (bytes : List UInt8) : Decoder := { transport := { rest := bytes }, config }
    let consumed := (DecodeStep.after catalog steps (start wire)).transport.moved
    (∀ answer ∈ DecodeStep.trace catalog steps (start wire),
      answer.1.error ≠ some .shortRead) →
    (∀ other : List UInt8, other.take consumed = wire.take consumed →
      (DecodeStep.trace catalog steps (start other)).map DecodeStep.report =
        (DecodeStep.trace catalog steps (start wire)).map DecodeStep.report) ∧
    ∀ cut < consumed, ∃ before step later, steps = before ++ step :: later ∧
      let full := DecodeStep.after catalog before (start wire)
      let crossing := step.run catalog (DecodeStep.after catalog before (start (wire.take cut)))
      (full.transport.moved ≤ cut ∧ cut < (step.run catalog full).2.transport.moved) ∧
        (DecodeStep.trace catalog before (start (wire.take cut))).map DecodeStep.report =
          (DecodeStep.trace catalog before (start wire)).map DecodeStep.report ∧
        crossing.1.error = some .shortRead ∧ crossing.2.poisoned = true ∧
        crossing.2.transport.moved = cut ∧ crossing.2.transport.rest = [] ∧
        ∀ answer ∈ DecodeStep.trace catalog later crossing.2,
          answer.2.poisoned = true ∧ answer.2.transport = crossing.2.transport := by
  intro start consumed hnever
  have hwhole := (@DecodeStep.advances_after catalog steps (start wire)).moved_add_length
  have hconsumed : consumed ≤ wire.length := by
    have hstart : (start wire).transport.moved = 0 := rfl
    have hlength : (start wire).transport.rest.length = wire.length := rfl
    omega
  refine ⟨fun other hother => ?_, fun cut hcut => ?_⟩
  · -- both are compared with a run on the consumed bytes alone
    have hlength : (wire.take consumed).length = consumed := List.length_take_of_le hconsumed
    have hfull := DecodeStep.continued_new config (wire.take consumed) (wire.drop consumed)
    rw [List.take_append_drop, hlength] at hfull
    have hfront := DecodeStep.trace_of_moved_le hguarded hsuits hfull (Nat.le_refl consumed)
    have hlonger := DecodeStep.continued_new config (wire.take consumed) (other.drop consumed)
    rw [← hother, List.take_append_drop, hother] at hlonger
    refine (DecodeStep.trace_of_not_short hguarded hsuits hlonger ?_).trans hfront
    rw [hfront]
    exact List.forall_mem_map.mpr hnever
  · have hlength : (wire.take cut).length = cut := List.length_take_of_le (by omega)
    have hfull := DecodeStep.continued_new config (wire.take cut) (wire.drop cut)
    rw [List.take_append_drop, hlength] at hfull
    obtain ⟨before, step, later, hsteps, hle, hcross, htrace, hshort, hspent⟩ :=
      DecodeStep.exists_crossing hguarded hsuits hfull hcut
    refine ⟨before, step, later, hsteps, ⟨hle, hcross⟩, htrace, hshort, hspent.poisoned,
      hspent.moved, ?_, fun answer hanswer => ?_⟩
    · have hcutOff := @DecodeStep.advances_after catalog before (start (wire.take cut))
      have hall := (hcutOff.trans (DecodeStep.advances_run catalog step _)).moved_add_length
      have hbegin : (start (wire.take cut)).transport.moved +
          (start (wire.take cut)).transport.rest.length = cut := (Nat.zero_add _).trans hlength
      rw [hspent.moved, hbegin] at hall
      exact List.length_eq_zero_iff.mp (Nat.add_eq_left.mp hall)
    · have hfrozen := DecodeStep.frozen_trace ⟨hspent.poisoned, rfl⟩ later answer hanswer
      exact ⟨hfrozen.poisoned, hfrozen.transport_eq⟩

/-- Five bytes with their padding, an integer that may be absent, and a sequence of one boolean:
with other bytes behind them, and cut off inside the integer. -/
theorem determined_by_consumed_integer :
    let steps : List DecodeStep := [.get (.bytes 8), .typed (.optional .int32) none,
      .datum (.seq .bool .actual {})]
    let wire : List UInt8 := [0, 0, 0, 5, 1, 2, 3, 4, 5, 0, 0, 0, 0, 0, 0, 1, 255, 255, 255, 254,
      0, 0, 0, 1, 0, 0, 0, 1, 7]
    let other : List UInt8 := wire.take 28 ++ [8, 9]
    let start (bytes : List UInt8) : Decoder := { transport := { rest := bytes } }
    Catalog.Guarded {} ∧ (∀ step ∈ steps, step.Suits {}) ∧
      (∀ answer ∈ DecodeStep.trace {} steps (start wire), answer.1.error ≠ some .shortRead) ∧
      (DecodeStep.trace {} steps (start other)).map DecodeStep.report =
        (DecodeStep.trace {} steps (start wire)).map DecodeStep.report ∧
      ∃ before step later, steps = before ++ step :: later ∧
        let crossing := step.run {} (DecodeStep.after {} before (start (wire.take 18)))
        crossing.1.error = some .shortRead ∧ crossing.2.transport.moved = 18 := by
  intro steps wire other start
  have hguarded : Catalog.Guarded {} := by
    constructor
    · exact fun _ _ hbody => by cases hbody
    · exact fun _ _ hbody => by cases hbody
  have hsuits : ∀ step ∈ steps, step.Suits {} := by simp [steps, DecodeStep.Suits]
  have hconsumed : (DecodeStep.after {} steps (start wire)).transport.moved = 28 := by
    decide +kernel
  have herrors : (DecodeStep.trace {} steps (start wire)).map (fun answer => answer.1.error) =
      [none, none, none] := by decide +kernel
  have hnever : ∀ answer ∈ DecodeStep.trace {} steps (start wire),
      answer.1.error ≠ some .shortRead := by
    intro answer hanswer hshort
    have hmem : answer.1.error ∈ [none, none, none] :=
      herrors ▸ List.mem_map.mpr ⟨answer, hanswer, rfl⟩
    rw [hshort] at hmem
    simp at hmem
  obtain ⟨hother, hcut⟩ := determined_by_consumed {} hguarded {} steps hsuits wire hnever
  rw [hconsumed] at hother hcut
  obtain ⟨before, step, later, hsteps, -, -, hshort, -, hmoved, -, -⟩ := hcut 18 (by decide)
  exact ⟨hguarded, hsuits, hnever, hother other rfl, before, step, later, hsteps, hshort, hmoved⟩

end Xdr
