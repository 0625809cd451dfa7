import Xdr.Proofs.Delivery.Consumption
import Xdr.Proofs.Model.Narrowing

/-!
# Runs under two settings

Stricter settings change nothing in a run up to the first step that they make fail, and each setting
makes steps fail in one way only. The statement to read first is `settings_narrow`.
-/

namespace Xdr

/-- A padding byte is not zero. -/
def Error.isInvalidPadding : Error → Bool
  | invalidPadding => true
  | _ => false

/-- Two runs have the same reports up to the first step of the first run that is marked, and
altogether if there is none. -/
def AgreeUntil {σ τ : Type} (marked : σ → Bool) (report : σ → τ) (first second : List σ) : Prop :=
  (first.takeWhile fun answer => !marked answer).map report <+: second.map report ∧
    ((∀ answer ∈ first, marked answer = false) → first.map report = second.map report)

section

variable {σ τ : Type} {marked : σ → Bool} {report : σ → τ}

theorem agreeUntil_nil : AgreeUntil marked report [] [] :=
  ⟨List.nil_prefix, fun _ => rfl⟩

/-- Behind a marked step nothing has to agree any more. -/
theorem agreeUntil_of_marked {answer : σ} (h : marked answer = true) (first second : List σ) :
    AgreeUntil marked report (answer :: first) second := by
  refine ⟨?_, fun hnone => ?_⟩
  · rw [List.takeWhile_cons_of_neg (by simp [h])]
    exact List.nil_prefix
  · rw [hnone answer List.mem_cons_self] at h
    cases h

theorem AgreeUntil.cons {answer answer' : σ} {first second : List σ}
    (hanswer : report answer = report answer') (h : AgreeUntil marked report first second) :
    AgreeUntil marked report (answer :: first) (answer' :: second) := by
  cases hmarked : marked answer with
  | true => exact agreeUntil_of_marked hmarked _ _
  | false =>
      refine ⟨?_, fun hnone => ?_⟩
      · rw [List.takeWhile_cons_of_pos (by simp [hmarked]), List.map_cons, List.map_cons, hanswer]
        exact List.cons_prefix_cons.mpr ⟨rfl, h.1⟩
      · rw [List.map_cons, List.map_cons, hanswer, h.2 (List.forall_mem_cons.mp hnone).2]

end

variable {catalog : Catalog} {config config' : Config} {cause : Error → Bool}

/-- New contexts on the same transport are twins. -/
theorem Context.twins_new {τ : Type} (config config' : Config) (transport : τ) :
    Context.Twins False config config' { transport, config } { transport, config := config' } :=
  ⟨rfl, rfl, rfl, rfl, False.elim⟩

/-! ### Decoding -/

namespace DecodeStep

/-- The step does not use the data model. -/
def Plain : DecodeStep → Prop
  | datum _ => False
  | _ => True

/-- The step ended with an error for this cause. -/
def endedFor (cause : Error → Bool) (answer : DecodeAnswer × Decoder) : Bool :=
  answer.1.error.any cause

/-- How a step ends on a decoder and on its twin: with the same answer, or on the first for this
cause. -/
def Tally (config config' : Config) (cause : Error → Bool)
    (answer answer' : DecodeAnswer × Decoder) : Prop :=
  answer'.1 = answer.1 ∧ Context.Twins False config config' answer.2 answer'.2 ∨
    endedFor cause answer = true

/-- A step that is a reading ends as the reading does. -/
theorem tally_ofResult {κ α : Type} {keep : κ → Option Shown} {deliver : α → Shown}
    {result result' : Except (Stopped κ) α × Decoder}
    (h : Decoder.Tally False config config' cause Eq Eq result result') :
    Tally config config' cause (.ofResult keep deliver result.1, result.2)
      (.ofResult keep deliver result'.1, result'.2) := by
  cases h with
  | values hsame htwins => exact .inl ⟨by rw [hsame], htwins⟩
  | errors hsame htwins => exact .inl ⟨by rw [hsame], htwins⟩
  | narrowed _ hcause => exact .inr hcause

/-- A step ends alike on twins, or on the first for this cause, if reading data does. -/
theorem tally_run (step : DecodeStep)
    (hpolicy : config'.padding = config.padding ∨
      config'.padding = .lenient ∧ cause .invalidPadding)
    (hdatum : ¬ step.Plain → ∀ (schema : Schema) (left : Nat), Reading.Narrows config config' cause
      (schema.decode catalog.schemas config.maxLength left)
      (schema.decode catalog.schemas config'.maxLength left))
    {first second : Decoder} (htwins : Context.Twins False config config' first second) :
    Tally config config' cause (step.run catalog first) (step.run catalog second) := by
  cases step with
  | typed type target =>
      rw [run, run, htwins.transport]
      exact tally_ofResult (Reading.tallies_self hpolicy _ htwins)
  | get call => exact tally_ofResult (Reading.tallies_self hpolicy _ htwins)
  | datum schema =>
      rw [run, run, htwins.transport, htwins.config_eq, htwins.config_eq']
      exact tally_ofResult (hdatum id schema _ htwins)
  | fault error => exact .inl ⟨rfl, htwins.fault _ _ _ _⟩

/-- If each step ends alike on twins, or on the first for this cause, runs agree up to the first
step that ends for this cause. -/
theorem agree_trace {steps : List DecodeStep}
    (hstep : ∀ step ∈ steps, ∀ first second, Context.Twins False config config' first second →
      Tally config config' cause (step.run catalog first) (step.run catalog second))
    {first second : Decoder} (htwins : Context.Twins False config config' first second) :
    AgreeUntil (endedFor cause) report (trace catalog steps first)
      (trace catalog steps second) := by
  induction steps generalizing first second with
  | nil => exact agreeUntil_nil
  | cons step steps ih =>
      obtain ⟨hhead, htail⟩ := List.forall_mem_cons.mp hstep
      rcases hhead first second htwins with ⟨hanswer, hafter⟩ | hmarked
      · refine AgreeUntil.cons ?_ (ih htail hafter)
        rw [report, report, hanswer, hafter.transport, hafter.poisoned]
      · exact agreeUntil_of_marked hmarked _ _

/-- A strict run is the lenient one up to the first step that it ends with invalid padding. -/
theorem agree_padding (config : Config) (source : Transport.Source) (steps : List DecodeStep) :
    AgreeUntil (endedFor Error.isInvalidPadding) report
      (trace catalog steps { transport := source, config := config.withPadding .strict })
      (trace catalog steps { transport := source, config := config.withPadding .lenient }) := by
  have hpolicy : (config.withPadding .lenient).padding = (config.withPadding .strict).padding ∨
      (config.withPadding .lenient).padding = .lenient ∧
        Error.isInvalidPadding .invalidPadding = true := .inr ⟨rfl, rfl⟩
  refine agree_trace (fun step _ first second htwins => ?_) (Context.twins_new _ _ source)
  exact tally_run step hpolicy (fun _ _ _ => Reading.tallies_self hpolicy _) htwins

/-- A run under a lower ceiling is that under a higher one up to the first step that it ends with a
length over the lower ceiling. -/
theorem agree_ceiling (config : Config) {low high : UInt32} (hle : low ≤ high)
    (source : Transport.Source) (steps : List DecodeStep) :
    AgreeUntil (endedFor (Error.exceeds low)) report
      (trace catalog steps { transport := source, config := config.withMaxLength low })
      (trace catalog steps { transport := source, config := config.withMaxLength high }) := by
  have hpadding : (config.withMaxLength high).padding = (config.withMaxLength low).padding := rfl
  refine agree_trace (fun step _ first second htwins => ?_) (Context.twins_new _ _ source)
  exact tally_run step (.inl hpadding)
    (fun _ schema left => schema.narrows_decode hle hpadding left) htwins

/-- Without the data model the ceiling makes no difference. -/
theorem report_eq_of_plain (config : Config) (ceiling other : UInt32) (source : Transport.Source)
    {steps : List DecodeStep} (hplain : ∀ step ∈ steps, step.Plain) :
    (trace catalog steps { transport := source, config := config.withMaxLength ceiling }).map
        report =
      (trace catalog steps { transport := source, config := config.withMaxLength other }).map
        report := by
  have hpadding : (config.withMaxLength other).padding = (config.withMaxLength ceiling).padding :=
    rfl
  -- no error at all stands for a difference
  have hagree : AgreeUntil (endedFor fun _ => false) report
      (trace catalog steps { transport := source, config := config.withMaxLength ceiling })
      (trace catalog steps { transport := source, config := config.withMaxLength other }) := by
    refine agree_trace (fun step hmem first second htwins => ?_) (Context.twins_new _ _ source)
    exact tally_run step (.inl hpadding) (fun hdatum => absurd (hplain step hmem) hdatum) htwins
  refine hagree.2 fun answer _ => ?_
  rw [endedFor]
  cases answer.1.error <;> rfl

end DecodeStep

/-! ### Encoding -/

namespace EncodeStep

/-- The step does not use the data model. -/
def Plain : EncodeStep → Prop
  | datum _ _ => False
  | _ => True

/-- The step ended with an error for this cause. -/
def endedFor (cause : Error → Bool) (answer : Except Error Unit × Encoder) : Bool :=
  match answer.1 with
  | .ok () => false
  | .error error => cause error

/-- What the caller of a step learns: the answer, the bytes written so far, and whether the encoder
cannot go on. -/
def report (answer : Except Error Unit × Encoder) : Except Error Unit × List UInt8 × Bool :=
  (answer.1, answer.2.transport.taken.toList, answer.2.poisoned)

/-- A step ends alike on twins, or on the first for this cause, if writing data does. -/
theorem tally_run (step : EncodeStep)
    (hdatum : ¬ step.Plain → ∀ (schema : Schema) (content : Datum), Plan.Tallies False config
      config' cause Eq (schema.encode catalog.schemas config.maxLength content)
      (schema.encode catalog.schemas config'.maxLength content))
    {first second : Encoder} (htwins : Context.Twins False config config' first second) :
    Encoder.Tally False config config' cause Eq (step.run catalog first)
      (step.run catalog second) := by
  cases step with
  | typed type value => exact Plan.tallies_self _ htwins
  | put call => exact Plan.tallies_self _ htwins
  | datum schema content =>
      rw [run, run, htwins.config_eq, htwins.config_eq']
      exact hdatum id schema content htwins
  | fault error => exact .errors rfl (htwins.fault _ _ _ _)

/-- Steps only add to what has been written. -/
theorem prefix_after (steps : List EncodeStep) (encoder : Encoder) :
    encoder.transport.taken.toList <+: (after catalog steps encoder).transport.taken.toList := by
  induction steps generalizing encoder with
  | nil => exact List.prefix_rfl
  | cons step steps ih =>
      obtain ⟨more, hmore⟩ := (extends_run step encoder).taken
      exact List.IsPrefix.trans ⟨more, hmore.symm⟩ (ih (step.run catalog encoder).2)

/-- If each step ends alike on twins, or on the first for this cause, runs agree up to the first
step that ends for this cause. The first run never writes anything that the second does not. -/
theorem agree_trace {steps : List EncodeStep}
    (hstep : ∀ step ∈ steps, ∀ first second, Context.Twins False config config' first second →
      Encoder.Tally False config config' cause Eq (step.run catalog first)
        (step.run catalog second))
    {first second : Encoder} (htwins : Context.Twins False config config' first second) :
    AgreeUntil (endedFor cause) report (trace catalog steps first)
        (trace catalog steps second) ∧
      (after catalog steps first).transport.taken.toList <+:
        (after catalog steps second).transport.taken.toList := by
  induction steps generalizing first second with
  | nil => exact ⟨agreeUntil_nil, by rw [after, after, List.foldl_nil, List.foldl_nil,
      htwins.transport]⟩
  | cons step steps ih =>
      obtain ⟨hhead, htail⟩ := List.forall_mem_cons.mp hstep
      have htally := hhead first second htwins
      rw [trace, trace, after, after, List.foldl_cons, List.foldl_cons]
      generalize step.run catalog first = answer at htally ⊢
      generalize step.run catalog second = answer' at htally ⊢
      cases htally with
      | done hafter =>
          obtain ⟨hagree, hprefix⟩ := ih htail hafter
          refine ⟨hagree.cons ?_, hprefix⟩
          rw [report, report, hafter.transport, hafter.poisoned]
      | errors hsame hafter =>
          obtain ⟨hagree, hprefix⟩ := ih htail hafter
          refine ⟨hagree.cons ?_, hprefix⟩
          rw [report, report, hsame, hafter.transport, hafter.poisoned]
      | @narrowed error next _ hcause hpoisoned hprefix =>
          have hmarked : endedFor cause (.error error, next) = true := hcause
          -- the first encoder writes nothing any more
          have hfrozen : (after catalog steps next).Frozen next.transport :=
            frozen_after ⟨hpoisoned, rfl⟩ steps
          refine ⟨agreeUntil_of_marked hmarked _ _, ?_⟩
          show (after catalog steps next).transport.taken.toList <+: _
          rw [hfrozen.transport_eq]
          exact hprefix.trans (prefix_after steps _)

/-- A run under a lower ceiling is that under a higher one up to the first step that it ends with a
length over the lower ceiling, and writes the front of what the other writes. -/
theorem agree_ceiling (config : Config) {low high : UInt32} (hle : low ≤ high)
    (sink : Transport.Sink) (steps : List EncodeStep) :
    AgreeUntil (endedFor (Error.exceeds low)) report
        (trace catalog steps { transport := sink, config := config.withMaxLength low })
        (trace catalog steps { transport := sink, config := config.withMaxLength high }) ∧
      (after catalog steps
          { transport := sink, config := config.withMaxLength low }).transport.taken.toList <+:
        (after catalog steps
          { transport := sink, config := config.withMaxLength high }).transport.taken.toList := by
  refine agree_trace (fun step _ first second htwins => ?_) (Context.twins_new _ _ sink)
  exact tally_run step (fun _ schema content => schema.tallies_encode hle content) htwins

/-- Without the data model the ceiling makes no difference. -/
theorem report_eq_of_plain (config : Config) (ceiling other : UInt32) (sink : Transport.Sink)
    {steps : List EncodeStep} (hplain : ∀ step ∈ steps, step.Plain) :
    (trace catalog steps { transport := sink, config := config.withMaxLength ceiling }).map
        report =
      (trace catalog steps { transport := sink, config := config.withMaxLength other }).map
        report := by
  have hagree : AgreeUntil (endedFor fun _ => false) report
      (trace catalog steps { transport := sink, config := config.withMaxLength ceiling })
      (trace catalog steps { transport := sink, config := config.withMaxLength other }) := by
    refine (agree_trace (fun step hmem first second htwins => ?_)
      (Context.twins_new _ _ sink)).1
    exact tally_run step (fun hdatum => absurd (hplain step hmem) hdatum) htwins
  refine hagree.2 fun answer _ => ?_
  rw [endedFor]
  split <;> rfl

end EncodeStep

/-- Settings only ever narrow what is accepted, each with an error of its own. A strict run is the
lenient one up to the first step that it ends with invalid padding. A run under a lower ceiling is
that under a higher one up to the first step that it ends with a length over the lower ceiling, and
what it writes is the front of what the other writes. Runs that do not use the data model do not
depend on the ceiling. -/
theorem settings_narrow (catalog : Catalog) :
    (∀ (config : Config) (source : Transport.Source) (steps : List DecodeStep),
      AgreeUntil (DecodeStep.endedFor Error.isInvalidPadding) DecodeStep.report
        (DecodeStep.trace catalog steps
          { transport := source, config := config.withPadding .strict })
        (DecodeStep.trace catalog steps
          { transport := source, config := config.withPadding .lenient })) ∧
    (∀ (config : Config) (low high : UInt32), low ≤ high →
      (∀ (source : Transport.Source) (steps : List DecodeStep),
        AgreeUntil (DecodeStep.endedFor (Error.exceeds low)) DecodeStep.report
          (DecodeStep.trace catalog steps
            { transport := source, config := config.withMaxLength low })
          (DecodeStep.trace catalog steps
            { transport := source, config := config.withMaxLength high })) ∧
      ∀ (sink : Transport.Sink) (steps : List EncodeStep),
        let lower : Encoder := { transport := sink, config := config.withMaxLength low }
        let higher : Encoder := { transport := sink, config := config.withMaxLength high }
        AgreeUntil (EncodeStep.endedFor (Error.exceeds low)) EncodeStep.report
            (EncodeStep.trace catalog steps lower) (EncodeStep.trace catalog steps higher) ∧
          (EncodeStep.after catalog steps lower).transport.taken.toList <+:
            (EncodeStep.after catalog steps higher).transport.taken.toList) ∧
    ∀ (config : Config) (ceiling other : UInt32),
      (∀ (source : Transport.Source) (steps : List DecodeStep), (∀ step ∈ steps, step.Plain) →
        (DecodeStep.trace catalog steps
            { transport := source, config := config.withMaxLength ceiling }).map
              DecodeStep.report =
          (DecodeStep.trace catalog steps
            { transport := source, config := config.withMaxLength other }).map
              DecodeStep.report) ∧
      ∀ (sink : Transport.Sink) (steps : List EncodeStep), (∀ step ∈ steps, step.Plain) →
        (EncodeStep.trace catalog steps
            { transport := sink, config := config.withMaxLength ceiling }).map
              EncodeStep.report =
          (EncodeStep.trace catalog steps
            { transport := sink, config := config.withMaxLength other }).map
              EncodeStep.report := by
  refine ⟨fun config source steps => ?_, fun config low high hle =>
    ⟨fun source steps => ?_, fun sink steps => ?_⟩, fun config ceiling other =>
    ⟨fun source steps hplain => ?_, fun sink steps hplain => ?_⟩⟩
  · exact DecodeStep.agree_padding config source steps
  · exact DecodeStep.agree_ceiling config hle source steps
  · exact EncodeStep.agree_ceiling config hle sink steps
  · exact DecodeStep.report_eq_of_plain config ceiling other source hplain
  · exact EncodeStep.report_eq_of_plain config ceiling other sink hplain

/-- A byte string with a padding byte that is not zero, and a sequence of two bytes under ceilings
of one and two. -/
theorem settings_narrow_sequence :
    let wire : Transport.Source := { rest := [0, 0, 0, 1, 7, 0, 0, 1, 0, 0, 0, 0] }
    let gets : List DecodeStep := [.get (.bytes 1), .get .int32]
    let read (config : Config) := DecodeStep.trace {} gets { transport := wire, config }
    let puts : List EncodeStep := [.put (.bytes [7] 1)]
    let step : EncodeStep := .datum (.seq .uint8 .actual {}) (.seq [.uint8 1, .uint8 2] none)
    let write (steps : List EncodeStep) (ceiling : UInt32) :=
      EncodeStep.trace {} steps { transport := {}, config := { maxLength := ceiling } }
    AgreeUntil (DecodeStep.endedFor Error.isInvalidPadding) DecodeStep.report
        (read { padding := .strict }) (read { padding := .lenient }) ∧
      (1 : UInt32) ≤ 2 ∧
      AgreeUntil (EncodeStep.endedFor (Error.exceeds 1)) EncodeStep.report
        (write (puts ++ [step]) 1) (write (puts ++ [step]) 2) ∧
      (∀ get ∈ gets, get.Plain) ∧ (∀ put ∈ puts, put.Plain) ∧
      (read { maxLength := 0 }).map DecodeStep.report =
        (read { maxLength := 9 }).map DecodeStep.report ∧
      (write puts 0).map EncodeStep.report = (write puts 9).map EncodeStep.report := by
  intro wire gets read puts step write
  obtain ⟨hpadding, hceiling, hplain⟩ := settings_narrow {}
  have hle : (1 : UInt32) ≤ 2 := by decide
  have hgets : ∀ get ∈ gets, get.Plain := by simp [gets, DecodeStep.Plain]
  have hputs : ∀ put ∈ puts, put.Plain := by simp [puts, EncodeStep.Plain]
  exact ⟨hpadding {} wire gets, hle, ((hceiling {} 1 2 hle).2 {} (puts ++ [step])).1, hgets, hputs,
    (hplain {} 0 9).1 wire gets hgets, (hplain {} 0 9).2 {} puts hputs⟩

end Xdr
