import Xdr.Proofs.Delivery.Encoding
import Xdr.Reading.Items

/-!
# Readings and plans compared

Two readings are compared on decoders with the same source that may have different settings
(`Context.Twins`). They tally (`Reading.Tallies`) if they end with values or errors that belong
together, at the same place, unless the first ends with an error for a given cause. What tallies in
parts tallies as a whole. A reading tallies with itself where the settings of the second decoder are
no stricter than those of the first (`tallies_self`). Plans are compared on encoders with the same
sink in the same way.
-/

namespace Xdr

namespace Context

/-- Two contexts with these settings and the same transport, of which both or neither are poisoned.
Where they have to be `fresh`, neither is. -/
structure Twins {τ : Type} (fresh : Prop) (config config' : Config) (first second : Context τ) :
    Prop where
  config_eq : first.config = config
  config_eq' : second.config = config'
  transport : second.transport = first.transport
  poisoned : second.poisoned = first.poisoned
  usable : fresh → first.poisoned = false

variable {τ : Type} {fresh : Prop} {config config' : Config} {first second : Context τ}

/-- Twins stay twins when both go on to the same transport. -/
theorem Twins.useTransport (h : Twins fresh config config' first second) (transport : τ) :
    Twins fresh config config' { first with transport } { second with transport } :=
  ⟨h.config_eq, h.config_eq', rfl, h.poisoned, h.usable⟩

/-- Events make no difference. -/
theorem Twins.record (h : Twins fresh config config' first second) (event event' : Event) :
    Twins fresh config config' (first.record event) (second.record event') :=
  ⟨h.config_eq, h.config_eq', h.transport, h.poisoned, h.usable⟩

/-- Twins that both fault are twins that are poisoned. -/
theorem Twins.fault (h : Twins fresh config config' first second) (operation operation' : Operation)
    (error error' : Error) :
    Twins False config config' (first.fault operation error) (second.fault operation' error') :=
  ⟨h.config_eq, h.config_eq', h.transport, rfl, False.elim⟩

theorem Twins.stale (h : Twins fresh config config' first second) :
    Twins False config config' first second :=
  ⟨h.config_eq, h.config_eq', h.transport, h.poisoned, False.elim⟩

end Context

/-- How a reading ends on a decoder, and another one on its twin: with values or with errors that
belong together, or the first with an error for this cause. -/
inductive Decoder.Tally (fresh : Prop) (config config' : Config) (cause : Error → Bool)
    {κ μ α β : Type} (alike : Stopped κ → Stopped μ → Prop) (same : α → β → Prop) :
    Except (Stopped κ) α × Decoder → Except (Stopped μ) β × Decoder → Prop where
  | values {value value' first second} : same value value' →
      Context.Twins fresh config config' first second →
      Decoder.Tally fresh config config' cause alike same (.ok value, first) (.ok value', second)
  | errors {stopped stopped' first second} : alike stopped stopped' →
      Context.Twins False config config' first second →
      Decoder.Tally fresh config config' cause alike same (.error stopped, first)
        (.error stopped', second)
  | narrowed {stopped first} (answer) : cause stopped.error →
      Decoder.Tally fresh config config' cause alike same (.error stopped, first) answer

namespace Reading

variable {fresh : Prop} {config config' : Config} {cause : Error → Bool}
variable {κ μ α β κ' μ' α' β' : Type}
variable {alike : Stopped κ → Stopped μ → Prop} {same : α → β → Prop}

/-- On all twins, the readings end with values or errors that belong together, or the first ends
with an error for this cause. -/
def Tallies (fresh : Prop) (config config' : Config) (cause : Error → Bool)
    (alike : Stopped κ → Stopped μ → Prop) (same : α → β → Prop) (reading : Reading κ α)
    (reading' : Reading μ β) : Prop :=
  ∀ ⦃first second : Decoder⦄, Context.Twins fresh config config' first second →
    Decoder.Tally fresh config config' cause alike same (reading.run first) (reading'.run second)

theorem tallies_done {value : α} {value' : β} (h : same value value') :
    Tallies fresh config config' cause alike same (done value) (done value') :=
  fun _ _ htwins => .values h htwins

/-- A fault with one error tallies with a fault with another one, whatever the operations. -/
theorem tallies_fault {operation operation' : Operation} {error error' : Error} {kept : κ}
    {kept' : μ} (h : alike ⟨error, kept⟩ ⟨error', kept'⟩) :
    Tallies fresh config config' cause alike same (fault operation error kept)
      (fault operation' error' kept') :=
  fun _ _ htwins => .errors h (htwins.fault operation operation' error error')

/-- So does an error that leaves a usable decoder usable, guarded or not. -/
theorem tallies_refuse_of_fresh (hfresh : fresh) {error error' : Error} {guarded guarded' : Bool}
    {kept : κ} {kept' : μ} (h : alike ⟨error, kept⟩ ⟨error', kept'⟩) :
    Tallies fresh config config' cause alike same
      (refuse { error, guarded } kept) (refuse { error := error', guarded := guarded' } kept') := by
  intro first second htwins
  have husable := htwins.usable hfresh
  rw [run_refuse, run_refuse, Context.refuse, Context.refuse, htwins.poisoned, husable]
  simp only [Bool.and_false, Bool.false_eq_true, if_false]
  exact .errors h htwins.stale

/-- A request that fails ends both readings in the same way. -/
theorem tallies_request {operation operation' : Operation} {count : Nat} {untouched kept : κ}
    {untouched' kept' : μ} {next : List UInt8 → Reading κ α} {next' : List UInt8 → Reading μ β}
    (huntouched : alike ⟨.poisoned, untouched⟩ ⟨.poisoned, untouched'⟩)
    (hkept : ∀ error, alike ⟨error, kept⟩ ⟨error, kept'⟩)
    (hnext : ∀ bytes, Tallies fresh config config' cause alike same (next bytes) (next' bytes)) :
    Tallies fresh config config' cause alike same (request operation count untouched kept next)
      (request operation' count untouched' kept' next') := by
  intro first second htwins
  rw [run_request, run_request, htwins.poisoned, Context.useTransport_eq, Context.useTransport_eq,
    htwins.transport]
  split
  · exact .errors huntouched htwins.stale
  · generalize first.transport.readExact count = answer
    obtain ⟨failure | bytes, source⟩ := answer
    · exact .errors (hkept _) ((htwins.useTransport source).fault _ _ _ _)
    · exact hnext bytes (htwins.useTransport source)

/-- A word is asked for alike, whatever is kept of the targets. -/
theorem tallies_word {operation operation' : Operation} {kept : κ} {kept' : μ}
    {next : UInt32 → Reading κ α} {next' : UInt32 → Reading μ β}
    (hkept : ∀ error, alike ⟨error, kept⟩ ⟨error, kept'⟩)
    (hnext : ∀ w, Tallies fresh config config' cause alike same (next w) (next' w)) :
    Tallies fresh config config' cause alike same (word operation kept next)
      (word operation' kept' next') :=
  tallies_request (hkept .poisoned) hkept fun bytes => hnext (wordOfImage bytes)

theorem tallies_note {event event' : Event} {reading : Reading κ α} {reading' : Reading μ β}
    (h : Tallies fresh config config' cause alike same reading reading') :
    Tallies fresh config config' cause alike same (note event reading) (note event' reading') :=
  fun _ _ htwins => h (htwins.record event event')

/-- Padding that the first decoder accepts is accepted by the second, and padding that only the
second accepts ends the first reading for the cause. -/
theorem tallies_checkPadding {operation operation' : Operation} {padding : List UInt8} {kept : κ}
    {kept' : μ} {next : Reading κ α} {next' : Reading μ β}
    (hpolicy : config'.padding = config.padding ∨
      config'.padding = .lenient ∧ cause .invalidPadding)
    (hkept : alike ⟨.invalidPadding, kept⟩ ⟨.invalidPadding, kept'⟩)
    (hnext : Tallies fresh config config' cause alike same next next') :
    Tallies fresh config config' cause alike same (checkPadding operation padding kept next)
      (checkPadding operation' padding kept' next') := by
  intro first second htwins
  rw [run_checkPadding, run_checkPadding, htwins.config_eq, htwins.config_eq']
  rcases hpolicy with hsame | ⟨hlenient, hcause⟩
  · rw [hsame]
    split
    · exact hnext htwins
    · exact .errors hkept (htwins.fault _ _ _ _)
  · have haccepts : config'.padding.accepts padding = true := by rw [hlenient]; rfl
    rw [if_pos haccepts]
    split
    · exact hnext htwins
    · exact .narrowed _ hcause

/-- Readings with something after them tally if they do, and what comes after them does behind
values that belong together. -/
theorem Tallies.andThen {reading : Reading κ α} {reading' : Reading μ β} {keep : κ → κ'}
    {keep' : μ → μ'} {next : α → Reading κ' α'} {next' : β → Reading μ' β'}
    {alike' : Stopped κ' → Stopped μ' → Prop} {same' : α' → β' → Prop}
    (h : Tallies fresh config config' cause alike same reading reading')
    (hkeep : ∀ stopped stopped', alike stopped stopped' →
      alike' (stopped.map keep) (stopped'.map keep'))
    (hnext : ∀ value value', same value value' →
      Tallies fresh config config' cause alike' same' (next value) (next' value')) :
    Tallies fresh config config' cause alike' same' (reading.andThen keep next)
      (reading'.andThen keep' next') := by
  intro first second htwins
  have htally := h htwins
  rw [run_andThen, run_andThen]
  generalize reading.run first = answer at htally ⊢
  generalize reading'.run second = answer' at htally ⊢
  cases htally with
  | values hsame hafter => exact hnext _ _ hsame hafter
  | errors halike hafter => exact .errors (hkeep _ _ halike) hafter
  | narrowed _ hcause => exact .narrowed _ hcause

/-- The value of the first reading may be changed alone. -/
theorem Tallies.map_left {reading : Reading κ α} {reading' : Reading μ β} {keep : κ → κ'}
    {change : α → α'} {alike' : Stopped κ' → Stopped μ → Prop} {same' : α' → β → Prop}
    (h : Tallies fresh config config' cause alike same reading reading')
    (hkeep : ∀ stopped stopped', alike stopped stopped' → alike' (stopped.map keep) stopped')
    (hchange : ∀ value value', same value value' → same' (change value) value') :
    Tallies fresh config config' cause alike' same' (reading.map keep change) reading' := by
  intro first second htwins
  have htally := h htwins
  rw [Reading.map, run_andThen]
  generalize reading.run first = answer at htally ⊢
  generalize reading'.run second = answer' at htally ⊢
  cases htally with
  | values hsame hafter => exact .values (hchange _ _ hsame) hafter
  | errors halike hafter => exact .errors (hkeep _ _ halike) hafter
  | narrowed _ hcause => exact .narrowed _ hcause

/-- The value of the second reading may be changed alone. -/
theorem Tallies.map_right {reading : Reading κ α} {reading' : Reading μ β} {keep' : μ → μ'}
    {change' : β → β'} {alike' : Stopped κ → Stopped μ' → Prop} {same' : α → β' → Prop}
    (h : Tallies fresh config config' cause alike same reading reading')
    (hkeep : ∀ stopped stopped', alike stopped stopped' → alike' stopped (stopped'.map keep'))
    (hchange : ∀ value value', same value value' → same' value (change' value')) :
    Tallies fresh config config' cause alike' same' reading (reading'.map keep' change') := by
  intro first second htwins
  have htally := h htwins
  rw [Reading.map, run_andThen]
  generalize reading.run first = answer at htally ⊢
  generalize reading'.run second = answer' at htally ⊢
  cases htally with
  | values hsame hafter => exact .values (hchange _ _ hsame) hafter
  | errors halike hafter => exact .errors (hkeep _ _ halike) hafter
  | narrowed _ hcause => exact .narrowed _ hcause

/-! ### One reading under two settings -/

/-- A refusal does not depend on the settings. -/
theorem tallies_refuse (refusal : Refusal) (kept : κ) :
    Tallies fresh config config' cause Eq Eq (refuse refusal kept : Reading κ α)
      (refuse refusal kept) := by
  intro first second htwins
  rw [run_refuse, run_refuse, Context.refuse, Context.refuse, htwins.poisoned]
  split
  · exact .errors rfl htwins.stale
  · cases refusal.fault with
    | none => exact .errors rfl htwins.stale
    | some operation => exact .errors rfl (htwins.fault _ _ _ _)

/-- A reading does not depend on the settings, but for the padding that they accept. -/
theorem tallies_self (hpolicy : config'.padding = config.padding ∨
      config'.padding = .lenient ∧ cause .invalidPadding) (reading : Reading κ α) :
    Tallies fresh config config' cause Eq Eq reading reading := by
  induction reading with
  | done value => exact tallies_done rfl
  | refuse refusal kept => exact tallies_refuse refusal kept
  | request operation count untouched kept next ih =>
      exact tallies_request rfl (fun _ => rfl) ih
  | note event next ih => exact tallies_note ih
  | mark part next ih => exact ih
  | checkPadding operation padding kept next ih => exact tallies_checkPadding hpolicy rfl ih
  | later next ih => exact ih ()
  | andThen first keep next ihFirst ihNext =>
      exact ihFirst.andThen (fun _ _ hstopped => congrArg _ hstopped) fun value _ hsame =>
        hsame ▸ ihNext value

/-- Where the readings do not end with the same value or the same error, and keep the same, the
first ends with an error for this cause. -/
abbrev Narrows (config config' : Config) (cause : Error → Bool) (reading reading' : Reading κ α) :
    Prop :=
  Tallies False config config' cause Eq Eq reading reading'

theorem Narrows.andThen {reading reading' : Reading κ α} {keep : κ → μ}
    {next next' : α → Reading μ β} (h : Narrows config config' cause reading reading')
    (hnext : ∀ value, Narrows config config' cause (next value) (next' value)) :
    Narrows config config' cause (reading.andThen keep next) (reading'.andThen keep next') :=
  Tallies.andThen h (fun _ _ hstopped => congrArg _ hstopped) fun value _ hsame =>
    hsame ▸ hnext value

end Reading

/-! ### Plans -/

/-- How a plan ends on an encoder, and another one on its twin: well, or with errors that belong
together, or the first with an error for this cause. Then it cannot go on, and has written a leading
part of what the second has written. -/
inductive Encoder.Tally (fresh : Prop) (config config' : Config) (cause : Error → Bool)
    (alike : Error → Error → Prop) :
    Except Error Unit × Encoder → Except Error Unit × Encoder → Prop where
  | done {first second} : Context.Twins fresh config config' first second →
      Encoder.Tally fresh config config' cause alike (.ok (), first) (.ok (), second)
  | errors {error error' first second} : alike error error' →
      Context.Twins False config config' first second →
      Encoder.Tally fresh config config' cause alike (.error error, first) (.error error', second)
  | narrowed {error first answer} : cause error → first.poisoned = true →
      first.transport.taken.toList <+: answer.2.transport.taken.toList →
      Encoder.Tally fresh config config' cause alike (.error error, first) answer

variable {fresh : Prop} {config config' : Config} {cause : Error → Bool}
  {alike : Error → Error → Prop}

/-- An item is written alike on twins as any other item with the same image. -/
theorem Item.tally_emit {item item' : Item} (himage : item'.image = item.image)
    (halike : ∀ error, alike error error) {first second : Encoder}
    (htwins : Context.Twins fresh config config' first second) :
    Encoder.Tally fresh config config' cause alike (item.emit first) (item'.emit second) := by
  cases hpoisoned : first.poisoned with
  | true =>
      have hfirst : item.emit first = (.error .poisoned, first) := if_pos hpoisoned
      have hsecond : item'.emit second = (.error .poisoned, second) :=
        if_pos (htwins.poisoned.trans hpoisoned)
      rw [hfirst, hsecond]
      exact .errors (halike _) htwins.stale
  | false =>
      obtain ⟨noted, -, husable, hconfig, hemit⟩ := item.emit_usable hpoisoned
      obtain ⟨noted', -, husable', hconfig', hemit'⟩ :=
        item'.emit_usable (htwins.poisoned.trans hpoisoned)
      rw [hemit, hemit', htwins.transport, himage]
      generalize first.transport.writeAll item.image = written
      obtain ⟨failure | _, sink⟩ := written
      · exact .errors (halike _) ⟨hconfig.trans htwins.config_eq, hconfig'.trans htwins.config_eq',
          rfl, rfl, False.elim⟩
      · exact .done ⟨hconfig.trans htwins.config_eq, hconfig'.trans htwins.config_eq', rfl,
          husable'.trans husable.symm, fun _ => husable⟩

namespace Plan

/-- On all twins, the plans end well or with errors that belong together, or the first ends with an
error for this cause. -/
def Tallies (fresh : Prop) (config config' : Config) (cause : Error → Bool)
    (alike : Error → Error → Prop) (plan plan' : Plan) : Prop :=
  ∀ ⦃first second : Encoder⦄, Context.Twins fresh config config' first second →
    Encoder.Tally fresh config config' cause alike (plan.run first) (plan'.run second)

theorem tallies_empty : Tallies fresh config config' cause alike empty empty :=
  fun _ _ htwins => .done htwins

theorem tallies_one {item item' : Item} (himage : item'.image = item.image)
    (halike : ∀ error, alike error error) :
    Tallies fresh config config' cause alike (one item) (one item') := by
  intro first second htwins
  have htally : Encoder.Tally fresh config config' cause alike (item.emit first)
    (item'.emit second) := item.tally_emit himage halike htwins
  have hone (item : Item) (encoder : Encoder) : (one item).run encoder = item.emit encoder := by
    simp only [run, one, emitAll]
    rcases item.emit encoder with ⟨_ | _, written⟩ <;> rfl
  rwa [hone, hone]

/-- Refusals of usable encoders tally if both or neither are faults. -/
theorem tallies_refuse_of_fresh (hfresh : fresh) {refusal refusal' : Refusal}
    (hfault : refusal'.fault.isSome = refusal.fault.isSome)
    (halike : alike refusal.error refusal'.error) :
    Tallies fresh config config' cause alike (refuse refusal) (refuse refusal') := by
  intro first second htwins
  have husable := htwins.usable hfresh
  simp only [run, refuse, emitAll, Context.refuse, htwins.poisoned, husable, Bool.and_false,
    Bool.false_eq_true, if_false]
  cases hoperation : refusal.fault with
  | none =>
      rw [hoperation] at hfault
      rw [Option.isSome_eq_false_iff.mp hfault |> Option.isNone_iff_eq_none.mp]
      exact .errors halike htwins.stale
  | some operation =>
      rw [hoperation] at hfault
      obtain ⟨operation', hoperation'⟩ := Option.isSome_iff_exists.mp hfault
      rw [hoperation']
      exact .errors halike (htwins.fault _ _ _ _)

/-- Where the first of two plans is cut short, what the others write only adds to what the second
has written. -/
theorem Tallies.append {front front' back back' : Plan}
    (h : Tallies fresh config config' cause alike front front')
    (hback : Tallies fresh config config' cause alike back back') :
    Tallies fresh config config' cause alike (front ++ back) (front' ++ back') := by
  intro first second htwins
  have htally := h htwins
  rw [run_append, run_append]
  generalize front.run first = answer at htally ⊢
  generalize front'.run second = answer' at htally ⊢
  cases htally with
  | done hafter => exact hback hafter
  | errors halike hafter => exact .errors halike hafter
  | narrowed hcause hpoisoned hprefix =>
      refine .narrowed hcause hpoisoned ?_
      obtain ⟨result, between⟩ := answer'
      cases result with
      | error _ => exact hprefix
      | ok _ =>
          obtain ⟨more, hmore⟩ := (extends_run back' between).taken
          exact hprefix.trans ⟨more, hmore.symm⟩

theorem tallies_concat {plans plans' : List Plan}
    (h : List.Forall₂ (Tallies fresh config config' cause alike) plans plans') :
    Tallies fresh config config' cause alike (concat plans) (concat plans') := by
  induction h with
  | nil => exact tallies_empty
  | cons hhead _ ih => exact Tallies.append hhead ih

/-- A plan is carried out alike whatever the settings. -/
theorem tallies_self (plan : Plan) : Tallies False config config' cause Eq plan plan := by
  obtain ⟨items, refusal⟩ := plan
  induction items with
  | nil =>
      intro first second htwins
      cases refusal with
      | none => exact .done htwins
      | some refusal =>
          simp only [run, emitAll, Context.refuse, htwins.poisoned]
          split
          · exact .errors rfl htwins.stale
          · cases refusal.fault with
            | none => exact .errors rfl htwins.stale
            | some operation => exact .errors rfl (htwins.fault _ _ _ _)
  | cons item items ih => exact Tallies.append (tallies_one rfl fun _ => rfl) ih

end Plan

end Xdr
