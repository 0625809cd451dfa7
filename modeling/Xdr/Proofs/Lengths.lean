import Xdr.Proofs.Faults
import Xdr.Proofs.Fetches

/-!
# Accepted lengths

Data that carries its own length is accepted or refused by that length, before anything else is done
about it. `Lengths` are the lengths that are accepted while something is carried out on a context:
put together part by part from what each part comes to on the context that reaches it, and without
regard to what the context logs. `Context.Logs` says that a context has logged just these lengths
and then the fault it ended with. The statements to read first are `Plan.Logs.append` and
`Reading.Logs.andThen`: the log of two parts is that of the first, then that of the second.
-/

namespace Xdr

open Transport

universe u

/-- The lengths of data that are accepted on a context, in order and with the kind of their data. -/
abbrev Lengths (τ : Type) := Context τ → List (SizedKind × Nat)

namespace Lengths

variable {τ ε α : Type}

/-- Nothing carries a length of its own. -/
def nothing : Lengths τ := fun _ => []

/-- The lengths accepted in one part and, if that goes well, those of what follows it. -/
def andThen (run : Context τ → Except ε α × Context τ) (first : Lengths τ) (next : α → Lengths τ) :
    Lengths τ := fun context =>
  first context ++
    match run context with
    | (.ok value, after) => next value after
    | (.error _, _) => []

/-- The lengths accepted in parts one after the other, up to the first that fails. -/
def row : List ((Context τ → Except ε α × Context τ) × Lengths τ) → Lengths τ
  | [] => nothing
  | (run, lengths) :: parts => andThen run lengths fun _ => row parts

/-- Data to be written is accepted up to a length. -/
def within (kind : SizedKind) (max : UInt32) (data : List UInt8) : Lengths Sink := fun _ =>
  if data.length ≤ max.toNat then [(kind, data.length)] else []

/-- The lengths accepted behind an item. -/
def behind (item : Item) (next : Lengths Sink) : Lengths Sink :=
  andThen item.emit nothing fun _ => next

/-- The lengths accepted behind bytes that are read, if there are so many. -/
def behindBytes (count : Nat) (next : List UInt8 → Lengths Source) : Lengths Source :=
  fun decoder =>
    match decoder.useTransport fun source => source.readExact count with
    | (.ok bytes, after) => next bytes after
    | (.error _, _) => []

/-- The lengths accepted behind a word that is read. -/
def behindWord (next : UInt32 → Lengths Source) : Lengths Source :=
  behindBytes 4 fun bytes => next (wordOfImage bytes)

/-- A word is accepted as the length of data to be read up to a bound, whether or not the data is
there. -/
def announced (kind : SizedKind) (max : UInt32) : Lengths Source :=
  behindWord fun w => if w ≤ max then fun _ => [(kind, w.toNat)] else nothing

/-- Where nothing follows, the lengths are those of the one part. -/
@[simp] theorem andThen_nothing (run : Context τ → Except ε α × Context τ) (first : Lengths τ) :
    andThen run first (fun _ => nothing) = first := by
  funext context
  rw [andThen]
  split <;> exact List.append_nil _

@[simp] theorem behindBytes_nothing (count : Nat) :
    behindBytes count (fun _ => nothing) = nothing := by
  funext decoder
  rw [behindBytes]
  split <;> rfl

end Lengths

/-! ### Logs -/

/-- The event that tells of an accepted length. -/
def Event.accepted : SizedKind × Nat → Event
  | (kind, length) => .sized kind length (padLength length)

namespace Context

variable {τ : Type}

/-- Between the two contexts, these lengths were logged and then a fault with this error, if there
is one and it is fatal. The poison flag tells of the fault as well. -/
structure Logs (before after : Context τ) (error : Option Error)
    (lengths : List (SizedKind × Nat)) : Prop where
  poisoned : after.poisoned = error.any Error.fatal
  events : ∃ operation, after.events.toList = before.events.toList ++
    (lengths.map .accepted ++ (error.filter Error.fatal).toList.map (.fault operation))

variable {before between after : Context τ} {error : Option Error}
  {front back lengths : List (SizedKind × Nat)}

/-- A context on which nothing is done has nothing to log. -/
theorem logs_refl (husable : before.poisoned = false) : before.Logs before none [] :=
  ⟨husable, .user, (List.append_nil _).symm⟩

/-- The log of one part, then that of the next. -/
theorem Logs.trans (hfirst : before.Logs between none front)
    (hnext : between.Logs after error back) :
    before.Logs after error (front ++ back) := by
  obtain ⟨operation, hafter⟩ := hnext.events
  obtain ⟨_, hbetween⟩ := hfirst.events
  refine ⟨hnext.poisoned, operation, ?_⟩
  rw [hafter, hbetween, List.map_append]
  simp

/-- What happened to the transport before does not concern the log. -/
theorem Logs.of_transport (transport : τ)
    (h : Context.Logs { before with transport := transport } after error lengths) :
    before.Logs after error lengths :=
  ⟨h.poisoned, h.events⟩

/-- A fatal error is logged as the fault it is. -/
theorem logs_fault {operation : Operation} {error : Error} (hfatal : error.fatal = true) :
    before.Logs (before.fault operation error) (some error) [] := by
  refine ⟨hfatal.symm, operation, ?_⟩
  rw [Option.filter_some, if_pos hfatal]
  exact Array.toList_push

/-- A regular refusal logs a fault if its error is fatal, and nothing otherwise. -/
theorem logs_refuse {refusal : Refusal} (hregular : refusal.Regular)
    (husable : before.poisoned = false) :
    before.Logs (before.refuse refusal).2 (some (before.refuse refusal).1) [] := by
  unfold refuse
  rw [husable, Bool.and_false, if_neg Bool.false_ne_true]
  cases hfault : refusal.fault with
  | none =>
      have hfatal : refusal.error.fatal = false := by rw [← hregular, hfault]; rfl
      refine ⟨husable.trans hfatal.symm, .user, ?_⟩
      rw [Option.filter_some, hfatal]
      exact (List.append_nil _).symm
  | some operation =>
      refine logs_fault ?_
      rw [← hregular, hfault]
      rfl

end Context

/-! ### Plans -/

namespace Plan

/-- The error that carrying out a plan ended with, if it did. -/
def errorOf : Except Error Unit → Option Error
  | .ok _ => none
  | .error error => some error

/-- On every usable encoder, carrying out the plan logs these lengths and the error it ends with. -/
def Logs (plan : Plan) (lengths : Lengths Sink) : Prop :=
  ∀ encoder : Encoder, encoder.poisoned = false →
    encoder.Logs (plan.run encoder).2 (errorOf (plan.run encoder).1) (lengths encoder)

variable {first second : Plan} {front back : Lengths Sink}

theorem logs_empty : empty.Logs .nothing :=
  fun _ husable => Context.logs_refl husable

theorem logs_refuse {refusal : Refusal} (hregular : refusal.Regular) :
    (refuse refusal).Logs .nothing :=
  fun _ husable => Context.logs_refuse hregular husable

theorem run_one (item : Item) (encoder : Encoder) : (one item).run encoder = item.emit encoder := by
  unfold run one emitAll emitAll
  rcases item.emit encoder with ⟨error | _, written⟩ <;> rfl

/-- The event of an item is logged in front of what becomes of the item. -/
theorem logs_one (item : Item) {lengths : List (SizedKind × Nat)}
    (hevent : item.event.toList = lengths.map .accepted) : (one item).Logs fun _ => lengths := by
  intro encoder husable
  have hnoted : (item.event.elim encoder encoder.record).events.toList =
        encoder.events.toList ++ lengths.map .accepted ∧
      (item.event.elim encoder encoder.record).poisoned = false := by
    rw [← hevent]
    cases item.event with
    | none => exact ⟨(List.append_nil _).symm, husable⟩
    | some event => exact ⟨Array.toList_push, husable⟩
  rw [run_one, Item.emit, husable, if_neg Bool.false_ne_true]
  generalize item.event.elim encoder encoder.record = noted at hnoted
  obtain ⟨hevents, hpoisoned⟩ := hnoted
  have hnoting : encoder.Logs noted none lengths :=
    ⟨hpoisoned, .user, hevents.trans (by simp)⟩
  simp only [Context.useTransport_eq]
  rw [← List.append_nil lengths]
  refine hnoting.trans (.of_transport (noted.transport.writeAll item.image).2 ?_)
  rcases noted.transport.writeAll item.image with ⟨failure | _, sink⟩
  · exact Context.logs_fault (Error.fatal_ofWrite failure)
  · exact Context.logs_refl hpoisoned

/-- One plan after the other logs what the first logs and, if that goes well, what the second
does. -/
theorem Logs.append (hfirst : first.Logs front) (hsecond : second.Logs back) :
    (first ++ second).Logs (.andThen first.run front fun _ => back) := by
  intro encoder husable
  have hfront := hfirst encoder husable
  rw [run_append, Lengths.andThen]
  rcases hrun : first.run encoder with ⟨error | _, between⟩ <;> rw [hrun] at hfront
  · simpa using hfront
  · exact hfront.trans (hsecond between hfront.poisoned)

/-- Behind an item without a length, a plan logs what it does of itself. -/
theorem Logs.behind {item : Item} (hevent : item.event = none) (hsecond : second.Logs back) :
    (one item ++ second).Logs (.behind item back) := by
  have hitem : (one item).Logs .nothing := logs_one item (by rw [hevent]; rfl)
  have hboth := hitem.append hsecond
  rwa [funext (run_one item)] at hboth

/-- Plans in a row log what each of them does, up to the first that fails. -/
theorem logs_concat {ι : Type u} {parts : List ι} (plan : ι → Plan) (lengths : ι → Lengths Sink)
    (h : ∀ part ∈ parts, (plan part).Logs (lengths part)) :
    (concat (parts.map plan)).Logs
      (.row (parts.map fun part => ((plan part).run, lengths part))) := by
  induction parts with
  | nil => exact logs_empty
  | cons part parts ih =>
      refine (h part List.mem_cons_self).append (ih fun other hmem => ?_)
      exact h other (List.mem_cons_of_mem _ hmem)

end Plan

/-- Data is logged with its length if that is within the bound, and refused otherwise. -/
theorem Filter.logs_encodeSized (kind : SizedKind) (operation : Operation) (max : UInt32)
    (data : List UInt8) :
    (encodeSized kind operation max data).Logs (.within kind max data) := by
  unfold encodeSized Lengths.within
  by_cases hlength : data.length ≤ max.toNat
  · simp only [if_pos hlength]
    exact Plan.logs_one _ rfl
  · simp only [if_neg hlength]
    exact Plan.logs_refuse rfl

/-! ### Readings -/

namespace Reading

variable {κ μ α β : Type}

/-- On every usable decoder, carrying out the reading logs these lengths and the error it stops
with. -/
def Logs (reading : Reading κ α) (lengths : Lengths Source) : Prop :=
  ∀ decoder : Decoder, decoder.poisoned = false →
    decoder.Logs (reading.run decoder).2 (errorOf (reading.run decoder).1) (lengths decoder)

theorem logs_done (value : α) : (done value : Reading κ α).Logs .nothing :=
  fun _ husable => Context.logs_refl husable

theorem logs_refuse {refusal : Refusal} {kept : κ} (hregular : refusal.Regular) :
    (refuse refusal kept : Reading κ α).Logs .nothing :=
  fun _ husable => Context.logs_refuse hregular husable

theorem logs_request {operation : Operation} {count : Nat} {untouched kept : κ}
    {next : List UInt8 → Reading κ α} {lengths : List UInt8 → Lengths Source}
    (h : ∀ bytes, (next bytes).Logs (lengths bytes)) :
    (request operation count untouched kept next).Logs (.behindBytes count lengths) := by
  intro decoder husable
  rw [run_request, husable, if_neg Bool.false_ne_true, Lengths.behindBytes]
  simp only [Context.useTransport_eq]
  refine .of_transport (decoder.transport.readExact count).2 ?_
  rcases decoder.transport.readExact count with ⟨failure | bytes, source⟩
  · exact Context.logs_fault (Error.fatal_ofRead failure)
  · exact h bytes { decoder with transport := source } husable

/-- An accepted length is logged in front of what becomes of the data. -/
theorem logs_note {next : Reading κ α} (kind : SizedKind) (length : Nat) (h : next.Logs .nothing) :
    (note (.accepted (kind, length)) next).Logs fun _ => [(kind, length)] := by
  intro decoder husable
  have hnoting : decoder.Logs (decoder.record (.accepted (kind, length))) none [(kind, length)] :=
    ⟨husable, .user, Array.toList_push⟩
  exact hnoting.trans (h (decoder.record (.accepted (kind, length))) husable)

theorem logs_checkPadding {operation : Operation} {padding : List UInt8} {kept : κ}
    {next : Reading κ α} (h : next.Logs .nothing) :
    (checkPadding operation padding kept next).Logs .nothing := by
  intro decoder husable
  rw [run_checkPadding]
  split
  · exact h decoder husable
  · exact Context.logs_fault rfl

/-- One reading after the other logs what the first logs and, if that goes well, what the second
does. -/
theorem Logs.andThen {first : Reading κ α} {keep : κ → μ} {next : α → Reading μ β}
    {front : Lengths Source} {back : α → Lengths Source} (hfirst : first.Logs front)
    (hnext : ∀ value, (next value).Logs (back value)) :
    (first.andThen keep next).Logs (.andThen first.run front back) := by
  intro decoder husable
  have hfront := hfirst decoder husable
  rw [run_andThen, Lengths.andThen]
  rcases hrun : first.run decoder with ⟨stopped | value, between⟩ <;> rw [hrun] at hfront
  · rw [List.append_nil]
    exact hfront
  · exact hfront.trans (hnext value between hfront.poisoned)

/-- Where what follows accepts no lengths, those of the first are all there are. -/
theorem Logs.andThen_quiet {first : Reading κ α} {keep : κ → μ} {next : α → Reading μ β}
    {lengths : Lengths Source} (hfirst : first.Logs lengths)
    (hnext : ∀ value, (next value).Logs .nothing) : (first.andThen keep next).Logs lengths := by
  have hboth : (first.andThen keep next).Logs (.andThen first.run lengths fun _ => .nothing) :=
    hfirst.andThen hnext
  rwa [Lengths.andThen_nothing] at hboth

/-- Readings that run alike log alike. -/
theorem Logs.of_run {reading other : Reading κ α} {lengths : Lengths Source}
    (h : other.Logs lengths) (hrun : ∀ decoder, reading.run decoder = other.run decoder) :
    reading.Logs lengths := by
  intro decoder husable
  rw [hrun]
  exact h decoder husable

theorem Logs.map {reading : Reading κ α} {lengths : Lengths Source} (h : reading.Logs lengths)
    (keep : κ → μ) (change : α → β) : (reading.map keep change).Logs lengths :=
  h.andThen_quiet fun _ => logs_done _

/-! ### Items -/

theorem logs_fault {operation : Operation} {error : Error} {kept : κ}
    (hfatal : error.fatal = true) : (fault operation error kept : Reading κ α).Logs .nothing :=
  logs_refuse (Eq.symm hfatal : Refusal.Regular _)

theorem logs_raise {error : Error} {kept : κ} (hfatal : error.fatal = false) :
    (raise error kept : Reading κ α).Logs .nothing :=
  logs_refuse (Eq.symm hfatal : Refusal.Regular _)

/-- Bytes that come before nothing with a length have no length of their own. -/
theorem logs_bytes {operation : Operation} {count : Nat} {untouched kept : κ}
    {next : List UInt8 → Reading κ α} (h : ∀ bytes, (next bytes).Logs .nothing) :
    (request operation count untouched kept next).Logs .nothing := by
  rw [← Lengths.behindBytes_nothing count]
  exact logs_request h

theorem logs_word {operation : Operation} {kept : κ} {next : UInt32 → Reading κ α}
    {lengths : UInt32 → Lengths Source} (h : ∀ w, (next w).Logs (lengths w)) :
    (word operation kept next).Logs (.behindWord lengths) :=
  logs_request fun _ => h _

/-- A number is read without a length. -/
theorem logs_number {operation : Operation} {kept : κ} {next : UInt32 → Reading κ α}
    (h : ∀ w, (next w).Logs .nothing) : (word operation kept next).Logs .nothing :=
  logs_bytes fun _ => h _

theorem logs_hyper {operation : Operation} {kept : κ} {next : UInt64 → Reading κ α}
    (h : ∀ h, (next h).Logs .nothing) : (hyper operation kept next).Logs .nothing :=
  logs_bytes fun _ => h _

theorem logs_bool {kept : κ} {next : Bool → Reading κ α} (h : ∀ value, (next value).Logs .nothing) :
    (bool kept next).Logs .nothing := by
  refine logs_number fun w => ?_
  split
  · exact h false
  · split
    · exact h true
    · exact logs_fault rfl

/-- A count is a length of something else, which decides what follows. -/
theorem logs_length {max : UInt32} {kept : κ} {next : UInt32 → Reading κ α}
    {lengths : UInt32 → Lengths Source} (h : ∀ w, (next w).Logs (lengths w)) :
    (length max kept next).Logs
      (.behindWord fun w => if w ≤ max then lengths w else .nothing) := by
  refine logs_word fun w => ?_
  split
  · exact h w
  · exact logs_fault rfl

theorem logs_fixedOpaque {length : Nat} {kept : κ} {next : List UInt8 → Reading κ α}
    (h : ∀ data, (next data).Logs .nothing) : (fixedOpaque length kept next).Logs .nothing :=
  logs_bytes fun _ => logs_checkPadding (h _)

theorem logs_collect (operation : Operation) (sizes : List Nat) (got : List (List UInt8)) :
    (collect operation sizes got).Logs .nothing := by
  induction sizes generalizing got with
  | nil => exact logs_done _
  | cons size sizes ih => exact logs_bytes fun bytes => ih (bytes :: got)

theorem logs_sized (kind : SizedKind) (max : UInt32) (buffer : List UInt8) :
    (sized kind max buffer).Logs (.announced kind max) := by
  refine logs_request fun bytes => ?_
  dsimp only
  split
  · refine logs_note kind _ ?_
    exact (logs_collect _ _ []).andThen_quiet fun data => logs_checkPadding (logs_done _)
  · exact logs_fault rfl

/-- Whether the data of a string is text does not concern its length. -/
theorem logs_string (max : UInt32) (kept : κ) :
    (string max kept).Logs (.announced .string max) := by
  refine (logs_sized .string max []).andThen_quiet fun bytes => ?_
  split
  · exact logs_done _
  · exact logs_fault rfl

/-! ### Rows -/

/-- Readings in order log what each of them does, up to the first that stops. -/
theorem logs_inOrder {ι : Type u} {parts : List ι} (target : ι → α) (reading : ι → Reading α α)
    (lengths : ι → Lengths Source) (h : ∀ part ∈ parts, (reading part).Logs (lengths part))
    (finished : List α) :
    (inOrder (parts.map fun part => (target part, reading part)) finished).Logs
      (.row (parts.map fun part => ((reading part).run, lengths part))) := by
  induction parts generalizing finished with
  | nil => exact logs_done _
  | cons part parts ih =>
      refine (h part List.mem_cons_self).andThen fun value => ih (fun other hmem => ?_) _
      exact h other (List.mem_cons_of_mem _ hmem)

theorem logs_replicate {reading : Reading α α} {lengths : Lengths Source} (h : reading.Logs lengths)
    (count : Nat) (finished : List α) :
    (replicate reading count finished).Logs
      (.row (List.replicate count (reading.run, lengths))) := by
  induction count generalizing finished with
  | zero => exact logs_done _
  | succ count ih => exact h.andThen fun value => ih (value :: finished)

end Reading

end Xdr
