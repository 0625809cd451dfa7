import Xdr.Filter

/-!
# Errors and faults

Most errors are fatal to the context they occur on (`Error.fatal`). Plans and readings are `Regular`
where they move whole words only and refuse with a fault exactly if the error is fatal. The
statements to read first are `Plan.reflects_run` and `Reading.reflects_run`: after a regular run on
a usable context, the poison flag tells whether the run ended with a fatal error.
-/

namespace Xdr

/-- Whether an error is fatal to its context. Those are not that speak of the type or come from its
user, not from the bytes. -/
def Error.fatal : Error → Bool
  | unsupported _ => false
  | lengthRequired => false
  | custom _ => false
  | _ => true

/-- Every failed read is fatal. -/
@[simp] theorem Error.fatal_ofRead (failure : Transport.Failure) :
    (Error.ofRead failure).fatal = true := by
  unfold Error.ofRead
  split <;> rfl

/-- Every failed write is fatal. -/
@[simp] theorem Error.fatal_ofWrite (failure : Transport.Failure) :
    (Error.ofWrite failure).fatal = true := by
  unfold Error.ofWrite
  split <;> rfl

/-- The refusal is a fault exactly if its error is fatal. -/
def Refusal.Regular (refusal : Refusal) : Prop :=
  refusal.fault.isSome = refusal.error.fatal

/-- The poison flag tells whether the result is a fatal error. -/
def Context.Reflects {τ ε α : Type} (context : Context τ) (fatal : ε → Bool) : Except ε α → Prop
  | .ok _ => context.poisoned = false
  | .error error => context.poisoned = fatal error

/-- A regular refusal on a usable context sets the poison flag if its error is fatal. -/
theorem Context.refuse_of_usable {τ : Type} {context : Context τ} {refusal : Refusal}
    (hregular : refusal.Regular) (husable : context.poisoned = false) :
    (context.refuse refusal).1 = refusal.error ∧
      (context.refuse refusal).2.poisoned = refusal.error.fatal := by
  unfold Context.refuse
  rw [husable, Bool.and_false, if_neg Bool.false_ne_true, ← hregular]
  cases hfault : refusal.fault with
  | none => exact ⟨rfl, husable⟩
  | some operation => exact ⟨rfl, rfl⟩

/-! ### Plans -/

/-- The items that plans consist of: numbers, opaque data, and data behind its own length. Booleans
and counts are numbers. -/
inductive Item.Primitive : Item → Prop where
  | int32 (value : Int32) : Primitive (.int32 value)
  | uint32 (value : UInt32) : Primitive (.uint32 value)
  | int64 (value : Int64) : Primitive (.int64 value)
  | uint64 (value : UInt64) : Primitive (.uint64 value)
  | float (bits : UInt32) : Primitive (.float bits)
  | double (bits : UInt64) : Primitive (.double bits)
  | fixedOpaque (data : List UInt8) : Primitive (.fixedOpaque data)
  | sized (kind : SizedKind) (data : List UInt8) : Primitive (.sized kind data)

/-- After an item is written on a usable encoder, the poison flag tells whether that failed. -/
theorem Item.reflects_emit (item : Item) {encoder : Encoder} (husable : encoder.poisoned = false) :
    (item.emit encoder).2.Reflects Error.fatal (item.emit encoder).1 := by
  have hnoted : (item.event.elim encoder encoder.record).poisoned = false := by
    cases item.event with
    | none => exact husable
    | some event => exact husable
  unfold emit
  rw [husable, if_neg Bool.false_ne_true]
  simp only [Context.useTransport_eq]
  rcases (item.event.elim encoder encoder.record).transport.writeAll item.image with
    ⟨failure | _, sink⟩
  · exact (Error.fatal_ofWrite failure).symm
  · exact hnoted

namespace Plan

/-- The items of the plan are primitive, and the refusal at its end is regular, if there is one. -/
structure Regular (plan : Plan) : Prop where
  items : ∀ item ∈ plan.items, item.Primitive
  refusal : ∀ refusal ∈ plan.refusal, refusal.Regular

theorem regular_empty : empty.Regular :=
  ⟨fun _ => (nomatch ·), fun _ => (nomatch ·)⟩

theorem regular_one {item : Item} (h : item.Primitive) : (one item).Regular :=
  ⟨fun _ hitem => List.mem_singleton.mp hitem ▸ h, fun _ => (nomatch ·)⟩

theorem regular_refuse {refusal : Refusal} (h : refusal.Regular) : (refuse refusal).Regular := by
  refine ⟨fun _ => (nomatch ·), fun other hother => ?_⟩
  obtain rfl := Option.some.inj hother
  exact h

theorem Regular.append {first second : Plan} (hfirst : first.Regular) (hsecond : second.Regular) :
    (first ++ second).Regular := by
  obtain ⟨items, refusal⟩ := first
  cases refusal with
  | none => exact ⟨List.forall_mem_append.mpr ⟨hfirst.items, hsecond.items⟩, hsecond.refusal⟩
  | some refusal => exact hfirst

theorem regular_concat {plans : List Plan} (h : ∀ plan ∈ plans, plan.Regular) :
    (concat plans).Regular := by
  induction plans with
  | nil => exact regular_empty
  | cons plan plans ih =>
      refine (h plan List.mem_cons_self).append (ih fun other hmem => ?_)
      exact h other (List.mem_cons_of_mem _ hmem)

/-- After items are written on a usable encoder, the poison flag tells whether that failed. -/
theorem reflects_emitAll (items : List Item) {encoder : Encoder}
    (husable : encoder.poisoned = false) :
    (emitAll items encoder).2.Reflects Error.fatal (emitAll items encoder).1 := by
  induction items generalizing encoder with
  | nil => exact husable
  | cons item items ih =>
      have hitem := item.reflects_emit husable
      unfold emitAll
      rcases hemit : item.emit encoder with ⟨error | _, written⟩ <;> rw [hemit] at hitem
      · exact hitem
      · exact ih hitem

/-- After a regular plan is carried out on a usable encoder, the poison flag tells whether it ended
with a fatal error. -/
theorem reflects_run {plan : Plan} (hregular : plan.Regular) {encoder : Encoder}
    (husable : encoder.poisoned = false) :
    (plan.run encoder).2.Reflects Error.fatal (plan.run encoder).1 := by
  have hitems := reflects_emitAll plan.items husable
  unfold run
  rcases hemit : emitAll plan.items encoder with ⟨error | _, written⟩ <;> rw [hemit] at hitems
  · exact hitems
  · cases hrefusal : plan.refusal with
    | none => exact hitems
    | some refusal =>
        obtain ⟨herror, hpoisoned⟩ :=
          Context.refuse_of_usable (hregular.refusal refusal hrefusal) hitems
        show (written.refuse refusal).2.poisoned = (written.refuse refusal).1.fatal
        rw [herror, hpoisoned]

end Plan

theorem Filter.regular_encodeSized (kind : SizedKind) (operation : Operation) (max : UInt32)
    (data : List UInt8) : (encodeSized kind operation max data).Regular := by
  unfold encodeSized
  split
  · exact Plan.regular_one (.sized kind data)
  · exact Plan.regular_refuse rfl

/-! ### Readings -/

namespace Reading

variable {κ μ α β : Type}

/-- Every request that the reading can come to is for whole words, and every refusal is regular. -/
def Regular : {κ α : Type} → Reading κ α → Prop
  | _, _, done _ => True
  | _, _, refuse refusal _ => refusal.Regular
  | _, _, request _ count _ _ next => count % 4 = 0 ∧ ∀ bytes, Regular (next bytes)
  | _, _, note _ next => Regular next
  | _, _, mark _ next => Regular next
  | _, _, checkPadding _ _ _ next => Regular next
  | _, _, later next => Regular (next ())
  | _, _, andThen first _ next => Regular first ∧ ∀ value, Regular (next value)

/-- After a regular reading is carried out on a usable decoder, the poison flag tells whether it
stopped with a fatal error. -/
theorem reflects_run {reading : Reading κ α} (hregular : reading.Regular) {decoder : Decoder}
    (husable : decoder.poisoned = false) :
    (reading.run decoder).2.Reflects (fun stopped => stopped.error.fatal)
      (reading.run decoder).1 := by
  induction reading generalizing decoder with
  | done value => exact husable
  | refuse refusal kept =>
      obtain ⟨herror, hpoisoned⟩ := Context.refuse_of_usable hregular husable
      show (decoder.refuse refusal).2.poisoned = (decoder.refuse refusal).1.fatal
      rw [herror, hpoisoned]
  | request operation count untouched kept next ih =>
      rw [run_request, husable, if_neg Bool.false_ne_true, Context.useTransport_eq]
      rcases decoder.transport.readExact count with ⟨failure | bytes, source⟩
      · exact (Error.fatal_ofRead failure).symm
      · exact ih bytes (hregular.2 bytes) husable
  | note event next ih => exact ih hregular husable
  | mark part next ih => exact ih hregular husable
  | checkPadding operation padding kept next ih =>
      rw [run_checkPadding]
      split
      · exact ih hregular husable
      · exact rfl
  | later next ih => exact ih () hregular husable
  | andThen first keep next ihFirst ihNext =>
      have hfirst := ihFirst hregular.1 husable
      rw [run_andThen]
      rcases hrun : first.run decoder with ⟨stopped | value, between⟩ <;> rw [hrun] at hfirst
      · exact hfirst
      · exact ihNext value (hregular.2 value) hfirst

theorem regular_fault {operation : Operation} {error : Error} {kept : κ}
    (h : error.fatal = true) : (fault operation error kept : Reading κ α).Regular :=
  h.symm

theorem regular_raise {error : Error} {kept : κ} (h : error.fatal = false) :
    (raise error kept : Reading κ α).Regular :=
  h.symm

theorem Regular.map {keep : κ → μ} {change : α → β} {reading : Reading κ α}
    (h : reading.Regular) : (reading.map keep change).Regular :=
  ⟨h, fun _ => trivial⟩

theorem regular_word {operation : Operation} {kept : κ} {next : UInt32 → Reading κ α}
    (h : ∀ w, (next w).Regular) : (word operation kept next).Regular :=
  ⟨rfl, fun _ => h _⟩

theorem regular_hyper {operation : Operation} {kept : κ} {next : UInt64 → Reading κ α}
    (h : ∀ w, (next w).Regular) : (hyper operation kept next).Regular :=
  ⟨rfl, fun _ => h _⟩

theorem regular_bool {kept : κ} {next : Bool → Reading κ α} (h : ∀ value, (next value).Regular) :
    (bool kept next).Regular := by
  refine regular_word fun w => ?_
  split
  · exact h false
  · split
    · exact h true
    · exact regular_fault rfl

theorem regular_length {max : UInt32} {kept : κ} {next : UInt32 → Reading κ α}
    (h : ∀ w, (next w).Regular) : (length max kept next).Regular := by
  refine regular_word fun w => ?_
  split
  · exact h w
  · exact regular_fault rfl

theorem regular_fixedOpaque {length : Nat} {kept : κ} {next : List UInt8 → Reading κ α}
    (h : ∀ data, (next data).Regular) : (fixedOpaque length kept next).Regular :=
  ⟨add_padLength_mod length, fun _ => h _⟩

theorem regular_collect (operation : Operation) {sizes : List Nat}
    (h : ∀ size ∈ sizes, size % 4 = 0) (got : List (List UInt8)) :
    (collect operation sizes got).Regular := by
  induction sizes generalizing got with
  | nil => trivial
  | cons size sizes ih =>
      obtain ⟨hsize, hsizes⟩ := List.forall_mem_cons.mp h
      exact ⟨hsize, fun bytes => ih hsizes (bytes :: got)⟩

/-- Whole words are asked for in portions of whole words. -/
theorem mod_of_mem_portions {total size : Nat} (htotal : total % 4 = 0)
    (hsize : size ∈ portions total) : size % 4 = 0 := by
  rcases List.mem_append.mp hsize with hfull | hlast
  · rw [List.eq_of_mem_replicate hfull]
    rfl
  · split at hlast
    · cases hlast
    · rw [List.mem_singleton.mp hlast, portionSize]
      omega

theorem regular_sized (kind : SizedKind) (max : UInt32) (buffer : List UInt8) :
    (sized kind max buffer).Regular := by
  refine ⟨rfl, fun bytes => ?_⟩
  show Regular (if wordOfImage bytes ≤ max then _ else _)
  split
  · refine ⟨regular_collect _ (fun size hsize => ?_) _, fun _ => trivial⟩
    exact mod_of_mem_portions (add_padLength_mod _) hsize
  · exact regular_fault rfl

theorem regular_string (max : UInt32) (kept : κ) : (string max kept).Regular := by
  refine ⟨regular_sized .string max [], fun bytes => ?_⟩
  dsimp only
  split
  · trivial
  · exact regular_fault rfl

theorem regular_inOrder {pairs : List (α × Reading α α)} {finished : List α}
    (h : ∀ pair ∈ pairs, pair.2.Regular) : (inOrder pairs finished).Regular := by
  induction pairs generalizing finished with
  | nil => trivial
  | cons pair pairs ih =>
      refine ⟨h pair List.mem_cons_self, fun value => ih fun other hmem => ?_⟩
      exact h other (List.mem_cons_of_mem _ hmem)

theorem regular_replicate {reading : Reading α α} (h : reading.Regular) (count : Nat)
    (finished : List α) : (replicate reading count finished).Regular := by
  induction count generalizing finished with
  | zero => trivial
  | succ count ih => exact ⟨h, fun value => ih (value :: finished)⟩

end Reading

end Xdr
