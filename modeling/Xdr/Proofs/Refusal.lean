import Mathlib.Data.List.Forall2
import Xdr.Filter

/-!
# Refusals of poisoned contexts

A poisoned context refuses a plan or a reading at once (`Plan.Refused`, `Reading.Refused`): the
answer is `poisoned`, and the context stays as it is. Only what asks for nothing at all is carried
out. A row of parts is refused if one of them is, since nothing happens in front of it
(`Plan.concat_stalls`, `Reading.inOrder_stalls`).
-/

namespace Xdr

/-! ### Plans -/

namespace Plan

/-- A poisoned encoder answers `poisoned` and stays as it is. -/
def Refused (plan : Plan) : Prop :=
  ∀ encoder : Encoder, encoder.poisoned = true → plan.run encoder = (.error .poisoned, encoder)

theorem refused_one (item : Item) : (one item).Refused := by
  intro encoder hpoisoned
  have hemit : item.emit encoder = (.error .poisoned, encoder) := if_pos hpoisoned
  simp only [run, one, emitAll, hemit]

theorem refused_refuse {refusal : Refusal} (h : refusal.guarded = true) :
    (refuse refusal).Refused := by
  intro encoder hpoisoned
  have hrefuse : encoder.refuse refusal = (.poisoned, encoder) := if_pos (by rw [h, hpoisoned]; rfl)
  simp only [run, refuse, emitAll, hrefuse]

/-- What follows a refused plan is not reached. -/
theorem Refused.append {first : Plan} (h : first.Refused) (second : Plan) :
    (first ++ second).Refused := by
  intro encoder hpoisoned
  rw [run_append, h encoder hpoisoned]

/-- There is nothing to write if the plan is idle, and this holds of it otherwise. -/
structure Stalls (idle : Prop) (blocked : Plan → Prop) (plan : Plan) : Prop where
  empty : idle → plan = Plan.empty
  blocked : ¬ idle → blocked plan

/-- A plan that is not idle. -/
theorem stalls_of_not {idle : Prop} {blocked : Plan → Prop} {plan : Plan} (hidle : ¬ idle)
    (h : blocked plan) : plan.Stalls idle blocked :=
  ⟨fun hyes => absurd hyes hidle, fun _ => h⟩

/-- The first plan of a row that is not idle decides on the row. -/
theorem concat_stalls {τ ν : Type} {plan : τ → ν → Plan} {idle : τ → Prop} {blocked : Plan → Prop}
    (happend : ∀ {first}, blocked first → ∀ second, blocked (first ++ second))
    {kinds : List τ} {items : List ν}
    (h : List.Forall₂ (fun kind item => (plan kind item).Stalls (idle kind) blocked) kinds items) :
    (concat (List.zipWith plan kinds items)).Stalls (∀ kind ∈ kinds, idle kind) blocked := by
  induction h with
  | nil => exact ⟨fun _ => rfl, fun hbusy => absurd (List.forall_mem_nil _) hbusy⟩
  | @cons kind item kinds items hhead _ ih =>
      rw [List.zipWith_cons_cons, concat]
      by_cases hidle : idle kind
      · rw [hhead.empty hidle, empty_append]
        refine ⟨fun hall => ih.empty fun other hmem => hall other (List.mem_cons_of_mem _ hmem),
          fun hbusy => ih.blocked fun hall => hbusy ?_⟩
        exact List.forall_mem_cons.mpr ⟨hidle, hall⟩
      · exact stalls_of_not (fun hall => hidle (hall kind List.mem_cons_self))
          (happend (hhead.blocked hidle) _)

end Plan

/-- Data behind its own length are refused whatever the length is. -/
theorem Filter.refused_encodeSized (kind : SizedKind) (operation : Operation) (max : UInt32)
    (data : List UInt8) : (encodeSized kind operation max data).Refused := by
  unfold encodeSized
  split
  · exact Plan.refused_one _
  · exact Plan.refused_refuse rfl

/-! ### Readings -/

namespace Reading

variable {κ μ α β : Type}

/-- A poisoned decoder answers `poisoned`, keeps this of the target, and stays as it is. -/
def Refused (reading : Reading κ α) (kept : κ) : Prop :=
  ∀ decoder : Decoder, decoder.poisoned = true →
    reading.run decoder = (.error ⟨.poisoned, kept⟩, decoder)

/-- Every decoder answers with this value without being asked for anything. -/
def Returns (reading : Reading κ α) (value : α) : Prop :=
  ∀ decoder : Decoder, reading.run decoder = (.ok value, decoder)

theorem refused_request {operation : Operation} {count : Nat} {untouched kept : κ}
    {next : List UInt8 → Reading κ α} :
    (request operation count untouched kept next).Refused untouched := by
  intro decoder hpoisoned
  rw [run_request, if_pos hpoisoned]

theorem refused_refuse {refusal : Refusal} (h : refusal.guarded = true) (kept : κ) :
    (refuse refusal kept : Reading κ α).Refused kept := by
  intro decoder hpoisoned
  have hrefuse : decoder.refuse refusal = (.poisoned, decoder) := if_pos (by rw [h, hpoisoned]; rfl)
  rw [run_refuse, hrefuse]

/-- What follows a refused reading is not reached. -/
theorem Refused.andThen {first : Reading κ α} {kept : κ} (h : first.Refused kept) (keep : κ → μ)
    (next : α → Reading μ β) : (first.andThen keep next).Refused (keep kept) := by
  intro decoder hpoisoned
  rw [run_andThen, h decoder hpoisoned]
  rfl

theorem Refused.map {reading : Reading κ α} {kept : κ} (h : reading.Refused kept) (keep : κ → μ)
    (change : α → β) : (reading.map keep change).Refused (keep kept) :=
  h.andThen keep _

/-- Behind a reading that asks for nothing, what follows decides. -/
theorem Returns.run_andThen {first : Reading κ α} {value : α} (h : first.Returns value)
    (keep : κ → μ) (next : α → Reading μ β) (decoder : Decoder) :
    (first.andThen keep next).run decoder = (next value).run decoder := by
  rw [Reading.run_andThen, h decoder]

theorem Returns.map {reading : Reading κ α} {value : α} (h : reading.Returns value) (keep : κ → μ)
    (change : α → β) : (reading.map keep change).Returns (change value) :=
  fun decoder => h.run_andThen keep _ decoder

/-- The target is returned as it is if the reading is idle. Otherwise a poisoned decoder refuses and
keeps the target. -/
structure Stalls (idle : Prop) (reading : Reading α α) (target : α) : Prop where
  returns : idle → reading.Returns target
  refused : ¬ idle → reading.Refused target

/-- A reading that is not idle. -/
theorem stalls_of_not {idle : Prop} {reading : Reading α α} {target : α} (hidle : ¬ idle)
    (h : reading.Refused target) : reading.Stalls idle target :=
  ⟨fun hyes => absurd hyes hidle, fun _ => h⟩

/-- The targets of a row, when each comes with its reading. -/
theorem map_fst_zipWith {τ : Type} {read : τ → α → Reading α α} {kinds : List τ} {targets : List α}
    (h : kinds.length = targets.length) :
    (List.zipWith (fun kind target => (target, read kind target)) kinds targets).map Prod.fst =
      targets := by
  induction targets generalizing kinds with
  | nil => simp
  | cons target targets ih =>
      cases kinds with
      | nil => cases h
      | cons kind kinds =>
          rw [List.zipWith_cons_cons, List.map_cons, ih (Nat.succ.inj h)]

/-- The first reading of a row that is not idle decides on the row. -/
theorem inOrder_stalls {τ : Type} {read : τ → α → Reading α α} {idle : τ → Prop} {kinds : List τ}
    {targets : List α} (finished : List α)
    (h : List.Forall₂ (fun kind target => (read kind target).Stalls (idle kind) target) kinds
      targets) :
    (inOrder (List.zipWith (fun kind target => (target, read kind target)) kinds targets)
      finished).Stalls (∀ kind ∈ kinds, idle kind) (finished.reverse ++ targets) := by
  induction h generalizing finished with
  | nil =>
      rw [List.append_nil]
      exact ⟨fun _ _ => rfl, fun hbusy => absurd (List.forall_mem_nil _) hbusy⟩
  | @cons kind target kinds targets hhead htail ih =>
      rw [List.zipWith_cons_cons, inOrder]
      by_cases hidle : idle kind
      · have hrest := ih (target :: finished)
        rw [List.reverse_cons, List.append_assoc, List.singleton_append] at hrest
        have hreturns := hhead.returns hidle
        refine ⟨fun hall decoder => ?_, fun hbusy decoder hpoisoned => ?_⟩
        · rw [hreturns.run_andThen]
          exact hrest.returns (fun other hmem => hall other (List.mem_cons_of_mem _ hmem)) decoder
        · rw [hreturns.run_andThen]
          refine hrest.refused (fun hall => hbusy ?_) decoder hpoisoned
          exact List.forall_mem_cons.mpr ⟨hidle, hall⟩
      · refine stalls_of_not (fun hall => hidle (hall kind List.mem_cons_self)) ?_
        rw [map_fst_zipWith htail.length_eq]
        exact (hhead.refused hidle).andThen _ _

end Reading

end Xdr
