import Xdr.Proofs.Comparison
import Xdr.Proofs.Model.Acceptance
import Xdr.Proofs.Model.Encoding
import Xdr.Proofs.Refusal

/-!
# Data under two ceilings

Under a lower ceiling a datum is written and read as under a higher one, unless a length is over the
lower one (`Schema.tallies_encode`, `Schema.narrows_decode`).
-/

namespace Xdr

/-- A length is over this maximum. -/
def Error.exceeds (max : UInt32) : Error → Bool
  | lengthExceeded found _ => found == max
  | _ => false

theorem Error.exceeds_lengthExceeded (max : UInt32) (got : Nat) :
    (lengthExceeded max got).exceeds max = true :=
  beq_self_eq_true max

variable {low high : UInt32} {config config' : Config}

/-! ### Reading -/

namespace Reading

variable {κ α τ : Type}

/-- The first reading may end for the cause, whatever the second does. -/
theorem narrows_fault {cause : Error → Bool} {operation : Operation} {error : Error} {kept : κ}
    (hcause : cause error) (reading : Reading κ α) :
    Narrows config config' cause (fault operation error kept) reading :=
  fun _ _ _ => .narrowed _ hcause

/-- What is within the lower maximum is within the higher one. -/
theorem narrows_length (hle : low ≤ high) {kept : κ} {next next' : UInt32 → Reading κ α}
    (h : ∀ w, Narrows config config' (Error.exceeds low) (next w) (next' w)) :
    Narrows config config' (Error.exceeds low) (length low kept next) (length high kept next') := by
  refine tallies_word (fun _ => rfl) fun w => ?_
  split
  · next hlow =>
      rw [if_pos (UInt32.le_trans hlow hle)]
      exact h _
  · exact narrows_fault (Error.exceeds_lengthExceeded _ _) _

theorem narrows_sized (hle : low ≤ high) (hpadding : config'.padding = config.padding)
    (kind : SizedKind) (buffer : List UInt8) :
    Narrows config config' (Error.exceeds low) (sized kind low buffer)
      (sized kind high buffer) := by
  refine tallies_request rfl (fun _ => rfl) fun bytes => ?_
  dsimp only
  split
  · next hlow =>
      rw [if_pos (UInt32.le_trans hlow hle)]
      exact tallies_self (.inl hpadding) _
  · exact narrows_fault (Error.exceeds_lengthExceeded _ _) _

variable {cause : Error → Bool} {element element' : Reading Unit α}

theorem narrows_next (h : Narrows config config' cause element element') (remaining : Nat) :
    Narrows config config' cause (Elements.next element remaining)
      (Elements.next element' remaining) := by
  cases remaining with
  | zero => exact tallies_done rfl
  | succ remaining => exact Narrows.andThen h fun _ => tallies_done rfl

theorem narrows_visit (h : Narrows config config' cause element element')
    (requests remaining : Nat) (values : List α) (hints : List Nat) :
    Narrows config config' cause (Elements.visit element requests remaining values hints)
      (Elements.visit element' requests remaining values hints) := by
  induction requests generalizing remaining values hints with
  | zero => exact tallies_done rfl
  | succ requests ih =>
      refine Narrows.andThen (narrows_next h remaining) fun (answer, rest) => ?_
      cases answer with
      | none => exact tallies_done rfl
      | some value => exact ih rest (value :: values) (remaining :: hints)

theorem narrows_each {kinds : List τ} {read read' : τ → Reading Unit α}
    (h : ∀ kind ∈ kinds, Narrows config config' cause (read kind) (read' kind))
    (index remaining : Nat) (values : List α) :
    Narrows config config' cause (Elements.each (kinds.map read) index remaining values)
      (Elements.each (kinds.map read') index remaining values) := by
  induction kinds generalizing index remaining values with
  | nil => exact tallies_done rfl
  | cons kind kinds ih =>
      obtain ⟨hkind, hkinds⟩ := List.forall_mem_cons.mp h
      refine Narrows.andThen (narrows_next hkind remaining) fun (answer, rest) => ?_
      cases answer with
      | none => exact tallies_refuse _ _
      | some value => exact ih hkinds (index + 1) rest (value :: values)

end Reading

namespace Schema

open Reading (Narrows)

variable {resolve : Schema → Schema} {definitions : Definitions Schema}

theorem narrows_visiting {α : Type} (hle : low ≤ high) (visit : Visit)
    {element element' : Reading Unit α}
    (h : Narrows config config' (Error.exceeds low) element element')
    (make : List α → Option (List Nat) → Datum) :
    Narrows config config' (Error.exceeds low) (visiting low visit element make)
      (visiting high visit element' make) :=
  Reading.narrows_length hle fun _ =>
    Narrows.andThen (Reading.narrows_visit h _ _ _ _) fun _ => Reading.tallies_done rfl

/-- The readings of a schema under two ceilings narrow if those of the names do. -/
theorem narrows_readingWith (hle : low ≤ high) (hpadding : config'.padding = config.padding)
    {named named' : String → Reading Unit Datum}
    (hnamed : ∀ name, Narrows config config' (Error.exceeds low) (named name) (named' name))
    (schema : Schema) :
    Narrows config config' (Error.exceeds low) (readingWith low resolve named schema)
      (readingWith high resolve named' schema) := by
  induction schema with
  | string =>
      refine Narrows.andThen (Narrows.andThen (Reading.narrows_sized hle hpadding _ _) fun _ => ?_)
        fun _ => Reading.tallies_done rfl
      exact Reading.tallies_self (.inl hpadding) _
  | bytes =>
      exact Narrows.andThen (Reading.narrows_sized hle hpadding _ _) fun _ =>
        Reading.tallies_done rfl
  | option inner ih =>
      refine Reading.tallies_word (fun _ => rfl) fun present => ?_
      split
      · exact Reading.tallies_done rfl
      · split
        · exact Narrows.andThen ih fun _ => Reading.tallies_done rfl
        · exact Reading.tallies_refuse _ _
  | wrapper inner ih => exact ih
  | tuple declared elements ih =>
      rw [readingWith, readingWith, readingsWith_eq_map, readingsWith_eq_map]
      exact Narrows.andThen (Reading.narrows_each ih _ _ _) fun _ => Reading.tallies_done rfl
  | record declared fields ih =>
      rw [readingWith, readingWith, readingsWith_eq_map, readingsWith_eq_map]
      exact Narrows.andThen (Reading.narrows_each ih _ _ _) fun _ => Reading.tallies_done rfl
  | seq element told visit ih => exact narrows_visiting hle visit ih _
  | map key value told visit ihKey ihValue =>
      refine narrows_visiting hle visit (Narrows.andThen ihKey fun _ => ?_) _
      exact Narrows.andThen ihValue fun _ => Reading.tallies_done rfl
  | enumeration variants ih =>
      rw [readingWith, readingWith, readingsWith_eq_map, readingsWith_eq_map]
      refine Reading.tallies_word (fun _ => rfl) fun index => ?_
      rw [List.getElem?_map, List.getElem?_map]
      cases hvariant : variants[index.toNat]? with
      | none => exact Reading.tallies_refuse _ _
      | some variant =>
          exact Narrows.andThen (ih variant (List.mem_of_getElem? hvariant)) fun _ =>
            Reading.tallies_done rfl
  | ref name => exact hnamed name
  -- the other schemas do not look at the ceiling
  | _ => exact Reading.tallies_self (.inl hpadding) _

/-- Reading under a lower ceiling ends as under a higher one, unless a length is over the lower. -/
theorem narrows_decode (hle : low ≤ high) (hpadding : config'.padding = config.padding)
    (schema : Schema) (left : Nat) :
    Narrows config config' (Error.exceeds low) (schema.decode definitions low left)
      (schema.decode definitions high left) := by
  refine narrows_readingWith hle hpadding (fun name => ?_) schema
  refine Definitions.meaning_alongside
    (motive := fun _ (reading reading' : Reading Unit Datum) =>
      Narrows config config' (Error.exceeds low) reading reading')
    (fun _ => Reading.tallies_refuse _ _) (fun _ hnone => hnone) ?_ _ name
  exact fun named named' hnamed _ body hbody =>
    ⟨body, hbody, narrows_readingWith hle hpadding hnamed body⟩

end Schema

/-! ### Writing -/

/-- A refusal that takes effect is a fault, and nothing is written. -/
theorem Plan.narrowed_refuse {fresh : Prop} {cause : Error → Bool} {alike : Error → Error → Prop}
    {refusal : Refusal} {operation : Operation} (hfault : refusal.fault = some operation)
    (hcause : cause refusal.error) (plan : Plan) {first second : Encoder}
    (htwins : Context.Twins fresh config config' first second)
    (hactive : (refusal.guarded && first.poisoned) = false) :
    Encoder.Tally fresh config config' cause alike ((refuse refusal).run first)
      (plan.run second) := by
  have hrun : (refuse refusal).run first =
      (.error refusal.error, first.fault operation refusal.error) := by
    simp only [run, refuse, emitAll, Context.refuse, hactive, Bool.false_eq_true, if_false, hfault]
  obtain ⟨more, hmore⟩ := (extends_run plan second).taken
  rw [hrun]
  refine .narrowed hcause rfl ⟨more, ?_⟩
  rw [hmore, htwins.transport]
  rfl

/-- What is within the lower maximum is written as under the higher one. -/
theorem Filter.tallies_encodeSized (hle : low ≤ high) (kind : SizedKind) (operation : Operation)
    (data : List UInt8) :
    (encodeSized kind operation low data).Tallies False config config' (Error.exceeds low) Eq
      (encodeSized kind operation high data) := by
  by_cases hlow : data.length ≤ low.toNat
  · have hhigh : data.length ≤ high.toNat := hlow.trans (UInt32.le_iff_toNat_le.mp hle)
    rw [encodeSized, encodeSized, if_pos hlow, if_pos hhigh]
    exact Plan.tallies_self _
  · intro first second htwins
    cases hpoisoned : first.poisoned with
    | true =>
        rw [refused_encodeSized kind operation low data first hpoisoned,
          refused_encodeSized kind operation high data second (htwins.poisoned.trans hpoisoned)]
        exact .errors rfl htwins.stale
    | false =>
        rw [encodeSized, if_neg hlow]
        exact Plan.narrowed_refuse rfl (Error.exceeds_lengthExceeded _ _) _ htwins
          (by rw [hpoisoned, Bool.and_false])

namespace Schema

variable {resolve : Schema → Schema} {definitions : Definitions Schema}

theorem tallies_countPlan (hle : low ≤ high) (told : Option Nat) :
    (countPlan low told).Tallies False config config' (Error.exceeds low) Eq
      (countPlan high told) := by
  cases told with
  | none => exact Plan.tallies_self _
  | some count =>
      by_cases hlow : count ≤ low.toNat
      · have hhigh : count ≤ high.toNat := hlow.trans (UInt32.le_iff_toNat_le.mp hle)
        simp only [countPlan, if_pos hlow, if_pos hhigh]
        exact Plan.tallies_self _
      · intro first second htwins
        rw [show countPlan low (some count) = _ from if_neg hlow]
        -- the count is refused on any encoder
        exact Plan.narrowed_refuse rfl (Error.exceeds_lengthExceeded _ _) _ htwins
          (Bool.false_and _)

/-- Parts that are written alike are so in a row. -/
theorem tallies_inTurn {cause : Error → Bool} {plan plan' : Schema → Datum → Plan}
    {schemas : List Schema}
    (h : ∀ schema ∈ schemas, ∀ datum, (plan schema datum).Tallies False config config' cause Eq
      (plan' schema datum)) (data : List Datum) :
    (inTurn (schemas.map plan) data).Tallies False config config' cause Eq
      (inTurn (schemas.map plan') data) := by
  have hrow : List.Forall₂ (Plan.Tallies False config config' cause Eq)
      (List.zipWith (fun plan datum => plan datum) (schemas.map plan) data)
      (List.zipWith (fun plan datum => plan datum) (schemas.map plan') data) := by
    induction schemas generalizing data with
    | nil => exact .nil
    | cons schema schemas ih =>
        obtain ⟨hhead, htail⟩ := List.forall_mem_cons.mp h
        cases data with
        | nil => exact .nil
        | cons datum data => exact .cons (hhead datum) (ih htail data)
  rw [inTurn, inTurn, List.length_map, List.length_map]
  split
  · exact Plan.tallies_concat hrow
  · exact Plan.tallies_self _

/-- The plans of a schema under two ceilings tally if those of the names do. -/
theorem tallies_planWith (hle : low ≤ high) {named named' : String → Datum → Plan}
    (hnamed : ∀ name datum, (named name datum).Tallies False config config' (Error.exceeds low) Eq
      (named' name datum)) (schema : Schema) (datum : Datum) :
    (planWith low resolve named schema datum).Tallies False config config' (Error.exceeds low) Eq
      (planWith high resolve named' schema datum) := by
  induction schema generalizing datum with
  | string =>
      cases datum with
      | string text => exact Filter.tallies_encodeSized hle _ _ _
      | _ => exact Plan.tallies_self _
  | bytes =>
      cases datum with
      | bytes data => exact Filter.tallies_encodeSized hle _ _ _
      | _ => exact Plan.tallies_self _
  | option inner ih =>
      cases datum with
      | present content => exact Plan.Tallies.append (Plan.tallies_self _) (ih content)
      | _ => exact Plan.tallies_self _
  | wrapper inner ih => exact ih datum
  | tuple declared elements ih =>
      cases datum with
      | tuple data =>
          rw [planWith, planWith, plansWith_eq_map, plansWith_eq_map]
          exact tallies_inTurn ih data
      | _ => exact Plan.tallies_self _
  | record declared fields ih =>
      cases datum with
      | tuple data =>
          rw [planWith, planWith, plansWith_eq_map, plansWith_eq_map]
          exact tallies_inTurn ih data
      | _ => exact Plan.tallies_self _
  | seq element told visit ih =>
      cases datum with
      | seq data hints =>
          refine Plan.Tallies.append (tallies_countPlan hle _) (Plan.tallies_concat ?_)
          rw [List.forall₂_map_left_iff, List.forall₂_map_right_iff]
          exact List.forall₂_same.mpr fun content _ => ih content
      | _ => exact Plan.tallies_self _
  | map key value told visit ihKey ihValue =>
      cases datum with
      | map entries hints =>
          refine Plan.Tallies.append (tallies_countPlan hle _) (Plan.tallies_concat ?_)
          rw [List.forall₂_map_left_iff, List.forall₂_map_right_iff]
          exact List.forall₂_same.mpr fun entry _ =>
            Plan.Tallies.append (ihKey entry.1) (ihValue entry.2)
      | _ => exact Plan.tallies_self _
  | enumeration variants ih =>
      cases datum with
      | variant index told content =>
          rw [planWith, planWith, plansWith_eq_map, plansWith_eq_map, List.getElem?_map,
            List.getElem?_map]
          cases hvariant : variants[index.toNat]? with
          | none => exact Plan.tallies_self _
          | some variant =>
              exact Plan.Tallies.append (Plan.tallies_self _)
                (ih variant (List.mem_of_getElem? hvariant) content)
      | _ => exact Plan.tallies_self _
  | ref name => exact hnamed name datum
  -- the other schemas do not look at the ceiling
  | _ => cases datum <;> exact Plan.tallies_self _

/-- Writing under a lower ceiling ends as under a higher one, unless a length is over the lower. -/
theorem tallies_encode (hle : low ≤ high) (schema : Schema) (datum : Datum) :
    (schema.encode definitions low datum).Tallies False config config' (Error.exceeds low) Eq
      (schema.encode definitions high datum) := by
  refine tallies_planWith hle (fun name datum => ?_) schema datum
  refine Definitions.meaning_alongside
    (motive := fun _ (named named' : Datum → Plan) => ∀ datum, (named datum).Tallies False config
      config' (Error.exceeds low) Eq (named' datum))
    (fun _ _ => Plan.tallies_self _) (fun _ hnone => hnone) ?_ _ name datum
  exact fun named named' hnamed _ body hbody =>
    ⟨body, hbody, tallies_planWith hle hnamed body⟩

end Schema

end Xdr
