import Xdr.Proofs.Faults
import Xdr.Proofs.Model.Acceptance
import Xdr.Proofs.Model.Encoding

/-!
# Faults of data

The plans and readings of all data are regular (`Schema.regular_plan`, `Schema.regular_reading`).
-/

namespace Xdr

open Reading

namespace Elements

variable {α : Type} {element : Reading Unit α}

theorem regular_next (h : element.Regular) (remaining : Nat) :
    (next element remaining).Regular := by
  cases remaining with
  | zero => trivial
  | succ remaining => exact h.map

theorem regular_visit (h : element.Regular) (requests remaining : Nat) (values : List α)
    (hints : List Nat) : (visit element requests remaining values hints).Regular := by
  induction requests generalizing remaining values hints with
  | zero => trivial
  | succ requests ih =>
      refine ⟨regular_next h remaining, fun answer => ?_⟩
      rcases answer with ⟨_ | value, left⟩
      · trivial
      · exact ih _ _ _

theorem regular_each {elements : List (Reading Unit α)} (h : ∀ element ∈ elements, element.Regular)
    (index remaining : Nat) (values : List α) : (each elements index remaining values).Regular := by
  induction elements generalizing index remaining values with
  | nil => trivial
  | cons element elements ih =>
      refine ⟨regular_next (h element List.mem_cons_self) remaining, fun answer => ?_⟩
      rcases answer with ⟨_ | value, left⟩
      · exact regular_raise rfl
      · exact ih (fun other hmem => h other (List.mem_cons_of_mem _ hmem)) _ _ _

end Elements

namespace Schema

variable {ceiling : UInt32} {resolve : Schema → Schema}

/-! ### Plans -/

theorem regular_raising {error : Error} (h : error.fatal = false) : (raising error).Regular :=
  Plan.regular_refuse h.symm

theorem regular_mismatch : mismatch.Regular :=
  regular_raising rfl

theorem regular_countPlan (told : Option Nat) : (countPlan ceiling told).Regular := by
  cases told with
  | none => exact regular_raising rfl
  | some count =>
      show Plan.Regular (if count ≤ ceiling.toNat then _ else _)
      split
      · exact Plan.regular_one (.uint32 _)
      · exact Plan.regular_refuse rfl

theorem regular_wrappedPlan (inner : Schema) (datum : Datum) :
    (wrappedPlan inner datum).Regular := by
  unfold wrappedPlan
  split
  · exact Plan.regular_one (.fixedOpaque _)
  · exact regular_raising rfl
  · exact regular_raising rfl
  · exact regular_raising rfl
  · exact regular_raising rfl

/-- Plans for several data are regular in turn, also where there are too few or too many of them. -/
theorem regular_inTurn {plans : List (Datum → Plan)} (data : List Datum)
    (h : ∀ plan ∈ plans, ∀ datum, (plan datum).Regular) : (inTurn plans data).Regular := by
  unfold inTurn
  split
  · refine Plan.regular_concat fun part hmem => ?_
    rw [← List.map_uncurry_zip_eq_zipWith] at hmem
    obtain ⟨⟨plan, datum⟩, hpair, rfl⟩ := List.mem_map.mp hmem
    exact h plan (List.of_mem_zip hpair).1 datum
  · exact regular_mismatch

/-- The plan of every datum, whether or not it is of the schema, is regular if those of the named
schemas are. -/
theorem regular_planWith {named : String → Datum → Plan}
    (hnamed : ∀ name datum, (named name datum).Regular) (schema : Schema) (datum : Datum) :
    (planWith ceiling resolve named schema datum).Regular := by
  have hparts : ∀ {parts : List Schema}, (∀ part ∈ parts, ∀ datum,
      (planWith ceiling resolve named part datum).Regular) →
      ∀ plan ∈ plansWith ceiling resolve named parts, ∀ datum, (plan datum).Regular := by
    intro parts hregular plan hplan
    rw [plansWith_eq_map] at hplan
    obtain ⟨part, hpart, rfl⟩ := List.mem_map.mp hplan
    exact hregular part hpart
  induction schema generalizing datum with
  | int128 => exact regular_raising rfl
  | uint128 => exact regular_raising rfl
  | failing text => exact regular_raising rfl
  | unit => exact Plan.regular_empty
  | readable => exact Plan.regular_one (.uint32 _)
  | string =>
      cases datum with
      | string text => exact Filter.regular_encodeSized _ _ _ _
      | _ => exact regular_mismatch
  | bytes =>
      cases datum with
      | bytes data => exact Filter.regular_encodeSized _ _ _ _
      | _ => exact regular_mismatch
  | option inner ih =>
      cases datum with
      | present content => exact (Plan.regular_one (.uint32 1)).append (ih content)
      | absent => exact Plan.regular_one (.uint32 0)
      | _ => exact regular_mismatch
  | wrapper inner ih => exact ih datum
  | tuple declared elements ih =>
      cases datum with
      | tuple data => exact regular_inTurn data (hparts ih)
      | _ => exact regular_mismatch
  | record declared fields ih =>
      cases datum with
      | tuple data => exact regular_inTurn data (hparts ih)
      | _ => exact regular_mismatch
  | seq element told visit ih =>
      cases datum with
      | seq data hints =>
          refine (regular_countPlan _).append (Plan.regular_concat fun plan hmem => ?_)
          obtain ⟨content, _, rfl⟩ := List.mem_map.mp hmem
          exact ih content
      | _ => exact regular_mismatch
  | map key value told visit ihKey ihValue =>
      cases datum with
      | map entries hints =>
          refine (regular_countPlan _).append (Plan.regular_concat fun plan hmem => ?_)
          obtain ⟨entry, _, rfl⟩ := List.mem_map.mp hmem
          exact (ihKey entry.1).append (ihValue entry.2)
      | _ => exact regular_mismatch
  | enumeration variants ih =>
      cases datum with
      | variant index told content =>
          unfold planWith
          split
          · next plan hselect =>
              have hplan := hparts ih plan (List.mem_of_getElem? hselect)
              exact (Plan.regular_one (.uint32 _)).append (hplan content)
          · exact regular_mismatch
      | _ => exact regular_mismatch
  | opaqueWrapper inner ih => exact regular_wrappedPlan _ datum
  | ref name => exact hnamed name datum
  -- the other schemas write a single item each
  | _ => cases datum <;> first | exact Plan.regular_one (by constructor) | exact regular_mismatch

/-- The plan of every datum is regular, however deep references are followed. -/
theorem regular_plan (definitions : Definitions Schema) (depth : Nat) (schema : Schema)
    (datum : Datum) : (plan definitions ceiling depth schema datum).Regular := by
  refine regular_planWith (fun name => ?_) schema datum
  refine Definitions.meaning_induction
    (motive := fun _ (named : Datum → Plan) => ∀ datum, (named datum).Regular)
    (fun _ _ => regular_mismatch) (fun named hnamed _ body _ => ?_) depth name
  exact regular_planWith hnamed body

/-! ### Readings -/

theorem regular_narrowSigned {operation : Operation} {bound : Nat} {make : Int → Datum} :
    (narrowSigned operation bound make).Regular := by
  refine regular_word fun w => ?_
  show Regular (if _ then _ else _)
  split
  · trivial
  · exact regular_fault rfl

theorem regular_narrowUnsigned {operation : Operation} {bound : Nat} {make : Nat → Datum} :
    (narrowUnsigned operation bound make).Regular := by
  refine regular_word fun w => ?_
  show Regular (if _ then _ else _)
  split
  · trivial
  · exact regular_fault rfl

theorem regular_character : character.Regular := by
  refine regular_word fun w => ?_
  split
  · trivial
  · exact regular_fault rfl

/-- A byte is only refused by the user of the data. -/
theorem fatal_of_ofByte {schema : Schema} {byte : UInt8} {error : Error}
    (h : schema.ofByte byte = .error error) : error.fatal = false := by
  unfold ofByte at h
  split at h <;> cases h <;> rfl

/-- Bytes are only refused by the user of the data, or because there are too few. -/
theorem fatal_of_ofBytes {schemas : List Schema} {index : Nat} {handed : List UInt8} {error : Error}
    (h : ofBytes schemas index handed = .error error) : error.fatal = false := by
  induction schemas generalizing index handed with
  | nil => cases h
  | cons schema schemas ih =>
      cases handed with
      | nil =>
          cases h
          rfl
      | cons byte others =>
          cases hfirst : schema.ofByte byte with
          | error first =>
              simp only [ofBytes, hfirst] at h
              cases h
              exact fatal_of_ofByte hfirst
          | ok first =>
              simp only [ofBytes, hfirst] at h
              cases hrest : ofBytes schemas (index + 1) others with
              | error rest =>
                  rw [hrest] at h
                  cases h
                  exact ih hrest
              | ok rest =>
                  rw [hrest] at h
                  cases h

theorem regular_wrappedReading (inner : Schema) : (wrappedReading resolve inner).Regular := by
  unfold wrappedReading
  split
  · refine regular_fixedOpaque fun handed => ?_
    split
    · trivial
    · next herror => exact regular_raise (fatal_of_ofBytes herror)
  · trivial
  · exact regular_raise rfl
  · exact regular_raise rfl

theorem regular_visiting {α : Type} {visit : Visit} {element : Reading Unit α}
    {make : List α → Option (List Nat) → Datum} (h : element.Regular) :
    (visiting ceiling visit element make).Regular :=
  regular_length fun _ => (Elements.regular_visit h _ _ _ _).map

/-- The reading of every schema is regular if those of the named schemas are. -/
theorem regular_readingWith {named : String → Reading Unit Datum}
    (hnamed : ∀ name, (named name).Regular) (schema : Schema) :
    (readingWith ceiling resolve named schema).Regular := by
  have hparts : ∀ {parts : List Schema},
      (∀ part ∈ parts, (readingWith ceiling resolve named part).Regular) →
      ∀ reading ∈ readingsWith ceiling resolve named parts, reading.Regular := by
    intro parts hregular reading hreading
    rw [readingsWith_eq_map] at hreading
    obtain ⟨part, hpart, rfl⟩ := List.mem_map.mp hreading
    exact hregular part hpart
  induction schema with
  | bool => exact regular_bool fun _ => trivial
  | int8 => exact regular_narrowSigned
  | int16 => exact regular_narrowSigned
  | int32 => exact regular_word fun _ => trivial
  | int64 => exact regular_hyper fun _ => trivial
  | int128 => exact regular_raise rfl
  | uint8 => exact regular_narrowUnsigned
  | uint16 => exact regular_narrowUnsigned
  | uint32 => exact regular_word fun _ => trivial
  | uint64 => exact regular_hyper fun _ => trivial
  | uint128 => exact regular_raise rfl
  | float => exact regular_word fun _ => trivial
  | double => exact regular_hyper fun _ => trivial
  | char => exact regular_character
  | unit => trivial
  | string => exact (regular_string _ _).map
  | bytes => exact (regular_sized _ _ _).map
  | identifier => exact regular_word fun _ => trivial
  | any => exact regular_raise rfl
  | ignored => exact regular_raise rfl
  | readable => trivial
  | failing text => exact regular_raise rfl
  | option inner ih =>
      refine regular_word fun present => ?_
      split
      · trivial
      · split
        · exact ih.map
        · exact regular_fault rfl
  | wrapper inner ih => exact ih
  | tuple declared elements ih => exact (Elements.regular_each (hparts ih) _ _ _).map
  | record declared fields ih => exact (Elements.regular_each (hparts ih) _ _ _).map
  | seq element told visit ih => exact regular_visiting ih
  | map key value told visit ihKey ihValue => exact regular_visiting ⟨ihKey, fun _ => ihValue.map⟩
  | enumeration variants ih =>
      refine regular_word fun index => ?_
      split
      · next content hselect => exact (hparts ih content (List.mem_of_getElem? hselect)).map
      · exact regular_fault rfl
  | fixedOpaque length => exact regular_fixedOpaque fun _ => trivial
  | opaqueWrapper inner ih => exact regular_wrappedReading _
  | ref name => exact hnamed name

/-- The reading of every schema is regular, however deep references are followed. -/
theorem regular_reading (definitions : Definitions Schema) (depth : Nat) (schema : Schema) :
    (reading definitions ceiling depth schema).Regular := by
  refine regular_readingWith (fun name => ?_) schema
  refine Definitions.meaning_induction
    (motive := fun _ (named : Reading Unit Datum) => named.Regular) (fun _ => regular_raise rfl)
    (fun named hnamed _ body _ => ?_) depth name
  exact regular_readingWith hnamed body

end Schema

end Xdr
