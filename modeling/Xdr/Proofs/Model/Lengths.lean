import Xdr.Proofs.Layers.Decoding
import Xdr.Proofs.Lengths
import Xdr.Proofs.Model.Faults
import Xdr.Proofs.Model.Fetches

/-!
# Accepted lengths of data

`Schema.written` and `Schema.read` say which lengths are accepted when data is written and read:
those of strings and byte strings under the ceiling of the settings, wherever in the datum they
are. The statements to read first are `Schema.logs_plan` and `Schema.logs_reading`: these lengths
are what is logged.
-/

namespace Xdr

open Transport

namespace Elements

open Reading

variable {α : Type}

/-- A reader logs what is logged by the elements that it asks for and that are there. -/
theorem logs_visit {element : Reading Unit α} {lengths : Lengths Source} (h : element.Logs lengths)
    (requests remaining : Nat) (values : List α) (hints : List Nat) :
    (visit element requests remaining values hints).Logs
      (.row (List.replicate (min requests remaining) (element.run, lengths))) := by
  induction requests generalizing remaining values hints with
  | zero =>
      rw [Nat.zero_min]
      exact logs_done _
  | succ requests ih =>
      cases remaining with
      | zero =>
          rw [Nat.min_zero]
          refine (logs_done (values.reverse, (0 :: hints).reverse)).of_run fun decoder => ?_
          rw [visit, next, run_andThen, run_done]
      | succ remaining =>
          rw [Nat.succ_min_succ]
          refine Logs.of_run ?_ (run_next_andThen element remaining _)
          exact h.andThen fun value => ih remaining (value :: values) ((remaining + 1) :: hints)

/-- A reader that needs all its elements logs what is logged by those that are announced. -/
theorem logs_each {ι : Type} {parts : List ι} {reading : ι → Reading Unit α}
    {lengths : ι → Lengths Source} (h : ∀ part ∈ parts, (reading part).Logs (lengths part))
    (index remaining : Nat) (values : List α) :
    (each (parts.map reading) index remaining values).Logs
      (.row ((parts.take remaining).map fun part => ((reading part).run, lengths part))) := by
  induction parts generalizing index remaining values with
  | nil =>
      rw [List.take_nil]
      exact logs_done _
  | cons part parts ih =>
      cases remaining with
      | zero =>
          have hmissing : (raise (missing index) () : Reading Unit (List α)).Logs .nothing :=
            logs_raise rfl
          refine hmissing.of_run fun decoder => ?_
          rw [List.map_cons, each, next, run_andThen, run_done]
          rfl
      | succ remaining =>
          refine Logs.of_run ?_ (run_next_andThen (reading part) remaining _)
          refine (h part List.mem_cons_self).andThen fun value => ih (fun other hmem => ?_) _ _ _
          exact h other (List.mem_cons_of_mem _ hmem)

end Elements

namespace Schema

/-! ### Lengths -/

/-- The lengths of parts and the data for them, one by one. -/
def writtenInTurn (parts : List ((Datum → Plan) × (Datum → Lengths Sink))) (data : List Datum) :
    Lengths Sink :=
  if parts.length = data.length then
    .row ((parts.zip data).map fun (part, datum) => ((part.1 datum).run, part.2 datum))
  else .nothing

/-- The lengths of elements behind a count that the ceiling may refuse. -/
def writtenBehind (ceiling : UInt32) (told : Option Nat) (elements : Lengths Sink) : Lengths Sink :=
  .andThen (countPlan ceiling told).run .nothing fun _ => elements

mutual
/-- The lengths accepted when a datum is written, given what references stand for and the plans and
the lengths of the named schemas. -/
def writtenWith (ceiling : UInt32) (resolve : Schema → Schema) (plans : String → Datum → Plan)
    (named : String → Datum → Lengths Sink) : Schema → Datum → Lengths Sink
  | string, .string text => .within .bytes ceiling (Text.bytes text)
  | bytes, .bytes data => .within .bytes ceiling data
  | option inner, .present datum =>
      .behind (.uint32 1) (writtenWith ceiling resolve plans named inner datum)
  | wrapper inner, datum => writtenWith ceiling resolve plans named inner datum
  | tuple _ elements, .tuple data =>
      writtenInTurn ((plansWith ceiling resolve plans elements).zip
        (partsWritten ceiling resolve plans named elements)) data
  | record _ fields, .tuple data =>
      writtenInTurn ((plansWith ceiling resolve plans fields).zip
        (partsWritten ceiling resolve plans named fields)) data
  | seq element told _, .seq data _ =>
      writtenBehind ceiling (told.count data.length) <|
        .row (data.map fun datum =>
          ((planWith ceiling resolve plans element datum).run,
            writtenWith ceiling resolve plans named element datum))
  | map key value told _, .map entries _ =>
      writtenBehind ceiling (told.count entries.length) <|
        .row (entries.map fun entry =>
          ((planWith ceiling resolve plans key entry.1 ++
              planWith ceiling resolve plans value entry.2).run,
            .andThen (planWith ceiling resolve plans key entry.1).run
              (writtenWith ceiling resolve plans named key entry.1)
              fun _ => writtenWith ceiling resolve plans named value entry.2))
  | enumeration variants, .variant index told content =>
      match (partsWritten ceiling resolve plans named variants)[index.toNat]? with
      | some lengths => .behind (.uint32 (told.getD index)) (lengths content)
      | none => .nothing
  | ref name, datum => named name datum
  | _, _ => .nothing

/-- The lengths of several schemas. -/
def partsWritten (ceiling : UInt32) (resolve : Schema → Schema) (plans : String → Datum → Plan)
    (named : String → Datum → Lengths Sink) : List Schema → List (Datum → Lengths Sink)
  | [] => []
  | schema :: schemas =>
      (fun datum => writtenWith ceiling resolve plans named schema datum) ::
        partsWritten ceiling resolve plans named schemas
end

/-- The lengths of the elements that a reader comes to behind a count that the ceiling may
refuse. -/
def readBehind {α : Type} (ceiling : UInt32) (visit : Visit) (element : Reading Unit α)
    (lengths : Lengths Source) : Lengths Source :=
  .behindWord fun count =>
    if count ≤ ceiling then
      .row (List.replicate (visit.reached count.toNat) (element.run, lengths))
    else .nothing

mutual
/-- The lengths accepted when a datum is read, given what references stand for and the readings and
the lengths of the named schemas. -/
def readWith (ceiling : UInt32) (resolve : Schema → Schema)
    (readings : String → Reading Unit Datum) (named : String → Lengths Source) :
    Schema → Lengths Source
  | string => .announced .string ceiling
  | bytes => .announced .bytes ceiling
  | option inner => .behindWord fun present =>
      if present = 1 then readWith ceiling resolve readings named inner else .nothing
  | wrapper inner => readWith ceiling resolve readings named inner
  | tuple declared elements =>
      .row ((((readingsWith ceiling resolve readings elements).zip
        (partsRead ceiling resolve readings named elements)).take declared).map
          fun part => (part.1.run, part.2))
  | record declared fields =>
      .row ((((readingsWith ceiling resolve readings fields).zip
        (partsRead ceiling resolve readings named fields)).take declared).map
          fun part => (part.1.run, part.2))
  | seq element _ visit =>
      readBehind ceiling visit (readingWith ceiling resolve readings element)
        (readWith ceiling resolve readings named element)
  | map key value _ visit =>
      readBehind ceiling visit
        ((readingWith ceiling resolve readings key).andThen id fun k =>
          (readingWith ceiling resolve readings value).map id fun v => (k, v))
        (.andThen (readingWith ceiling resolve readings key).run
          (readWith ceiling resolve readings named key)
          fun _ => readWith ceiling resolve readings named value)
  | enumeration variants => .behindWord fun index =>
      match (partsRead ceiling resolve readings named variants)[index.toNat]? with
      | some lengths => lengths
      | none => .nothing
  | ref name => named name
  | _ => .nothing

/-- The lengths of several schemas. -/
def partsRead (ceiling : UInt32) (resolve : Schema → Schema)
    (readings : String → Reading Unit Datum) (named : String → Lengths Source) :
    List Schema → List (Lengths Source)
  | [] => []
  | schema :: schemas =>
      readWith ceiling resolve readings named schema ::
        partsRead ceiling resolve readings named schemas
end

/-- The lengths that data of a name comes to when it is written, where references are followed at
most `depth` deep. -/
def namedWritten (definitions : Definitions Schema) (ceiling : UInt32) :
    (depth : Nat) → String → Datum → Lengths Sink
  | 0, _, _ => .nothing
  | depth + 1, name, datum =>
      match definitions.lookup name with
      | some body =>
          body.writtenWith ceiling (resolve definitions)
            (definitions.meaning (planWith ceiling (resolve definitions)) (fun _ => mismatch) depth)
            (namedWritten definitions ceiling depth) datum
      | none => .nothing

/-- The lengths that data of a name comes to when it is read, where references are followed at most
`depth` deep. -/
def namedRead (definitions : Definitions Schema) (ceiling : UInt32) :
    (depth : Nat) → String → Lengths Source
  | 0, _ => .nothing
  | depth + 1, name =>
      match definitions.lookup name with
      | some body =>
          body.readWith ceiling (resolve definitions)
            (definitions.meaning (readingWith ceiling (resolve definitions)) unresolved depth)
            (namedRead definitions ceiling depth)
      | none => .nothing

/-- The lengths that are accepted when a datum is written. -/
def written (definitions : Definitions Schema) (ceiling : UInt32) (schema : Schema)
    (datum : Datum) : Lengths Sink :=
  let depth := (definitions.length + 1) * (datum.depth + 1)
  schema.writtenWith ceiling (resolve definitions)
    (definitions.meaning (planWith ceiling (resolve definitions)) (fun _ => mismatch) depth)
    (namedWritten definitions ceiling depth) datum

/-- The lengths that are accepted when a datum is read from a source with this many bytes left. -/
def read (definitions : Definitions Schema) (ceiling : UInt32) (schema : Schema) (left : Nat) :
    Lengths Source :=
  let depth := (definitions.length + 1) * (left / 4 + 2)
  schema.readWith ceiling (resolve definitions)
    (definitions.meaning (readingWith ceiling (resolve definitions)) unresolved depth)
    (namedRead definitions ceiling depth)

variable {ceiling : UInt32} {resolve : Schema → Schema}

theorem partsWritten_eq_map (plans : String → Datum → Plan)
    (named : String → Datum → Lengths Sink) (schemas : List Schema) :
    partsWritten ceiling resolve plans named schemas =
      schemas.map (writtenWith ceiling resolve plans named) := by
  induction schemas with
  | nil => rfl
  | cons schema schemas ih => rw [partsWritten, ih, List.map_cons]

theorem partsRead_eq_map (readings : String → Reading Unit Datum)
    (named : String → Lengths Source) (schemas : List Schema) :
    partsRead ceiling resolve readings named schemas =
      schemas.map (readWith ceiling resolve readings named) := by
  induction schemas with
  | nil => rfl
  | cons schema schemas ih => rw [partsRead, ih, List.map_cons]

/-! ### Plans -/

theorem logs_raising {error : Error} (h : error.fatal = false) : (raising error).Logs .nothing :=
  Plan.logs_refuse (Eq.symm h : Refusal.Regular _)

theorem logs_mismatch : mismatch.Logs .nothing :=
  logs_raising rfl

theorem logs_countPlan (told : Option Nat) : (countPlan ceiling told).Logs .nothing := by
  cases told with
  | none => exact logs_raising rfl
  | some count =>
      rw [countPlan]
      split
      · exact Plan.logs_one _ rfl
      · exact Plan.logs_refuse rfl

theorem logs_wrappedPlan (inner : Schema) (datum : Datum) :
    (wrappedPlan inner datum).Logs .nothing := by
  unfold wrappedPlan
  split
  · exact Plan.logs_one _ rfl
  · exact logs_raising rfl
  · exact logs_raising rfl
  · exact logs_raising rfl
  · exact logs_raising rfl

/-- Data in turn logs what each of them does, and nothing where there are too few or too many. -/
theorem logs_inTurn {ι : Type} {parts : List ι} {plan : ι → Datum → Plan}
    {lengths : ι → Datum → Lengths Sink} (data : List Datum)
    (h : ∀ part ∈ parts, ∀ datum, (plan part datum).Logs (lengths part datum)) :
    (inTurn (parts.map plan) data).Logs
      (writtenInTurn (parts.map fun part => (plan part, lengths part)) data) := by
  rw [inTurn, writtenInTurn, List.length_map, List.length_map]
  split
  · rw [List.zipWith_map_left, ← List.map_uncurry_zip_eq_zipWith, List.zip_map_left, List.map_map]
    exact Plan.logs_concat _ (fun pair => lengths pair.1 pair.2) fun pair hmem =>
      h pair.1 (List.of_mem_zip hmem).1 pair.2
  · exact logs_mismatch

/-- The plan of a datum logs its lengths if those of the named schemas do. -/
theorem logs_planWith {plans : String → Datum → Plan} {named : String → Datum → Lengths Sink}
    (hnamed : ∀ name datum, (plans name datum).Logs (named name datum)) (schema : Schema)
    (datum : Datum) :
    (planWith ceiling resolve plans schema datum).Logs
      (writtenWith ceiling resolve plans named schema datum) := by
  have hparts : ∀ {parts : List Schema} (data : List Datum), (∀ part ∈ parts, ∀ datum,
      (planWith ceiling resolve plans part datum).Logs
        (writtenWith ceiling resolve plans named part datum)) →
      (inTurn (plansWith ceiling resolve plans parts) data).Logs
        (writtenInTurn ((plansWith ceiling resolve plans parts).zip
          (partsWritten ceiling resolve plans named parts)) data) := by
    intro parts data hlogs
    rw [plansWith_eq_map, partsWritten_eq_map, List.zip_map']
    exact logs_inTurn data hlogs
  induction schema generalizing datum with
  | int128 => exact logs_raising rfl
  | uint128 => exact logs_raising rfl
  | failing text => exact logs_raising rfl
  | unit => exact Plan.logs_empty
  | readable => exact Plan.logs_one _ rfl
  | string =>
      cases datum with
      | string text => exact Filter.logs_encodeSized _ _ _ _
      | _ => exact logs_mismatch
  | bytes =>
      cases datum with
      | bytes data => exact Filter.logs_encodeSized _ _ _ _
      | _ => exact logs_mismatch
  | option inner ih =>
      cases datum with
      | present content => exact (ih content).behind rfl
      | absent => exact Plan.logs_one _ rfl
      | _ => exact logs_mismatch
  | wrapper inner ih => exact ih datum
  | tuple declared elements ih =>
      cases datum with
      | tuple data => exact hparts data ih
      | _ => exact logs_mismatch
  | record declared fields ih =>
      cases datum with
      | tuple data => exact hparts data ih
      | _ => exact logs_mismatch
  | seq element told visit ih =>
      cases datum with
      | seq data hints =>
          exact (logs_countPlan _).append (Plan.logs_concat _ _ fun content _ => ih content)
      | _ => exact logs_mismatch
  | map key value told visit ihKey ihValue =>
      cases datum with
      | map entries hints =>
          refine (logs_countPlan _).append (Plan.logs_concat _ _ fun entry _ => ?_)
          exact (ihKey entry.1).append (ihValue entry.2)
      | _ => exact logs_mismatch
  | enumeration variants ih =>
      cases datum with
      | variant index told content =>
          rw [planWith, writtenWith, plansWith_eq_map, partsWritten_eq_map, List.getElem?_map,
            List.getElem?_map]
          cases hselect : variants[index.toNat]? with
          | none => exact logs_mismatch
          | some variant =>
              exact (ih variant (List.mem_of_getElem? hselect) content).behind rfl
      | _ => exact logs_mismatch
  | opaqueWrapper inner ih => cases datum <;> exact logs_wrappedPlan _ _
  | ref name => exact hnamed name datum
  -- the other schemas write a single item each
  | _ => cases datum <;> first | exact logs_mismatch | exact Plan.logs_one _ rfl

/-- The plan of every name logs its lengths. -/
theorem logs_namedPlan (definitions : Definitions Schema) (depth : Nat) (name : String)
    (datum : Datum) :
    (definitions.meaning (planWith ceiling (Schema.resolve definitions)) (fun _ => mismatch) depth
      name datum).Logs (namedWritten definitions ceiling depth name datum) := by
  induction depth generalizing name datum with
  | zero => exact logs_mismatch
  | succ depth ih =>
      rw [namedWritten]
      cases hbody : definitions.lookup name with
      | none => simpa only [Definitions.meaning, hbody] using logs_mismatch
      | some body =>
          rw [Definitions.meaning_succ _ _ _ _ hbody]
          exact logs_planWith ih body datum

/-- The plan of every datum logs its lengths. -/
theorem logs_plan (definitions : Definitions Schema) (schema : Schema) (datum : Datum) :
    (schema.encode definitions ceiling datum).Logs (schema.written definitions ceiling datum) :=
  logs_planWith (logs_namedPlan definitions _) schema datum

/-! ### Readings -/

open Reading

theorem logs_narrowSigned {operation : Operation} {bound : Nat} {make : Int → Datum} :
    (narrowSigned operation bound make).Logs .nothing := by
  refine logs_number fun w => ?_
  dsimp only
  split
  · exact logs_done _
  · exact logs_fault rfl

theorem logs_narrowUnsigned {operation : Operation} {bound : Nat} {make : Nat → Datum} :
    (narrowUnsigned operation bound make).Logs .nothing := by
  refine logs_number fun w => ?_
  dsimp only
  split
  · exact logs_done _
  · exact logs_fault rfl

theorem logs_character : character.Logs .nothing := by
  refine logs_number fun w => ?_
  split
  · exact logs_done _
  · exact logs_fault rfl

theorem logs_wrappedReading (inner : Schema) : (wrappedReading resolve inner).Logs .nothing := by
  unfold wrappedReading
  split
  · refine logs_fixedOpaque fun handed => ?_
    split
    · exact logs_done _
    · next herror => exact logs_raise (fatal_of_ofBytes herror)
  · exact logs_done _
  · exact logs_raise rfl
  · exact logs_raise rfl

theorem logs_visiting {α : Type} {visit : Visit} {element : Reading Unit α}
    {make : List α → Option (List Nat) → Datum} {lengths : Lengths Source}
    (h : element.Logs lengths) :
    (visiting ceiling visit element make).Logs (readBehind ceiling visit element lengths) := by
  refine logs_length fun count => ?_
  rw [← visit.min_requests]
  exact (Elements.logs_visit h _ _ _ _).map _ _

/-- The reading of a schema logs its lengths if those of the named schemas do. -/
theorem logs_readingWith {readings : String → Reading Unit Datum}
    {named : String → Lengths Source} (hnamed : ∀ name, (readings name).Logs (named name))
    (schema : Schema) :
    (readingWith ceiling resolve readings schema).Logs
      (readWith ceiling resolve readings named schema) := by
  have hparts : ∀ {parts : List Schema} (declared : Nat) (make : List Datum → Datum),
      (∀ part ∈ parts, (readingWith ceiling resolve readings part).Logs
        (readWith ceiling resolve readings named part)) →
      ((Elements.each (readingsWith ceiling resolve readings parts) 0 declared []).map id make).Logs
        (.row ((((readingsWith ceiling resolve readings parts).zip
          (partsRead ceiling resolve readings named parts)).take declared).map
            fun part => (part.1.run, part.2))) := by
    intro parts declared make hlogs
    rw [readingsWith_eq_map, partsRead_eq_map, List.zip_map', ← List.map_take, List.map_map]
    exact (Elements.logs_each hlogs 0 declared []).map _ _
  induction schema with
  | bool => exact logs_bool fun _ => logs_done _
  | int8 => exact logs_narrowSigned
  | int16 => exact logs_narrowSigned
  | int32 => exact logs_number fun _ => logs_done _
  | int64 => exact logs_hyper fun _ => logs_done _
  | int128 => exact logs_raise rfl
  | uint8 => exact logs_narrowUnsigned
  | uint16 => exact logs_narrowUnsigned
  | uint32 => exact logs_number fun _ => logs_done _
  | uint64 => exact logs_hyper fun _ => logs_done _
  | uint128 => exact logs_raise rfl
  | float => exact logs_number fun _ => logs_done _
  | double => exact logs_hyper fun _ => logs_done _
  | char => exact logs_character
  | unit => exact logs_done _
  | string => exact (logs_string _ _).map _ _
  | bytes => exact (logs_sized _ _ _).map _ _
  | identifier => exact logs_number fun _ => logs_done _
  | any => exact logs_raise rfl
  | ignored => exact logs_raise rfl
  | readable => exact logs_done _
  | failing text => exact logs_raise rfl
  | option inner ih =>
      refine logs_word fun present => ?_
      by_cases habsent : present = 0
      · rw [if_pos habsent, if_neg (habsent ▸ by decide)]
        exact logs_done _
      · rw [if_neg habsent]
        split
        · exact ih.map _ _
        · exact logs_fault rfl
  | wrapper inner ih => exact ih
  | tuple declared elements ih => exact hparts declared .tuple ih
  | record declared fields ih => exact hparts declared .tuple ih
  | seq element told visit ih => exact logs_visiting ih
  | map key value told visit ihKey ihValue =>
      exact logs_visiting (ihKey.andThen fun _ => ihValue.map _ _)
  | enumeration variants ih =>
      rw [readingWith, readWith, readingsWith_eq_map, partsRead_eq_map]
      refine logs_word fun index => ?_
      rw [List.getElem?_map, List.getElem?_map]
      cases hselect : variants[index.toNat]? with
      | none => exact logs_fault rfl
      | some variant => exact (ih variant (List.mem_of_getElem? hselect)).map _ _
  | fixedOpaque length => exact logs_fixedOpaque fun _ => logs_done _
  | opaqueWrapper inner ih => exact logs_wrappedReading _
  | ref name => exact hnamed name

/-- The reading of every name logs its lengths. -/
theorem logs_namedReading (definitions : Definitions Schema) (depth : Nat) (name : String) :
    (definitions.meaning (readingWith ceiling (Schema.resolve definitions)) unresolved depth
      name).Logs (namedRead definitions ceiling depth name) := by
  induction depth generalizing name with
  | zero => exact logs_raise rfl
  | succ depth ih =>
      rw [namedRead]
      cases hbody : definitions.lookup name with
      | none =>
          have hunresolved : unresolved.Logs .nothing := logs_raise rfl
          simpa only [Definitions.meaning, hbody] using hunresolved
      | some body =>
          rw [Definitions.meaning_succ _ _ _ _ hbody]
          exact logs_readingWith ih body

/-- The reading of every schema logs its lengths. -/
theorem logs_reading (definitions : Definitions Schema) (schema : Schema) (left : Nat) :
    (schema.decode definitions ceiling left).Logs (schema.read definitions ceiling left) :=
  logs_readingWith (logs_namedReading definitions _) schema

end Schema

end Xdr
