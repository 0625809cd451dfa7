import Xdr.Proofs.Model.Decoding
import Xdr.Proofs.Model.Encoding
import Xdr.Proofs.Refusal
import Xdr.Session

/-!
# Data on poisoned contexts

Every reader starts with a request, and every writer with an item, unless nothing is on the wire for
its schema (`Schema.Vacuous`). So a poisoned context refuses the datum, with one exception: the
count in front of a sequence or map is held against the ceiling before the encoder is looked at, and
one that is over it is a second fault of the poisoned encoder. The statement to read first is
`refused_of_poisoned`.
-/

namespace Xdr

namespace Plan

/-- A poisoned encoder answers `poisoned` and stays as it is, or it faults once more because of an
announced number of elements over the ceiling. -/
def Blocked (ceiling : UInt32) (counts : Nat → Prop) (plan : Plan) : Prop :=
  ∀ encoder : Encoder, encoder.poisoned = true →
    plan.run encoder = (.error .poisoned, encoder) ∨
      ∃ got, counts got ∧ ceiling.toNat < got ∧
        plan.run encoder = (.error (.lengthExceeded ceiling got),
          encoder.fault .count (.lengthExceeded ceiling got))

variable {ceiling : UInt32} {counts : Nat → Prop}

theorem Refused.blocked {plan : Plan} (h : plan.Refused) : plan.Blocked ceiling counts :=
  fun encoder hpoisoned => .inl (h encoder hpoisoned)

/-- What follows a blocked plan is not reached. -/
theorem Blocked.append {first : Plan} (h : first.Blocked ceiling counts) (second : Plan) :
    (first ++ second).Blocked ceiling counts := by
  intro encoder hpoisoned
  rcases h encoder hpoisoned with hrun | ⟨got, hgot, hover, hrun⟩
  · exact .inl (by rw [run_append, hrun])
  · exact .inr ⟨got, hgot, hover, by rw [run_append, hrun]⟩

/-- Where no announced number is over the ceiling, a blocked plan is refused. -/
theorem Blocked.refused {plan : Plan} (h : plan.Blocked ceiling (· ≤ ceiling.toNat)) :
    plan.Refused := by
  intro encoder hpoisoned
  rcases h encoder hpoisoned with hrun | ⟨got, hgot, hover, -⟩
  · exact hrun
  · omega

end Plan

namespace Reading

variable {κ μ α β : Type}

/-- Nothing is asked for if the reading is idle. Otherwise a poisoned decoder refuses and keeps
this. -/
structure Waits (idle : Prop) (reading : Reading κ α) (kept : κ) : Prop where
  returns : idle → ∃ value, reading.Returns value
  refused : ¬ idle → reading.Refused kept

/-- A reading that is not idle. -/
theorem waits_of_not {idle : Prop} {reading : Reading κ α} {kept : κ} (hidle : ¬ idle)
    (h : reading.Refused kept) : reading.Waits idle kept :=
  ⟨fun hyes => absurd hyes hidle, fun _ => h⟩

theorem Waits.map {idle : Prop} {reading : Reading κ α} {kept : κ} (h : reading.Waits idle kept)
    (keep : κ → μ) (change : α → β) : (reading.map keep change).Waits idle (keep kept) := by
  refine ⟨fun hidle => ?_, fun hbusy => (h.refused hbusy).map keep change⟩
  obtain ⟨value, hvalue⟩ := h.returns hidle
  exact ⟨change value, hvalue.map keep change⟩

/-- Where all elements are announced, the first reading that is not idle decides on all of them. -/
theorem each_waits {τ : Type} {read : τ → Reading Unit α} {idle : τ → Prop} {kinds : List τ}
    (h : ∀ kind ∈ kinds, (read kind).Waits (idle kind) ()) {remaining : Nat}
    (hremaining : kinds.length ≤ remaining) (index : Nat) (values : List α) :
    (Elements.each (kinds.map read) index remaining values).Waits (∀ kind ∈ kinds, idle kind)
      () := by
  induction kinds generalizing remaining index values with
  | nil =>
      exact ⟨fun _ => ⟨_, fun _ => rfl⟩, fun hbusy => absurd (List.forall_mem_nil _) hbusy⟩
  | cons kind kinds ih =>
      obtain ⟨hhead, hkinds⟩ := List.forall_mem_cons.mp h
      cases remaining with
      | zero => cases hremaining
      | succ remaining =>
          have hrest := fun value =>
            ih hkinds (Nat.le_of_succ_le_succ hremaining) (index + 1) (value :: values)
          rw [List.map_cons, Elements.each, Elements.next]
          by_cases hidle : idle kind
          -- what asks for nothing is not refused, so the rest decides
          · obtain ⟨value, hvalue⟩ := hhead.returns hidle
            have hnext := hvalue.map (fun _ => remaining) fun value => (some value, remaining)
            refine ⟨fun hall => ?_, fun hbusy decoder hpoisoned => ?_⟩
            · obtain ⟨all, hvalues⟩ := (hrest value).returns fun other hmem =>
                hall other (List.mem_cons_of_mem _ hmem)
              exact ⟨all, fun decoder => (hnext.run_andThen _ _ decoder).trans (hvalues decoder)⟩
            · rw [hnext.run_andThen]
              refine (hrest value).refused (fun hall => hbusy ?_) decoder hpoisoned
              exact List.forall_mem_cons.mpr ⟨hidle, hall⟩
          · refine waits_of_not (fun hall => hidle (hall kind List.mem_cons_self)) ?_
            exact ((hhead.refused hidle).map _ _).andThen _ _

end Reading

namespace Schema

variable {definitions : Definitions Schema} {ceiling : UInt32} {counts : Nat → Prop}
  {direction : Direction}

/-- Nothing is on the wire for the schema. Whether the format is meant for people is only written,
not read. -/
inductive Vacuous (definitions : Definitions Schema) (direction : Direction) : Schema → Prop where
  | unit : Vacuous definitions direction unit
  | readable : direction = .decode → Vacuous definitions direction readable
  | wrapper {inner} : Vacuous definitions direction inner →
      Vacuous definitions direction (wrapper inner)
  | tuple (declared) {elements} : (∀ element ∈ elements, Vacuous definitions direction element) →
      Vacuous definitions direction (tuple declared elements)
  | record (declared) {fields} : (∀ field ∈ fields, Vacuous definitions direction field) →
      Vacuous definitions direction (record declared fields)
  | ref {name body} : definitions.lookup name = some body →
      Vacuous definitions direction body → Vacuous definitions direction (ref name)

/-- The datum is given as the schema says, as far as it matters for what is written first. Of the
number that is announced for a sequence or map, `counts` holds. -/
inductive Takes (definitions : Definitions Schema) (counts : Nat → Prop) :
    Schema → Datum → Prop where
  | bool (value) : Takes definitions counts bool (.bool value)
  | int8 (value) : Takes definitions counts int8 (.int8 value)
  | int16 (value) : Takes definitions counts int16 (.int16 value)
  | int32 (value) : Takes definitions counts int32 (.int32 value)
  | int64 (value) : Takes definitions counts int64 (.int64 value)
  | uint8 (value) : Takes definitions counts uint8 (.uint8 value)
  | uint16 (value) : Takes definitions counts uint16 (.uint16 value)
  | uint32 (value) : Takes definitions counts uint32 (.uint32 value)
  | uint64 (value) : Takes definitions counts uint64 (.uint64 value)
  | float (bits) : Takes definitions counts float (.float bits)
  | double (bits) : Takes definitions counts double (.double bits)
  | char (value) : Takes definitions counts char (.char value)
  | unit (datum) : Takes definitions counts unit datum
  | string (text) : Takes definitions counts string (.string text)
  | bytes (data) : Takes definitions counts bytes (.bytes data)
  | identifier (value) : Takes definitions counts identifier (.uint32 value)
  | readable (datum) : Takes definitions counts readable datum
  | absent (inner) : Takes definitions counts (option inner) .absent
  | present (inner datum) : Takes definitions counts (option inner) (.present datum)
  | wrapper {inner datum} : Takes definitions counts inner datum →
      Takes definitions counts (wrapper inner) datum
  | tuple (declared) {elements data} : elements.length = data.length →
      (∀ element datum, (element, datum) ∈ elements.zip data →
        Takes definitions counts element datum) →
      Takes definitions counts (tuple declared elements) (.tuple data)
  | record (declared) {fields data} : fields.length = data.length →
      (∀ field datum, (field, datum) ∈ fields.zip data → Takes definitions counts field datum) →
      Takes definitions counts (record declared fields) (.tuple data)
  | seq (element visit hints) {told data count} : Told.count told data.length = some count →
      counts count → Takes definitions counts (seq element told visit) (.seq data hints)
  | map (key value visit hints) {told entries count} : Told.count told entries.length = some count →
      counts count → Takes definitions counts (map key value told visit) (.map entries hints)
  | variant {variants index} (told content) : UInt32.toNat index < variants.length →
      Takes definitions counts (enumeration variants) (.variant index told content)
  | fixedOpaque (length data) : Takes definitions counts (fixedOpaque length) (.bytes data)
  | opaqueWrapper {inner} (data) : inner.resolve definitions = Schema.bytes →
      Takes definitions counts (opaqueWrapper inner) (.bytes data)
  | ref {name body datum} : definitions.lookup name = some body →
      Takes definitions counts body datum → Takes definitions counts (ref name) datum

/-- A reader of the schema reads something it knows first, or nothing at all. It asks for no more
elements of a tuple than are declared. -/
inductive Asks (definitions : Definitions Schema) : Schema → Prop where
  | bool : Asks definitions bool
  | int8 : Asks definitions int8
  | int16 : Asks definitions int16
  | int32 : Asks definitions int32
  | int64 : Asks definitions int64
  | uint8 : Asks definitions uint8
  | uint16 : Asks definitions uint16
  | uint32 : Asks definitions uint32
  | uint64 : Asks definitions uint64
  | float : Asks definitions float
  | double : Asks definitions double
  | char : Asks definitions char
  | unit : Asks definitions unit
  | string : Asks definitions string
  | bytes : Asks definitions bytes
  | identifier : Asks definitions identifier
  | readable : Asks definitions readable
  | option (inner) : Asks definitions (option inner)
  | wrapper {inner} : Asks definitions inner → Asks definitions (wrapper inner)
  | tuple {declared elements} : List.length elements ≤ declared →
      (∀ element ∈ elements, Asks definitions element) → Asks definitions (tuple declared elements)
  | record {declared fields} : List.length fields ≤ declared →
      (∀ field ∈ fields, Asks definitions field) → Asks definitions (record declared fields)
  | seq (element told visit) : Asks definitions (seq element told visit)
  | map (key value told visit) : Asks definitions (map key value told visit)
  | enumeration (variants) : Asks definitions (enumeration variants)
  | fixedOpaque (length) : Asks definitions (fixedOpaque length)
  | opaqueWrapper {inner} (declared elements) :
      inner.resolve definitions = Schema.tuple declared elements →
      Asks definitions (opaqueWrapper inner)
  | ref {name body} : definitions.lookup name = some body → Asks definitions body →
      Asks definitions (ref name)

theorem vacuous_wrapper_iff {inner : Schema} :
    Vacuous definitions direction (wrapper inner) ↔ Vacuous definitions direction inner := by
  refine ⟨fun h => ?_, .wrapper⟩
  cases h with
  | wrapper h => exact h

theorem vacuous_tuple_iff {declared : Nat} {elements : List Schema} :
    Vacuous definitions direction (tuple declared elements) ↔
      ∀ element ∈ elements, Vacuous definitions direction element := by
  refine ⟨fun h => ?_, .tuple declared⟩
  cases h with
  | tuple _ h => exact h

theorem vacuous_record_iff {declared : Nat} {fields : List Schema} :
    Vacuous definitions direction (record declared fields) ↔
      ∀ field ∈ fields, Vacuous definitions direction field := by
  refine ⟨fun h => ?_, .record declared⟩
  cases h with
  | record _ h => exact h

theorem vacuous_ref_iff {name : String} {body : Schema}
    (hbody : definitions.lookup name = some body) :
    Vacuous definitions direction (ref name) ↔ Vacuous definitions direction body := by
  refine ⟨fun h => ?_, .ref hbody⟩
  cases h with
  | ref hfound h =>
      obtain rfl := Option.some.inj (hfound.symm.trans hbody)
      exact h

/-! ### Writing -/

/-- What can be said about the plan of a datum where as many references are followed as there are in
front of the first word. -/
def Stalled (definitions : Definitions Schema) (ceiling : UInt32) (counts : Nat → Prop)
    (schema : Schema) (datum : Datum) : Prop :=
  ∀ chain depth : Nat, Grounded definitions chain schema → chain ≤ depth →
    (plan definitions ceiling depth schema datum).Stalls (Vacuous definitions .encode schema)
      (Plan.Blocked ceiling counts)

/-- A count is refused like everything else unless it is over the ceiling. -/
theorem blocked_countPlan {count : Nat} (h : counts count) :
    (countPlan ceiling (some count)).Blocked ceiling counts := by
  simp only [countPlan]
  split
  · exact (Plan.refused_one _).blocked
  · next hmax => exact fun encoder _ => .inr ⟨count, h, Nat.lt_of_not_le hmax, rfl⟩

/-- The plan of a datum with something in front of everything else. -/
theorem stalled_of_blocked {schema : Schema} {datum : Datum}
    (hbusy : ¬ Vacuous definitions .encode schema)
    (h : ∀ depth, (plan definitions ceiling depth schema datum).Blocked ceiling counts) :
    Stalled definitions ceiling counts schema datum :=
  fun _ depth _ _ => Plan.stalls_of_not hbusy (h depth)

/-- The first part of a row that is not vacuous decides on the row. -/
theorem stalls_inTurn {schemas : List Schema} {data : List Datum} {chain depth : Nat}
    (hlength : schemas.length = data.length)
    (h : ∀ schema datum, (schema, datum) ∈ schemas.zip data →
      Stalled definitions ceiling counts schema datum)
    (hgrounded : ∀ schema ∈ schemas, Grounded definitions chain schema) (hdepth : chain ≤ depth) :
    (inTurn (plansWith ceiling (resolve definitions)
      (definitions.meaning (planWith ceiling (resolve definitions)) (fun _ => mismatch) depth)
      schemas) data).Stalls (∀ schema ∈ schemas, Vacuous definitions .encode schema)
        (Plan.Blocked ceiling counts) := by
  rw [inTurn_eq hlength]
  refine Plan.concat_stalls (fun hfirst => hfirst.append) ?_
  refine List.forall₂_iff_zip.mpr ⟨hlength, fun {schema datum} hmem => ?_⟩
  exact h schema datum hmem chain depth (hgrounded schema (List.of_mem_zip hmem).1) hdepth

theorem Takes.stalled {schema : Schema} {datum : Datum}
    (h : Takes definitions counts schema datum) :
    Stalled definitions ceiling counts schema datum := by
  induction h with
  | unit datum => exact fun _ _ _ _ => ⟨fun _ => rfl, fun hbusy => absurd .unit hbusy⟩
  | string text =>
      refine stalled_of_blocked (fun hidle => by cases hidle) fun _ => ?_
      exact (Filter.refused_encodeSized _ _ _ _).blocked
  | bytes data =>
      refine stalled_of_blocked (fun hidle => by cases hidle) fun _ => ?_
      exact (Filter.refused_encodeSized _ _ _ _).blocked
  | present inner datum =>
      refine stalled_of_blocked (fun hidle => by cases hidle) fun _ => ?_
      exact ((Plan.refused_one _).append _).blocked
  | wrapper _ ih =>
      intro chain depth hgrounded hdepth
      rw [vacuous_wrapper_iff]
      exact ih chain depth hgrounded hdepth
  | tuple declared hlength _ ih =>
      intro chain depth hgrounded hdepth
      rw [vacuous_tuple_iff]
      refine stalls_inTurn hlength ih (fun element hmem => ?_) hdepth
      exact hgrounded.of_subset (direct_subset_directs hmem)
  | record declared hlength _ ih =>
      intro chain depth hgrounded hdepth
      rw [vacuous_record_iff]
      refine stalls_inTurn hlength ih (fun field hmem => ?_) hdepth
      exact hgrounded.of_subset (direct_subset_directs hmem)
  | seq element visit hints htold hcount =>
      refine stalled_of_blocked (fun hidle => by cases hidle) fun _ => ?_
      rw [plan, planWith, htold]
      exact (blocked_countPlan hcount).append _
  | map key value visit hints htold hcount =>
      refine stalled_of_blocked (fun hidle => by cases hidle) fun _ => ?_
      rw [plan, planWith, htold]
      exact (blocked_countPlan hcount).append _
  | variant told content hindex =>
      refine stalled_of_blocked (fun hidle => by cases hidle) fun _ => ?_
      rw [plan, planWith, plansWith_eq_map, List.getElem?_map, List.getElem?_eq_getElem hindex]
      exact ((Plan.refused_one _).append _).blocked
  | opaqueWrapper data hinner =>
      refine stalled_of_blocked (fun hidle => by cases hidle) fun _ => ?_
      rw [plan, planWith, hinner]
      exact (Plan.refused_one _).blocked
  | ref hbody _ ih =>
      intro chain depth hgrounded hdepth
      obtain ⟨chain, rfl, hbodyGrounded⟩ := hgrounded.body List.mem_cons_self hbody
      obtain ⟨depth, rfl⟩ := Nat.exists_eq_add_of_le' (show 1 ≤ depth by omega)
      rw [vacuous_ref_iff hbody, plan_ref hbody]
      exact ih chain depth hbodyGrounded (by omega)
  | readable datum =>
      refine stalled_of_blocked (fun hidle => ?_) fun _ => (Plan.refused_one _).blocked
      cases hidle with
      | readable hdirection => cases hdirection
  | _ =>
      exact stalled_of_blocked (fun hidle => by cases hidle) fun _ => (Plan.refused_one _).blocked

/-- What the elements of a tuple refer to, the tuple refers to. -/
theorem ends_directs {chain : Nat} {schemas : List Schema}
    (h : ∀ schema ∈ schemas, Grounded definitions chain schema) :
    ∀ name ∈ directs schemas, definitions.Ends direct chain name := by
  intro name hmem
  obtain ⟨schema, hschema, hname⟩ := mem_directs.mp hmem
  exact h schema hschema name hname

/-- A schema with a datum is grounded: what is written first is found behind finitely many
references. -/
theorem Takes.grounded {schema : Schema} {datum : Datum}
    (h : Takes definitions counts schema datum) :
    Grounded definitions definitions.length schema := by
  have hparts : ∀ {schemas : List Schema} {data : List Datum}, schemas.length = data.length →
      (∀ schema datum, (schema, datum) ∈ schemas.zip data →
        Grounded definitions definitions.length schema) →
      ∀ schema ∈ schemas, Grounded definitions definitions.length schema := by
    intro schemas data hlength hzip
    have hboth := List.forall₂_iff_zip.mpr ⟨hlength, fun {schema datum} hmem =>
      And.intro (hzip schema datum hmem) trivial⟩
    exact ((List.forall₂_and_left schemas data).mp hboth).1
  induction h with
  | wrapper _ ih => exact ih
  | tuple declared hlength _ ih => exact ends_directs (hparts hlength ih)
  | record declared hlength _ ih => exact ends_directs (hparts hlength ih)
  | ref hbody _ ih =>
      intro name hmem
      obtain rfl := List.mem_singleton.mp hmem
      exact ih.ends hbody
  | _ => exact fun _ hmem => absurd hmem List.not_mem_nil

/-- What a poisoned encoder makes of a datum. -/
theorem encode_stalls {schema : Schema} {datum : Datum}
    (h : Takes definitions counts schema datum) :
    (schema.encode definitions ceiling datum).Stalls (Vacuous definitions .encode schema)
      (Plan.Blocked ceiling counts) := by
  have hbudget := definitions.budget_le (Nat.le_refl (datum.depth + 1))
  exact h.stalled _ _ h.grounded (by omega)

/-! ### Reading -/

theorem Asks.grounded {schema : Schema} (h : Asks definitions schema) :
    Grounded definitions definitions.length schema := by
  induction h with
  | wrapper _ ih => exact ih
  | tuple _ _ ih => exact ends_directs ih
  | record _ _ ih => exact ends_directs ih
  | ref hbody _ ih =>
      intro name hmem
      obtain rfl := List.mem_singleton.mp hmem
      exact ih.ends hbody
  | _ => exact fun _ hmem => absurd hmem List.not_mem_nil

/-- Where as many references are followed as there are in front of the first request, a poisoned
decoder refuses a reader that asks for something. -/
theorem Asks.waits {schema : Schema} (h : Asks definitions schema) {chain depth : Nat}
    (hgrounded : Grounded definitions chain schema) (hdepth : chain ≤ depth) :
    (reading definitions ceiling depth schema).Waits (Vacuous definitions .decode schema) () := by
  induction h generalizing chain depth with
  | unit => exact ⟨fun _ => ⟨_, fun _ => rfl⟩, fun hbusy => absurd .unit hbusy⟩
  | readable => exact ⟨fun _ => ⟨_, fun _ => rfl⟩, fun hbusy => absurd (.readable rfl) hbusy⟩
  | string =>
      refine Reading.waits_of_not (fun hidle => by cases hidle) ?_
      exact (Reading.refused_request.andThen _ _).map _ _
  | bytes =>
      refine Reading.waits_of_not (fun hidle => by cases hidle) ?_
      exact Reading.refused_request.map _ _
  | wrapper _ ih =>
      rw [vacuous_wrapper_iff]
      exact ih hgrounded hdepth
  | tuple hdeclared _ ih =>
      rw [vacuous_tuple_iff, reading, readingWith, readingsWith_eq_map]
      refine (Reading.each_waits (fun element hmem => ?_) hdeclared 0 []).map _ _
      exact ih element hmem (hgrounded.of_subset (direct_subset_directs hmem)) hdepth
  | record hdeclared _ ih =>
      rw [vacuous_record_iff, reading, readingWith, readingsWith_eq_map]
      refine (Reading.each_waits (fun field hmem => ?_) hdeclared 0 []).map _ _
      exact ih field hmem (hgrounded.of_subset (direct_subset_directs hmem)) hdepth
  | opaqueWrapper declared elements hinner =>
      refine Reading.waits_of_not (fun hidle => by cases hidle) ?_
      rw [reading, readingWith, hinner]
      exact Reading.refused_request
  | ref hbody _ ih =>
      obtain ⟨chain, rfl, hbodyGrounded⟩ := hgrounded.body List.mem_cons_self hbody
      obtain ⟨depth, rfl⟩ := Nat.exists_eq_add_of_le' (show 1 ≤ depth by omega)
      have hinner := ih hbodyGrounded (show chain ≤ depth by omega)
      rw [vacuous_ref_iff hbody, reading_ref hbody]
      exact ⟨hinner.returns, hinner.refused⟩
  | _ => exact Reading.waits_of_not (fun hidle => by cases hidle) Reading.refused_request

/-- What a poisoned decoder makes of a schema. -/
theorem decode_waits {schema : Schema} (h : Asks definitions schema) (left : Nat) :
    (schema.decode definitions ceiling left).Waits (Vacuous definitions .decode schema) () := by
  have hbudget := definitions.budget_le (show left / 4 + 1 + 1 ≤ left / 4 + 2 by omega)
  exact h.waits h.grounded (by omega)

end Schema

/-- A poisoned context refuses a datum unless nothing is on the wire for its schema, and is left as
it is. Only a number of elements over the ceiling, announced by a writer before anything else, is a
fault once more. -/
theorem refused_of_poisoned (catalog : Catalog) :
    (∀ encoder : Encoder, encoder.poisoned = true → ∀ (schema : Schema) (datum : Datum),
      ¬ schema.Vacuous catalog.schemas .encode →
      (schema.Takes catalog.schemas (· ≤ encoder.config.maxLength.toNat) datum →
        (EncodeStep.datum schema datum).run catalog encoder = (.error .poisoned, encoder)) ∧
      (schema.Takes catalog.schemas (fun _ => True) datum →
        (EncodeStep.datum schema datum).run catalog encoder = (.error .poisoned, encoder) ∨
          ∃ got, encoder.config.maxLength.toNat < got ∧
            (EncodeStep.datum schema datum).run catalog encoder =
              (.error (.lengthExceeded encoder.config.maxLength got),
                encoder.fault .count (.lengthExceeded encoder.config.maxLength got)))) ∧
    ∀ decoder : Decoder, decoder.poisoned = true → ∀ schema : Schema,
      ¬ schema.Vacuous catalog.schemas .decode → schema.Asks catalog.schemas →
      (DecodeStep.datum schema).run catalog decoder =
        ({ error := some .poisoned }, decoder) := by
  constructor
  · intro encoder hpoisoned schema datum hbusy
    refine ⟨fun htakes => ?_, fun htakes => ?_⟩
    · exact ((Schema.encode_stalls htakes).blocked hbusy).refused encoder hpoisoned
    · rcases (Schema.encode_stalls htakes).blocked hbusy encoder hpoisoned with
        hrun | ⟨got, -, hover, hrun⟩
      · exact .inl hrun
      · exact .inr ⟨got, hover, hrun⟩
  · intro decoder hpoisoned schema hbusy hasks
    have hrefused : (schema.decode catalog.schemas decoder.config.maxLength
        decoder.transport.rest.length).Refused () :=
      (Schema.decode_waits hasks _).refused hbusy
    simp only [DecodeStep.run, hrefused decoder hpoisoned]
    rfl

/-- A sequence behind nothing, with no more elements than the ceiling allows, and with more. -/
theorem refused_of_poisoned_pair :
    let pair : Schema := .tuple 2 [.unit, .seq .int32 .actual {}]
    let short : Datum := .tuple [.unit, .seq [.int32 1] none]
    let long : Datum := .tuple [.unit, .seq [.int32 1, .int32 2] none]
    let encoder : Encoder := { transport := {}, config := { maxLength := 1 }, poisoned := true }
    let decoder : Decoder := { transport := { rest := [0, 0, 0, 0] }, poisoned := true }
    (EncodeStep.datum pair short).run {} encoder = (.error .poisoned, encoder) ∧
      ((EncodeStep.datum pair long).run {} encoder = (.error .poisoned, encoder) ∨
        ∃ got, 1 < got ∧ (EncodeStep.datum pair long).run {} encoder =
          (.error (.lengthExceeded 1 got), encoder.fault .count (.lengthExceeded 1 got))) ∧
      (DecodeStep.datum pair).run {} decoder = ({ error := some .poisoned }, decoder) := by
  intro pair short long encoder decoder
  have hbusy : ∀ direction, ¬ pair.Vacuous [] direction := fun direction h => by
    have helement := Schema.vacuous_tuple_iff.mp h (.seq .int32 .actual {}) (by simp)
    cases helement
  have hshort : pair.Takes [] (· ≤ 1) short := .tuple 2 rfl fun element datum hmem => by
    rcases (by simpa using hmem : _ ∨ _) with ⟨rfl, rfl⟩ | ⟨rfl, rfl⟩
    · exact .unit _
    · exact .seq _ _ _ rfl (Nat.le_refl 1)
  have hlong : pair.Takes [] (fun _ => True) long := .tuple 2 rfl fun element datum hmem => by
    rcases (by simpa using hmem : _ ∨ _) with ⟨rfl, rfl⟩ | ⟨rfl, rfl⟩
    · exact .unit _
    · exact .seq _ _ _ rfl trivial
  have hasks : pair.Asks [] := .tuple (Nat.le_refl 2)
    (List.forall_mem_cons.mpr ⟨.unit, List.forall_mem_singleton.mpr (.seq _ _ _)⟩)
  have hwritten := (refused_of_poisoned {}).1 encoder rfl pair
  exact ⟨(hwritten short (hbusy _)).1 hshort, (hwritten long (hbusy _)).2 hlong,
    (refused_of_poisoned {}).2 decoder rfl pair (hbusy _) hasks⟩

/-- The poison flag is not all that decides: a sequence that is too long is a second fault of a
poisoned encoder, logged like the first. -/
theorem not_refused_of_poisoned :
    ¬ ∀ (catalog : Catalog) (encoder : Encoder), encoder.poisoned = true →
      ∀ (schema : Schema) (datum : Datum), ¬ schema.Vacuous catalog.schemas .encode →
        schema.Takes catalog.schemas (fun _ => True) datum →
        ((EncodeStep.datum schema datum).run catalog encoder).1 = .error .poisoned := by
  intro hrefuses
  let encoder : Encoder := { transport := {}, config := { maxLength := 1 }, poisoned := true }
  have hrun := hrefuses {} encoder rfl (.seq .int32 .actual {}) (.seq [.int32 1, .int32 2] none)
    (fun hidle => by cases hidle) (.seq _ _ _ rfl trivial)
  cases hrun

end Xdr
