import Xdr.Proofs.Access
import Xdr.Proofs.Model.Acceptance

/-!
# Access to sequences, maps and tuples

How an access is opened: behind a count within the ceiling for sequences and maps
(`Seed.counted`), at once for the fields of tuples, structs and variants (`Seed.fields`). The
readers of data that the model knows are visitors of such accesses (`Schema.seed_seq`,
`Schema.seed_map`, `Schema.seed_tuple`). The statement to read first is `items_handed_out`.
-/

namespace Xdr

open Reading

/-! ### Openings -/

namespace Seed

/-- What a reading delivers. What it keeps of a target does not concern whoever asked for it. -/
def ofReading (reading : Reading Unit Datum) : Seed where
  run decoder :=
    match reading.run decoder with
    | (.ok datum, after) => (.ok datum, after)
    | (.error stopped, after) => (.error stopped.error, after)
  advances decoder := by
    have hadvances := reading.advances_run decoder
    rcases hrun : reading.run decoder with ⟨stopped | datum, after⟩ <;> rwa [hrun] at hadvances

/-- The fields of a tuple, a struct or a variant: as many as are declared, with nothing in front of
them. -/
def fields (declared : Nat) (visitor : Visitor) : Seed where
  run decoder := visitor.run ⟨decoder, declared⟩
  advances decoder := (visitor.taken_run ⟨decoder, declared⟩).1

/-- A sequence or map: its count, then as many elements or entries. The visitor has no say in it if
the count cannot be read or is over the ceiling. -/
def counted (ceiling : UInt32) (visitor : Visitor) : Seed where
  run decoder :=
    match (Reading.length ceiling () .done : Reading Unit UInt32).run decoder with
    | (.ok count, after) => visitor.run ⟨after, count.toNat⟩
    | (.error stopped, after) => (.error stopped.error, after)
  advances decoder := by
    have hadvances := (Reading.length ceiling () .done : Reading Unit UInt32).advances_run decoder
    rcases hrun : (Reading.length ceiling () .done : Reading Unit UInt32).run decoder with
      ⟨stopped | count, after⟩ <;> rw [hrun] at hadvances
    · exact hadvances
    · exact hadvances.trans (visitor.taken_run ⟨after, count.toNat⟩).1

/-- A variant: its index, then its content. -/
def variants (contents : List Seed) : Seed where
  run decoder :=
    match (Reading.word .uint32 () .done : Reading Unit UInt32).run decoder with
    | (.ok index, after) =>
        match contents[index.toNat]? with
        | some content =>
            ((content.run after).1.map (.variant index none), (content.run after).2)
        | none =>
            (.error (.invalidDiscriminant index.toNat),
              after.fault .enumeration (.invalidDiscriminant index.toNat))
    | (.error stopped, after) => (.error stopped.error, after)
  advances decoder := by
    have hadvances := (Reading.word .uint32 () .done : Reading Unit UInt32).advances_run decoder
    rcases hrun : (Reading.word .uint32 () .done : Reading Unit UInt32).run decoder with
      ⟨stopped | index, after⟩ <;> rw [hrun] at hadvances
    · exact hadvances
    · refine hadvances.trans ?_
      dsimp only
      cases contents[index.toNat]? with
      | none => exact .of_transport_eq rfl
      | some content => exact content.advances after

@[ext]
theorem ext {first second : Seed} (h : ∀ decoder, first.run decoder = second.run decoder) :
    first = second := by
  obtain ⟨run, _⟩ := first
  obtain ⟨run', _⟩ := second
  obtain rfl : run = run' := funext h
  rfl

/-- Fields take the bytes of what is decoded of them. -/
theorem bytes_fields (declared : Nat) (visitor : Visitor) (decoder : Decoder) :
    (fields declared visitor).bytes decoder =
      deliveries decoder (visitor.trace ⟨decoder, declared⟩) :=
  (visitor.taken_run ⟨decoder, declared⟩).2

/-- How a sequence or map opens: as its count is read, which fails, or which is within the ceiling
and all that is read before the visitor makes its requests. -/
theorem run_counted (ceiling : UInt32) (visitor : Visitor) (decoder : Decoder) :
    (∃ stopped after,
      (Reading.length ceiling () .done : Reading Unit UInt32).run decoder =
          (.error stopped, after) ∧
        (counted ceiling visitor).run decoder = (.error stopped.error, after)) ∨
      ∃ count after, count ≤ ceiling ∧
        decoder.transport.rest = wordImage count ++ after.transport.rest ∧
        (counted ceiling visitor).run decoder = visitor.run ⟨after, count.toNat⟩ ∧
        (counted ceiling visitor).bytes decoder =
          wordImage count ++ deliveries after (visitor.trace ⟨after, count.toNat⟩) := by
  have hadvances := (Reading.length ceiling () .done : Reading Unit UInt32).advances_run decoder
  rcases hopen : (Reading.length ceiling () .done : Reading Unit UInt32).run decoder with
    ⟨stopped | count, after⟩ <;> rw [hopen] at hadvances
  · refine .inl ⟨stopped, after, rfl, ?_⟩
    simp only [counted, hopen]
  · have hrun : (counted ceiling visitor).run decoder = visitor.run ⟨after, count.toNat⟩ := by
      simp only [counted, hopen]
    obtain ⟨consumed, hrest, haccepts⟩ := accepts_of_run hopen
    obtain ⟨w, rest, rfl, hceiling, rfl, rfl⟩ := accepts_length_iff.mp haccepts
    rw [List.append_nil] at hrest
    refine .inr ⟨_, after, hceiling, hrest, hrun, ?_⟩
    obtain ⟨hlater, htaken⟩ := visitor.taken_run ⟨after, count.toNat⟩
    rw [bytes, hrun, hadvances.taken_trans hlater, htaken]
    have hfront := hadvances.taken_append
    rw [hrest] at hfront
    rw [List.append_cancel_right hfront]

end Seed

/-! ### The visitors of data -/

namespace Visitor

variable {α : Type}

/-- Make requests until the end or until there are no requests left to make, and note down the
number of items that are left before each. Any error is passed on. -/
def gather (request : (Except Error (Option α) → Visitor) → Visitor)
    (make : List α → List Nat → Datum) :
    (requests : Nat) → (values : List α) → (hints : List Nat) → Visitor
  | 0, values, hints => .finish (.ok (make values.reverse hints.reverse))
  | requests + 1, values, hints => .hint fun remaining => request fun
      | .error error => .finish (.error error)
      | .ok none => .finish (.ok (make values.reverse (remaining :: hints).reverse))
      | .ok (some found) =>
          gather request make requests (found :: values) (remaining :: hints)

/-- Ask for a key and, if there is one, for the value that belongs to it. -/
def entry (key value : Seed) (next : Except Error (Option (Datum × Datum)) → Visitor) : Visitor :=
  .item key fun
    | .error error => next (.error error)
    | .ok none => next (.ok none)
    | .ok (some k) => .value value fun
        | .error error => next (.error error)
        | .ok v => next (.ok (some (k, v)))

/-- Ask for one element with each seed. All of them have to be there. -/
def each : List Seed → (index : Nat) → (values : List Datum) → Visitor
  | [], _, values => .finish (.ok (.tuple values.reverse))
  | seed :: seeds, index, values => .item seed fun
      | .error error => .finish (.error error)
      | .ok none => .finish (.error (Elements.missing index))
      | .ok (some found) => each seeds (index + 1) (found :: values)

/-- Each request asks for the next element of this reading. -/
def Asks (request : (Except Error (Option α) → Visitor) → Visitor) (element : Reading Unit α) :
    Prop :=
  ∀ next access, (request next).run access =
    match (Elements.next element access.remaining).run access.decoder with
    | (.ok (answer, left), after) => (next (.ok answer)).run ⟨after, left⟩
    | (.error stopped, after) => (next (.error stopped.error)).run ⟨after, stopped.kept⟩

/-- An element that is left is read, and one item less is left whatever comes of it. -/
theorem run_next_succ (element : Reading Unit α) (remaining : Nat) (decoder : Decoder) :
    (Elements.next element (remaining + 1)).run decoder =
      match element.run decoder with
      | (.ok found, after) => (.ok (some found, remaining), after)
      | (.error stopped, after) => (.error ⟨stopped.error, remaining⟩, after) := by
  rw [Elements.next, Reading.map, run_andThen]
  rcases element.run decoder with ⟨stopped | value, after⟩ <;> rfl

/-- A request for an element is answered as the model answers it. -/
theorem item_ofReading (element : Reading Unit Datum) (access : Access) :
    access.item (.ofReading element) =
      match (Elements.next element access.remaining).run access.decoder with
      | (.ok (answer, left), after) => (.ok answer, ⟨after, left⟩)
      | (.error stopped, after) => (.error stopped.error, ⟨after, stopped.kept⟩) := by
  obtain ⟨decoder, _ | remaining⟩ := access
  · rfl
  · simp only [run_next_succ, Access.item, Seed.ofReading]
    rcases element.run decoder with ⟨stopped | found, after⟩ <;> rfl

theorem asks_item (element : Reading Unit Datum) :
    Asks (.item (.ofReading element)) element := by
  intro next access
  rw [run, item_ofReading]
  rcases (Elements.next element access.remaining).run access.decoder with
    ⟨stopped | ⟨answer, left⟩, after⟩ <;> rfl

theorem asks_entry (key value : Reading Unit Datum) :
    Asks (entry (.ofReading key) (.ofReading value))
      (key.andThen id fun k => value.map id fun v => (k, v)) := by
  rintro next ⟨decoder, _ | remaining⟩
  · rfl
  · simp only [run_next_succ, entry, run, Access.item, Seed.ofReading, run_andThen]
    rcases key.run decoder with ⟨stopped | k, between⟩
    · rfl
    · simp only [Except.map, run, Access.value, Reading.map, run_andThen]
      rcases value.run between with ⟨stopped | v, after⟩ <;> rfl

/-- A visitor that gathers what it asks for reads as the elements are visited. -/
theorem run_gather {request : (Except Error (Option α) → Visitor) → Visitor}
    {element : Reading Unit α} (h : Asks request element) (make : List α → List Nat → Datum)
    (requests : Nat) (values : List α) (hints : List Nat) (access : Access) :
    (gather request make requests values hints).run access =
      match (Elements.visit element requests access.remaining values hints).run access.decoder with
      | (.ok (all, noted), after) => (.ok (make all noted), after)
      | (.error stopped, after) => (.error stopped.error, after) := by
  induction requests generalizing values hints access with
  | zero => rfl
  | succ requests ih =>
      rw [gather, run, h, Elements.visit, run_andThen]
      rcases (Elements.next element access.remaining).run access.decoder with
        ⟨stopped | ⟨_ | value, left⟩, after⟩
      · rfl
      · rfl
      · exact ih (value :: values) (access.remaining :: hints) ⟨after, left⟩

/-- A visitor that needs all its elements reads as they are read one by one. -/
theorem run_each (elements : List (Reading Unit Datum)) (index : Nat) (values : List Datum)
    (access : Access) :
    (each (elements.map Seed.ofReading) index values).run access =
      match (Elements.each elements index access.remaining values).run access.decoder with
      | (.ok all, after) => (.ok (.tuple all), after)
      | (.error stopped, after) => (.error stopped.error, after) := by
  induction elements generalizing index values access with
  | nil => rfl
  | cons element elements ih =>
      rw [List.map_cons, each, asks_item, Elements.each, run_andThen]
      rcases (Elements.next element access.remaining).run access.decoder with
        ⟨stopped | ⟨_ | value, left⟩, after⟩
      · rfl
      · rfl
      · exact ih (index + 1) (value :: values) ⟨after, left⟩

end Visitor

/-! ### Data -/

namespace Reading

variable {κ α : Type}

/-- Behind a word is what follows it. -/
theorem run_word (operation : Operation) (kept : κ) (next : UInt32 → Reading κ α)
    (decoder : Decoder) :
    (word operation kept next).run decoder =
      match (word operation kept done).run decoder with
      | (.ok w, after) => (next w).run after
      | (.error stopped, after) => (.error stopped, after) := by
  rw [word, word, run_request, run_request]
  split
  · rfl
  · rcases decoder.useTransport fun source => source.readExact 4 with ⟨failure | bytes, after⟩ <;>
      rfl

/-- Behind a count is what follows it. -/
theorem run_length (max : UInt32) (kept : κ) (next : UInt32 → Reading κ α) (decoder : Decoder) :
    (length max kept next).run decoder =
      match (length max kept done).run decoder with
      | (.ok w, after) => (next w).run after
      | (.error stopped, after) => (.error stopped, after) := by
  rw [length, length, run_word, run_word .length kept fun w => if w ≤ max then done w else _]
  rcases (word .length kept done : Reading κ UInt32).run decoder with ⟨stopped | w, after⟩
  · rfl
  · dsimp only
    split <;> rfl

end Reading

namespace Schema

variable (ceiling : UInt32) (resolve : Schema → Schema) (named : String → Reading Unit Datum)

/-- How data of a schema is decoded as an item. -/
def seed (schema : Schema) : Seed :=
  .ofReading (readingWith ceiling resolve named schema)

/-- The reader of a sequence makes requests on an access behind a count. -/
theorem run_visiting {α : Type} {request : (Except Error (Option α) → Visitor) → Visitor}
    {element : Reading Unit α} (h : Visitor.Asks request element) (visit : Visit)
    (make : List α → Option (List Nat) → Datum) :
    Seed.ofReading (visiting ceiling visit element make) =
      .counted ceiling (.hint fun count =>
        .gather request (fun all noted => make all (if visit.hints then some noted else none))
          (visit.take.getD (count + 1)) [] []) := by
  ext1 decoder
  simp only [Seed.ofReading, Seed.counted, visiting]
  rw [Reading.run_length]
  rcases (Reading.length ceiling () done : Reading Unit UInt32).run decoder with
    ⟨stopped | count, after⟩
  · rfl
  · simp only [Visitor.run]
    rw [Visitor.run_gather h, Reading.map, run_andThen]
    rcases (Elements.visit element (visit.take.getD (count.toNat + 1)) count.toNat [] []).run after
      with ⟨stopped | ⟨all, noted⟩, last⟩ <;> rfl

theorem seed_seq (element : Schema) (told : Told) (visit : Visit) :
    (seq element told visit).seed ceiling resolve named =
      .counted ceiling (.hint fun count =>
        .gather (.item (element.seed ceiling resolve named))
          (fun all noted => .seq all (if visit.hints then some noted else none))
          (visit.take.getD (count + 1)) [] []) :=
  run_visiting ceiling (Visitor.asks_item _) visit .seq

theorem seed_map (key value : Schema) (told : Told) (visit : Visit) :
    (map key value told visit).seed ceiling resolve named =
      .counted ceiling (.hint fun count =>
        .gather (.entry (key.seed ceiling resolve named) (value.seed ceiling resolve named))
          (fun all noted => .map all (if visit.hints then some noted else none))
          (visit.take.getD (count + 1)) [] []) :=
  run_visiting ceiling (Visitor.asks_entry _ _) visit .map

/-- The elements of a tuple are asked for on an access to as many as are declared. -/
theorem run_elements (declared : Nat) (elements : List (Reading Unit Datum)) :
    Seed.ofReading ((Elements.each elements 0 declared []).map id .tuple) =
      .fields declared (.each (elements.map Seed.ofReading) 0 []) := by
  ext1 decoder
  simp only [Seed.ofReading, Seed.fields]
  rw [Visitor.run_each, Reading.map, run_andThen]
  rcases (Elements.each elements 0 declared []).run decoder with ⟨stopped | all, after⟩ <;> rfl

theorem seed_tuple (declared : Nat) (elements : List Schema) :
    (tuple declared elements).seed ceiling resolve named =
      .fields declared (.each (elements.map (seed ceiling resolve named)) 0 []) := by
  rw [seed, readingWith, run_elements, readingsWith_eq_map, List.map_map]
  rfl

theorem seed_record (declared : Nat) (fields : List Schema) :
    (record declared fields).seed ceiling resolve named =
      .fields declared (.each (fields.map (seed ceiling resolve named)) 0 []) := by
  rw [seed, readingWith, run_elements, readingsWith_eq_map, List.map_map]
  rfl

theorem seed_enumeration (variants : List Schema) :
    (enumeration variants).seed ceiling resolve named =
      .variants (variants.map (seed ceiling resolve named)) := by
  ext1 decoder
  simp only [seed, Seed.ofReading, Seed.variants, readingWith, readingsWith_eq_map]
  rw [Reading.run_word]
  rcases (Reading.word .uint32 () done : Reading Unit UInt32).run decoder with
    ⟨stopped | index, after⟩
  · rfl
  · simp only [List.getElem?_map]
    cases variants[index.toNat]? with
    | none => rfl
    | some content =>
        simp only [Option.map_some, Reading.map, run_andThen, seed, Seed.ofReading]
        rcases (readingWith ceiling resolve named content).run after with
          ⟨stopped | datum, last⟩ <;> rfl

/-- The bytes of a datum that is handed out are bytes that its reading accepts for it. -/
theorem accepts_bytes {schema : Schema} {decoder after : Decoder} {datum : Datum}
    (h : (schema.seed ceiling resolve named).run decoder = (.ok datum, after)) :
    (readingWith ceiling resolve named schema).Accepts decoder.config.padding
      ((schema.seed ceiling resolve named).bytes decoder) datum := by
  have hadvances := (schema.seed ceiling resolve named).advances decoder
  have hrun : (readingWith ceiling resolve named schema).run decoder = (.ok datum, after) := by
    simp only [seed, Seed.ofReading] at h
    rcases hreading : (readingWith ceiling resolve named schema).run decoder with
      ⟨stopped | found, last⟩ <;> rw [hreading] at h <;> cases h
    rfl
  rw [h] at hadvances
  obtain ⟨consumed, hrest, haccepts⟩ := accepts_of_run hrun
  have hfront := hadvances.taken_append
  rw [hrest] at hfront
  rwa [Seed.bytes, h, List.append_cancel_right hfront]

end Schema

/-- Sequence and map access hands out the announced number of items. Whatever a visitor asks for
and whatever becomes of it, an access to so many items answers as it has to (`Visitor.HandsOut`).
The fields of tuples, structs and variants are handed out from where they begin. Elements and
entries are handed out behind their count, which is all that is read before them; what is nested
in them is an item like any other, and so are its bytes. The data of the model is read by visitors
of this kind. -/
theorem items_handed_out :
    (∀ (visitor : Visitor) (count : Nat) (start : Decoder), visitor.HandsOut count start) ∧
    (∀ (declared : Nat) (visitor : Visitor) (decoder : Decoder),
      (Seed.fields declared visitor).run decoder = visitor.run ⟨decoder, declared⟩ ∧
        (Seed.fields declared visitor).bytes decoder =
          deliveries decoder (visitor.trace ⟨decoder, declared⟩)) ∧
    (∀ (ceiling : UInt32) (visitor : Visitor) (decoder : Decoder),
      (∃ stopped after,
        (Reading.length ceiling () .done : Reading Unit UInt32).run decoder =
            (.error stopped, after) ∧
          (Seed.counted ceiling visitor).run decoder = (.error stopped.error, after)) ∨
      ∃ count after, count ≤ ceiling ∧
        decoder.transport.rest = wordImage count ++ after.transport.rest ∧
        (Seed.counted ceiling visitor).run decoder = visitor.run ⟨after, count.toNat⟩ ∧
        (Seed.counted ceiling visitor).bytes decoder =
          wordImage count ++ deliveries after (visitor.trace ⟨after, count.toNat⟩)) ∧
    ∀ (ceiling : UInt32) (resolve : Schema → Schema) (named : String → Reading Unit Datum),
      let seed := Schema.seed ceiling resolve named
      (∀ element told visit, seed (.seq element told visit) =
        .counted ceiling (.hint fun count =>
          .gather (.item (seed element))
            (fun all noted => .seq all (if visit.hints then some noted else none))
            (visit.take.getD (count + 1)) [] [])) ∧
      (∀ key value told visit, seed (.map key value told visit) =
        .counted ceiling (.hint fun count =>
          .gather (.entry (seed key) (seed value))
            (fun all noted => .map all (if visit.hints then some noted else none))
            (visit.take.getD (count + 1)) [] [])) ∧
      (∀ declared elements, seed (.tuple declared elements) =
        .fields declared (.each (elements.map seed) 0 [])) ∧
      (∀ declared fields, seed (.record declared fields) =
        .fields declared (.each (fields.map seed) 0 [])) ∧
      (∀ variants, seed (.enumeration variants) = .variants (variants.map seed)) ∧
      ∀ schema decoder datum after, (seed schema).run decoder = (.ok datum, after) →
        (Schema.readingWith ceiling resolve named schema).Accepts decoder.config.padding
          ((seed schema).bytes decoder) datum := by
  refine ⟨Visitor.handsOut, fun declared visitor decoder => ⟨rfl, ?_⟩, Seed.run_counted,
    fun ceiling resolve named => ⟨?_, ?_, ?_, ?_, ?_, ?_⟩⟩
  · exact Seed.bytes_fields declared visitor decoder
  · exact Schema.seed_seq ceiling resolve named
  · exact Schema.seed_map ceiling resolve named
  · exact Schema.seed_tuple ceiling resolve named
  · exact Schema.seed_record ceiling resolve named
  · exact Schema.seed_enumeration ceiling resolve named
  · exact fun _ _ _ _ => Schema.accepts_bytes ceiling resolve named

/-- A sequence of two items. The first is a sequence of its own, the second is no boolean, and the
visitor asks for a third. Numbers behind a count are read from the same bytes as the first item. -/
theorem items_handed_out_nested :
    let word : Seed := .ofReading (.word .uint32 () fun w => .done (.uint32 w))
    let flag : Seed := .ofReading (.bool () fun value => .done (.bool value))
    let inner : Seed :=
      .counted 9 (.item word fun answer => .finish (answer.map fun found => found.getD .unit))
    let visitor : Visitor :=
      .item inner fun _ => .hint fun _ => .item flag fun _ => .hint fun _ => .item flag fun _ =>
        .finish (.ok .unit)
    let start : Decoder :=
      { transport := { rest := [0, 0, 0, 1, 0, 0, 0, 7, 0, 0, 0, 5, 0, 0, 0, 1] } }
    let numbers : Schema := .seq .uint32 .actual {}
    let named : String → Reading Unit Datum := fun _ => Schema.unresolved
    visitor.HandsOut 2 start ∧
      (visitor.trace ⟨start, 2⟩).map (fun exchange => exchange.2.transport.rest.length) =
        [8, 8, 4, 4, 4] ∧
      deliveries start (visitor.trace ⟨start, 2⟩) = [0, 0, 0, 1, 0, 0, 0, 7, 0, 0, 0, 5] ∧
      ((numbers.seed 9 id named).run start).1 = .ok (.seq [.uint32 7] none) ∧
      (numbers.readingWith 9 id named).Accepts start.config.padding [0, 0, 0, 1, 0, 0, 0, 7]
        (.seq [.uint32 7] none) := by
  intro word flag inner visitor start numbers named
  have hrun : ((numbers.seed 9 id named).run start).1 = .ok (.seq [.uint32 7] none) := by
    decide +kernel
  have hbytes : (numbers.seed 9 id named).bytes start = [0, 0, 0, 1, 0, 0, 0, 7] := by
    decide +kernel
  refine ⟨items_handed_out.1 visitor 2 start, by decide +kernel, by decide +kernel, hrun, ?_⟩
  obtain ⟨-, -, -, -, -, haccepts⟩ := items_handed_out.2.2.2 9 id named
  rw [← hbytes]
  exact haccepts numbers start _ _ (Prod.ext hrun rfl)

end Xdr
