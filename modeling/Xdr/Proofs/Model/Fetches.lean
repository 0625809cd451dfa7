import Xdr.Proofs.Fetches
import Xdr.Proofs.Model.Budget

/-!
# What is read at once for data

`Schema.Fetches` says what decoding a datum fetches from which bytes, as `Ty.Fetches` does for typed
values: in front of a sequence or map its count, and then no more elements than the reader asks for.
The statement to read first is `fetches_decode`.
-/

namespace Xdr

/-- The number of elements that a reader comes to where so many are announced. -/
def Visit.reached (visit : Visit) (announced : Nat) : Nat :=
  match visit.take with
  | none => announced
  | some limit => min limit announced

/-- A reader comes to as many elements as it makes requests, if there are so many. -/
theorem Visit.min_requests (visit : Visit) (announced : Nat) :
    min (visit.take.getD (announced + 1)) announced = visit.reached announced := by
  unfold reached
  cases visit.take with
  | none => exact Nat.min_eq_right (Nat.le_succ _)
  | some limit => rfl

namespace Schema

open Fetching Reading

/-- The error of a word that stands for a signed integer of less than 32 bits. -/
def checkSigned (name : String) (bound : Nat) (w : UInt32) : Option Error :=
  if -bound ≤ w.toInt32.toInt ∧ w.toInt32.toInt < bound then none
  else some (.outOfRange name w.toInt32.toInt)

/-- The error of a word that stands for an unsigned integer of less than 32 bits. -/
def checkUnsigned (name : String) (bound : Nat) (w : UInt32) : Option Error :=
  if w.toNat < bound then none else some (.outOfRange name w.toNat)

/-- The error of a word that stands for a character. -/
def checkChar (w : UInt32) : Option Error :=
  if w.isValidChar then none else some .invalidString

/-- The error of opaque data that are handed out byte by byte. -/
def checkHanded (schemas : List Schema) (data : List UInt8) : Option Error :=
  match ofBytes schemas 0 data with
  | .ok _ => none
  | .error error => some error

/-- The error of elements that are asked for and not announced. -/
def missingFrom (declared elements : Nat) : Option Error :=
  if declared < elements then some (Elements.missing declared) else none

/-- How what the opaque wrapper holds opens. -/
def wrappedOpening (resolve : Schema → Schema) : Schema → Opening Schema
  | tuple declared elements =>
      .leaf (.fixedOpaque declared (checkHanded (elements.map resolve)))
  | readable => .row [] none
  | failing text => .row [] (some (.custom text))
  | _ => .row [] (some notOpaque)

/-- How schemas open. -/
def opening (definitions : Definitions Schema) (ceiling : UInt32) :
    Schema → Option (Opening Schema)
  | bool => some (.leaf (.word checkBool))
  | int8 => some (.leaf (.word (checkSigned "i8" 128)))
  | int16 => some (.leaf (.word (checkSigned "i16" 32768)))
  | uint8 => some (.leaf (.word (checkUnsigned "u8" 256)))
  | uint16 => some (.leaf (.word (checkUnsigned "u16" 65536)))
  | int32 | uint32 | float | identifier => some (.leaf (.word fun _ => none))
  | int64 | uint64 | double => some (.leaf .hyper)
  | char => some (.leaf (.word checkChar))
  | string => some (.leaf (.sized ceiling checkText))
  | bytes => some (.leaf (.sized ceiling fun _ => none))
  | fixedOpaque length => some (.leaf (.fixedOpaque length fun _ => none))
  | opaqueWrapper inner =>
      some (wrappedOpening (resolve definitions) (inner.resolve definitions))
  | unit | readable => some (.row [] none)
  | int128 => some (.row [] (some (wideUnsupported "i128")))
  | uint128 => some (.row [] (some (wideUnsupported "u128")))
  | any => some (.row []
      (some (.unsupported "deserialize_any (XDR is not self-describing)")))
  | ignored => some (.row []
      (some (.unsupported "deserialize_ignored_any (XDR is not self-describing)")))
  | failing text => some (.row [] (some (.custom text)))
  | wrapper inner => some (.row [inner] none)
  | tuple declared elements =>
      some (.row (elements.take declared) (missingFrom declared elements.length))
  | record declared fields =>
      some (.row (fields.take declared) (missingFrom declared fields.length))
  | option inner => some (.word fun w =>
      if w = 0 then .ok [] else if w = 1 then .ok [inner] else .error (.invalidOption w))
  | seq element _ visit => some (.word fun count =>
      if count ≤ ceiling then .ok (List.replicate (visit.reached count.toNat) element)
      else .error (.lengthExceeded ceiling count.toNat))
  | map key value _ visit => some (.word fun count =>
      if count ≤ ceiling then .ok (entryKinds key value (visit.reached count.toNat))
      else .error (.lengthExceeded ceiling count.toNat))
  | enumeration variants => some (.word fun index =>
      match variants[index.toNat]? with
      | some selected => .ok [selected]
      | none => .error (.invalidDiscriminant index.toNat))
  | ref name => (definitions.lookup name).map fun body => .row [body] none

/-- What is fetched for a schema. -/
abbrev Fetches (definitions : Definitions Schema) (ceiling : UInt32) (policy : PaddingPolicy) :
    Schema → Fetching :=
  Opening.Fetches (opening definitions ceiling) policy

variable {definitions : Definitions Schema} {ceiling : UInt32} {policy : PaddingPolicy} {left : Nat}
  {schema : Schema}

/-! ### Leaves -/

theorem fetches_narrowSigned (operation : Operation) (bound : Nat) (make : Int → Datum) :
    (narrowSigned operation bound make).Fetches policy left
      (Scalar.Fetches policy (.word (checkSigned operation.name bound))) := by
  refine fetches_checked fun w => ?_
  unfold checkSigned
  dsimp only
  split
  · exact fetches_done _
  · exact fetches_refuse _ ()

theorem fetches_narrowUnsigned (operation : Operation) (bound : Nat) (make : Nat → Datum) :
    (narrowUnsigned operation bound make).Fetches policy left
      (Scalar.Fetches policy (.word (checkUnsigned operation.name bound))) := by
  refine fetches_checked fun w => ?_
  unfold checkUnsigned
  dsimp only
  split
  · exact fetches_done _
  · exact fetches_refuse _ ()

theorem fetches_character :
    character.Fetches policy left (Scalar.Fetches policy (.word checkChar)) := by
  refine fetches_checked fun w => ?_
  unfold checkChar
  split
  · exact fetches_done _
  · exact fetches_refuse _ ()

/-- What the opaque wrapper holds is fetched as it opens. -/
theorem fetches_wrappedReading {inner : Schema} :
    (wrappedReading (resolve definitions) (inner.resolve definitions)).Fetches policy left
      (Fetches definitions ceiling policy (opaqueWrapper inner)) := by
  have hopen : (opaqueWrapper inner).opening definitions ceiling =
    some (wrappedOpening (resolve definitions) (inner.resolve definitions)) := rfl
  cases hinner : inner.resolve definitions with
  | tuple declared elements =>
      rw [hinner] at hopen
      rw [wrappedReading]
      refine Opening.fetches_leaf hopen (fetches_fixedOpaque fun data => ?_)
      rw [checkHanded]
      cases ofBytes (elements.map (resolve definitions)) 0 data with
      | ok handed => exact fetches_done _
      | error error => exact fetches_refuse _ ()
  | readable =>
      rw [hinner] at hopen
      exact Opening.fetches_nothing hopen (fetches_done _)
  | _ =>
      rw [hinner] at hopen
      exact Opening.fetches_nothing hopen (fetches_refuse _ ())

/-! ### Parts -/

/-- Elements are fetched in a row behind their count. -/
theorem fetches_visiting {α : Type} {visit : Visit} {element : Reading Unit α}
    {make : List α → Option (List Nat) → Datum} {kinds : List Schema}
    (hopen : schema.opening definitions ceiling = some (.word fun count =>
      if count ≤ ceiling then .ok (List.replicate (visit.reached count.toNat) kinds).flatten
      else .error (.lengthExceeded ceiling count.toNat)))
    (h : element.Fetches policy left (Row (Fetches definitions ceiling policy) kinds)) :
    (visiting ceiling visit element make).Fetches policy left
      (Fetches definitions ceiling policy schema) := by
  rw [visiting, Reading.length]
  refine Opening.fetches_word hopen fun count => ?_
  by_cases hcount : count ≤ ceiling
  · simp only [if_pos hcount]
    rw [← visit.min_requests]
    exact (Elements.fetches_visit h _ _ [] []).map _ _
  · simp only [if_neg hcount]
    exact fetches_refuse _ ()

/-- Elements that are all needed are fetched in a row. -/
theorem fetches_elements {read : Schema → Reading Unit Datum} {elements : List Schema}
    {declared : Nat} {make : List Datum → Datum}
    (hopen : schema.opening definitions ceiling =
      some (.row (elements.take declared) (missingFrom declared elements.length)))
    (h : ∀ element ∈ elements,
      (read element).Fetches policy left (Fetches definitions ceiling policy element)) :
    ((Elements.each (elements.map read) 0 declared []).map id make).Fetches policy left
      (Fetches definitions ceiling policy schema) := by
  have heach := Elements.fetches_each (List.forall₂_map_right_iff.mpr (List.forall₂_same.mpr h)) 0
    declared []
  refine (heach.map id make).mono ?_
  rintro wire _ ⟨found, hfound, rfl⟩
  rw [Nat.zero_add]
  exact .row hopen hfound

/-- A schema fetches what it is said to if the names that it refers to do. -/
theorem fetches_readingWith {named : String → Reading Unit Datum}
    (hnamed : ∀ name, (named name).Fetches policy left
      (Fetches definitions ceiling policy (ref name))) :
    (readingWith ceiling (resolve definitions) named schema).Fetches policy left
      (Fetches definitions ceiling policy schema) := by
  induction schema with
  | bool => exact Opening.fetches_leaf rfl fetches_bool
  | int8 | int16 => exact Opening.fetches_leaf rfl (fetches_narrowSigned _ _ _)
  | uint8 | uint16 => exact Opening.fetches_leaf rfl (fetches_narrowUnsigned _ _ _)
  | int32 | uint32 | float | identifier =>
      exact Opening.fetches_leaf rfl (fetches_checked fun w => fetches_done _)
  | int64 | uint64 | double => exact Opening.fetches_leaf rfl fetches_hyper
  | char => exact Opening.fetches_leaf rfl fetches_character
  | string => exact Opening.fetches_leaf rfl (fetches_string.map _ _)
  | bytes => exact Opening.fetches_leaf rfl (fetches_sized.map _ _)
  | fixedOpaque length =>
      exact Opening.fetches_leaf rfl (fetches_fixedOpaque fun data => fetches_done _)
  | opaqueWrapper inner => exact fetches_wrappedReading
  | unit | readable => exact Opening.fetches_nothing rfl (fetches_done _)
  | int128 | uint128 | any | ignored | failing =>
      exact Opening.fetches_nothing rfl (fetches_refuse _ ())
  | option inner ih =>
      rw [readingWith]
      refine Opening.fetches_word rfl fun present => ?_
      by_cases hzero : present = 0
      · simp only [if_pos hzero]
        exact fetches_emptyRow _
      · by_cases hone : present = 1
        · simp only [if_neg hzero, if_pos hone]
          exact (ih.map _ _).mono Row.singleton
        · simp only [if_neg hzero, if_neg hone]
          exact fetches_refuse _ ()
  | wrapper inner ih => exact Opening.fetches_row rfl (ih.mono Row.singleton)
  | tuple declared elements ih =>
      rw [readingWith, readingsWith_eq_map]
      exact fetches_elements rfl ih
  | record declared fields ih =>
      rw [readingWith, readingsWith_eq_map]
      exact fetches_elements rfl ih
  | seq element told visit ih =>
      refine fetches_visiting ?_ (ih.mono Row.singleton)
      simp only [opening, List.flatten_replicate_singleton]
  | map key value told visit ihKey ihValue =>
      refine fetches_visiting rfl (Reading.Fetches.mono ?_ Row.of_then)
      exact fetches_andThen ihKey fun k => (ihValue.map _ _).mono Row.singleton
  | enumeration variants ih =>
      rw [readingWith, readingsWith_eq_map]
      refine Opening.fetches_word rfl fun index => ?_
      rw [List.getElem?_map]
      cases hvariant : variants[index.toNat]? with
      | none => exact fetches_refuse _ ()
      | some selected =>
          exact ((ih selected (List.mem_of_getElem? hvariant)).map _ _).mono Row.singleton
  | ref name => exact (hnamed name).later

/-- So does a schema where asking for too many bytes stands for what lies too deep. -/
theorem fetches_readingBeyond (depth : Nat) {beyond : Reading Unit Datum}
    (hbeyond : beyond.Fetches policy left fun _ _ => False) :
    (readingBeyond definitions ceiling beyond depth schema).Fetches policy left
      (Fetches definitions ceiling policy schema) := by
  refine fetches_readingWith fun name => ?_
  induction depth generalizing name with
  | zero => exact hbeyond.mono False.elim
  | succ depth ih =>
      cases hbody : definitions.lookup name with
      | none =>
          rw [Definitions.meaning_of_none hbody]
          exact hbeyond.mono False.elim
      | some body =>
          rw [Definitions.meaning_succ _ _ _ _ hbody]
          refine Opening.fetches_row (by rw [opening, hbody, Option.map_some]) ?_
          exact (fetches_readingWith ih).mono Row.singleton

/-- What a well-formed schema fetches when a datum is decoded on a decoder that is not poisoned,
where its calls are satisfied in full. -/
theorem fetches_decode {decoder after : Decoder} {result : Except (Stopped Unit) Datum}
    (hformed : WellFormed definitions schema) (husable : decoder.poisoned = false)
    (hrun : (schema.decode definitions ceiling decoder.transport.rest.length).run decoder =
      (result, after))
    (hfull : decoder.transport.account.InFull after.transport.account) :
    ∃ fetches, schema.Fetches definitions ceiling decoder.config.padding decoder.transport.rest
        ⟨fetches, errorOf result, after.transport.rest⟩ ∧
      after.transport.requests.toList =
        decoder.transport.requests.toList ++ fetches.flatMap Fetch.calls := by
  -- what is asked for below the last level is never reached, so it may be too much
  let beyond : Reading Unit Datum := asking (decoder.transport.rest.length + 1) () .unit
  have hagrees : (schema.decode definitions ceiling _).run decoder =
      (readingBeyond definitions ceiling beyond _ schema).run decoder :=
    decode_beyond hformed beyond (Nat.le_refl _) decoder (Nat.le_refl _)
  exact (fetches_readingBeyond _ fetches_asking).of_run husable (hagrees.symm.trans hrun) hfull

end Schema

end Xdr
