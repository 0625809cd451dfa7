import Xdr.Definitions

/-!
# The data model

`Schema` lists the shapes of the data that programs exchange: narrow integers, characters,
sequences, maps, tagged variants and wrappers, richer than the types of the wire. `Datum` lists
the data. Parts of a schema say how its user behaves: which length a writer announces, and how
many elements a reader asks for. Data are compared by `Datum.same`, as values of a stream are.
-/

namespace Xdr

/-- The length that a writer announces for a sequence or map. -/
inductive Told where
  /-- The number of elements that follow. -/
  | actual
  /-- None at all. -/
  | unknown
  /-- This number, whatever follows. -/
  | length (count : Nat)
  deriving DecidableEq, Repr

/-- The number that is announced in front of this many elements. -/
def Told.count (told : Told) (elements : Nat) : Option Nat :=
  match told with
  | actual => some elements
  | unknown => none
  | length count => some count

/-- How a reader asks for the elements of a sequence or map. -/
structure Visit where
  /-- The number of elements after which it stops asking. Without one it asks until the end. -/
  take : Option Nat := none
  /-- Whether it notes down the number of elements announced before each request. -/
  hints : Bool := false
  deriving DecidableEq, Repr

/-- The shapes of data. -/
inductive Schema where
  | bool
  | int8
  | int16
  | int32
  | int64
  | int128
  | uint8
  | uint16
  | uint32
  | uint64
  | uint128
  | float
  | double
  | char
  | unit
  | string
  | bytes
  /-- The name of a field or variant. -/
  | identifier
  /-- Whatever the data says it is. -/
  | any
  /-- Whatever the data says it is, to be skipped. -/
  | ignored
  /-- Whether the format is meant for people. -/
  | readable
  /-- Data whose user gives up with this text. -/
  | failing (text : String)
  | option (inner : Schema)
  /-- A value under a name of its own. -/
  | wrapper (inner : Schema)
  /-- The elements that are asked for, after the number of elements that are announced. -/
  | tuple (declared : Nat) (elements : List Schema)
  /-- A tuple with a name. -/
  | record (declared : Nat) (fields : List Schema)
  | seq (element : Schema) (told : Told) (visit : Visit)
  | map (key value : Schema) (told : Told) (visit : Visit)
  /-- One of several variants, each given by the schema of its content. -/
  | enumeration (variants : List Schema)
  /-- A byte array that is written as opaque data without a length. -/
  | fixedOpaque (length : Nat)
  /-- The wrapper that asks for opaque data without a length, around anything. -/
  | opaqueWrapper (inner : Schema)
  | ref (name : String)

/-- Data. -/
inductive Datum where
  | bool (value : Bool)
  | int8 (value : Int8)
  | int16 (value : Int16)
  | int32 (value : Int32)
  | int64 (value : Int64)
  | int128 (value : Int)
  | uint8 (value : UInt8)
  | uint16 (value : UInt16)
  | uint32 (value : UInt32)
  | uint64 (value : UInt64)
  | uint128 (value : Nat)
  | float (bits : UInt32)
  | double (bits : UInt64)
  | char (value : Char)
  | unit
  | string (text : String)
  | bytes (data : List UInt8)
  | absent
  | present (datum : Datum)
  | tuple (elements : List Datum)
  /-- Elements, with the numbers of elements announced before each request if they were noted. -/
  | seq (elements : List Datum) (hints : Option (List Nat))
  /-- Entries in order, keys may come twice. The notes are those of a sequence. -/
  | map (entries : List (Datum × Datum)) (hints : Option (List Nat))
  /-- The content of a variant. A writer may announce another index than that of the variant. -/
  | variant (index : UInt32) (told : Option UInt32) (content : Datum)
  deriving Repr

mutual
/-- Whether two data are built alike from the same content. -/
def Datum.same : Datum → Datum → Bool
  | .bool left, right => if let .bool right := right then left = right else false
  | .int8 left, right => if let .int8 right := right then left = right else false
  | .int16 left, right => if let .int16 right := right then left = right else false
  | .int32 left, right => if let .int32 right := right then left = right else false
  | .int64 left, right => if let .int64 right := right then left = right else false
  | .int128 left, right => if let .int128 right := right then left = right else false
  | .uint8 left, right => if let .uint8 right := right then left = right else false
  | .uint16 left, right => if let .uint16 right := right then left = right else false
  | .uint32 left, right => if let .uint32 right := right then left = right else false
  | .uint64 left, right => if let .uint64 right := right then left = right else false
  | .uint128 left, right => if let .uint128 right := right then left = right else false
  | .float left, right => if let .float right := right then left = right else false
  | .double left, right => if let .double right := right then left = right else false
  | .char left, right => if let .char right := right then left = right else false
  | .unit, right => if let .unit := right then true else false
  | .string left, right => if let .string right := right then left = right else false
  | .bytes left, right => if let .bytes right := right then left = right else false
  | .absent, right => if let .absent := right then true else false
  | .present left, right => if let .present right := right then left.same right else false
  | .tuple left, right => if let .tuple right := right then Datum.sames left right else false
  | .seq left hints, right =>
      if let .seq right others := right then hints = others && Datum.sames left right else false
  | .map left hints, right =>
      if let .map right others := right then hints = others && Datum.sameEntries left right
      else false
  | .variant index told left, right =>
      if let .variant other others right := right then
        index = other && told = others && left.same right
      else false

/-- Whether two lists have the same data in the same order. -/
def Datum.sames : List Datum → List Datum → Bool
  | [], rights => rights.isEmpty
  | _ :: _, [] => false
  | left :: lefts, right :: rights => left.same right && Datum.sames lefts rights

/-- Whether two lists have the same keys and values in the same order. -/
def Datum.sameEntries : List (Datum × Datum) → List (Datum × Datum) → Bool
  | [], rights => rights.isEmpty
  | _ :: _, [] => false
  | left :: lefts, right :: rights => Datum.sameEntry left right && Datum.sameEntries lefts rights

/-- Whether two keys and their values are the same. -/
def Datum.sameEntry : Datum × Datum → Datum × Datum → Bool
  | (key, value), right => key.same right.1 && value.same right.2
end

mutual
theorem Datum.same_iff (left right : Datum) : left.same right ↔ left = right := by
  cases left with
  | present datum => unfold Datum.same; split <;> grind [datum.same_iff]
  | tuple elements => unfold Datum.same; split <;> grind [Datum.sames_iff elements]
  | seq elements hints => unfold Datum.same; split <;> grind [Datum.sames_iff elements]
  | map entries hints => unfold Datum.same; split <;> grind [Datum.sameEntries_iff entries]
  | variant index told content => unfold Datum.same; split <;> grind [content.same_iff]
  | _ => unfold Datum.same; split <;> grind

theorem Datum.sames_iff (lefts rights : List Datum) :
    Datum.sames lefts rights ↔ lefts = rights := by
  cases lefts with
  | nil => cases rights <;> simp [Datum.sames]
  | cons left lefts => cases rights <;> simp [Datum.sames, left.same_iff, Datum.sames_iff lefts]

theorem Datum.sameEntries_iff (lefts rights : List (Datum × Datum)) :
    Datum.sameEntries lefts rights ↔ lefts = rights := by
  cases lefts with
  | nil => cases rights <;> simp [Datum.sameEntries]
  | cons left lefts =>
      cases rights <;>
        simp [Datum.sameEntries, Datum.sameEntry_iff left, Datum.sameEntries_iff lefts]

theorem Datum.sameEntry_iff (left right : Datum × Datum) :
    Datum.sameEntry left right ↔ left = right := by
  cases left with
  | mk key value => simp [Datum.sameEntry, key.same_iff, value.same_iff, Prod.ext_iff]
end

instance : DecidableEq Datum :=
  fun left right => decidable_of_iff _ (left.same_iff right)

mutual
/-- The number of data inside one another. -/
def Datum.depth : Datum → Nat
  | .present datum => datum.depth + 1
  | .tuple elements => Datum.depths elements + 1
  | .seq elements _ => Datum.depths elements + 1
  | .map entries _ => Datum.entryDepths entries + 1
  | .variant _ _ content => content.depth + 1
  | _ => 1

/-- The depth of the deepest datum. -/
def Datum.depths : List Datum → Nat
  | [] => 0
  | datum :: data => max datum.depth (Datum.depths data)

/-- The depth of the deepest key or value. -/
def Datum.entryDepths : List (Datum × Datum) → Nat
  | [] => 0
  | entry :: entries => max (Datum.entryDepth entry) (Datum.entryDepths entries)

/-- The depth of the deeper of a key and its value. -/
def Datum.entryDepth : Datum × Datum → Nat
  | (key, value) => max key.depth value.depth
end

/-- Follow references until a schema of its own is reached. -/
def Schema.resolveWithin (definitions : Definitions Schema) : Nat → Schema → Schema
  | steps + 1, .ref name =>
      match definitions.lookup name with
      | some body => body.resolveWithin definitions steps
      | none => .ref name
  | _, schema => schema

/-- What a schema stands for. A chain of references in which no name comes twice is no longer than
the definitions. -/
def Schema.resolve (definitions : Definitions Schema) (schema : Schema) : Schema :=
  schema.resolveWithin definitions definitions.length

end Xdr
