import Xdr.Filter
import Xdr.Stream.Ty

/-!
# The filter of a type

`Ty.filterWith` puts the filter of a type together from the filters of its parts. `Ty.encode` and
`Ty.decode` are the plan and the reading of a type whose references are looked up in a list of
definitions. References are followed as deep as the value or the bytes at hand can need: between two
references to the same name lies a value of its own, and a word of its own on the wire.
-/

namespace Xdr.Ty

universe u

/-- The filter of a reference that leads nowhere. -/
def unresolved : Filter Value where
  encode _ := .refuse { error := .unsupported "an unresolved reference" }
  decode target := .refuse { error := .unsupported "an unresolved reference" } target

/-- The entry of the first arm that lists the discriminant, else the fallback. -/
def selectArm {α : Type u} (arms : List (List Int32 × α)) (fallback : Option α)
    (discriminant : Int32) : Option α :=
  match arms.find? fun arm => discriminant ∈ arm.1 with
  | some arm => some arm.2
  | none => fallback

mutual
/-- The filter of a type, given the filters of the named types and the values that new targets start
from. -/
def filterWith (zero : Ty → Value) (named : String → Filter Value) : Ty → Filter Value
  | int32 => Filter.int32.within .int32 Value.int32?
  | uint32 => Filter.uint32.within .uint32 Value.uint32?
  | int64 => Filter.int64.within .int64 Value.int64?
  | uint64 => Filter.uint64.within .uint64 Value.uint64?
  | float => Filter.float.within .float Value.float?
  | double => Filter.double.within .double Value.double?
  | bool => Filter.bool.within .bool Value.bool?
  | void => Filter.void.within .ofVoid Value.void?
  | quadruple => Filter.quadruple.within .ofVoid Value.void?
  | openEnum => Filter.int32.within .int32 Value.int32?
  | enumeration members => (Filter.enumeration members).within .int32 Value.int32?
  | fixedOpaque _ => Filter.fixedOpaque.within .bytes Value.bytes?
  | bytes max => (Filter.bytes max).within .bytes Value.bytes?
  | string max => (Filter.string max).within .string Value.string?
  | fixedArray _ element =>
      (Filter.fixedArray (filterWith zero named element)).within .list Value.list?
  | varArray max element =>
      (Filter.varArray max (fun _ => zero element) (filterWith zero named element)).within
        .list Value.list?
  | optional inner =>
      (Filter.optional (fun _ => zero inner) (filterWith zero named inner)).within
        .ofOption Value.option?
  | struct parts => (Filter.struct (filtersWith zero named parts)).within .list Value.list?
  | union arms fallback =>
      (Filter.union
        (selectArm (armsWith zero named arms) (fallbackWith zero named fallback))).within
          .ofUnion Value.union?
  -- delayed, so that a definition is opened only where a value or the wire reaches it
  | ref name =>
      { encode := fun value => (named name).encode value
        decode := fun target => .later fun _ => (named name).decode target }

/-- The filters of the parts. -/
def filtersWith (zero : Ty → Value) (named : String → Filter Value) :
    List Ty → List (Filter Value)
  | [] => []
  | part :: parts => filterWith zero named part :: filtersWith zero named parts

/-- The arms with their zero values and filters. -/
def armsWith (zero : Ty → Value) (named : String → Filter Value) :
    List (List Int32 × Ty) → List (List Int32 × (Unit → Value) × Filter Value)
  | [] => []
  | arm :: arms => armWith zero named arm :: armsWith zero named arms

/-- An arm with its zero value and filter. -/
def armWith (zero : Ty → Value) (named : String → Filter Value) :
    List Int32 × Ty → List Int32 × (Unit → Value) × Filter Value
  | (cases, selected) => (cases, fun _ => zero selected, filterWith zero named selected)

/-- The fallback with its zero value and filter. -/
def fallbackWith (zero : Ty → Value) (named : String → Filter Value) :
    Option Ty → Option ((Unit → Value) × Filter Value)
  | none => none
  | some selected => some (fun _ => zero selected, filterWith zero named selected)
end

/-- The filter of a type whose references are followed at most `depth` deep. -/
def filter (definitions : Definitions Ty) (depth : Nat) : Ty → Filter Value :=
  filterWith (zero definitions)
    (definitions.meaning (filterWith (zero definitions)) unresolved depth)

/-- The plan of a value. -/
def encode (definitions : Definitions Ty) (type : Ty) (value : Value) : Plan :=
  (type.filter definitions ((definitions.length + 1) * (value.depth + 1))).encode value

/-- The reading that replaces a target from a source with this many bytes left. -/
def decode (definitions : Definitions Ty) (type : Ty) (left : Nat) (target : Value) :
    Reading Value Value :=
  (type.filter definitions ((definitions.length + 1) * (left / 4 + 2))).decode target

end Xdr.Ty
