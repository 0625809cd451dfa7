import Xdr.Filter
import Xdr.Model.Schema

/-!
# Writing data

`Schema.encode` is the plan of a datum. Integers below 32 bits are widened, strings and byte strings
carry their length, sequences and maps their count, options and variants a word in front, and tuples
nothing. The ceiling of the settings bounds every length and count.
-/

namespace Xdr.Schema

/-- The error of anything but a byte array in the opaque wrapper. -/
def notOpaque : Error := .unsupported "fixed_opaque requires a byte array"

/-- The error of 128-bit integers, which have no encoding. -/
def wideUnsupported (name : String) : Error := .custom (name ++ " is not supported")

/-- A refusal outside the encoder, which takes no notice of it. -/
def raising (error : Error) : Plan := .refuse { error, guarded := false }

/-- The plan of data that are not of the schema they are said to have. -/
def mismatch : Plan := raising (.unsupported "data of another schema")

/-- The count in front of a sequence or map. It has to be known, and one over the ceiling is a fault
on any encoder. -/
def countPlan (ceiling : UInt32) : Option Nat → Plan
  | none => raising .lengthRequired
  | some count =>
      -- the ceiling belongs to the writer and is looked at before the encoder is
      if count ≤ ceiling.toNat then .one (.uint32 (UInt32.ofNat count))
      else .refuse {
        error := .lengthExceeded ceiling count
        fault := some .count
        guarded := false }

/-- The plan of what the opaque wrapper holds: a byte array without its length. -/
def wrappedPlan : Schema → Datum → Plan
  | bytes, .bytes data => .one (.fixedOpaque data)
  | int128, _ => raising (wideUnsupported "i128")
  | uint128, _ => raising (wideUnsupported "u128")
  | failing text, _ => raising (.custom text)
  | _, _ => raising notOpaque

/-- Plans of parts and the data for them, one by one. -/
def inTurn (plans : List (Datum → Plan)) (data : List Datum) : Plan :=
  if plans.length = data.length then
    .concat (List.zipWith (fun plan datum => plan datum) plans data)
  else mismatch

mutual
/-- The plan of a datum, given what references stand for and the plans of the named schemas. -/
def planWith (ceiling : UInt32) (resolve : Schema → Schema) (named : String → Datum → Plan) :
    Schema → Datum → Plan
  | bool, .bool value => .one (.bool value)
  | int8, .int8 value => .one (.int32 value.toInt32)
  | int16, .int16 value => .one (.int32 value.toInt32)
  | int32, .int32 value => .one (.int32 value)
  | int64, .int64 value => .one (.int64 value)
  | int128, _ => raising (wideUnsupported "i128")
  | uint8, .uint8 value => .one (.uint32 value.toUInt32)
  | uint16, .uint16 value => .one (.uint32 value.toUInt32)
  | uint32, .uint32 value => .one (.uint32 value)
  | uint64, .uint64 value => .one (.uint64 value)
  | uint128, _ => raising (wideUnsupported "u128")
  | float, .float bits => .one (.float bits)
  | double, .double bits => .one (.double bits)
  | char, .char value => .one (.uint32 value.val)
  | unit, _ => .empty
  | string, .string text => Filter.encodeSized .bytes .bytes ceiling (Text.bytes text)
  | bytes, .bytes data => Filter.encodeSized .bytes .bytes ceiling data
  | identifier, .uint32 value => .one (.uint32 value)
  | readable, _ => .one (.bool false)
  | failing text, _ => raising (.custom text)
  | option _, .absent => .one (.uint32 0)
  | option inner, .present datum =>
      .one (.uint32 1) ++ planWith ceiling resolve named inner datum
  | wrapper inner, datum => planWith ceiling resolve named inner datum
  | tuple _ elements, .tuple data => inTurn (plansWith ceiling resolve named elements) data
  | record _ fields, .tuple data => inTurn (plansWith ceiling resolve named fields) data
  | seq element told _, .seq data _ =>
      countPlan ceiling (told.count data.length) ++
        .concat (data.map fun datum => planWith ceiling resolve named element datum)
  | map key value told _, .map entries _ =>
      countPlan ceiling (told.count entries.length) ++
        .concat (entries.map fun entry =>
          planWith ceiling resolve named key entry.1 ++
            planWith ceiling resolve named value entry.2)
  | enumeration variants, .variant index told content =>
      match (plansWith ceiling resolve named variants)[index.toNat]? with
      | some plan => .one (.uint32 (told.getD index)) ++ plan content
      | none => mismatch
  | fixedOpaque _, .bytes data => .one (.fixedOpaque data)
  | opaqueWrapper inner, datum => wrappedPlan (resolve inner) datum
  | ref name, datum => named name datum
  | _, _ => mismatch

/-- The plans of several schemas. -/
def plansWith (ceiling : UInt32) (resolve : Schema → Schema) (named : String → Datum → Plan) :
    List Schema → List (Datum → Plan)
  | [] => []
  | schema :: schemas =>
      (fun datum => planWith ceiling resolve named schema datum) ::
        plansWith ceiling resolve named schemas
end

/-- The plan of a datum whose references are followed at most `depth` deep. -/
def plan (definitions : Definitions Schema) (ceiling : UInt32) (depth : Nat) :
    Schema → Datum → Plan :=
  planWith ceiling (resolve definitions)
    (definitions.meaning (planWith ceiling (resolve definitions)) (fun _ => mismatch) depth)

/-- The plan of a datum. Between two references to the same name lies a datum of its own. -/
def encode (definitions : Definitions Schema) (ceiling : UInt32) (schema : Schema)
    (datum : Datum) : Plan :=
  schema.plan definitions ceiling ((definitions.length + 1) * (datum.depth + 1)) datum

end Xdr.Schema
