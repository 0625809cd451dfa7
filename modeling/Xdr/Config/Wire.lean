import Xdr.Config
import Xdr.Message

/-!
# Settings on the wire

Settings travel as a record of the padding policy, as a variant without content, and the ceiling.
-/

namespace Xdr.Config

/-- The shape of settings in the data model. -/
def schema : Schema := .record 2 [.enumeration [.unit, .unit], .uint32]

/-- Settings as data. -/
def toDatum (config : Config) : Datum :=
  let index : UInt32 := match config.padding with
    | .strict => 0
    | .lenient => 1
  .tuple [.variant index none .unit, .uint32 config.maxLength]

/-- The settings that data stand for. -/
def ofDatum? : Datum → Option Config
  | .tuple [.variant 0 _ .unit, .uint32 maxLength] => some { padding := .strict, maxLength }
  | .tuple [.variant 1 _ .unit, .uint32 maxLength] => some { padding := .lenient, maxLength }
  | _ => none

/-- The bytes of settings. -/
def toBytes (config : Config) : Except Error (List UInt8) :=
  schema.toBytes config.toDatum

/-- The settings at the front of a byte string. Data that are no settings cannot come from a reading
of their schema. -/
def ofBytes (data : List UInt8) : Except Error Config := do
  match ofDatum? (← schema.fromBytes data) with
  | some config => pure config
  | none => throw (.custom "settings expected")

end Xdr.Config
