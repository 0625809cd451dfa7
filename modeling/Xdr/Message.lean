import Xdr.Model.Plan
import Xdr.Model.Reading

/-!
# Whole messages

One datum as a byte string or on a transport of its own, written by a new encoder or read by a new
decoder.
-/

namespace Xdr.Schema

/-- The bytes of a datum. -/
def toBytes (schema : Schema) (datum : Datum) (config : Config := {})
    (definitions : Definitions Schema := []) : Except Error (List UInt8) :=
  let encoder : Encoder := { transport := {}, config }
  match (schema.encode definitions config.maxLength datum).run encoder with
  | (.ok (), written) => .ok written.transport.taken.toList
  | (.error error, _) => .error error

/-- Write a datum to a sink. -/
def toSink (schema : Schema) (datum : Datum) (sink : Transport.Sink)
    (definitions : Definitions Schema := []) : Except Error Unit × Transport.Sink :=
  let encoder : Encoder := { transport := sink }
  let (result, written) :=
    (schema.encode definitions encoder.config.maxLength datum).run encoder
  (result, written.transport)

/-- Read a datum from a source. -/
def fromSource (schema : Schema) (source : Transport.Source) (config : Config := {})
    (definitions : Definitions Schema := []) : Except Error Datum × Transport.Source :=
  let decoder : Decoder := { transport := source, config }
  match (schema.decode definitions config.maxLength source.rest.length).run decoder with
  | (.ok datum, after) => (.ok datum, after.transport)
  | (.error stopped, after) => (.error stopped.error, after.transport)

/-- Read a datum from the front of a byte string. The bytes behind it are left aside. -/
def fromBytes (schema : Schema) (data : List UInt8) (config : Config := {})
    (definitions : Definitions Schema := []) : Except Error Datum :=
  (schema.fromSource { rest := data } config definitions).1

/-- Read a datum from the front of a byte string, and return the bytes behind it. -/
def fromBytesPartial (schema : Schema) (data : List UInt8)
    (definitions : Definitions Schema := []) : Except Error (Datum × List UInt8) :=
  match schema.fromSource { rest := data } {} definitions with
  | (.ok datum, after) => .ok (datum, after.rest)
  | (.error error, _) => .error error

end Xdr.Schema
