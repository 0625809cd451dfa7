import Xdr.Model.Plan
import Xdr.Model.Reading
import Xdr.Stream.Filter

/-!
# Steps on a context

An encoder or decoder is used step by step: a typed value, a direct call, a datum of the data model,
or a fault raised by its owner. All steps run, whether or not earlier ones failed. A trace lists the
answer of each step with the context after it.
-/

namespace Xdr

/-- The named types of both layers. -/
structure Catalog where
  types : Definitions Ty := []
  schemas : Definitions Schema := []

/-- A direct call that writes one item. -/
inductive Put where
  | int32 (value : Int32)
  | uint32 (value : UInt32)
  | int64 (value : Int64)
  | uint64 (value : UInt64)
  | float (bits : UInt32)
  | double (bits : UInt64)
  | bool (value : Bool)
  | fixedOpaque (data : List UInt8)
  | bytes (data : List UInt8) (max : UInt32)
  | string (text : String) (max : UInt32)

/-- The plan of a direct call. -/
def Put.plan : Put → Plan
  | int32 value => Filter.int32.encode value
  | uint32 value => Filter.uint32.encode value
  | int64 value => Filter.int64.encode value
  | uint64 value => Filter.uint64.encode value
  | float bits => Filter.float.encode bits
  | double bits => Filter.double.encode bits
  | bool value => Filter.bool.encode value
  | fixedOpaque data => Filter.fixedOpaque.encode data
  | bytes data max => (Filter.bytes max).encode data
  | string text max => (Filter.string max).encode text

/-- A direct call that reads one item. -/
inductive Get where
  | int32
  | uint32
  | int64
  | uint64
  | float
  | double
  | bool
  | length (max : UInt32)
  | bytes (max : UInt32)
  | string (max : UInt32)
  /-- Data behind its own length, into a buffer. -/
  | bytesInto (max : UInt32) (buffer : List UInt8)
  /-- Opaque data of the length of a buffer, into that buffer. -/
  | fixedOpaque (buffer : List UInt8)

/-- The reading of a direct call. A buffer is kept whatever happens, any other value only comes from
success. After an error, the buffer of fixed opaque data is kept as it was handed in, without what a
read straight into it has left at its front (`Decoder.fillOpaque`). -/
def Get.reading : Get → Reading (Option Value) Value
  | int32 => .word .int32 none fun w => .done (.int32 w.toInt32)
  | uint32 => .word .uint32 none fun w => .done (.uint32 w)
  | int64 => .hyper .int64 none fun h => .done (.int64 h.toInt64)
  | uint64 => .hyper .uint64 none fun h => .done (.uint64 h)
  | float => .word .float none fun w => .done (.float w)
  | double => .hyper .double none fun h => .done (.double h)
  | bool => .bool none fun value => .done (.bool value)
  | length max => .length max none fun w => .done (.uint32 w)
  | bytes max => (Reading.sized .bytes max []).map (fun _ => none) .bytes
  | string max => (Reading.string max none).map id .string
  | bytesInto max buffer => (Reading.sized .bytes max buffer).map (some ∘ .bytes) .bytes
  | fixedOpaque buffer =>
      .fixedOpaque buffer.length (some (.bytes buffer)) fun data => .done (.bytes data)

/-- A step on an encoder. -/
inductive EncodeStep where
  | typed (type : Ty) (value : Value)
  | put (call : Put)
  | datum (schema : Schema) (datum : Datum)
  | fault (error : Error)

/-- Carry out a step on an encoder. -/
def EncodeStep.run (catalog : Catalog) (step : EncodeStep) (encoder : Encoder) :
    Except Error Unit × Encoder :=
  match step with
  | typed type value => (type.encode catalog.types value).run encoder
  | put call => call.plan.run encoder
  | datum schema content =>
      (schema.encode catalog.schemas encoder.config.maxLength content).run encoder
  | fault error => (.error error, encoder.fault .user error)

/-- The answers of the steps and the encoder after each. -/
def EncodeStep.trace (catalog : Catalog) :
    List EncodeStep → Encoder → List (Except Error Unit × Encoder)
  | [], _ => []
  | step :: steps, encoder =>
      let answer := step.run catalog encoder
      answer :: EncodeStep.trace catalog steps answer.2

/-- A step on a decoder. -/
inductive DecodeStep where
  /-- Read into a target, a new one if none is given. -/
  | typed (type : Ty) (target : Option Value)
  | get (call : Get)
  | datum (schema : Schema)
  | fault (error : Error)

/-- What a step hands to its caller. -/
inductive Shown where
  | value (value : Value)
  | datum (datum : Datum)
  deriving DecidableEq

/-- The answer of a step on a decoder. -/
structure DecodeAnswer where
  /-- The target, the buffer or the result, where there is one. -/
  shown : Option Shown := none
  error : Option Error := none
  deriving DecidableEq

/-- The answer of a reading that keeps and delivers values. -/
def DecodeAnswer.ofResult {κ α : Type} (keep : κ → Option Shown) (deliver : α → Shown) :
    Except (Stopped κ) α → DecodeAnswer
  | .ok value => { shown := some (deliver value) }
  | .error stopped => { shown := keep stopped.kept, error := some stopped.error }

/-- Carry out a step on a decoder. -/
def DecodeStep.run (catalog : Catalog) (step : DecodeStep) (decoder : Decoder) :
    DecodeAnswer × Decoder :=
  match step with
  | typed type target =>
      let before := target.getD (type.zero catalog.types)
      let (result, after) :=
        (type.decode catalog.types decoder.transport.rest.length before).run decoder
      (.ofResult (some ∘ .value) .value result, after)
  | get call =>
      let (result, after) := call.reading.run decoder
      (.ofResult (Option.map .value) .value result, after)
  | datum schema =>
      let (result, after) :=
        (schema.decode catalog.schemas decoder.config.maxLength
          decoder.transport.rest.length).run decoder
      (.ofResult (fun _ => none) .datum result, after)
  | fault error => ({ error := some error }, decoder.fault .user error)

/-- The answers of the steps and the decoder after each. -/
def DecodeStep.trace (catalog : Catalog) :
    List DecodeStep → Decoder → List (DecodeAnswer × Decoder)
  | [], _ => []
  | step :: steps, decoder =>
      let answer := step.run catalog decoder
      answer :: DecodeStep.trace catalog steps answer.2

end Xdr
