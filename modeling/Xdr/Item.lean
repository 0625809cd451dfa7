import Xdr.Context
import Xdr.Padding
import Xdr.Transport.Sink
import Xdr.Word

/-!
# Items

An `Item` is a part of the wire that is written as a whole: a number, a count, a discriminant, or
opaque data with its length and padding. `Item.emit` offers the complete image of an item to the
sink at once.
-/

namespace Xdr

/-- A context that writes. -/
abbrev Encoder := Context Transport.Sink

/-- An image with the operation that stands for it in the log, and an event to log before it is
written. -/
structure Item where
  operation : Operation
  image : List UInt8
  event : Option Event := none

namespace Item

/-- A signed integer, in two's complement. -/
def int32 (value : Int32) : Item :=
  { operation := .int32, image := wordImage value.toUInt32 }

/-- An unsigned integer. -/
def uint32 (value : UInt32) : Item :=
  { operation := .uint32, image := wordImage value }

/-- A signed hyper, in two's complement. -/
def int64 (value : Int64) : Item :=
  { operation := .int64, image := hyperImage value.toUInt64 }

/-- An unsigned hyper. -/
def uint64 (value : UInt64) : Item :=
  { operation := .uint64, image := hyperImage value }

/-- A single-precision number, given by its bit pattern. -/
def float (bits : UInt32) : Item :=
  { operation := .float, image := wordImage bits }

/-- A double-precision number, given by its bit pattern. -/
def double (bits : UInt64) : Item :=
  { operation := .double, image := hyperImage bits }

/-- A boolean, as the word 0 or 1. -/
def bool (value : Bool) : Item :=
  uint32 (if value then 1 else 0)

/-- Opaque data of a length that both sides know. -/
def fixedOpaque (data : List UInt8) : Item :=
  { operation := .fixedOpaque, image := padded data }

/-- Data behind its own length. -/
def sized (kind : SizedKind) (data : List UInt8) : Item :=
  { operation := match kind with
      | .bytes => .bytes
      | .string => .string
    image := wordImage (UInt32.ofNat data.length) ++ padded data
    event := some (.sized kind data.length (padLength data.length)) }

/-- Write an item. A poisoned encoder refuses, and a sink that does not take the whole image is a
fault. The image may be put together in a buffer that the encoder keeps for the next item. As that
buffer is cleared before each image, no byte on the wire depends on what it held, and the context
has no part for it. -/
def emit (item : Item) (encoder : Encoder) : Except Error Unit × Encoder :=
  if encoder.poisoned then (.error .poisoned, encoder)
  else
    -- the event tells that the length was accepted, whatever becomes of the write
    let noted := item.event.elim encoder encoder.record
    match noted.useTransport fun sink => sink.writeAll item.image with
    | (.ok (), written) => (.ok (), written)
    | (.error failure, written) =>
        (.error (.ofWrite failure), written.fault item.operation (.ofWrite failure))

end Item

end Xdr
