import Xdr.Model.Elements
import Xdr.Model.Plan
import Xdr.Reading.Items

/-!
# Reading data

`Schema.decode` is the reading of a datum. It asks for the same words that `Schema.encode` writes
and refuses a word that does not fit the narrower type it stands for. The format does not describe
itself, so data of an unknown schema cannot be read.
-/

namespace Xdr.Schema

/-- A word read as a signed integer of less than 32 bits. -/
def narrowSigned (operation : Operation) (bound : Nat) (make : Int → Datum) :
    Reading Unit Datum :=
  .word .int32 () fun w =>
    let value := w.toInt32.toInt
    if -bound ≤ value ∧ value < bound then .done (make value)
    else .fault operation (.outOfRange operation.name value) ()

/-- A word read as an unsigned integer of less than 32 bits. -/
def narrowUnsigned (operation : Operation) (bound : Nat) (make : Nat → Datum) :
    Reading Unit Datum :=
  .word .uint32 () fun w =>
    let value := w.toNat
    if value < bound then .done (make value)
    else .fault operation (.outOfRange operation.name value) ()

/-- A word read as a character. -/
def character : Reading Unit Datum :=
  .word .uint32 () fun w =>
    if h : w.isValidChar then .done (.char ⟨w, h⟩) else .fault .char .invalidString ()

/-- What a reader makes of a byte that is handed out as an element of opaque data. -/
def ofByte (schema : Schema) (byte : UInt8) : Except Error Datum :=
  match schema with
  | readable => .ok (.bool true)
  | failing text => .error (.custom text)
  | fixedOpaque length =>
      .error (.custom
        s!"invalid type: integer `{byte}`, expected fixed-length opaque ({length} bytes)")
  | _ => .ok (.uint8 byte)

/-- Hand out the bytes of opaque data as elements. -/
def ofBytes : List Schema → (index : Nat) → List UInt8 → Except Error (List Datum)
  | [], _, _ => .ok []
  | _ :: _, index, [] => .error (Elements.missing index)
  | schema :: schemas, index, byte :: others => do
      let first ← schema.ofByte byte
      let rest ← ofBytes schemas (index + 1) others
      pure (first :: rest)

/-- The reading of what the opaque wrapper holds: a tuple of bytes without a length. -/
def wrappedReading (resolve : Schema → Schema) : Schema → Reading Unit Datum
  | tuple declared elements =>
      -- all announced bytes are read, also those that nobody asks for
      .fixedOpaque declared () fun handed =>
        match ofBytes (elements.map resolve) 0 handed with
        | .ok data => .done (.tuple data)
        | .error error => .raise error ()
  | readable => .done (.bool true)
  | failing text => .raise (.custom text) ()
  | _ => .raise notOpaque ()

/-- Read a count within the ceiling, then the elements that the reader asks for. -/
def visiting {α : Type} (ceiling : UInt32) (visit : Visit) (element : Reading Unit α)
    (make : List α → Option (List Nat) → Datum) : Reading Unit Datum :=
  .length ceiling () fun count =>
    -- a reader that asks until the end makes one request more than there are elements
    (Elements.visit element (visit.take.getD (count.toNat + 1)) count.toNat [] []).map id
      fun (values, hints) => make values (if visit.hints then some hints else none)

mutual
/-- The reading of a datum, given what references stand for and the readings of the named
schemas. -/
def readingWith (ceiling : UInt32) (resolve : Schema → Schema)
    (named : String → Reading Unit Datum) : Schema → Reading Unit Datum
  | bool => .bool () fun value => .done (.bool value)
  | int8 => narrowSigned .int8 128 fun value => .int8 (Int8.ofInt value)
  | int16 => narrowSigned .int16 32768 fun value => .int16 (Int16.ofInt value)
  | int32 => .word .int32 () fun w => .done (.int32 w.toInt32)
  | int64 => .hyper .int64 () fun h => .done (.int64 h.toInt64)
  | int128 => .raise (wideUnsupported "i128") ()
  | uint8 => narrowUnsigned .uint8 256 fun value => .uint8 (UInt8.ofNat value)
  | uint16 => narrowUnsigned .uint16 65536 fun value => .uint16 (UInt16.ofNat value)
  | uint32 => .word .uint32 () fun w => .done (.uint32 w)
  | uint64 => .hyper .uint64 () fun h => .done (.uint64 h)
  | uint128 => .raise (wideUnsupported "u128") ()
  | float => .word .float () fun w => .done (.float w)
  | double => .hyper .double () fun h => .done (.double h)
  | char => character
  | unit => .done .unit
  | string => (Reading.string ceiling ()).map id .string
  | bytes => (Reading.sized .bytes ceiling []).map (fun _ => ()) .bytes
  | identifier => .word .uint32 () fun w => .done (.uint32 w)
  | any => .raise (.unsupported "deserialize_any (XDR is not self-describing)") ()
  | ignored => .raise (.unsupported "deserialize_ignored_any (XDR is not self-describing)") ()
  | readable => .done (.bool false)
  | failing text => .raise (.custom text) ()
  | option inner => .word .uint32 () fun present =>
      if present = 0 then .done .absent
      else if present = 1 then (readingWith ceiling resolve named inner).map id .present
      else .fault .optional (.invalidOption present) ()
  | wrapper inner => readingWith ceiling resolve named inner
  | tuple declared elements =>
      (Elements.each (readingsWith ceiling resolve named elements) 0 declared []).map id .tuple
  | record declared fields =>
      (Elements.each (readingsWith ceiling resolve named fields) 0 declared []).map id .tuple
  | seq element _ visit =>
      visiting ceiling visit (readingWith ceiling resolve named element) .seq
  | map key value _ visit =>
      visiting ceiling visit
        ((readingWith ceiling resolve named key).andThen id fun k =>
          (readingWith ceiling resolve named value).map id fun v => (k, v))
        .map
  | enumeration variants => .word .uint32 () fun index =>
      match (readingsWith ceiling resolve named variants)[index.toNat]? with
      | some content => content.map id (.variant index none)
      | none => .fault .enumeration (.invalidDiscriminant index.toNat) ()
  | fixedOpaque length => .fixedOpaque length () fun data => .done (.bytes data)
  | opaqueWrapper inner => wrappedReading resolve (resolve inner)
  | ref name => .later fun _ => named name

/-- The readings of several schemas. -/
def readingsWith (ceiling : UInt32) (resolve : Schema → Schema)
    (named : String → Reading Unit Datum) : List Schema → List (Reading Unit Datum)
  | [] => []
  | schema :: schemas =>
      readingWith ceiling resolve named schema :: readingsWith ceiling resolve named schemas
end

/-- The reading of a reference that leads nowhere. -/
def unresolved : Reading Unit Datum := .raise (.unsupported "an unresolved reference") ()

/-- The reading of a datum whose references are followed at most `depth` deep. -/
def reading (definitions : Definitions Schema) (ceiling : UInt32) (depth : Nat) :
    Schema → Reading Unit Datum :=
  readingWith ceiling (resolve definitions)
    (definitions.meaning (readingWith ceiling (resolve definitions)) unresolved depth)

/-- The reading of a datum from a source with this many bytes left. Between two references to the
same name lies a word on the wire. -/
def decode (definitions : Definitions Schema) (ceiling : UInt32) (schema : Schema) (left : Nat) :
    Reading Unit Datum :=
  schema.reading definitions ceiling ((definitions.length + 1) * (left / 4 + 2))

end Xdr.Schema
