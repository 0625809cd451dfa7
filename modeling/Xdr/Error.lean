import Xdr.Transport.Failure

/-!
# Errors of encoding and decoding

`Error` lists the causes, `Error.message` gives each its wording. `Error.ofRead` and `Error.ofWrite`
classify a transport failure: the end of a source and a full sink are causes of their own, every
other failure is passed on.
-/

namespace Xdr

/-- Why an operation was not carried out. -/
inductive Error where
  /-- The source ended inside an item. -/
  | shortRead
  /-- The sink stopped taking bytes inside an item. -/
  | shortWrite
  /-- A length or count is over its maximum. -/
  | lengthExceeded (max : UInt32) (got : Nat)
  /-- There is no room for an item of this many bytes. -/
  | allocationFailure (size : Nat)
  /-- A padding byte is not zero. -/
  | invalidPadding
  /-- The bytes are not UTF-8, or the word is not a character. -/
  | invalidString
  /-- A boolean word is neither 0 nor 1. -/
  | invalidBool (word : UInt32)
  /-- The word in front of optional data is neither 0 nor 1. -/
  | invalidOption (word : UInt32)
  /-- No arm or variant answers to the discriminant. -/
  | invalidDiscriminant (value : Int)
  /-- The value is not a member of the enumeration. -/
  | invalidEnum (value : Int32)
  /-- The value does not fit the integer type of this name. -/
  | outOfRange (type : String) (value : Int)
  /-- A count has to be written before its elements, and it is not known. -/
  | lengthRequired
  /-- There is no encoding for this. -/
  | unsupported (what : String)
  /-- The context faulted earlier. -/
  | poisoned
  /-- The transport failed. -/
  | transport (failure : Transport.Failure)
  /-- A cause outside the codec, in its own words. -/
  | custom (text : String)
  deriving DecidableEq, Repr

namespace Error

/-- The wording of each cause. -/
def message : Error → String
  | shortRead => "short read: source ended before the item was complete"
  | shortWrite => "short write: sink did not accept the full item"
  | lengthExceeded max got => s!"length {got} exceeds maximum {max}"
  | allocationFailure size => s!"failed to allocate {size} bytes for decoded item"
  | invalidPadding => "non-zero padding bytes"
  | invalidString => "string contains invalid bytes"
  | invalidBool word => s!"invalid boolean encoding: {word} (must be 0 or 1)"
  | invalidOption word => s!"invalid optional discriminant: {word} (must be 0 or 1)"
  | invalidDiscriminant value => s!"invalid discriminant value: {value}"
  | invalidEnum value => s!"{value.toInt} is not a permitted value for the enumeration"
  | outOfRange type value => s!"value {value} out of range for {type}"
  | lengthRequired =>
      "sequence length must be known before serialization (XDR requires a length prefix)"
  | unsupported what => s!"XDR does not support type: {what}"
  | poisoned => "codec context is poisoned by an earlier fault"
  | transport failure => s!"I/O error: {failure.text}"
  | custom text => text

/-- The cause behind a failed read. -/
def ofRead (failure : Transport.Failure) : Error :=
  if failure.kind = .unexpectedEnd then .shortRead else .transport failure

/-- The cause behind a failed write. -/
def ofWrite (failure : Transport.Failure) : Error :=
  if failure.kind = .writeZero then .shortWrite else .transport failure

end Error

end Xdr
