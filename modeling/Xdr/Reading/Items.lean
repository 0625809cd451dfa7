import Xdr.Padding
import Xdr.Reading
import Xdr.Text
import Xdr.Word

/-!
# Reading items

The readings of single items: words, hypers, booleans, lengths, opaque data and strings. Numbers are
one request of four or eight bytes, and opaque data of a known length is one request together with
its padding. Data behind its own length is read in portions of at most `portionSize` bytes, so that
a length that the source does not back asks for no more than one portion too much.
-/

namespace Xdr.Reading

variable {κ α : Type}

/-- Read a word. -/
def word (operation : Operation) (kept : κ) (next : UInt32 → Reading κ α) : Reading κ α :=
  request operation 4 kept kept fun bytes => next (wordOfImage bytes)

/-- Read a hyper. -/
def hyper (operation : Operation) (kept : κ) (next : UInt64 → Reading κ α) : Reading κ α :=
  request operation 8 kept kept fun bytes => next (hyperOfImage bytes)

/-- Stop with a fault. -/
def fault (operation : Operation) (error : Error) (kept : κ) : Reading κ α :=
  refuse { error, fault := some operation, guarded := false } kept

/-- Stop with an error that leaves the decoder usable. -/
def raise (error : Error) (kept : κ) : Reading κ α :=
  refuse { error, guarded := false } kept

/-- Read a boolean. -/
def bool (kept : κ) (next : Bool → Reading κ α) : Reading κ α :=
  word .bool kept fun w =>
    if w = 0 then next false
    else if w = 1 then next true
    else fault .bool (.invalidBool w) kept

/-- Read a length or count of at most `max`. -/
def length (max : UInt32) (kept : κ) (next : UInt32 → Reading κ α) : Reading κ α :=
  word .length kept fun w =>
    if w ≤ max then next w else fault .length (.lengthExceeded max w.toNat) kept

/-- Read opaque data of a known length, together with its padding. What is kept of a failed reading
is the target as it was handed in. Where there is no padding the bytes go straight into the memory
of the target, so that those delivered before the failure stay at its front: `Decoder.fillOpaque`
says what such a buffer holds. -/
def fixedOpaque (length : Nat) (kept : κ) (next : List UInt8 → Reading κ α) : Reading κ α :=
  request .fixedOpaque (length + padLength length) kept kept fun bytes =>
    checkPadding .fixedOpaque (bytes.drop length) kept (next (bytes.take length))

/-- The most bytes that are asked for at once behind a length. -/
def portionSize : Nat := 65536

/-- The sizes of the requests for a number of bytes: full portions, then what remains. -/
def portions (total : Nat) : List Nat :=
  List.replicate (total / portionSize) portionSize ++
    if total % portionSize = 0 then [] else [total % portionSize]

/-- Read portions behind those got so far, the latest of which comes first, and put them together.
Nothing is kept when that fails. -/
def collect (operation : Operation) :
    (sizes : List Nat) → (got : List (List UInt8)) → Reading (List UInt8) (List UInt8)
  | [], got => done got.reverse.flatten
  | size :: sizes, got =>
      request operation size [] [] fun bytes => collect operation sizes (bytes :: got)

/-- Read data behind its own length of at most `max` into a buffer. A poisoned decoder leaves the
buffer alone, and any failure empties it. -/
def sized (kind : SizedKind) (max : UInt32) (buffer : List UInt8) :
    Reading (List UInt8) (List UInt8) :=
  let operation := match kind with
    | .bytes => Operation.bytes
    | .string => Operation.string
  request operation 4 buffer [] fun bytes =>
    let w := wordOfImage bytes
    let length := w.toNat
    let pad := padLength length
    if w ≤ max then
      note (.sized kind length pad) <|
        (collect operation (portions (length + pad)) []).andThen id fun bytes =>
          checkPadding operation (bytes.drop length) [] (done (bytes.take length))
    else fault operation (.lengthExceeded max length) []

/-- Read a string of at most `max` bytes. -/
def string (max : UInt32) (kept : κ) : Reading κ String :=
  (sized .string max []).andThen (fun _ => kept) fun bytes =>
    match Text.ofBytes? bytes with
    | some text => done text
    | none => fault .string .invalidString kept

end Xdr.Reading
