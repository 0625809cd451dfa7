import Xdr.Plan
import Xdr.Reading.Items

/-!
# Filters

A `Filter` describes how a value of one type goes through a stream, whichever way: `encode` gives
the plan that writes a value, and `decode` the reading that replaces a target. Filters of compound
types are put together from the filters of their parts, so that one description serves both
directions.
-/

namespace Xdr

/-- The two directions of one type. -/
structure Filter (α : Type) where
  /-- What writing a value asks for. -/
  encode : α → Plan
  /-- What replacing this target asks for. -/
  decode : α → Reading α α

namespace Filter

variable {α β : Type}

/-- A signed integer. -/
def int32 : Filter Int32 where
  encode value := .one (.int32 value)
  decode target := .word .int32 target fun w => .done w.toInt32

/-- An unsigned integer. -/
def uint32 : Filter UInt32 where
  encode value := .one (.uint32 value)
  decode target := .word .uint32 target .done

/-- A signed hyper. -/
def int64 : Filter Int64 where
  encode value := .one (.int64 value)
  decode target := .hyper .int64 target fun h => .done h.toInt64

/-- An unsigned hyper. -/
def uint64 : Filter UInt64 where
  encode value := .one (.uint64 value)
  decode target := .hyper .uint64 target .done

/-- The bit pattern of a single-precision number. -/
def float : Filter UInt32 where
  encode bits := .one (.float bits)
  decode target := .word .float target .done

/-- The bit pattern of a double-precision number. -/
def double : Filter UInt64 where
  encode bits := .one (.double bits)
  decode target := .hyper .double target .done

/-- A boolean. -/
def bool : Filter Bool where
  encode value := .one (.bool value)
  decode target := .bool target .done

/-- Nothing at all. -/
def void : Filter Unit where
  encode _ := .empty
  decode _ := .done ()

/-- A quadruple-precision number, which cannot be represented. The context stays usable. -/
def quadruple : Filter Unit where
  encode _ := .refuse { error := .unsupported "quadruple" }
  decode _ := .refuse { error := .unsupported "quadruple" } ()

/-- A member of an enumeration. Any other value is refused, when writing before anything is
written. -/
def enumeration (members : List Int32) : Filter Int32 where
  encode value :=
    if value ∈ members then .one (.int32 value)
    else .refuse { error := .invalidEnum value, fault := some .enumeration }
  decode target := .word .int32 target fun w =>
    if w.toInt32 ∈ members then .done w.toInt32
    -- the target holds the refused value, since it was read before it was checked
    else .fault .enumeration (.invalidEnum w.toInt32) w.toInt32

/-- Opaque data whose length is that of the value or of the target. The target after an error is the
buffer as it was handed in. In the memory behind it, the bytes that were delivered before the
failure may stand at the front (`Decoder.fillOpaque`). -/
def fixedOpaque : Filter (List UInt8) where
  encode data := .one (.fixedOpaque data)
  decode buffer := .fixedOpaque buffer.length buffer .done

/-- The plan for data behind its own length of at most `max`. -/
def encodeSized (kind : SizedKind) (operation : Operation) (max : UInt32) (data : List UInt8) :
    Plan :=
  if data.length ≤ max.toNat then .one (.sized kind data)
  else .refuse { error := .lengthExceeded max data.length, fault := some operation }

/-- Opaque data of at most `max` bytes. -/
def bytes (max : UInt32) : Filter (List UInt8) where
  encode data := encodeSized .bytes .bytes max data
  decode buffer := .sized .bytes max buffer

/-- A string of at most `max` bytes. What is written ends in front of the first NUL. -/
def string (max : UInt32) : Filter String where
  encode text := encodeSized .string .string max (Text.untilNul (Text.bytes text))
  decode target := .string max target

/-- A number of values of one type, back to back. -/
def fixedArray (element : Filter α) : Filter (List α) where
  encode values := .concat (values.map element.encode)
  decode targets := .inOrder (targets.map fun target => (target, element.decode target)) []

/-- A count of at most `max`, then the elements. Each is read into `zero`, which is not worked out
unless there are elements. -/
def varArray (max : UInt32) (zero : Unit → α) (element : Filter α) : Filter (List α) where
  encode values :=
    if values.length ≤ max.toNat then
      .one (.uint32 (UInt32.ofNat values.length)) ++ .concat (values.map element.encode)
    else .refuse { error := .lengthExceeded max values.length, fault := some .varArray }
  decode targets := .word .uint32 targets fun count =>
    -- from here on the old elements are gone, whatever happens to the new ones
    if count ≤ max then .replicate (.later fun _ => element.decode (zero ())) count.toNat []
    else .fault .varArray (.lengthExceeded max count.toNat) targets

/-- A word that says whether a value follows, then the value. It is read into `zero`, and the target
is replaced only once the value is there. -/
def optional (zero : Unit → α) (inner : Filter α) : Filter (Option α) where
  encode
    | none => .one (.uint32 0)
    | some value => .one (.uint32 1) ++ inner.encode value
  decode target := .word .uint32 target fun present =>
    if present = 0 then .done none
    else if present = 1 then
      (inner.decode (zero ())).andThen (fun _ => target) fun value =>
        .mark .present (.done (some value))
    else .fault .optional (.invalidOption present) target

/-- The error of values that do not have the type they are said to have. -/
def mismatch : Refusal := { error := .unsupported "a value of another type" }

/-- Parts of different types, back to back. -/
def struct (parts : List (Filter α)) : Filter (List α) where
  encode values :=
    if parts.length = values.length then
      .concat (List.zipWith Filter.encode parts values)
    else .refuse mismatch
  decode targets :=
    if parts.length = targets.length then
      .inOrder (List.zipWith (fun part target => (target, part.decode target)) parts targets) []
    else .refuse mismatch targets

/-- A discriminant, then the arm that it selects, given with the value its target starts from. A
discriminant without an arm is refused after it was written or read. An arm is whatever the caller
does behind the discriminant, which may be to read into a value that is already there. Here each arm
starts from a value of its own, the zero value of its type where types are interpreted. -/
def union (arm : Int32 → Option ((Unit → α) × Filter α)) : Filter (Int32 × α) where
  encode
    | (discriminant, value) =>
        .one (.int32 discriminant) ++
          match arm discriminant with
          | some (_, selected) => selected.encode value
          -- the discriminant has been written by then, so the encoder is usable
          | none => .refuse {
              error := .invalidDiscriminant discriminant.toInt
              fault := some .union
              guarded := false }
  decode target := .word .int32 target fun w =>
    match arm w.toInt32 with
    | some (zero, selected) =>
        (selected.decode (zero ())).map (w.toInt32, ·) (w.toInt32, ·)
    | none => .fault .union (.invalidDiscriminant w.toInt32.toInt) (w.toInt32, target.2)

/-- The same filter on values of a larger type. A value outside the smaller type is refused. -/
def within (inject : α → β) (project : β → Option α) (inner : Filter α) : Filter β where
  encode value :=
    match project value with
    | some part => inner.encode part
    | none => .refuse mismatch
  decode target :=
    match project target with
    | some part => (inner.decode part).map inject inject
    | none => .refuse mismatch target

end Filter

end Xdr
