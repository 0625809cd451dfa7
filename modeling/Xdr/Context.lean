import Xdr.Config
import Xdr.Error

/-!
# Codec contexts

A `Context` joins a transport with the settings, the poison flag and the log of one encoder or
decoder. A fault sets the flag and is logged; a `Refusal` says with which error an operation ends
and whether that is a fault.
-/

namespace Xdr

/-- The way a context moves data. -/
inductive Direction where
  | encode
  | decode
  deriving DecidableEq, Repr

/-- The operations under whose names faults are logged. -/
inductive Operation where
  | int8 | int16 | int32 | int64
  | uint8 | uint16 | uint32 | uint64
  | float | double | bool | char
  | length | count
  | fixedOpaque | bytes | string
  | enumeration | optional | union | varArray
  /-- A fault raised by the owner of the context. -/
  | user
  deriving DecidableEq, Repr

/-- The name of an operation in the log. -/
def Operation.name : Operation → String
  | .int8 => "i8"
  | .int16 => "i16"
  | .int32 => "int32"
  | .int64 => "int64"
  | .uint8 => "u8"
  | .uint16 => "u16"
  | .uint32 => "uint32"
  | .uint64 => "uint64"
  | .float => "float"
  | .double => "double"
  | .bool => "bool"
  | .char => "char"
  | .length => "length"
  | .count => "count"
  | .fixedOpaque => "opaque"
  | .bytes => "bytes"
  | .string => "string"
  | .enumeration => "enum"
  | .optional => "optional"
  | .union => "union"
  | .varArray => "var_array"
  | .user => "user"

/-- The kinds of data that carry their own length. -/
inductive SizedKind where
  | bytes
  | string
  deriving DecidableEq, Repr

/-- What a context logs. -/
inductive Event where
  /-- An operation faulted with this error. -/
  | fault (operation : Operation) (error : Error)
  /-- The length of an item was accepted. -/
  | sized (kind : SizedKind) (length pad : Nat)
  deriving DecidableEq, Repr

/-- The wording of an event in a context of either direction. -/
def Event.message : Event → Direction → String
  | .fault _ _, .encode => "xdr encode failed; encoder poisoned"
  | .fault _ _, .decode => "xdr decode failed; decoder poisoned"
  | .sized .bytes _ _, .encode => "encode bytes"
  | .sized .string _ _, .encode => "encode string"
  | .sized _ _ _, .decode => "decode variable-length item"

/-- The importance of an event. -/
def Event.level : Event → String
  | .fault _ _ => "debug"
  | .sized _ _ _ => "trace"

/-- How an operation ends that is not carried out. -/
structure Refusal where
  error : Error
  /-- The operation under which the context faults. Without one the context stays usable. -/
  fault : Option Operation := none
  /-- A poisoned context answers `poisoned` in place of the error. -/
  guarded : Bool := true
  deriving DecidableEq, Repr

/-- A transport with the settings and the state of the context that uses it. -/
structure Context (τ : Type) where
  transport : τ
  config : Config := {}
  poisoned : Bool := false
  events : Array Event := #[]

namespace Context

variable {τ : Type}

/-- Log an event. -/
def record (context : Context τ) (event : Event) : Context τ :=
  { context with events := context.events.push event }

/-- Log the fault and poison the context. -/
def fault (context : Context τ) (operation : Operation) (error : Error) : Context τ :=
  { context with
    poisoned := true
    events := context.events.push (.fault operation error) }

/-- The error of a refusal on this context, and the context after it. -/
def refuse (context : Context τ) (refusal : Refusal) : Error × Context τ :=
  if refusal.guarded && context.poisoned then (.poisoned, context)
  else match refusal.fault with
    | none => (refusal.error, context)
    | some operation => (refusal.error, context.fault operation refusal.error)

/-- Use the transport and keep the rest of the context. -/
def useTransport {β : Type} (context : Context τ) (use : τ → β × τ) : β × Context τ :=
  match context with
  | ⟨transport, config, poisoned, events⟩ =>
      let (result, transport) := use transport
      (result, ⟨transport, config, poisoned, events⟩)

@[simp] theorem record_poisoned (context : Context τ) (event : Event) :
    (context.record event).poisoned = context.poisoned := rfl

@[simp] theorem record_transport (context : Context τ) (event : Event) :
    (context.record event).transport = context.transport := rfl

@[simp] theorem record_config (context : Context τ) (event : Event) :
    (context.record event).config = context.config := rfl

@[simp] theorem fault_poisoned (context : Context τ) (operation : Operation) (error : Error) :
    (context.fault operation error).poisoned = true := rfl

@[simp] theorem fault_transport (context : Context τ) (operation : Operation) (error : Error) :
    (context.fault operation error).transport = context.transport := rfl

@[simp] theorem fault_config (context : Context τ) (operation : Operation) (error : Error) :
    (context.fault operation error).config = context.config := rfl

/-- A refusal leaves the transport alone. -/
@[simp] theorem refuse_transport (context : Context τ) (refusal : Refusal) :
    (context.refuse refusal).2.transport = context.transport := by
  unfold refuse
  split
  · rfl
  · split <;> rfl

@[simp] theorem refuse_config (context : Context τ) (refusal : Refusal) :
    (context.refuse refusal).2.config = context.config := by
  unfold refuse
  split
  · rfl
  · split <;> rfl

theorem useTransport_eq {β : Type} (context : Context τ) (use : τ → β × τ) :
    context.useTransport use =
      ((use context.transport).1, { context with transport := (use context.transport).2 }) := rfl

end Context

end Xdr
