import Xdr.Definitions

/-!
# Stream types and values

`Ty` lists the types of the external data representation, `Value` the values that have such types.
A type may refer to a named one, so that lists and trees can be described. `Ty.zero` is the value a
new target starts from. Values are compared by `Value.same`, so that what a run gives can be
decided.
-/

namespace Xdr

/-- The types that go through a stream. -/
inductive Ty where
  | int32
  | uint32
  | int64
  | uint64
  | float
  | double
  | bool
  | void
  | quadruple
  /-- An enumeration whose members are not checked. -/
  | openEnum
  | enumeration (members : List Int32)
  | fixedOpaque (length : Nat)
  | bytes (max : UInt32)
  | string (max : UInt32)
  | fixedArray (length : Nat) (element : Ty)
  | varArray (max : UInt32) (element : Ty)
  | optional (inner : Ty)
  | struct (parts : List Ty)
  /-- The first arm that lists the discriminant is selected, else the fallback. -/
  | union (arms : List (List Int32 × Ty)) (fallback : Option Ty)
  | ref (name : String)

/-- The values that go through a stream. -/
inductive Value where
  | int32 (value : Int32)
  | uint32 (value : UInt32)
  | int64 (value : Int64)
  | uint64 (value : UInt64)
  | float (bits : UInt32)
  | double (bits : UInt64)
  | bool (value : Bool)
  | void
  | bytes (data : List UInt8)
  | string (text : String)
  | list (items : List Value)
  | absent
  | present (value : Value)
  | union (discriminant : Int32) (arm : Value)
  deriving Repr

mutual
/-- Whether two values are built alike from the same content. -/
def Value.same : Value → Value → Bool
  | .int32 left, right => if let .int32 right := right then left = right else false
  | .uint32 left, right => if let .uint32 right := right then left = right else false
  | .int64 left, right => if let .int64 right := right then left = right else false
  | .uint64 left, right => if let .uint64 right := right then left = right else false
  | .float left, right => if let .float right := right then left = right else false
  | .double left, right => if let .double right := right then left = right else false
  | .bool left, right => if let .bool right := right then left = right else false
  | .void, right => if let .void := right then true else false
  | .bytes left, right => if let .bytes right := right then left = right else false
  | .string left, right => if let .string right := right then left = right else false
  | .list left, right => if let .list right := right then Value.sames left right else false
  | .absent, right => if let .absent := right then true else false
  | .present left, right => if let .present right := right then left.same right else false
  | .union left arm, right =>
      if let .union right other := right then left = right && arm.same other else false

/-- Whether two lists have the same values in the same order. -/
def Value.sames : List Value → List Value → Bool
  | [], rights => rights.isEmpty
  | _ :: _, [] => false
  | left :: lefts, right :: rights => left.same right && Value.sames lefts rights
end

mutual
theorem Value.same_iff (left right : Value) : left.same right ↔ left = right := by
  cases left with
  | list items => unfold Value.same; split <;> grind [Value.sames_iff items]
  | present value => unfold Value.same; split <;> grind [value.same_iff]
  | union discriminant arm => unfold Value.same; split <;> grind [arm.same_iff]
  | _ => unfold Value.same; split <;> grind

theorem Value.sames_iff (lefts rights : List Value) :
    Value.sames lefts rights ↔ lefts = rights := by
  cases lefts with
  | nil => cases rights <;> simp [Value.sames]
  | cons left lefts => cases rights <;> simp [Value.sames, left.same_iff, Value.sames_iff lefts]
end

instance : DecidableEq Value :=
  fun left right => decidable_of_iff _ (left.same_iff right)

namespace Value

/-- Optional data as a value. -/
def ofOption : Option Value → Value
  | none => absent
  | some value => present value

/-- A discriminant and its arm as a value. -/
def ofUnion (union : Int32 × Value) : Value :=
  .union union.1 union.2

/-- The one value of the empty type. -/
def ofVoid (_ : Unit) : Value := void

-- Each projection gives the content of one kind of value, and nothing for any other kind.

def int32? : Value → Option Int32
  | int32 value => some value
  | _ => none

def uint32? : Value → Option UInt32
  | uint32 value => some value
  | _ => none

def int64? : Value → Option Int64
  | int64 value => some value
  | _ => none

def uint64? : Value → Option UInt64
  | uint64 value => some value
  | _ => none

def float? : Value → Option UInt32
  | float bits => some bits
  | _ => none

def double? : Value → Option UInt64
  | double bits => some bits
  | _ => none

def bool? : Value → Option Bool
  | bool value => some value
  | _ => none

def void? : Value → Option Unit
  | void => some ()
  | _ => none

def bytes? : Value → Option (List UInt8)
  | bytes data => some data
  | _ => none

def string? : Value → Option String
  | string text => some text
  | _ => none

def list? : Value → Option (List Value)
  | list items => some items
  | _ => none

def option? : Value → Option (Option Value)
  | absent => some none
  | present value => some (some value)
  | _ => none

def union? : Value → Option (Int32 × Value)
  | union discriminant arm => some (discriminant, arm)
  | _ => none

mutual
/-- The number of values inside one another. -/
def depth : Value → Nat
  | list items => depths items + 1
  | present value => depth value + 1
  | union _ arm => depth arm + 1
  | _ => 1

/-- The depth of the deepest value. -/
def depths : List Value → Nat
  | [] => 0
  | item :: items => max (depth item) (depths items)
end

end Value

namespace Ty

mutual
/-- The value that a new target of a type holds, given those of the named types. -/
def zeroWith (named : String → Value) : Ty → Value
  | int32 => .int32 0
  | uint32 => .uint32 0
  | int64 => .int64 0
  | uint64 => .uint64 0
  | float => .float 0
  | double => .double 0
  | bool => .bool false
  | void => .void
  | quadruple => .void
  | openEnum => .int32 0
  | enumeration _ => .int32 0
  | fixedOpaque length => .bytes (List.replicate length 0)
  | bytes _ => .bytes []
  | string _ => .string ""
  | fixedArray length element => .list (List.replicate length (zeroWith named element))
  | varArray _ _ => .list []
  | optional _ => .absent
  | struct parts => .list (zerosWith named parts)
  | union _ _ => .union 0 .void
  | ref name => named name

/-- The values that new targets of the parts hold. -/
def zerosWith (named : String → Value) : List Ty → List Value
  | [] => []
  | part :: parts => zeroWith named part :: zerosWith named parts
end

/-- The value that a new target of a type holds. A chain of references in which no name comes twice
is no longer than the definitions. -/
def zero (definitions : Definitions Ty) : Ty → Value :=
  zeroWith (definitions.meaning zeroWith .void definitions.length)

end Ty

end Xdr
