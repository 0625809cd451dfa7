import Xdr.Config
import Xdr.Json

/-!
# Settings as JSON

Settings are written as an object with both members, and read from an object or an array. Members
that are missing have their default, members of an object that are not settings are passed over, and
a setting that comes twice is refused.
-/

namespace Xdr

/-- The name of a padding policy. -/
def PaddingPolicy.name : PaddingPolicy → String
  | strict => "strict"
  | lenient => "lenient"

/-- The padding policy of a name. -/
def PaddingPolicy.ofName? (name : String) : Option PaddingPolicy :=
  if name = "strict" then some strict
  else if name = "lenient" then some lenient
  else none

/-- A padding policy is its name, alone or as the one key of an object whose value is null. -/
def PaddingPolicy.ofJson? : Json → Option PaddingPolicy
  | .string (some name) => ofName? name
  | .object [(some name, .null)] => ofName? name
  | _ => none

namespace Config

/-- A ceiling is a natural number of at most 32 bits. -/
def maxLengthOfJson? : Json → Option UInt32
  | .number (some natural) => if natural < UInt32.size then some (UInt32.ofNat natural) else none
  | _ => none

/-- The settings among the members of an object, each at most once. -/
def ofMembers? : List (Option String × Json) →
    Option (Option PaddingPolicy × Option UInt32)
  | [] => some (none, none)
  | (none, _) :: _ => none
  | (some key, value) :: members => do
      let (padding, maxLength) ← ofMembers? members
      if key = "padding" then
        if padding.isSome then none
        else pure (some (← PaddingPolicy.ofJson? value), maxLength)
      else if key = "max_length" then
        if maxLength.isSome then none
        else pure (padding, some (← maxLengthOfJson? value))
      else pure (padding, maxLength)

/-- The settings that a JSON value gives. -/
def ofValue? : Json → Option Config
  | .object members => do
      let (padding, maxLength) ← ofMembers? members
      pure {
        padding := padding.getD default.padding
        maxLength := maxLength.getD default.maxLength }
  | .array [] => some default
  | .array [padding] => do pure { default with padding := ← PaddingPolicy.ofJson? padding }
  | .array [padding, maxLength] => do
      pure { padding := ← PaddingPolicy.ofJson? padding, maxLength := ← maxLengthOfJson? maxLength }
  | _ => none

/-- The settings that a JSON text gives. -/
def ofJson? (text : String) : Option Config := do
  ofValue? (← Json.parse? text)

/-- The settings as a JSON text without blanks. -/
def toJson (config : Config) : String :=
  "\x7b\"padding\":\"" ++ config.padding.name ++ "\",\"max_length\":" ++
    toString config.maxLength.toNat ++ "\x7d"

end Config

end Xdr
