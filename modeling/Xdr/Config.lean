/-!
# Settings

A context carries a padding policy and a ceiling for lengths that bring no maximum of their own.
-/

namespace Xdr

/-- What a decoder does with the padding bytes behind opaque data. -/
inductive PaddingPolicy where
  /-- Refuse padding that is not zero. -/
  | strict
  /-- Skip padding unseen. -/
  | lenient
  deriving DecidableEq, Repr

/-- The settings of a context. -/
structure Config where
  padding : PaddingPolicy := .strict
  /-- The ceiling for strings, byte strings, sequences and maps of the data model. -/
  maxLength : UInt32 := 4294967295
  deriving DecidableEq, Repr

namespace Config

/-- The settings of a context that was given none. -/
def default : Config := {}

/-- The same settings with another padding policy. -/
def withPadding (config : Config) (padding : PaddingPolicy) : Config :=
  { config with padding }

/-- The same settings with another ceiling. -/
def withMaxLength (config : Config) (maxLength : UInt32) : Config :=
  { config with maxLength }

end Config

/-- Whether these padding bytes pass under the policy. -/
def PaddingPolicy.accepts (policy : PaddingPolicy) (padding : List UInt8) : Bool :=
  match policy with
  | .strict => padding.all (· == 0)
  | .lenient => true

end Xdr
