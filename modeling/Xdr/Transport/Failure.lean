/-!
# Transport failures

What a byte transport reports when it cannot go on: a kind and, sometimes, a text of its own.
`Failure.text` is the description a person reads.
-/

namespace Xdr.Transport

/-- The kinds of failure that are told apart. -/
inductive FailureKind where
  | brokenPipe
  | connectionReset
  | permissionDenied
  | timedOut
  | wouldBlock
  | invalidData
  /-- The source has no more bytes. -/
  | unexpectedEnd
  /-- The sink takes no more bytes. -/
  | writeZero
  | other
  deriving DecidableEq, Repr

/-- The standing description of a kind of failure. -/
def FailureKind.text : FailureKind → String
  | .brokenPipe => "broken pipe"
  | .connectionReset => "connection reset"
  | .permissionDenied => "permission denied"
  | .timedOut => "timed out"
  | .wouldBlock => "operation would block"
  | .invalidData => "invalid data"
  | .unexpectedEnd => "unexpected end of file"
  | .writeZero => "write zero"
  | .other => "other error"

/-- A failure, with the text that replaces the standing description if there is one. -/
structure Failure where
  kind : FailureKind
  detail : Option String := none
  deriving DecidableEq, Repr

/-- The text shown for a failure. -/
def Failure.text (failure : Failure) : String :=
  failure.detail.getD failure.kind.text

end Xdr.Transport
