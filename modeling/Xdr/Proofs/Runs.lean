import Xdr.Session

/-!
# Runs of steps

The context that is left when the steps of a run are carried out, beside the trace of their answers.
-/

namespace Xdr

/-- The encoder after the steps. -/
def EncodeStep.after (catalog : Catalog) (steps : List EncodeStep) (encoder : Encoder) : Encoder :=
  steps.foldl (fun encoder step => (step.run catalog encoder).2) encoder

/-- The decoder after the steps. -/
def DecodeStep.after (catalog : Catalog) (steps : List DecodeStep) (decoder : Decoder) : Decoder :=
  steps.foldl (fun decoder step => (step.run catalog decoder).2) decoder

/-- Where a trace that has begun ends does not depend on where it started. -/
theorem last_cons {α β : Type} (answer : α × β) (trace : List (α × β)) (start : β) :
    ((answer :: trace).getLast?.map Prod.snd).getD start =
      (trace.getLast?.map Prod.snd).getD answer.2 := by
  cases trace with
  | nil => rfl
  | cons next trace => simp [List.getLast?_cons]

end Xdr
