import Xdr.Item

/-!
# Plans

A `Plan` is what encoding a value asks of an encoder: the items to write, in order, and the refusal
that ends the encoding if there is one. Plans do not depend on the encoder, and `Plan.run` carries
one out. The statement to read first is `run_append`: a plan made of two runs the first and, if that
went well, the second.
-/

namespace Xdr

/-- Items to write, and the refusal that follows them if the value cannot be written as a whole. -/
structure Plan where
  items : List Item
  refusal : Option Refusal := none

namespace Plan

/-- Nothing to write. -/
def empty : Plan := { items := [] }

/-- One item. -/
def one (item : Item) : Plan := { items := [item] }

/-- A refusal with nothing written before it. -/
def refuse (refusal : Refusal) : Plan := { items := [], refusal := some refusal }

/-- One plan after the other. Nothing follows a refusal. -/
def append (first second : Plan) : Plan :=
  match first.refusal with
  | none => { items := first.items ++ second.items, refusal := second.refusal }
  | some _ => first

instance : Append Plan := ⟨append⟩

/-- Plans in order, up to the first refusal. -/
def concat : List Plan → Plan
  | [] => empty
  | plan :: plans => plan ++ concat plans

/-- The bytes of the items of a plan. -/
def image (plan : Plan) : List UInt8 :=
  plan.items.flatMap Item.image

/-- Write items in order, up to the first that fails. -/
def emitAll : List Item → Encoder → Except Error Unit × Encoder
  | [], encoder => (.ok (), encoder)
  | item :: items, encoder =>
      match item.emit encoder with
      | (.ok (), written) => emitAll items written
      | failed => failed

/-- Carry out a plan. -/
def run (plan : Plan) (encoder : Encoder) : Except Error Unit × Encoder :=
  match emitAll plan.items encoder with
  | (.ok (), written) =>
      match plan.refusal with
      | none => (.ok (), written)
      | some refusal =>
          let (error, refused) := written.refuse refusal
          (.error error, refused)
  | failed => failed

@[simp] theorem empty_append (plan : Plan) : empty ++ plan = plan := rfl

theorem append_def (first second : Plan) : first ++ second = first.append second := rfl

@[simp] theorem append_empty (plan : Plan) : plan ++ empty = plan := by
  rcases plan with ⟨items, _ | refusal⟩ <;> simp [append_def, append, empty]

theorem append_assoc (first second third : Plan) :
    first ++ second ++ third = first ++ (second ++ third) := by
  rcases first with ⟨items, _ | refusal⟩ <;> rcases second with ⟨items', _ | refusal'⟩ <;>
    simp [append_def, append]

/-- Nothing follows a plan that ends in a refusal. -/
theorem append_of_refusal {first : Plan} {refusal : Refusal}
    (h : first.refusal = some refusal) (second : Plan) : first ++ second = first := by
  simp [append_def, append, h]

/-- Writing a longer list of items is writing its front and, if that went well, the rest. -/
theorem emitAll_append (front back : List Item) (encoder : Encoder) :
    emitAll (front ++ back) encoder =
      match emitAll front encoder with
      | (.ok (), written) => emitAll back written
      | failed => failed := by
  induction front generalizing encoder with
  | nil => rfl
  | cons item items ih =>
      simp only [List.cons_append, emitAll]
      rcases item.emit encoder with ⟨_ | _, written⟩
      · rfl
      · exact ih written

/-- Running two plans is running the first and, if that went well, the second. -/
theorem run_append (first second : Plan) (encoder : Encoder) :
    (first ++ second).run encoder =
      match first.run encoder with
      | (.ok (), written) => second.run written
      | failed => failed := by
  rcases first with ⟨items, _ | refusal⟩
  · simp only [append_def, append, run, emitAll_append]
    rcases emitAll items encoder with ⟨_ | _, written⟩ <;> rfl
  · simp only [append_def, append, run]
    rcases emitAll items encoder with ⟨_ | _, written⟩ <;> rfl

end Plan

end Xdr
