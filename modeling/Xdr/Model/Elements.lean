import Xdr.Reading

/-!
# Announced elements

Behind a count, or in a tuple of known size, a reader asks for one element after the other.
`Elements.next` answers a request while there are elements left and reads nothing once there are
none. `Elements.visit` is a reader that asks a number of times or until the end, and
`Elements.each` one that asks for elements of different kinds and needs all of them.
-/

namespace Xdr.Elements

variable {α : Type}

/-- Answer one request when `remaining` elements are left. An element counts as delivered even if
reading it fails. -/
def next (element : Reading Unit α) : (remaining : Nat) → Reading Nat (Option α × Nat)
  | 0 => .done (none, 0)
  | remaining + 1 => element.map (fun _ => remaining) fun value => (some value, remaining)

/-- Make requests until the end or until there are no requests left to make. The result holds the
elements, and the number of elements that were left before each request. -/
def visit (element : Reading Unit α) :
    (requests remaining : Nat) → (values : List α) → (hints : List Nat) →
      Reading Unit (List α × List Nat)
  | 0, _, values, hints => .done (values.reverse, hints.reverse)
  | requests + 1, remaining, values, hints =>
      (next element remaining).andThen (fun _ => ()) fun
        -- the request that finds the end is noted down too
        | (none, _) => .done (values.reverse, (remaining :: hints).reverse)
        | (some value, left) => visit element requests left (value :: values) (remaining :: hints)

/-- The error of an element that is asked for and not announced. -/
def missing (index : Nat) : Error := .custom s!"missing element {index}"

/-- Ask for one element with each reading. All of them have to be there. -/
def each : List (Reading Unit α) → (index remaining : Nat) → (values : List α) →
    Reading Unit (List α)
  | [], _, _, values => .done values.reverse
  | element :: elements, index, remaining, values =>
      (next element remaining).andThen (fun _ => ()) fun
        | (none, _) => .refuse { error := missing index, guarded := false } ()
        | (some value, left) => each elements (index + 1) left (value :: values)

end Xdr.Elements
