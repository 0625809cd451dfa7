/-!
# Named types

Types may refer to one another by name. `Definitions.meaning` gives a name its meaning by
interpreting the body it stands for, where references inside the body are followed in turn, down to
a given depth. `meaning_succ` unfolds one reference.
-/

namespace Xdr

/-- What each name stands for. The first entry of a name counts. -/
abbrev Definitions (τ : Type) := List (String × τ)

namespace Definitions

universe u

variable {τ : Type} {β : Type u}

/-- The meaning of a name, following at most `depth` references inside one another. Deeper
references and names without an entry mean `unresolved`. -/
def meaning (definitions : Definitions τ) (interpret : (String → β) → τ → β) (unresolved : β) :
    (depth : Nat) → String → β
  | 0, _ => unresolved
  | depth + 1, name =>
      match definitions.lookup name with
      | some body => interpret (meaning definitions interpret unresolved depth) body
      | none => unresolved

/-- One reference further down, a name means its body. -/
theorem meaning_succ (definitions : Definitions τ) (interpret : (String → β) → τ → β)
    (unresolved : β) (depth : Nat) {name : String} {body : τ}
    (h : definitions.lookup name = some body) :
    definitions.meaning interpret unresolved (depth + 1) name =
      interpret (definitions.meaning interpret unresolved depth) body := by
  simp [meaning, h]

end Definitions

end Xdr
