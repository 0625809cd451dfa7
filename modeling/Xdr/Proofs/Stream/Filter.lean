import Xdr.Stream.Filter

/-!
# Filters of compound types

A filter within another one, the filter of a compound type, in terms of the filters of its parts,
and that of a reference, in terms of the filter of what it stands for.
-/

namespace Xdr

namespace Filter

variable {α β : Type} {inject : α → β} {project : β → Option α} {inner : Filter α}

theorem encode_within_of_some {value : β} {part : α} (h : project value = some part) :
    (inner.within inject project).encode value = inner.encode part := by
  simp only [within, h]

theorem encode_within_of_none {value : β} (h : project value = none) :
    (inner.within inject project).encode value = .refuse mismatch := by
  simp only [within, h]

theorem decode_within_of_some {target : β} {part : α} (h : project target = some part) :
    (inner.within inject project).decode target = (inner.decode part).map inject inject := by
  simp only [within, h]

theorem decode_within_of_none {target : β} (h : project target = none) :
    (inner.within inject project).decode target = .refuse mismatch target := by
  simp only [within, h]

/-- As many targets as parts are replaced in order. -/
theorem decode_struct {parts : List (Filter α)} {targets : List α}
    (h : parts.length = targets.length) :
    (struct parts).decode targets =
      .inOrder (List.zipWith (fun part target => (target, part.decode target)) parts targets) [] :=
  if_pos h

end Filter

namespace Ty

theorem filtersWith_eq_map (zero : Ty → Value) (named : String → Filter Value) (parts : List Ty) :
    filtersWith zero named parts = parts.map (filterWith zero named) := by
  induction parts with
  | nil => rfl
  | cons part parts ih => rw [filtersWith, ih, List.map_cons]

/-- The arm that a discriminant selects goes through the filter of its type. -/
theorem selectArm_armsWith (zero : Ty → Value) (named : String → Filter Value)
    (arms : List (List Int32 × Ty)) (fallback : Option Ty) (discriminant : Int32) :
    selectArm (armsWith zero named arms) (fallbackWith zero named fallback) discriminant =
      (selectArm arms fallback discriminant).map fun selected =>
        (fun _ => zero selected, filterWith zero named selected) := by
  induction arms with
  | nil => cases fallback <;> rfl
  | cons arm arms ih =>
      obtain ⟨cases, type⟩ := arm
      unfold selectArm at ih ⊢
      by_cases hmem : discriminant ∈ cases
      · simp [armsWith, armWith, hmem]
      · simpa [armsWith, armWith, hmem] using ih

theorem filterWith_struct (zero : Ty → Value) (named : String → Filter Value) (parts : List Ty) :
    filterWith zero named (struct parts) =
      (Filter.struct (parts.map (filterWith zero named))).within .list Value.list? := by
  rw [filterWith, filtersWith_eq_map]

theorem filterWith_union (zero : Ty → Value) (named : String → Filter Value)
    (arms : List (List Int32 × Ty)) (fallback : Option Ty) :
    filterWith zero named (union arms fallback) =
      (Filter.union fun discriminant => (selectArm arms fallback discriminant).map fun selected =>
        (fun _ => zero selected, filterWith zero named selected)).within .ofUnion Value.union? := by
  rw [filterWith, funext (selectArm_armsWith _ _ arms fallback)]

variable {definitions : Definitions Ty} {depth : Nat}

/-- A value of a reference is written as one of what it stands for, one level further down. -/
theorem encode_ref {name : String} {body : Ty} (h : definitions.lookup name = some body)
    (value : Value) : (filter definitions (depth + 1) (ref name)).encode value =
      (filter definitions depth body).encode value := by
  show (definitions.meaning _ unresolved (depth + 1) name).encode value = _
  rw [Definitions.meaning_succ _ _ _ _ h]
  rfl

/-- A target of a reference is replaced as one of what it stands for, one level further down. -/
theorem decode_ref {name : String} {body : Ty} (h : definitions.lookup name = some body)
    (target : Value) : (filter definitions (depth + 1) (ref name)).decode target =
      .later fun _ => (filter definitions depth body).decode target := by
  show Reading.later (fun _ =>
    (definitions.meaning _ unresolved (depth + 1) name).decode target) = _
  rw [Definitions.meaning_succ _ _ _ _ h]
  rfl

end Ty

end Xdr
