import Mathlib.Logic.Relation
import Xdr.Proofs.Stream.Decoding

/-!
# Types within types

`Ty.Reaches` relates a type to the types in it, behind references as well. A type is well formed if
all names that it reaches are defined and no definition leads back to itself but behind a word. Such
a type has targets: its zero value is one (`WellFormed.holds_zero`).
-/

namespace Xdr.Ty

variable {definitions : Definitions Ty} {whole part : Ty}

/-- The type has values of the part in its own values, or stands for it. -/
inductive Contains (definitions : Definitions Ty) : Ty → Ty → Prop where
  | fixedArray (length element) : Contains definitions (fixedArray length element) element
  | varArray (max element) : Contains definitions (varArray max element) element
  | optional (inner) : Contains definitions (optional inner) inner
  | struct {parts part} : part ∈ parts → Contains definitions (struct parts) part
  | union {arms fallback discriminant selected} :
      selectArm arms fallback discriminant = some selected →
      Contains definitions (union arms fallback) selected
  | ref {name body} : definitions.lookup name = some body → Contains definitions (ref name) body

/-- The type is the part, or contains a type that reaches it. -/
abbrev Reaches (definitions : Definitions Ty) : Ty → Ty → Prop :=
  Relation.ReflTransGen (Contains definitions)

/-- Types that contain no others than themselves reach no others. -/
theorem Reaches.mem {types : List Ty} (h : Reaches definitions whole part) (hwhole : whole ∈ types)
    (hclosed : ∀ type ∈ types, ∀ inner, Contains definitions type inner → inner ∈ types) :
    part ∈ types := by
  induction h with
  | refl => exact hwhole
  | tail _ hcontains ih => exact hclosed _ ih _ hcontains

/-- A name that a value of the type refers to in front of the first word is reached. -/
theorem reaches_of_mem_direct {type : Ty} {name : String} (h : name ∈ type.direct) :
    Reaches definitions type (ref name) := by
  induction type with
  | fixedArray length element ih =>
      rw [direct] at h
      split at h
      · cases h
      · exact .head (.fixedArray length element) (ih h)
  | struct parts ih =>
      obtain ⟨part, hpart, hname⟩ := mem_directs.mp h
      exact .head (.struct hpart) (ih part hpart hname)
  | ref other =>
      obtain rfl := List.mem_singleton.mp h
      exact .refl
  | _ => cases h

/-- All names are defined, and values of the type are finite. -/
structure WellFormed (definitions : Definitions Ty) (type : Ty) : Prop where
  guarded : definitions.Guarded direct
  defined : ∀ {name}, Reaches definitions type (ref name) →
    ∃ body, definitions.lookup name = some body

namespace WellFormed

/-- What a well-formed type contains is well formed. -/
theorem of_contains (h : WellFormed definitions whole) (hpart : Contains definitions whole part) :
    WellFormed definitions part :=
  ⟨h.guarded, fun hname => h.defined (.head hpart hname)⟩

theorem grounded (h : WellFormed definitions whole) :
    Grounded definitions definitions.length whole := by
  intro name hmem
  obtain ⟨body, hbody⟩ := h.defined (reaches_of_mem_direct hmem)
  exact h.guarded name body hbody

/-- The zero value of a well-formed type is a target of the type. -/
theorem holds_zero (h : WellFormed definitions whole) :
    Holds definitions whole (zero definitions whole) :=
  Ty.holds_zero h.grounded

end WellFormed

/-! ### Checking definitions -/

mutual
/-- The names in the type. -/
def names : Ty → List String
  | ref name => [name]
  | fixedArray _ element => names element
  | varArray _ element => names element
  | optional inner => names inner
  | struct parts => namesOfParts parts
  | union arms fallback => namesOfArms arms ++ namesOfFallback fallback
  | _ => []

/-- The names in the parts. -/
def namesOfParts : List Ty → List String
  | [] => []
  | part :: parts => names part ++ namesOfParts parts

/-- The names in the arms. -/
def namesOfArms : List (List Int32 × Ty) → List String
  | [] => []
  | arm :: arms => namesOfArm arm ++ namesOfArms arms

/-- The names in an arm. -/
def namesOfArm : List Int32 × Ty → List String
  | (_, selected) => names selected

/-- The names in the fallback. -/
def namesOfFallback : Option Ty → List String
  | none => []
  | some selected => names selected
end

theorem names_subset_namesOfParts {parts : List Ty} (h : part ∈ parts) :
    part.names ⊆ namesOfParts parts := by
  induction parts with
  | nil => cases h
  | cons head parts ih =>
      rw [namesOfParts]
      rcases List.mem_cons.mp h with rfl | h
      · exact List.subset_append_left _ _
      · exact List.subset_append_of_subset_right _ (ih h)

theorem names_subset_namesOfArms {arms : List (List Int32 × Ty)} {fallback : Option Ty}
    {discriminant : Int32} (h : selectArm arms fallback discriminant = some part) :
    part.names ⊆ namesOfArms arms ++ namesOfFallback fallback := by
  induction arms with
  | nil =>
      obtain rfl : fallback = some part := h
      exact List.Subset.refl _
  | cons arm arms ih =>
      obtain ⟨cases, type⟩ := arm
      unfold selectArm at h ih
      rw [namesOfArms, namesOfArm, List.append_assoc]
      by_cases hmem : discriminant ∈ cases
      · obtain rfl : type = part := by simpa [hmem] using h
        exact List.subset_append_left _ _
      · exact List.subset_append_of_subset_right _ (ih (by simpa [hmem] using h))

/-- If all names in a type and in the definitions are defined, all names that the type reaches
are. -/
theorem wellFormed_of_names {type : Ty} (hguarded : definitions.Guarded direct)
    (htype : ∀ name ∈ type.names, ∃ body, definitions.lookup name = some body)
    (hbodies : ∀ name body, definitions.lookup name = some body →
      ∀ inner ∈ body.names, ∃ found, definitions.lookup inner = some found) :
    WellFormed definitions type := by
  refine ⟨hguarded, fun {name} hreaches => ?_⟩
  suffices hpart : ∀ part, Reaches definitions type part →
      ∀ name ∈ part.names, ∃ body, definitions.lookup name = some body from
    hpart _ hreaches name List.mem_cons_self
  intro part hreaches
  induction hreaches with
  | refl => exact htype
  | tail _ hcontains ih =>
      cases hcontains with
      | ref hbody => exact hbodies _ _ hbody
      | struct hmem => exact fun name hname => ih name (names_subset_namesOfParts hmem hname)
      | union hselect => exact fun name hname => ih name (names_subset_namesOfArms hselect hname)
      | _ => exact ih

end Xdr.Ty
