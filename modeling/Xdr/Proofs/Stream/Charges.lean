import Xdr.Proofs.Charges
import Xdr.Proofs.Stream.Canonical
import Xdr.Proofs.Stream.Reach

/-!
# What the parts of typed values cost

Decoding a typed value reads a word for each value that may be absent, and, where elements take some
bytes, one for each element of a var array (`Ty.pays_filter`). This is so for every type, however
deep references are followed and wherever decoding stops.
-/

namespace Xdr

namespace Filter

variable {α β : Type} {part : Part}

/-- All readings of the filter charge a word to each of these parts. -/
def Pays (part : Part) (filter : Filter α) : Prop :=
  ∀ target, (filter.decode target).Pays part

theorem pays_of_unmarked {filter : Filter α} (hregular : filter.Regular)
    (h : ∀ target, (filter.decode target).Unmarked) : filter.Pays part :=
  fun target => Reading.pays_of_unmarked (hregular.decode target) (h target)

theorem pays_int32 : int32.Pays part :=
  pays_of_unmarked regular_int32 fun _ _ => trivial

theorem pays_uint32 : uint32.Pays part :=
  pays_of_unmarked regular_uint32 fun _ _ => trivial

theorem pays_int64 : int64.Pays part :=
  pays_of_unmarked regular_int64 fun _ _ => trivial

theorem pays_uint64 : uint64.Pays part :=
  pays_of_unmarked regular_uint64 fun _ _ => trivial

theorem pays_float : float.Pays part :=
  pays_of_unmarked regular_float fun _ _ => trivial

theorem pays_double : double.Pays part :=
  pays_of_unmarked regular_double fun _ _ => trivial

theorem pays_void : void.Pays part :=
  pays_of_unmarked regular_void fun _ => trivial

theorem pays_quadruple : quadruple.Pays part :=
  pays_of_unmarked regular_quadruple fun _ => trivial

theorem pays_fixedOpaque : fixedOpaque.Pays part :=
  pays_of_unmarked regular_fixedOpaque fun _ _ => trivial

theorem pays_bool : bool.Pays part := by
  refine pays_of_unmarked regular_bool fun target bytes => ?_
  show Reading.Unmarked
    (if wordOfImage bytes = 0 then _ else if wordOfImage bytes = 1 then _ else _)
  split_ifs <;> trivial

theorem pays_enumeration (members : List Int32) : (enumeration members).Pays part := by
  refine pays_of_unmarked (regular_enumeration members) fun target bytes => ?_
  show Reading.Unmarked (if (wordOfImage bytes).toInt32 ∈ members then _ else _)
  split_ifs <;> trivial

theorem pays_bytes (max : UInt32) : (bytes max).Pays part :=
  pays_of_unmarked (regular_bytes max) fun target => Reading.unmarked_sized .bytes max target

theorem pays_string (max : UInt32) : (string max).Pays part := by
  refine pays_of_unmarked (regular_string max) fun target =>
    ⟨Reading.unmarked_sized .string max [], fun bytes => ?_⟩
  dsimp only
  split <;> trivial

theorem pays_mismatch (target : α) : (.refuse mismatch target : Reading α β).Pays part := by
  have hregular : mismatch.Regular := rfl
  exact Reading.pays_refuse hregular target

theorem Pays.within {filter : Filter α} (h : filter.Pays part) (inject : α → β)
    (project : β → Option α) : (filter.within inject project).Pays part := by
  intro target
  cases htarget : project target with
  | none =>
      rw [decode_within_of_none htarget]
      exact pays_mismatch target
  | some old =>
      rw [decode_within_of_some htarget]
      exact (h old).map _ _

theorem pays_fixedArray {element : Filter α} (h : element.Pays part) :
    (fixedArray element).Pays part := by
  refine fun targets => Reading.pays_inOrder (fun pair hmem => ?_) []
  obtain ⟨target, -, rfl⟩ := List.mem_map.mp hmem
  exact h target

theorem pays_struct {parts : List (Filter α)} (h : ∀ filter ∈ parts, filter.Pays part) :
    (struct parts).Pays part := by
  intro targets
  show Reading.Pays part (if parts.length = targets.length then _ else _)
  split
  · refine Reading.pays_inOrder (fun pair hmem => ?_) []
    rw [← List.map_uncurry_zip_eq_zipWith] at hmem
    obtain ⟨⟨filter, target⟩, hpair, rfl⟩ := List.mem_map.mp hmem
    exact h filter (List.of_mem_zip hpair).1 target
  · exact pays_mismatch targets

/-- The word of the count is left over from the elements. -/
theorem pays_varArray {max : UInt32} {zero : Unit → α} {element : Filter α} (h : element.Pays part)
    (hfeeds : part = .element → (element.decode (zero ())).Feeds) :
    (varArray max zero element).Pays part := by
  intro targets
  dsimp only [varArray]
  refine Reading.pays_word fun count => ?_
  split
  · exact Reading.owes_of_word fun hrun =>
      Reading.word_replicate (h (zero ())).later hfeeds count.toNat hrun
  · exact (Reading.pays_fault rfl targets).owes

theorem pays_optional {zero : Unit → α} {inner : Filter α} (h : inner.Pays part) :
    (optional zero inner).Pays part := by
  intro target
  dsimp only [optional]
  refine Reading.pays_word fun present => ?_
  split
  · exact (Reading.pays_done none).owes
  · split
    · exact (h (zero ())).present _ _
    · exact (Reading.pays_fault rfl target).owes

theorem pays_union {arm : Int32 → Option ((Unit → α) × Filter α)}
    (h : ∀ discriminant entry, arm discriminant = some entry → entry.2.Pays part) :
    (union arm).Pays part := by
  intro target
  dsimp only [union]
  refine Reading.pays_word fun w => ?_
  split
  · next zero selected harm => exact ((h _ _ harm (zero ())).map _ _).owes
  · exact (Reading.pays_fault rfl _).owes

end Filter

namespace Ty

open Xdr.Filter

variable {definitions : Definitions Ty} {part : Part}

/-- Every image of a value of the type takes some bytes. -/
def TakesBytes (definitions : Definitions Ty) (type : Ty) : Prop :=
  ∀ value layout, Laid definitions type value layout → layout ≠ []

/-- A value of such a type is only read from some bytes. -/
theorem TakesBytes.feeds {type : Ty} (h : TakesBytes definitions type) (depth : Nat) :
    ((filter definitions depth type).decode (zero definitions type)).Feeds := by
  intro policy consumed value haccepts
  obtain ⟨layout, hlaid, hadmits⟩ := laid_of_accepts (holds_zero_of_accepts haccepts) haccepts
  rintro rfl
  exact h value layout hlaid (List.length_eq_zero_iff.mp hadmits.length_eq.symm)

/-- The elements of all arrays behind a count that the type reaches take some bytes. -/
def ElementsTakeBytes (definitions : Definitions Ty) (whole : Ty) : Prop :=
  ∀ max element, Reaches definitions whole (varArray max element) → TakesBytes definitions element

/-- The filter of a type pays if those of the names that it reaches do. -/
theorem pays_of_refs {depth : Nat} {whole : Ty}
    (helements : part = .element → ElementsTakeBytes definitions whole)
    (hnamed : ∀ name, Reaches definitions whole (ref name) →
      (filter definitions depth (ref name)).Pays part)
    {type : Ty} (hreaches : Reaches definitions whole type) :
    (filter definitions depth type).Pays part := by
  induction type with
  | int32 => exact pays_int32.within _ _
  | uint32 => exact pays_uint32.within _ _
  | int64 => exact pays_int64.within _ _
  | uint64 => exact pays_uint64.within _ _
  | float => exact pays_float.within _ _
  | double => exact pays_double.within _ _
  | bool => exact pays_bool.within _ _
  | void => exact pays_void.within _ _
  | quadruple => exact pays_quadruple.within _ _
  | openEnum => exact pays_int32.within _ _
  | enumeration members => exact (pays_enumeration members).within _ _
  | fixedOpaque length => exact pays_fixedOpaque.within _ _
  | bytes max => exact (pays_bytes max).within _ _
  | string max => exact (pays_string max).within _ _
  | fixedArray length element ih =>
      exact (pays_fixedArray (ih (hreaches.tail (.fixedArray length element)))).within _ _
  | varArray max element ih =>
      refine (pays_varArray (ih (hreaches.tail (.varArray max element))) fun hpart => ?_).within _ _
      exact (helements hpart max element hreaches).feeds depth
  | optional inner ih =>
      exact (pays_optional (ih (hreaches.tail (.optional inner)))).within _ _
  | struct parts ih =>
      rw [filter, filterWith_struct]
      refine (pays_struct fun filter hmem => ?_).within _ _
      obtain ⟨type, htype, rfl⟩ := List.mem_map.mp hmem
      exact ih type htype (hreaches.tail (.struct htype))
  | union arms fallback ih =>
      rw [filter, filterWith_union]
      refine (pays_union fun discriminant entry harm => ?_).within _ _
      obtain ⟨selected, hselect, rfl⟩ := Option.map_eq_some_iff.mp harm
      exact ih discriminant selected hselect (hreaches.tail (.union hselect))
  | ref name => exact hnamed name hreaches

/-- However deep references are followed, there is a word for each part that a run states to have
read. -/
theorem pays_filter {whole : Ty}
    (helements : part = .element → ElementsTakeBytes definitions whole) (depth : Nat) {type : Ty}
    (hreaches : Reaches definitions whole type) :
    (filter definitions depth type).Pays part := by
  have hunresolved : unresolved.Pays part := fun target => by
    have hregular : (Refusal.mk (.unsupported "an unresolved reference") none true).Regular := rfl
    exact Reading.pays_refuse hregular target
  induction depth generalizing type with
  | zero => exact pays_of_refs helements (fun name _ target => (hunresolved target).later) hreaches
  | succ depth ih =>
      refine pays_of_refs helements (fun name hname target => ?_) hreaches
      cases hbody : definitions.lookup name with
      | none =>
          rw [filter, filterWith]
          dsimp only
          rw [Definitions.meaning_of_none hbody]
          exact (hunresolved target).later
      | some body =>
          rw [decode_ref hbody]
          exact (ih (hname.tail (.ref hbody)) target).later

end Ty

end Xdr
