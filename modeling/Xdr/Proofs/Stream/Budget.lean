import Xdr.Proofs.Agreement
import Xdr.Proofs.Stream.Reach

/-!
# Budgets for reading typed values

References are followed as deep as the bytes that are left can need, so a decoder whose source holds
more follows them deeper. Where definitions lead back to themselves only behind a word, this makes
no difference (`Ty.decode_agrees`), and reading a well-formed type comes to an end before references
go deeper than that, whatever may lie there (`Ty.decode_beyond`).
-/

namespace Xdr

/-- Only lists have a content that is a list. -/
theorem Value.eq_of_list? {value : Value} {items : List Value} (h : value.list? = some items) :
    value = .list items := by
  cases value with
  | list found => exact congrArg Value.list (Option.some.inj h)
  | _ => cases h

namespace Filter

variable {α β : Type} {left : Nat}

/-- A target of a larger type is replaced alike by filters that agree on the part in it. -/
theorem agrees_within {inner inner' : Filter α} {inject : α → β} {project : β → Option α}
    {target : β}
    (h : ∀ part, project target = some part →
      (inner.decode part).Agrees left (inner'.decode part)) :
    ((inner.within inject project).decode target).Agrees left
      ((inner'.within inject project).decode target) := by
  cases hpart : project target with
  | none =>
      rw [decode_within_of_none hpart, decode_within_of_none hpart]
      exact Reading.agrees_self _
  | some part =>
      rw [decode_within_of_some hpart, decode_within_of_some hpart]
      exact (h part hpart).map _ _

/-- The elements of an array behind a count are read where a word less is left. -/
theorem agrees_varArray {max : UInt32} {zero : Unit → α} {element element' : Filter α}
    (h : ∀ less, less + 4 ≤ left →
      (element.decode (zero ())).Agrees less (element'.decode (zero ()))) (targets : List α) :
    ((varArray max zero element).decode targets).Agrees left
      ((varArray max zero element').decode targets) := by
  dsimp only [varArray]
  refine Reading.agrees_word fun count less hless => ?_
  split
  · exact Reading.agrees_replicate (h less hless).later _ _
  · exact Reading.agrees_self _

/-- So is a value that may be absent. -/
theorem agrees_optional {zero : Unit → α} {inner inner' : Filter α}
    (h : ∀ less, less + 4 ≤ left → (inner.decode (zero ())).Agrees less (inner'.decode (zero ())))
    (target : Option α) :
    ((optional zero inner).decode target).Agrees left ((optional zero inner').decode target) := by
  dsimp only [optional]
  refine Reading.agrees_word fun present less hless => ?_
  split
  · exact Reading.agrees_self _
  · split
    · exact (h less hless).andThen fun _ => Reading.agrees_self _
    · exact Reading.agrees_self _

/-- So is the arm that a discriminant selects. -/
theorem agrees_union {σ : Type} {select : Int32 → Option σ} {zero : σ → Unit → α}
    {arm arm' : σ → Filter α}
    (h : ∀ discriminant selected, select discriminant = some selected → ∀ less, less + 4 ≤ left →
      ((arm selected).decode (zero selected ())).Agrees less
        ((arm' selected).decode (zero selected ())))
    (target : Int32 × α) :
    ((union fun discriminant => (select discriminant).map fun selected =>
        (zero selected, arm selected)).decode target).Agrees left
      ((union fun discriminant => (select discriminant).map fun selected =>
        (zero selected, arm' selected)).decode target) := by
  dsimp only [union]
  refine Reading.agrees_word fun w less hless => ?_
  cases hselect : select w.toInt32 with
  | none => exact Reading.agrees_self _
  | some selected => exact (h _ selected hselect less hless).map _ _

/-- The parts of a struct are read one after the other. -/
theorem agrees_struct {τ : Type} {parts : List τ} {part part' : τ → Filter α} {targets : List α}
    (h : ∀ kind target, (kind, target) ∈ parts.zip targets →
      ((part kind).decode target).Agrees left ((part' kind).decode target)) :
    ((struct (parts.map part)).decode targets).Agrees left
      ((struct (parts.map part')).decode targets) := by
  show Reading.Agrees left (if _ then _ else _) (if _ then _ else _)
  rw [List.length_map, List.length_map]
  split
  · rw [List.zipWith_map_left, List.zipWith_map_left, ← List.map_uncurry_zip_eq_zipWith,
      ← List.map_uncurry_zip_eq_zipWith]
    exact Reading.agrees_inOrder (fun (kind, target) hmem => h kind target hmem) []
  · exact Reading.agrees_self _

end Filter

namespace Ty

variable {definitions : Definitions Ty} {left : Nat}

/-- Somewhere in the value there are elements in the place of an empty array. No value of the type
is like that. -/
inductive Overfull (definitions : Definitions Ty) : Ty → Value → Prop where
  | array (element) {items} : items ≠ [] → Overfull definitions (fixedArray 0 element) (.list items)
  | element {length element items item} : item ∈ items → Overfull definitions element item →
      Overfull definitions (fixedArray length element) (.list items)
  | part {parts items part item} : (part, item) ∈ List.zip parts items →
      Overfull definitions part item → Overfull definitions (struct parts) (.list items)
  | ref {name body value} : definitions.lookup name = some body → Overfull definitions body value →
      Overfull definitions (ref name) value

/-- Only lists can be overfull. -/
theorem Overfull.exists_list {type : Ty} {value : Value} (h : Overfull definitions type value) :
    ∃ items, value = .list items := by
  induction h with
  | ref _ _ ih => exact ih
  | _ => exact ⟨_, rfl⟩

/-- What a target can hold is not overfull. -/
theorem Holds.not_overfull {type : Ty} {value : Value} (h : Holds definitions type value) :
    ¬ Overfull definitions type value := by
  intro hover
  induction hover with
  | array element hitems =>
      cases h with
      | fixedArray hparts => exact hitems (List.forall₂_nil_left_iff.mp hparts)
  | @element length element items item hmem _ ih =>
      cases h with
      | fixedArray hparts =>
          obtain ⟨position, hposition, rfl⟩ := List.getElem_of_mem hmem
          have hlength := hparts.length_eq
          have hholds := hparts.get (by omega) hposition
          rw [List.get_eq_getElem, List.getElem_replicate] at hholds
          exact ih hholds
  | part hmem _ ih =>
      cases h with
      | struct hparts => exact ih (List.forall₂_zip hparts hmem)
  | ref hbody _ ih =>
      cases h with
      | ref hfound hholds =>
          obtain rfl := Option.some.inj (hfound.symm.trans hbody)
          exact ih hholds

/-- A new target is not overfull. -/
theorem not_overfull_zeroWith (level : Nat) (type : Ty) :
    ¬ Overfull definitions type (zeroWith (definitions.meaning zeroWith .void level) type) := by
  intro h
  generalize hvalue : zeroWith (definitions.meaning zeroWith .void level) type = value at h
  induction h generalizing level with
  | array element hitems =>
      rw [zeroWith, List.replicate_zero] at hvalue
      exact hitems (Value.list.inj hvalue).symm
  | @element length element items item hmem _ ih =>
      rw [zeroWith] at hvalue
      obtain rfl := Value.list.inj hvalue
      exact ih level (List.mem_replicate.mp hmem).2.symm
  | @part parts items part item hmem _ ih =>
      rw [zeroWith, zerosWith_eq_map] at hvalue
      obtain rfl := Value.list.inj hvalue
      have hitems : List.Forall₂ (fun part item =>
          zeroWith (definitions.meaning zeroWith .void level) part = item) parts
          (parts.map (zeroWith (definitions.meaning zeroWith .void level))) :=
        List.forall₂_map_right_iff.mpr (List.forall₂_same.mpr fun _ _ => rfl)
      exact ih level (List.forall₂_zip hitems hmem)
  | @ref name body value hbody hover ih =>
      cases level with
      | zero =>
          obtain ⟨items, rfl⟩ := hover.exists_list
          cases hvalue
      | succ level =>
          refine ih level ?_
          rw [← hvalue, zeroWith, Definitions.meaning_succ _ _ _ _ hbody]

/-- Filters of a name that agree on all targets that are not overfull. -/
def Matches (definitions : Definitions Ty) (left : Nat) (name : String)
    (first second : Filter Value) : Prop :=
  ∀ target, ¬ Overfull definitions (ref name) target →
    (first.decode target).Agrees left (second.decode target)

/-- The filters of a type agree if those of the names do: of the names that it mentions directly
with as many bytes left, and of all others that it reaches behind a word. -/
theorem filterWith_agrees {named named' : String → Filter Value} {type : Ty} {target : Value}
    (hdirect : ∀ name ∈ type.direct, Matches definitions left name (named name) (named' name))
    (hothers : ∀ less, less + 4 ≤ left → ∀ name, Reaches definitions type (ref name) →
      Matches definitions less name (named name) (named' name))
    (htarget : ¬ Overfull definitions type target) :
    ((filterWith (zero definitions) named type).decode target).Agrees left
      ((filterWith (zero definitions) named' type).decode target) := by
  induction type generalizing left target with
  | fixedArray length element ih =>
      have hcontains : Contains definitions (fixedArray length element) element :=
        .fixedArray length element
      refine Filter.agrees_within fun items hitems => ?_
      obtain rfl := Value.eq_of_list? hitems
      refine Reading.agrees_inOrder (fun item hmem => ?_) []
      -- an empty array does not mention the names in its element type
      have hlength : length ≠ 0 := by
        rintro rfl
        exact htarget (.array element (List.ne_nil_of_mem hmem))
      refine ih (fun name hname => hdirect name ?_)
        (fun less hless name hname => hothers less hless name (.head hcontains hname))
        fun h => htarget (.element hmem h)
      rwa [direct, if_neg hlength]
  | varArray max element ih =>
      have hcontains : Contains definitions (varArray max element) element := .varArray max element
      refine Filter.agrees_within fun items _ => Filter.agrees_varArray (fun less hless => ?_) items
      exact ih
        (fun name hname => hothers less hless name (.head hcontains (reaches_of_mem_direct hname)))
        (fun lesser hlesser name hname =>
          hothers lesser (by omega) name (.head hcontains hname))
        (not_overfull_zeroWith _ element)
  | optional inner ih =>
      have hcontains : Contains definitions (optional inner) inner := .optional inner
      refine Filter.agrees_within fun value _ => Filter.agrees_optional (fun less hless => ?_) value
      exact ih
        (fun name hname => hothers less hless name (.head hcontains (reaches_of_mem_direct hname)))
        (fun lesser hlesser name hname =>
          hothers lesser (by omega) name (.head hcontains hname))
        (not_overfull_zeroWith _ inner)
  | struct parts ih =>
      rw [filterWith_struct, filterWith_struct]
      refine Filter.agrees_within fun items hitems => Filter.agrees_struct fun part item hmem => ?_
      obtain rfl := Value.eq_of_list? hitems
      have hpart := (List.of_mem_zip hmem).1
      refine ih part hpart (fun name hname => ?_)
        (fun less hless name hname => hothers less hless name (.head (.struct hpart) hname))
        fun h => htarget (.part hmem h)
      exact hdirect name (direct_subset_struct hpart hname)
  | union arms fallback ih =>
      rw [filterWith_union, filterWith_union]
      refine Filter.agrees_within fun value _ =>
        Filter.agrees_union (fun discriminant selected hselect less hless => ?_) value
      exact ih discriminant selected hselect
        (fun name hname =>
          hothers less hless name (.head (.union hselect) (reaches_of_mem_direct hname)))
        (fun lesser hlesser name hname =>
          hothers lesser (by omega) name (.head (.union hselect) hname))
        (not_overfull_zeroWith _ selected)
  | ref name =>
      exact hdirect name List.mem_cons_self target htarget
  | _ => exact Reading.agrees_self _

/-- The source of a decoder may hold more than what is left, and references be followed deeper: a
target of the type is replaced alike. -/
theorem decode_agrees (hguarded : definitions.Guarded direct) {type : Ty} {target : Value}
    (htarget : ¬ Overfull definitions type target) {more : Nat} (hle : left ≤ more) :
    (type.decode definitions left target).Agrees left (type.decode definitions more target) := by
  have hnamed : ∀ less, less ≤ left → ∀ name, Matches definitions less name
      (definitions.meaning (filterWith (zero definitions)) unresolved
        ((definitions.length + 1) * (left / 4 + 2)) name)
      (definitions.meaning (filterWith (zero definitions)) unresolved
        ((definitions.length + 1) * (more / 4 + 2)) name) := by
    intro less hless name
    have hbudget := definitions.budget_le (show less / 4 + 1 ≤ left / 4 + 2 by omega)
    have hmore := definitions.budget_le (show less / 4 + 1 ≤ more / 4 + 2 by omega)
    refine Definitions.meaning_related hguarded (fun _ _ _ _ _ => Reading.agrees_self _) ?_ less
      hbudget hmore name
    intro left name body depth depth' hbody named named' hdirect hothers target htarget
    exact filterWith_agrees hdirect (fun less hless name _ => hothers less hless name)
      fun h => htarget (.ref hbody h)
  exact filterWith_agrees (fun name _ => hnamed left (Nat.le_refl left) name)
    (fun less hless name _ => hnamed less (by omega) name) htarget

/-- The filter of a type where references more than `depth` deep inside one another mean
`beyond`. -/
def filterBeyond (definitions : Definitions Ty) (beyond : Filter Value) (depth : Nat) :
    Ty → Filter Value :=
  filterWith (zero definitions) (definitions.meaning (filterWith (zero definitions)) beyond depth)

/-- Reading a well-formed type comes to an end before references go deeper than the model follows
them: it makes no difference what is there. -/
theorem decode_beyond {type : Ty} {target : Value} (h : WellFormed definitions type)
    (htarget : ¬ Overfull definitions type target) (beyond : Filter Value) {depth : Nat}
    (hdepth : (definitions.length + 1) * (left / 4 + 2) ≤ depth) :
    ((filterBeyond definitions beyond depth type).decode target).Agrees left
      (type.decode definitions left target) := by
  have hnamed : ∀ less, less ≤ left → ∀ name, Reaches definitions type (ref name) →
      Matches definitions less name
        (definitions.meaning (filterWith (zero definitions)) beyond depth name)
        (definitions.meaning (filterWith (zero definitions)) unresolved
          ((definitions.length + 1) * (left / 4 + 2)) name) := by
    intro less hless
    have hbudget := definitions.budget_le (show less / 4 + 1 ≤ left / 4 + 2 by omega)
    refine @Definitions.meaning_related _ definitions direct _ _ _ _
      (fun less name first second => Reaches definitions type (ref name) →
        Matches definitions less name first second)
      h.guarded (fun less name hnone hname => ?_) ?_ less _ _ (hbudget.trans hdepth) hbudget
    · obtain ⟨body, hbody⟩ := h.defined hname
      cases hnone.symm.trans hbody
    · intro left name body depth depth' hbody named named' hdirect hothers hname target htarget
      have hreaches : Reaches definitions type body := hname.tail (.ref hbody)
      exact filterWith_agrees
        (fun inner hinner => hdirect inner hinner (hreaches.trans (reaches_of_mem_direct hinner)))
        (fun less hless inner hinner => hothers less hless inner (hreaches.trans hinner))
        fun h => htarget (.ref hbody h)
  exact filterWith_agrees
    (fun name hname => hnamed left (Nat.le_refl left) name (reaches_of_mem_direct hname))
    (fun less hless => hnamed less (by omega)) htarget

end Ty

end Xdr
