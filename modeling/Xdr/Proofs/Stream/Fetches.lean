import Xdr.Proofs.Fetches
import Xdr.Proofs.Stream.Budget

/-!
# What is read at once for a typed value

`Ty.Fetches` says what decoding a type fetches from which bytes, with the error it ends with if
there is one and the bytes that are left. The statement to read first is `fetches_decode`: the
readings of well-formed types fetch what it says.
-/

namespace Xdr

/-- A part of a larger type is fetched as such. -/
theorem Filter.fetches_within {α β : Type} {policy : PaddingPolicy} {left : Nat} {R : Fetching}
    {inner : Filter α} {inject : α → β} {project : β → Option α} {target : β} {part : α}
    (hpart : project target = some part) (h : (inner.decode part).Fetches policy left R) :
    ((inner.within inject project).decode target).Fetches policy left R := by
  rw [decode_within_of_some hpart]
  exact h.map _ _

namespace Ty

open Fetching Reading

/-- How types open. -/
def opening (definitions : Definitions Ty) : Ty → Option (Opening Ty)
  | int32 | uint32 | float | openEnum => some (.leaf (.word fun _ => none))
  | int64 | uint64 | double => some (.leaf .hyper)
  | bool => some (.leaf (.word checkBool))
  | enumeration members => some (.leaf (.word fun w =>
      if w.toInt32 ∈ members then none else some (.invalidEnum w.toInt32)))
  | fixedOpaque length => some (.leaf (.fixedOpaque length fun _ => none))
  | bytes max => some (.leaf (.sized max fun _ => none))
  | string max => some (.leaf (.sized max checkText))
  | void => some (.row [] none)
  | quadruple => some (.row [] (some (.unsupported "quadruple")))
  | fixedArray length element => some (.row (List.replicate length element) none)
  | struct parts => some (.row parts none)
  | varArray max element => some (.word fun count =>
      if count ≤ max then .ok (List.replicate count.toNat element)
      else .error (.lengthExceeded max count.toNat))
  | optional inner => some (.word fun w =>
      if w = 0 then .ok [] else if w = 1 then .ok [inner] else .error (.invalidOption w))
  | union arms fallback => some (.word fun w =>
      match selectArm arms fallback w.toInt32 with
      | some selected => .ok [selected]
      | none => .error (.invalidDiscriminant w.toInt32.toInt))
  | ref name => (definitions.lookup name).map fun body => .row [body] none

/-- What is fetched for a type. -/
abbrev Fetches (definitions : Definitions Ty) (policy : PaddingPolicy) : Ty → Fetching :=
  Opening.Fetches (opening definitions) policy

variable {definitions : Definitions Ty} {policy : PaddingPolicy} {left : Nat} {type : Ty}
  {target : Value}

/-- Types that open with a leaf are fetched as that leaf. -/
theorem fetches_leaf {zero : Ty → Value} {named : String → Filter Value} {leaf : Scalar}
    (htarget : Holds definitions type target) (h : type.opening definitions = some (.leaf leaf)) :
    ((filterWith zero named type).decode target).Fetches policy left
      (Fetches definitions policy type) := by
  suffices hleaf : ((filterWith zero named type).decode target).Fetches policy left
      (leaf.Fetches policy) from hleaf.mono (.leaf h)
  cases htarget <;> try cases h
  case int32 | uint32 | float | openEnum =>
    exact Filter.fetches_within rfl (fetches_checked fun w => fetches_done _)
  case int64 | uint64 | double =>
    refine Filter.fetches_within rfl ?_
    dsimp only [Filter.int64, Filter.uint64, Filter.double]
    exact fetches_hyper
  case bool =>
    refine Filter.fetches_within rfl ?_
    dsimp only [Filter.bool]
    exact fetches_bool
  case enumeration members value =>
    refine Filter.fetches_within rfl ?_
    dsimp only [Filter.enumeration]
    refine fetches_checked fun w => ?_
    split
    · exact fetches_done _
    · exact fetches_refuse _ _
  case fixedOpaque data hlength =>
    subst hlength
    exact Filter.fetches_within rfl (fetches_fixedOpaque fun data => fetches_done data)
  case bytes max buffer =>
    refine Filter.fetches_within rfl ?_
    dsimp only [Filter.bytes]
    exact fetches_sized
  case string max text =>
    refine Filter.fetches_within rfl ?_
    dsimp only [Filter.string]
    exact fetches_string
  case ref hbody _ => simp [opening, hbody] at h

/-- Targets of types are fetched in a row. -/
theorem fetches_parts {parts : List Ty} {targets : List Value}
    {read : Ty → Value → Reading Value Value}
    (h : ∀ part ∈ parts, ∀ target, Holds definitions part target →
      (read part target).Fetches policy left (Fetches definitions policy part))
    (htargets : List.Forall₂ (Holds definitions) parts targets) :
    (inOrder (List.zipWith (fun part target => (target, read part target)) parts targets)
      []).Fetches policy left (Row (Fetches definitions policy) parts) := by
  refine fetches_inOrder ?_ []
  induction htargets with
  | nil => exact .nil
  | cons htarget _ ih =>
      obtain ⟨hpart, hparts⟩ := List.forall_mem_cons.mp h
      exact .cons (hpart _ htarget) (ih hparts)

/-- A type fetches what it is said to if the names that it refers to do. -/
theorem fetches_filterWith {named : String → Filter Value}
    (href : ∀ name target, WellFormed definitions (ref name) →
      Holds definitions (ref name) target →
      ((named name).decode target).Fetches policy left (Fetches definitions policy (ref name)))
    (hformed : WellFormed definitions type) (htarget : Holds definitions type target) :
    ((filterWith (zero definitions) named type).decode target).Fetches policy left
      (Fetches definitions policy type) := by
  induction type generalizing target with
  | void =>
      cases htarget with
      | void => exact Opening.fetches_nothing rfl (Filter.fetches_within rfl (fetches_done _))
  | quadruple =>
      cases htarget with
      | quadruple =>
          exact Opening.fetches_nothing rfl (Filter.fetches_within rfl (fetches_refuse _ _))
  | fixedArray length element ih =>
      cases htarget with
      | @fixedArray _ _ targets htargets =>
          have hlength : length = targets.length := by simpa using htargets.length_eq
          have helement := hformed.of_contains (.fixedArray length element)
          have helements : ∀ part ∈ List.replicate length element, ∀ target,
              Holds definitions part target →
              ((filterWith (zero definitions) named part).decode target).Fetches policy left
                (Fetches definitions policy part) := by
            intro part hpart target htarget
            obtain rfl := (List.mem_replicate.mp hpart).2
            exact ih helement htarget
          have hrow := fetches_parts helements htargets
          rw [zipWith_replicate_left _ hlength] at hrow
          exact Filter.fetches_within rfl (Opening.fetches_row rfl hrow)
  | struct parts ih =>
      cases htarget with
      | @struct _ targets htargets =>
          have hrow := fetches_parts (fun part hpart target =>
            ih part hpart (hformed.of_contains (.struct hpart))) htargets
          rw [filterWith_struct]
          refine Filter.fetches_within rfl ?_
          rw [Filter.decode_struct (by rw [List.length_map, htargets.length_eq]),
            List.zipWith_map_left]
          exact Opening.fetches_row rfl hrow
  | varArray max element ih =>
      have helement := hformed.of_contains (.varArray max element)
      cases htarget with
      | varArray _ _ targets =>
          refine Filter.fetches_within rfl ?_
          dsimp only [Filter.varArray]
          refine Opening.fetches_word rfl fun count => ?_
          by_cases hmax : count ≤ max
          · simp only [if_pos hmax]
            exact fetches_replicate (ih helement helement.holds_zero).later _ []
          · simp only [if_neg hmax]
            exact fetches_refuse _ _
  | optional inner ih =>
      have hinner := hformed.of_contains (.optional inner)
      obtain ⟨old, hold⟩ := htarget.exists_option
      refine Filter.fetches_within hold ?_
      dsimp only [Filter.optional]
      refine Opening.fetches_word rfl fun w => ?_
      by_cases hzero : w = 0
      · simp only [if_pos hzero]
        exact fetches_emptyRow _
      · by_cases hone : w = 1
        · simp only [if_neg hzero, if_pos hone]
          refine Reading.Fetches.mono ?_ Row.singleton
          exact (ih hinner hinner.holds_zero).andThen_nothing fun value => (fetches_done _).mark
        · simp only [if_neg hzero, if_neg hone]
          exact fetches_refuse _ _
  | union arms fallback ih =>
      cases htarget with
      | union _ _ discriminant arm =>
          rw [filterWith_union]
          refine Filter.fetches_within rfl ?_
          dsimp only [Filter.union]
          refine Opening.fetches_word rfl fun w => ?_
          cases hselect : selectArm arms fallback w.toInt32 with
          | none => exact fetches_refuse _ _
          | some selected =>
              have hselected := hformed.of_contains (.union hselect)
              exact ((ih _ selected hselect hselected hselected.holds_zero).map _ _).mono
                Row.singleton
  | ref name => exact (href name target hformed htarget).later
  | _ => exact fetches_leaf htarget rfl

/-- So does a type where asking for too many bytes stands for what lies too deep. -/
theorem fetches_filterBeyond (depth : Nat) {beyond : Filter Value}
    (hbeyond : ∀ target, (beyond.decode target).Fetches policy left fun _ _ => False)
    (hformed : WellFormed definitions type) (htarget : Holds definitions type target) :
    ((filterBeyond definitions beyond depth type).decode target).Fetches policy left
      (Fetches definitions policy type) := by
  induction depth generalizing type target with
  | zero =>
      refine fetches_filterWith (fun name target _ _ => ?_) hformed htarget
      exact (hbeyond target).mono False.elim
  | succ depth ih =>
      refine fetches_filterWith (fun name target hformed htarget => ?_) hformed htarget
      cases htarget with
      | @ref _ body _ hbody hinner =>
          rw [Definitions.meaning_succ _ _ _ _ hbody]
          refine Opening.fetches_row (by rw [opening, hbody, Option.map_some]) ?_
          exact (ih (hformed.of_contains (.ref hbody)) hinner).mono Row.singleton

/-- What a well-formed type fetches when it is decoded on a decoder that is not poisoned, where its
calls are satisfied in full. -/
theorem fetches_decode {decoder after : Decoder} {result : Except (Stopped Value) Value}
    (hformed : WellFormed definitions type) (htarget : Holds definitions type target)
    (husable : decoder.poisoned = false)
    (hrun : (type.decode definitions decoder.transport.rest.length target).run decoder =
      (result, after))
    (hfull : decoder.transport.account.InFull after.transport.account) :
    ∃ fetches, type.Fetches definitions decoder.config.padding decoder.transport.rest
        ⟨fetches, errorOf result, after.transport.rest⟩ ∧
      after.transport.requests.toList =
        decoder.transport.requests.toList ++ fetches.flatMap Fetch.calls := by
  -- what is asked for below the last level is never reached, so it may be too much
  let beyond : Filter Value :=
    { encode := fun _ => .empty
      decode := fun target => asking (decoder.transport.rest.length + 1) target target }
  have hagrees := decode_beyond hformed htarget.not_overfull beyond (Nat.le_refl _) decoder
    (Nat.le_refl _)
  refine (fetches_filterBeyond _ (fun target => ?_) hformed htarget).of_run husable
    (hagrees.trans hrun) hfull
  exact fetches_asking

end Ty

end Xdr
