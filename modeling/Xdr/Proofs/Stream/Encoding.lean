import Xdr.Proofs.Stream.Filter
import Xdr.Proofs.Stream.Layout
import Xdr.Proofs.Writing

/-!
# Encoding typed values

A value within the limits of its type is written as the image of its layout (`encode_of_laid`), and
of a string only the part in front of the first NUL matters (`encode_cut`). The budget for
references is never short: between two references to the same name lies a value of its own.
-/

namespace Xdr.Ty

variable {definitions : Definitions Ty}

/-! ### Only what is in front of a NUL matters -/

/-- Parts that do not see what lies behind a NUL do not see it in a row either. -/
theorem zipWith_encode_cut {filter : Ty → Filter Value} {parts : List Ty}
    (h : ∀ part ∈ parts, ∀ value, (filter part).encode (Value.cut value) =
      (filter part).encode value) (items : List Value) :
    List.zipWith Filter.encode (parts.map filter) (items.map Value.cut) =
      List.zipWith Filter.encode (parts.map filter) items := by
  induction parts generalizing items with
  | nil => rfl
  | cons part parts ih =>
      cases items with
      | nil => rfl
      | cons item items =>
          simp only [List.map_cons, List.zipWith_cons_cons]
          rw [h part List.mem_cons_self, ih fun other hmem => h other (List.mem_cons_of_mem _ hmem)]

/-- Filters do not see what lies behind a NUL, if those of the named types do not. -/
theorem filterWith_encode_cut {zero : Ty → Value} {named : String → Filter Value}
    (hnamed : ∀ name value, (named name).encode (Value.cut value) = (named name).encode value)
    (type : Ty) (value : Value) :
    (filterWith zero named type).encode value.cut = (filterWith zero named type).encode value := by
  have hmap {element : Ty} {items : List Value}
      (h : ∀ value, (filterWith zero named element).encode (Value.cut value) =
        (filterWith zero named element).encode value) :
      (items.map Value.cut).map (filterWith zero named element).encode =
        items.map (filterWith zero named element).encode := by
    rw [List.map_map]
    exact List.map_congr_left fun value _ => h value
  induction type generalizing value with
  | string max =>
      cases value with
      | string text =>
          show Filter.encodeSized .string .string max _ = Filter.encodeSized .string .string max _
          rw [Text.untilNul_bytes_cut]
      | _ => rfl
  | fixedArray length element ih =>
      cases value with
      | list items =>
          rw [Value.cut_list]
          exact congrArg Plan.concat (hmap ih)
      | _ => rfl
  | varArray max element ih =>
      cases value with
      | list items =>
          rw [Value.cut_list]
          show (if _ then _ else _) = if _ then _ else _
          rw [List.length_map, hmap ih]
      | _ => rfl
  | optional inner ih =>
      cases value with
      | present value => exact congrArg (Plan.one (.uint32 1) ++ ·) (ih value)
      | _ => rfl
  | struct parts ih =>
      cases value with
      | list items =>
          rw [Value.cut_list, filterWith_struct]
          show (if _ then _ else _) = if _ then _ else _
          rw [List.length_map Value.cut, zipWith_encode_cut ih items]
      | _ => rfl
  | union arms fallback ih =>
      rw [filterWith_union]
      cases value with
      | union discriminant arm =>
          refine congrArg (Plan.one (.int32 discriminant) ++ ·) ?_
          cases hselect : selectArm arms fallback discriminant with
          | none => simp only [hselect, Option.map_none]
          | some selected =>
              simp only [hselect, Option.map_some]
              exact ih discriminant selected hselect arm
      | _ => rfl
  | ref name => exact hnamed name value
  | _ => cases value <;> rfl

/-- What lies behind a NUL has no part in the plan of a value. -/
theorem encode_cut (type : Ty) (value : Value) :
    type.encode definitions value.cut = type.encode definitions value := by
  unfold encode filter
  rw [Value.depth_cut]
  refine filterWith_encode_cut (fun name value => ?_) type value
  refine definitions.meaning_induction
    (motive := fun _ (filter : Filter Value) => ∀ value, filter.encode (Value.cut value) =
      filter.encode value) (fun _ _ => rfl) ?_ _ name value
  exact fun named hnamed _ body _ value => filterWith_encode_cut hnamed body value

/-! ### What is written is the layout -/

/-- Parts that are each written as their layout are so in a row. -/
theorem concat_writes {encode : Ty → Value → Plan} {parts : List Ty} {items : List Value}
    {layout : Layout} (h : Parts (fun part item front => (encode part item).Writes front.image)
      parts items layout) :
    (Plan.concat (List.zipWith encode parts items)).Writes layout.image := by
  induction h with
  | nil => exact Plan.writes_empty
  | cons hhead _ ih =>
      rw [Layout.image_append]
      exact hhead.append ih

/-- A word in front of a plan is a word in front of its bytes. -/
theorem writes_word_append {item : Item} {plan : Plan} {word : UInt32} {layout : Layout}
    (hitem : item.image = wordImage word) (h : plan.Writes layout.image) :
    (Plan.one item ++ plan).Writes (Layout.image (.word word ++ layout)) := by
  rw [Layout.image_append, Layout.image_word, ← hitem]
  exact (Plan.writes_one item).append h

/-- Where enough references are followed, the value is written as the image of this layout: as many
as there are in front of the first part of the value, and for each part as many as there are
definitions. -/
def Written (definitions : Definitions Ty) (type : Ty) (value : Value) (layout : Layout) : Prop :=
  ∀ {chain depth : Nat}, value.cut = value → Grounded definitions chain type →
    chain + definitions.length * value.depth ≤ depth →
    ((type.filter definitions depth).encode value).Writes layout.image

/-- The parts of a value are written where there are enough references for the deepest. -/
theorem concat_written {parts : List Ty} {items : List Value} {layout : Layout}
    {chain depth : Nat} (h : Parts (Written definitions) parts items layout)
    (hcut : (Value.list items).cut = .list items)
    (hgrounded : ∀ part ∈ parts, Grounded definitions chain part)
    (hdepth : chain + definitions.length * Value.depths items ≤ depth) :
    (Plan.concat (List.zipWith (fun part => (part.filter definitions depth).encode) parts
      items)).Writes layout.image := by
  refine concat_writes (h.imp_of_mem List.length (fun _ _ => List.length_append) ?_)
  intro part hpart item hitem front _ hwritten
  refine hwritten (Value.cut_of_mem hcut hitem) (hgrounded part hpart) ?_
  have := Nat.mul_le_mul_left definitions.length (Value.depth_le_depths hitem)
  omega

/-- The parts of a value that is one of a list of them are at least one level further down. -/
theorem within_list {chain depth : Nat} {items : List Value}
    (hdepth : chain + definitions.length * (Value.list items).depth ≤ depth) :
    chain + definitions.length * Value.depths items ≤ depth ∧
      definitions.length + definitions.length * Value.depths items ≤ depth := by
  rw [Value.depth, Nat.mul_succ] at hdepth
  omega

/-- A value within the limits of its type is written as the image of its layout. -/
theorem Laid.written {type : Ty} {value : Value} {layout : Layout}
    (h : Laid definitions type value layout) : Written definitions type value layout := by
  induction h with
  | int32 value => exact fun _ _ _ => Plan.writes_item (.int32 value) (Layout.image_word _).symm
  | uint32 value => exact fun _ _ _ => Plan.writes_item (.uint32 value) (Layout.image_word _).symm
  | int64 value => exact fun _ _ _ => Plan.writes_item (.int64 value) (Layout.image_hyper _).symm
  | uint64 value => exact fun _ _ _ => Plan.writes_item (.uint64 value) (Layout.image_hyper _).symm
  | float bits => exact fun _ _ _ => Plan.writes_item (.float bits) (Layout.image_word _).symm
  | double bits => exact fun _ _ _ => Plan.writes_item (.double bits) (Layout.image_hyper _).symm
  | bool value => exact fun _ _ _ => Plan.writes_item (.bool value) (Layout.image_word _).symm
  | void => exact fun _ _ _ => Plan.writes_empty
  | openEnum value => exact fun _ _ _ => Plan.writes_item (.int32 value) (Layout.image_word _).symm
  | @enumeration members value hmem =>
      intro _ depth _ _ _
      have hplan : (filter definitions depth (.enumeration members)).encode (.int32 value) =
        .one (.int32 value) := if_pos hmem
      rw [hplan]
      exact Plan.writes_item _ (Layout.image_word _).symm
  | @fixedOpaque length data hlength =>
      exact fun _ _ _ => Plan.writes_item (.fixedOpaque data) (Layout.image_padded data).symm
  | @bytes max data hmax =>
      intro _ depth _ _ _
      have hplan : (filter definitions depth (.bytes max)).encode (.bytes data) =
        .one (.sized .bytes data) := if_pos hmax
      rw [hplan]
      exact Plan.writes_item _ (Layout.image_sized data).symm
  | @string max text hmax =>
      intro _ depth hcut _ _
      have hplan : (filter definitions depth (.string max)).encode (.string text) =
          .one (.sized .string (Text.bytes text)) := by
        show Filter.encodeSized .string .string max (Text.untilNul (Text.bytes text)) = _
        rw [Text.untilNul_of_cut_eq (Value.string.inj hcut)]
        exact if_pos hmax
      rw [hplan]
      exact Plan.writes_item _ (Layout.image_sized _).symm
  | @fixedArray length element items layout hparts ih =>
      intro chain depth hcut hgrounded hdepth
      have hlength : length = items.length := by simpa using hparts.length_eq
      have hwritten : Parts (Written definitions) (List.replicate length element) items layout :=
        ih.imp fun hpart => hpart.2
      show (Plan.concat (items.map (filter definitions depth element).encode)).Writes _
      rw [← zipWith_replicate_left (fun part => (filter definitions depth part).encode) hlength]
      refine concat_written hwritten hcut (fun part hpart => ?_) (within_list hdepth).1
      exact hgrounded.of_subset (direct_subset_fixedArray hpart)
  | @varArray max element items layout hmax hparts ih =>
      intro chain depth hcut _ hdepth
      have hwritten : Parts (Written definitions) (List.replicate items.length element) items
        layout := ih.imp fun hpart => hpart.2
      have hplan : (filter definitions depth (.varArray max element)).encode (.list items) =
        .one (.uint32 (UInt32.ofNat items.length)) ++
          .concat (items.map (filter definitions depth element).encode) := if_pos hmax
      rw [hplan, ← zipWith_replicate_left (fun part => (filter definitions depth part).encode) rfl]
      refine writes_word_append rfl (concat_written hwritten hcut ?_ (within_list hdepth).2)
      exact hparts.forall_kind Laid.grounded
  | absent =>
      exact fun _ _ _ => Plan.writes_item (.uint32 0) (Layout.image_word 0).symm
  | @present inner value layout h ih =>
      intro chain depth hcut _ hdepth
      rw [Value.depth, Nat.mul_succ] at hdepth
      exact writes_word_append rfl (ih (Value.present.inj hcut) h.grounded (by omega))
  | @struct parts items layout hparts ih =>
      intro chain depth hcut hgrounded hdepth
      have hwritten : Parts (Written definitions) parts items layout :=
        ih.imp fun hpart => hpart.2
      have hplan : (filter definitions depth (.struct parts)).encode (.list items) =
          .concat (List.zipWith (fun part => (filter definitions depth part).encode) parts
            items) := by
        rw [filter, filterWith_struct]
        refine (if_pos (by rw [List.length_map, hparts.length_eq])).trans ?_
        rw [List.zipWith_map_left]
      rw [hplan]
      refine concat_written hwritten hcut (fun part hpart => ?_) (within_list hdepth).1
      exact hgrounded.of_subset (direct_subset_struct hpart)
  | @union arms fallback discriminant selected arm layout hselect h ih =>
      intro chain depth hcut _ hdepth
      have hplan : (filter definitions depth (.union arms fallback)).encode
          (.union discriminant arm) =
          .one (.int32 discriminant) ++ (filter definitions depth selected).encode arm := by
        rw [filter, filterWith_union]
        show _ ++ _ = _
        simp only [hselect, Option.map_some]
      rw [Value.depth, Nat.mul_succ] at hdepth
      rw [hplan]
      exact writes_word_append rfl (ih (Value.union.inj hcut).2 h.grounded (by omega))
  | ref hbody h ih =>
      intro chain depth hcut hgrounded hdepth
      obtain ⟨chain, rfl, hbodyGrounded⟩ := hgrounded.body List.mem_cons_self hbody
      obtain ⟨depth, rfl⟩ := Nat.exists_eq_add_of_le' (show 1 ≤ depth by omega)
      rw [encode_ref hbody]
      exact ih hcut hbodyGrounded (by omega)

/-- A value is written as the image of its layout if it is within the limits of its type up to the
first NUL of each string. -/
theorem encode_of_laid {type : Ty} {value : Value} {layout : Layout}
    (h : Laid definitions type value.cut layout) :
    (type.encode definitions value).Writes layout.image := by
  rw [← encode_cut]
  exact h.written (Value.cut_cut value) h.grounded (definitions.budget_le (Nat.le_refl _))

end Xdr.Ty
