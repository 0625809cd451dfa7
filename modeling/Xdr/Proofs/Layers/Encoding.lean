import Xdr.Proofs.Comparison
import Xdr.Proofs.Model.Encoding
import Xdr.Proofs.Model.Streamed
import Xdr.Proofs.Stream.Encoding

/-!
# Data written as their values

The plan of a datum and the plan of the value that it is do the same on every encoder that is not
poisoned (`Schema.alike_encode`). They may differ in what is logged, and in what an error reports
along with its cause.
-/

namespace Xdr

/-- The errors are the same, whatever they report along with their cause. -/
def Error.SameKind (error error' : Error) : Prop :=
  error.ctorIdx = error'.ctorIdx

theorem Error.SameKind.refl (error : Error) : error.SameKind error :=
  rfl

variable {config : Config} {ceiling : UInt32} {definitions : Definitions Schema}

/-- On all encoders that are not poisoned, the plans do the same and end well or with errors of the
same kind. -/
abbrev Plan.Alike (config : Config) (plan plan' : Plan) : Prop :=
  plan.Tallies True config config (fun _ => false) Error.SameKind plan'

namespace Plan

theorem alike_one {item item' : Item} (h : item'.image = item.image) :
    Alike config (one item) (one item') :=
  tallies_one h .refl

theorem alike_refuse {refusal refusal' : Refusal}
    (hfault : refusal'.fault.isSome = refusal.fault.isSome)
    (hkind : refusal.error.SameKind refusal'.error) :
    Alike config (refuse refusal) (refuse refusal') :=
  tallies_refuse_of_fresh trivial hfault hkind

/-- Data are refused or written behind their length, whatever the event that is logged. -/
theorem alike_encodeSized (kind kind' : SizedKind) (operation operation' : Operation)
    (ceiling : UInt32) (data : List UInt8) :
    Alike config (Filter.encodeSized kind operation ceiling data)
      (Filter.encodeSized kind' operation' ceiling data) := by
  unfold Filter.encodeSized
  split
  · exact alike_one rfl
  · exact alike_refuse rfl rfl

end Plan

namespace Schema

open Plan (Alike)

/-- Where the datum is what the schema says and has no NUL in its strings, its plan and that of its
value do the same. -/
def Writes (config : Config) (definitions : Definitions Schema) (schema : Schema)
    (plan : Datum → Plan) (filter : Filter Value) : Prop :=
  ∀ ⦃datum outline⦄, Laid definitions schema datum outline →
    datum.streamed.cut = datum.streamed → Alike config (plan datum) (filter.encode datum.streamed)

/-- Parts that are written alike are so in a row. -/
theorem alike_zipWith {plan : Schema → Datum → Plan} {filter : Schema → Filter Value}
    {schemas : List Schema} {data : List Datum} {outline : Outline}
    (h : Parts (Laid definitions) schemas data outline)
    (hwrites : ∀ schema ∈ schemas, Writes config definitions schema (plan schema) (filter schema))
    (hcut : ∀ datum ∈ data, datum.streamed.cut = datum.streamed) :
    Alike config (.concat (List.zipWith plan schemas data))
      (.concat (List.zipWith (fun schema => (filter schema).encode) schemas
        (data.map Datum.streamed))) := by
  induction h with
  | nil => exact Plan.tallies_empty
  | cons hhead _ ih =>
      obtain ⟨hschema, hschemas⟩ := List.forall_mem_cons.mp hwrites
      obtain ⟨hdatum, hdata⟩ := List.forall_mem_cons.mp hcut
      exact Plan.Tallies.append (hschema hhead hdatum) (ih hschemas hdata)

theorem cut_of_mem_streamed {data : List Datum}
    (h : (Value.list (data.map Datum.streamed)).cut = .list (data.map Datum.streamed)) :
    ∀ datum ∈ data, datum.streamed.cut = datum.streamed :=
  fun _ hmem => Value.cut_of_mem h (List.mem_map_of_mem hmem)

/-- A count that is refused or written in front of elements. -/
theorem alike_counted {count : Nat} {plan plan' : Plan} (h : Alike config plan plan') :
    Alike config (countPlan ceiling (some count) ++ plan)
      (if count ≤ ceiling.toNat then .one (.uint32 (UInt32.ofNat count)) ++ plan'
      else .refuse { error := .lengthExceeded ceiling count, fault := some .varArray }) := by
  by_cases hle : count ≤ ceiling.toNat
  · rw [show countPlan ceiling (some count) = _ from if_pos hle, if_pos hle]
    exact Plan.Tallies.append (Plan.alike_one rfl) h
  · rw [show countPlan ceiling (some count) = _ from if_neg hle, if_neg hle,
      Plan.append_of_refusal rfl]
    exact Plan.alike_refuse rfl rfl

/-- A struct is written as the tuple of its parts, which has as many. -/
theorem alike_inTurn {plan : Schema → Datum → Plan} {filter : Ty → Filter Value}
    {schemas : List Schema} {data : List Datum} {outline : Outline}
    (h : Parts (Laid definitions) schemas data outline)
    (hwrites : ∀ schema ∈ schemas,
      Writes config definitions schema (plan schema) (filter (schema.streamed ceiling)))
    (hcut : (Value.list (data.map Datum.streamed)).cut = .list (data.map Datum.streamed)) :
    Alike config (inTurn (schemas.map plan) data)
      ((Filter.struct ((schemas.map (streamed ceiling)).map filter)).encode
        (data.map Datum.streamed)) := by
  have hlength := h.length_eq
  have hplan : inTurn (schemas.map plan) data = .concat (List.zipWith plan schemas data) := by
    rw [inTurn, if_pos (by rw [List.length_map, hlength]), List.zipWith_map_left]
  have hfilter : (Filter.struct ((schemas.map (streamed ceiling)).map filter)).encode
      (data.map Datum.streamed) = .concat (List.zipWith
        (fun schema => (filter (schema.streamed ceiling)).encode) schemas
        (data.map Datum.streamed)) := by
    refine (if_pos (by simp only [List.length_map, hlength])).trans ?_
    rw [List.map_map, List.zipWith_map_left]
    rfl
  rw [hplan, hfilter]
  exact alike_zipWith h hwrites (cut_of_mem_streamed hcut)

/-- A datum is written as its value, if that holds of the names. -/
theorem writes_planWith {resolve : Schema → Schema} {zero : Ty → Value}
    {named : String → Datum → Plan} {named' : String → Filter Value}
    (hnamed : ∀ name, Writes config definitions (ref name) (named name) (named' name))
    {schema : Schema} (hcommon : Common definitions schema) :
    Writes config definitions schema (planWith ceiling resolve named schema)
      (Ty.filterWith zero named' (schema.streamed ceiling)) := by
  induction hcommon with
  | string =>
      intro datum outline hlaid hcut
      cases hlaid with
      | string text =>
          have htext : Text.untilNul (Text.bytes text) = Text.bytes text :=
            Text.untilNul_of_cut_eq (Value.string.inj hcut)
          show Alike config _ (Filter.encodeSized _ _ _ (Text.untilNul (Text.bytes text)))
          rw [htext]
          exact Plan.alike_encodeSized _ _ _ _ _ _
  | bytes =>
      intro datum outline hlaid hcut
      cases hlaid
      exact Plan.alike_encodeSized _ _ _ _ _ _
  | @option inner _ ih =>
      intro datum outline hlaid hcut
      cases hlaid with
      | absent => exact Plan.alike_one rfl
      | present hinner =>
          exact Plan.Tallies.append (Plan.alike_one rfl) (ih hinner (Value.present.inj hcut))
  | wrapper _ ih =>
      intro datum outline hlaid hcut
      cases hlaid with
      | wrapper hinner => exact ih hinner hcut
  | @tuple declared elements _ _ ih =>
      intro datum outline hlaid hcut
      cases hlaid with
      | tuple _ hparts =>
          rw [streamed, streamedAll_eq_map, Ty.filterWith_struct, planWith, plansWith_eq_map]
          rw [Datum.streamed_tuple] at hcut ⊢
          exact alike_inTurn hparts ih hcut
  | @record declared fields _ _ ih =>
      intro datum outline hlaid hcut
      cases hlaid with
      | record _ hparts =>
          rw [streamed, streamedAll_eq_map, Ty.filterWith_struct, planWith, plansWith_eq_map]
          rw [Datum.streamed_tuple] at hcut ⊢
          exact alike_inTurn hparts ih hcut
  | @seq element told visit _ _ ih =>
      intro datum outline hlaid hcut
      cases hlaid with
      | @seq _ _ _ data _ htold _ hparts =>
          rw [Datum.streamed_seq] at hcut ⊢
          have hrow : Alike config
              (.concat (data.map (planWith ceiling resolve named element)))
              (.concat ((data.map Datum.streamed).map
                (Ty.filterWith zero named' (element.streamed ceiling)).encode)) := by
            rw [← zipWith_replicate_left _ rfl, ← zipWith_replicate_left
              (fun schema => (Ty.filterWith zero named' (streamed ceiling schema)).encode)
              (List.length_map _).symm]
            refine alike_zipWith hparts (fun schema hmem => ?_) (cut_of_mem_streamed hcut)
            rw [(List.mem_replicate.mp hmem).2]
            exact ih
          rw [planWith, htold]
          show Alike config _ (if (data.map Datum.streamed).length ≤ ceiling.toNat then _ else _)
          rw [List.length_map]
          exact alike_counted hrow
  | @enumeration variants _ ih =>
      intro datum outline hlaid hcut
      cases hlaid with
      | @variant _ index selected content _ hselect hcontent =>
          have hplan : planWith ceiling resolve named (enumeration variants)
              (.variant index none content) =
              .one (.uint32 index) ++ planWith ceiling resolve named selected content := by
            rw [planWith, plansWith_eq_map, List.getElem?_map, hselect]
            rfl
          have hfilter :
              (Ty.filterWith zero named' (streamed ceiling (enumeration variants))).encode
                  (Datum.variant index none content).streamed =
                .one (.int32 index.toInt32) ++
                  (Ty.filterWith zero named' (selected.streamed ceiling)).encode
                    content.streamed := by
            rw [streamed, Ty.filterWith_union]
            show _ ++ _ = _
            simp only [selectArm_streamed, hselect, Option.map_some]
          rw [hplan, hfilter]
          refine Plan.Tallies.append (Plan.alike_one ?_) ?_
          · exact congrArg wordImage (UInt32.toUInt32_toInt32 index)
          · exact ih selected (List.mem_of_getElem? hselect) hcontent (Value.union.inj hcut).2
  | @ref name body hbody => exact hnamed name
  -- the other schemas have data of one item or none
  | _ =>
      intro datum outline hlaid hcut
      cases hlaid
      first | exact Plan.alike_one rfl | exact Plan.tallies_empty

/-- A datum is written as its value, wherever references lead. -/
theorem alike_encode (hdefinitions : ∀ name body, definitions.lookup name = some body →
      Common definitions body) {schema : Schema} (hcommon : Common definitions schema)
    {datum : Datum} {outline : Outline} (hlaid : Laid definitions schema datum outline)
    (hcut : datum.streamed.cut = datum.streamed) :
    Alike config (schema.encode definitions ceiling datum)
      ((schema.streamed ceiling).encode (definitions.streamed ceiling) datum.streamed) := by
  unfold encode plan Ty.encode Ty.filter
  rw [Definitions.length_streamed, hlaid.depth_streamed hdefinitions hcommon]
  refine writes_planWith (fun name => ?_) hcommon hlaid hcut
  refine Definitions.meaning_alongside
    (motive := fun name (plan : Datum → Plan) (filter : Filter Value) =>
      Writes config definitions (ref name) plan filter)
    (fun name datum outline _ _ => ?_) (fun name hnone => ?_) ?_ _ name
  · show Alike config mismatch (.refuse _)
    exact Plan.alike_refuse rfl rfl
  · rw [Definitions.lookup_streamed, hnone]
    rfl
  · intro named named' hnamed name body hbody
    refine ⟨body.streamed ceiling, by rw [Definitions.lookup_streamed, hbody]; rfl, ?_⟩
    intro datum outline hlaid hcut
    cases hlaid with
    | ref hother hlaid =>
        obtain rfl := Option.some.inj (hbody.symm.trans hother)
        exact writes_planWith hnamed (hdefinitions name body hbody) hlaid hcut

end Schema

end Xdr
