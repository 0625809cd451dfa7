import Xdr.Model.Plan
import Xdr.Proofs.Model.Layout
import Xdr.Proofs.Writing

/-!
# Encoding data

The plan of a datum follows its outline (`encode_follows`): it writes the layout if all lengths and
counts are within the ceiling, and the first that is not ends it. The budget for references is never
short: between two references to the same name lies a datum of its own.
-/

namespace Xdr

namespace Plan

/-- The plan writes the layout if every length and count is within the ceiling. Otherwise it ends
with the error of the first that is not. -/
def Follows (ceiling : UInt32) (plan : Plan) (outline : Outline) : Prop :=
  match outline.sizes.find? (ceiling.toNat < ·) with
  | none => plan.Writes outline.layout.image
  | some got =>
      ∃ refusal, plan.refusal = some refusal ∧ refusal.error = .lengthExceeded ceiling got

variable {ceiling : UInt32}

/-- Where all lengths and counts are within the ceiling, the layout is written. -/
theorem Follows.writes {plan : Plan} {outline : Outline} (h : plan.Follows ceiling outline)
    (hwithin : outline.Within ceiling) : plan.Writes outline.layout.image := by
  have hnone : outline.sizes.find? (ceiling.toNat < ·) = none := by
    rw [List.find?_eq_none]
    intro size hsize
    have hle := hwithin size hsize
    simpa using hle
  simpa only [Follows, hnone] using h

theorem follows_empty : empty.Follows ceiling ∅ :=
  writes_empty

/-- Without a length or count the layout is written. -/
theorem follows_plain {plan : Plan} {layout : Layout} (h : plan.Writes layout.image) :
    plan.Follows ceiling (.plain layout) :=
  h

theorem follows_word {item : Item} {word : UInt32} (h : item.image = wordImage word) :
    (one item).Follows ceiling (.plain (.word word)) := by
  refine follows_plain (writes_item item ?_)
  rw [Layout.image_word, h]

theorem follows_hyper {item : Item} {hyper : UInt64} (h : item.image = hyperImage hyper) :
    (one item).Follows ceiling (.plain (.hyper hyper)) := by
  refine follows_plain (writes_item item ?_)
  rw [Layout.image_hyper, h]

/-- Whether a single length is within the ceiling decides between writing and the error. -/
theorem follows_size {item : Item} {refusal : Refusal} {size : Nat} {layout : Layout}
    (hitem : item.image = layout.image) (herror : refusal.error = .lengthExceeded ceiling size) :
    (if size ≤ ceiling.toNat then one item else refuse refusal).Follows ceiling
      ⟨[size], layout⟩ := by
  unfold Follows
  by_cases hsize : size ≤ ceiling.toNat
  · rw [if_pos hsize, List.find?_cons_of_neg (by simpa using hsize), List.find?_nil, ← hitem]
    exact writes_one item
  · rw [if_neg hsize, List.find?_cons_of_pos (by simpa using hsize)]
    exact ⟨refusal, rfl, herror⟩

/-- One plan after the other follows the outlines one after the other. -/
theorem Follows.append {first second : Plan} {front back : Outline}
    (hfirst : first.Follows ceiling front) (hsecond : second.Follows ceiling back) :
    (first ++ second).Follows ceiling (front ++ back) := by
  unfold Follows at hfirst hsecond ⊢
  rw [Outline.sizes_append, List.find?_append]
  cases hfront : front.sizes.find? (ceiling.toNat < ·) with
  | some got =>
      simp only [hfront] at hfirst
      obtain ⟨refusal, hrefusal, herror⟩ := hfirst
      rw [append_of_refusal hrefusal]
      exact ⟨refusal, hrefusal, herror⟩
  | none =>
      simp only [hfront] at hfirst
      rw [Option.none_or]
      cases hback : back.sizes.find? (ceiling.toNat < ·) with
      | none =>
          simp only [hback] at hsecond
          rw [Outline.layout_append, Layout.image_append]
          exact hfirst.append hsecond
      | some got =>
          simp only [hback] at hsecond
          rwa [append_def, Plan.append, hfirst.1]

/-- Plans in order follow the outlines in order. -/
theorem concat_follows {τ ν : Type} {plan : τ → ν → Plan} {kinds : List τ} {items : List ν}
    {outline : Outline}
    (h : Parts (fun kind item front => (plan kind item).Follows ceiling front) kinds items
      outline) :
    (concat (List.zipWith plan kinds items)).Follows ceiling outline := by
  induction h with
  | nil => exact follows_empty
  | cons hhead _ ih => exact hhead.append ih

end Plan

namespace Schema

variable {definitions : Definitions Schema} {ceiling : UInt32}

theorem plansWith_eq_map (resolve : Schema → Schema) (named : String → Datum → Plan)
    (schemas : List Schema) : plansWith ceiling resolve named schemas =
      schemas.map (planWith ceiling resolve named) := by
  induction schemas with
  | nil => rfl
  | cons schema schemas ih => rw [plansWith, ih, List.map_cons]

/-- The plan of a reference is that of what it stands for, one level further down. -/
theorem plan_ref {name : String} {body : Schema} (h : definitions.lookup name = some body)
    (depth : Nat) (datum : Datum) : plan definitions ceiling (depth + 1) (.ref name) datum =
      plan definitions ceiling depth body datum := by
  rw [plan, planWith, Definitions.meaning_succ _ _ _ _ h]
  rfl

/-- Parts that are there in the right number are planned in a row. -/
theorem inTurn_eq {schemas : List Schema} {data : List Datum} (h : schemas.length = data.length)
    (resolve : Schema → Schema) (named : String → Datum → Plan) :
    inTurn (plansWith ceiling resolve named schemas) data =
      .concat (List.zipWith (planWith ceiling resolve named) schemas data) := by
  rw [plansWith_eq_map, inTurn, if_pos (by rw [List.length_map, h]), List.zipWith_map_left]

/-- Entries are planned as their keys and values in a row. -/
theorem concat_entries (plan : Schema → Datum → Plan) (key value : Schema)
    (entries : List (Datum × Datum)) :
    Plan.concat (entries.map fun entry => plan key entry.1 ++ plan value entry.2) =
      .concat (List.zipWith plan (entryKinds key value entries.length) (Datum.flat entries)) := by
  induction entries with
  | nil => rfl
  | cons entry entries ih =>
      rw [List.map_cons, Plan.concat, ih, Plan.append_assoc]
      rfl

/-- Where enough references are followed, the plan follows this outline: as many as there are in
front of the first part of the datum, and for each part as many as there are definitions. -/
def Written (definitions : Definitions Schema) (ceiling : UInt32) (schema : Schema) (datum : Datum)
    (outline : Outline) : Prop :=
  ∀ {chain depth : Nat}, Grounded definitions chain schema →
    chain + definitions.length * datum.depth ≤ depth →
    (plan definitions ceiling depth schema datum).Follows ceiling outline

/-- The parts of a datum are written where there are enough references for the deepest. -/
theorem concat_written {schemas : List Schema} {data : List Datum} {outline : Outline}
    {chain depth : Nat} (h : Parts (Written definitions ceiling) schemas data outline)
    (hgrounded : ∀ schema ∈ schemas, Grounded definitions chain schema)
    (hdepth : chain + definitions.length * Datum.depths data ≤ depth) :
    (Plan.concat (List.zipWith (plan definitions ceiling depth) schemas data)).Follows ceiling
      outline := by
  refine Plan.concat_follows (h.imp_of_mem (fun _ => 0) (fun _ _ => rfl) ?_)
  intro schema hschema datum hdatum front _ hwritten
  refine hwritten (hgrounded schema hschema) ?_
  have := Nat.mul_le_mul_left definitions.length (Datum.depth_le_depths hdatum)
  omega

/-- A tuple follows the outlines of its elements, and so does a record. -/
theorem written_tuple (declared : Nat) {elements : List Schema} {data : List Datum}
    {outline : Outline} (hwritten : Parts (Written definitions ceiling) elements data outline) :
    Written definitions ceiling (.tuple declared elements) (.tuple data) outline := by
  intro chain depth hgrounded hdepth
  rw [Datum.depth, Nat.mul_succ] at hdepth
  have hbelow : chain + definitions.length * Datum.depths data ≤ depth := by omega
  show (inTurn _ data).Follows ceiling outline
  rw [inTurn_eq hwritten.length_eq]
  refine concat_written hwritten (fun element helement => ?_) hbelow
  exact hgrounded.of_subset (direct_subset_directs helement)

/-- A datum follows its outline. -/
theorem Laid.written {schema : Schema} {datum : Datum} {outline : Outline}
    (h : Laid definitions schema datum outline) :
    Written definitions ceiling schema datum outline := by
  induction h with
  | bool value => exact fun _ _ => Plan.follows_word rfl
  | int8 value => exact fun _ _ => Plan.follows_word rfl
  | int16 value => exact fun _ _ => Plan.follows_word rfl
  | int32 value => exact fun _ _ => Plan.follows_word rfl
  | int64 value => exact fun _ _ => Plan.follows_hyper rfl
  | uint8 value => exact fun _ _ => Plan.follows_word rfl
  | uint16 value => exact fun _ _ => Plan.follows_word rfl
  | uint32 value => exact fun _ _ => Plan.follows_word rfl
  | uint64 value => exact fun _ _ => Plan.follows_hyper rfl
  | float bits => exact fun _ _ => Plan.follows_word rfl
  | double bits => exact fun _ _ => Plan.follows_hyper rfl
  | char value => exact fun _ _ => Plan.follows_word rfl
  | unit => exact fun _ _ => Plan.follows_empty
  | string text => exact fun _ _ => Plan.follows_size (Layout.image_sized _).symm rfl
  | bytes data => exact fun _ _ => Plan.follows_size (Layout.image_sized _).symm rfl
  | identifier value => exact fun _ _ => Plan.follows_word rfl
  | absent => exact fun _ _ => Plan.follows_word rfl
  | present h ih =>
      intro chain depth _ hdepth
      rw [Datum.depth, Nat.mul_succ] at hdepth
      exact (Plan.follows_word rfl).append (ih h.grounded (by omega))
  | wrapper h ih => exact ih
  | @tuple declared elements data outline _ _ ih =>
      exact written_tuple declared (ih.imp fun hpart => hpart.2)
  | @record declared fields data outline _ _ ih =>
      exact written_tuple declared (ih.imp fun hpart => hpart.2)
  | @seq element told visit data outline htold _ hparts ih =>
      intro chain depth _ hdepth
      have hwritten : Parts (Written definitions ceiling) (List.replicate data.length element) data
        outline := ih.imp fun hpart => hpart.2
      rw [Datum.depth, Nat.mul_succ] at hdepth
      show (countPlan ceiling (told.count data.length) ++
        .concat (data.map (plan definitions ceiling depth element))).Follows ceiling _
      rw [htold, ← zipWith_replicate_left (plan definitions ceiling depth) rfl]
      refine (Plan.follows_size (Layout.image_word _).symm rfl).append ?_
      exact concat_written hwritten (hparts.forall_kind Laid.grounded) (by omega)
  | @map key value told visit entries outline htold _ hparts ih =>
      intro chain depth _ hdepth
      have hwritten : Parts (Written definitions ceiling) (entryKinds key value entries.length)
        (Datum.flat entries) outline := ih.imp fun hpart => hpart.2
      rw [Datum.depth, Datum.entryDepths_eq, Nat.mul_succ] at hdepth
      show (countPlan ceiling (told.count entries.length) ++
        .concat (entries.map fun entry => plan definitions ceiling depth key entry.1 ++
          plan definitions ceiling depth value entry.2)).Follows ceiling _
      rw [htold, concat_entries]
      refine (Plan.follows_size (Layout.image_word _).symm rfl).append ?_
      exact concat_written hwritten (hparts.forall_kind Laid.grounded) (by omega)
  | @variant variants index selected content outline hselect h ih =>
      intro chain depth _ hdepth
      rw [Datum.depth, Nat.mul_succ] at hdepth
      have hplan : plan definitions ceiling depth (.enumeration variants)
          (.variant index none content) =
            .one (.uint32 index) ++ plan definitions ceiling depth selected content := by
        rw [plan, planWith, plansWith_eq_map, List.getElem?_map, hselect]
        rfl
      rw [hplan]
      exact (Plan.follows_word rfl).append (ih h.grounded (by omega))
  | @fixedOpaque length data hlength =>
      intro _ _ _ _
      refine Plan.follows_plain ?_
      rw [Layout.image_padded]
      exact Plan.writes_one (.fixedOpaque data)
  | ref hbody h ih =>
      intro chain depth hgrounded hdepth
      obtain ⟨chain, rfl, hbodyGrounded⟩ := hgrounded.body List.mem_cons_self hbody
      obtain ⟨depth, rfl⟩ := Nat.exists_eq_add_of_le' (show 1 ≤ depth by omega)
      rw [plan_ref hbody]
      exact ih hbodyGrounded (by omega)

/-- The plan of a datum follows its outline. -/
theorem encode_follows {schema : Schema} {datum : Datum} {outline : Outline}
    (h : Laid definitions schema datum outline) (ceiling : UInt32) :
    (schema.encode definitions ceiling datum).Follows ceiling outline := by
  exact h.written h.grounded (definitions.budget_le (Nat.le_refl _))

end Schema

end Xdr
