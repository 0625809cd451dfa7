import Xdr.Proofs.Stops
import Xdr.Proofs.Stream.Canonical
import Xdr.Proofs.Stream.Reach
import Xdr.Session

/-!
# What an error leaves in a target

`Ty.Remains` says type by type what a target holds after an error: where the error came from and
what had been read by then decide it. The statement to read first is `remains_after_error`.
-/

namespace Xdr

namespace Ty

open Xdr.Filter

/-- These bytes are read as the value. -/
def Admits (definitions : Definitions Ty) (policy : PaddingPolicy) (type : Ty) (bytes : List UInt8)
    (value : Value) : Prop :=
  ∃ layout, Laid definitions type value layout ∧ layout.Admits policy bytes

/-- The wire begins with bytes that are read as a value of the type. -/
def Begins (definitions : Definitions Ty) (policy : PaddingPolicy) (type : Ty)
    (wire : List UInt8) : Prop :=
  ∃ front back value, wire = front ++ back ∧ type.Admits definitions policy front value

/-- The types whose targets are replaced at the end or not at all: scalars, strings and optional
data. -/
def Whole : Ty → Prop
  | int32 | uint32 | int64 | uint64 | float | double | bool | void | quadruple | openEnum => True
  | string _ | optional _ => True
  | _ => False

/-- After an error on this wire, a target of the type that held `before` holds `after`. -/
inductive Remains (definitions : Definitions Ty) (policy : PaddingPolicy) :
    Ty → (wire : List UInt8) → (before after : Value) → Prop where
  | whole {type} (wire before) : type.Whole → Remains definitions policy type wire before before
  /-- The number of a member is missing. -/
  | unnumbered (members) {wire} (before) : wire.length < 4 →
      Remains definitions policy (enumeration members) wire before before
  /-- The number is no member's, and is kept. -/
  | noMember {members number} (rest before) : number.toInt32 ∉ members →
      Remains definitions policy (enumeration members) (wordImage number ++ rest) before
        (.int32 number.toInt32)
  /-- The buffer may have been written to, and is as long as before. -/
  | fixedOpaque (length wire) {data left : List UInt8} : left.length = data.length →
      Remains definitions policy (fixedOpaque length) wire (.bytes data) (.bytes left)
  /-- The buffer is emptied first. -/
  | bytes (max wire before) : Remains definitions policy (bytes max) wire before (.bytes [])
  /-- The first part stops, and those behind it keep their targets. -/
  | first {part parts wire before after items} : ¬ part.Begins definitions policy wire →
      Remains definitions policy part wire before after →
      Remains definitions policy (struct (part :: parts)) wire (.list (before :: items))
        (.list (after :: items))
  /-- The first part is read, and a part behind it stops. -/
  | later {part parts front rest value items left} (before) :
      part.Admits definitions policy front value →
      Remains definitions policy (struct parts) rest (.list items) (.list left) →
      Remains definitions policy (struct (part :: parts)) (front ++ rest) (.list (before :: items))
        (.list (value :: left))
  /-- The elements are as the parts of a struct. -/
  | fixedArray {length element wire before after} :
      Remains definitions policy (struct (List.replicate length element)) wire before after →
      Remains definitions policy (fixedArray length element) wire before after
  /-- The count is missing. -/
  | uncounted (max element) {wire} (before) : wire.length < 4 →
      Remains definitions policy (varArray max element) wire before before
  /-- The count is over the maximum. -/
  | overcounted {max count} (element rest before) : max < count →
      Remains definitions policy (varArray max element) (wordImage count ++ rest) before before
  /-- The elements in front of the one that stops are read. -/
  | varArray {max count element front rest items} (before) : count ≤ max →
      items.length < count.toNat →
      (fixedArray items.length element).Admits definitions policy front (.list items) →
      ¬ element.Begins definitions policy rest →
      Remains definitions policy (varArray max element) (wordImage count ++ (front ++ rest)) before
        (.list items)
  /-- The discriminant is missing. -/
  | undiscriminated (arms fallback) {wire} (before) : wire.length < 4 →
      Remains definitions policy (union arms fallback) wire before before
  /-- The discriminant has no arm, and is kept in front of the old one. -/
  | noArm {arms fallback number} (rest discriminant arm) :
      selectArm arms fallback number.toInt32 = none →
      Remains definitions policy (union arms fallback) (wordImage number ++ rest)
        (.union discriminant arm) (.union number.toInt32 arm)
  /-- The arm stops, and started from the zero value of its type. -/
  | arm {arms fallback number selected rest after} (before) :
      selectArm arms fallback number.toInt32 = some selected →
      Remains definitions policy selected rest (zero definitions selected) after →
      Remains definitions policy (union arms fallback) (wordImage number ++ rest) before
        (.union number.toInt32 after)
  | ref {name body wire before after} : definitions.lookup name = some body →
      Remains definitions policy body wire before after →
      Remains definitions policy (ref name) wire before after

variable {definitions : Definitions Ty} {policy : PaddingPolicy} {wire : List UInt8}
  {type : Ty} {target kept : Value} {chain depth : Nat}

/-- A target that is read to the end of a value does not stop. -/
theorem not_begins_of_stops (hholds : Holds definitions type target)
    (hgrounded : Grounded definitions chain type)
    (hdepth : chain + definitions.length * (wire.length / 4) ≤ depth)
    (h : ((type.filter definitions depth).decode target).Stops policy wire kept) :
    ¬ type.Begins definitions policy wire := by
  intro hbegins
  obtain ⟨front, back, value, rfl, layout, hlaid, hadmits⟩ := hbegins
  have hlength : layout.length / 4 ≤ (front ++ back).length / 4 := by
    rw [List.length_append, hadmits.length_eq]
    omega
  have hbudget := Nat.mul_le_mul_left definitions.length hlength
  exact h.not_accepts (hlaid.read hholds hgrounded (by omega) hadmits)

/-- Elements that are all read from zero values are those of a fixed array. -/
theorem admits_fixedArray_of_acceptsAll {element : Ty} {items : List Value} {front : List UInt8}
    (hholds : Holds definitions element (zero definitions element))
    (h : Reading.AcceptsAll policy (List.replicate items.length
      ((element.filter definitions depth).decode (zero definitions element))) front items) :
    (fixedArray items.length element).Admits definitions policy front (.list items) := by
  have hzeros : List.Forall₂ (Holds definitions) (List.replicate items.length element)
      (List.replicate items.length (zero definitions element)) := by
    rw [← List.map_replicate]
    exact forall₂_map_zero fun part hpart => (List.mem_replicate.mp hpart).2 ▸ hholds
  rw [← List.zipWith_replicate' (f := fun part => (filter definitions depth part).decode)] at h
  obtain ⟨layout, hparts, hadmits⟩ :=
    parts_of_acceptsAll (fun _ _ _ _ _ hpart => laid_of_accepts hpart) hzeros h
  exact ⟨layout, .fixedArray hparts, hadmits⟩

/-- A target of a type is left as `Remains` says, where enough references are followed. -/
def RemainsAt (definitions : Definitions Ty) (policy : PaddingPolicy) (depth : Nat) (type : Ty) :
    Prop :=
  ∀ {chain wire target kept}, WellFormed definitions type → Holds definitions type target →
    Grounded definitions chain type →
    chain + definitions.length * (wire.length / 4) ≤ depth →
    ((type.filter definitions depth).decode target).Stops policy wire kept →
    Remains definitions policy type wire target kept

/-- Parts that are each left as `Remains` says are so one after the other. -/
theorem remainsAt_row {parts : List Ty} {targets finished left : List Value}
    (hparts : ∀ part ∈ parts, RemainsAt definitions policy depth part)
    (hformed : ∀ part ∈ parts, WellFormed definitions part)
    (hgrounded : ∀ part ∈ parts, Grounded definitions chain part)
    (htargets : List.Forall₂ (Holds definitions) parts targets)
    (hdepth : chain + definitions.length * (wire.length / 4) ≤ depth)
    (h : (Reading.inOrder (List.zipWith (fun part target =>
      (target, (part.filter definitions depth).decode target)) parts targets) finished).Stops policy
      wire left) :
    ∃ rest, left = finished.reverse ++ rest ∧
      Remains definitions policy (struct parts) wire (.list targets) (.list rest) := by
  induction htargets generalizing wire finished with
  | nil => exact absurd h Reading.not_stops_done
  | @cons part target parts targets htarget htargets ih =>
      obtain ⟨hpart, hparts⟩ := List.forall_mem_cons.mp hparts
      obtain ⟨hpartFormed, hformed⟩ := List.forall_mem_cons.mp hformed
      obtain ⟨hpartGrounded, hgrounded⟩ := List.forall_mem_cons.mp hgrounded
      rcases Reading.stops_andThen h with
        ⟨kept, hstops, rfl⟩ | ⟨front, back, value, rfl, haccepts, hnext⟩
      · have hremains := hpart hpartFormed htarget hpartGrounded hdepth hstops
        refine ⟨kept :: targets, ?_, .first ?_ hremains⟩
        · rw [List.map_zipWith]
          exact congrArg (fun behind => finished.reverse ++ kept :: behind)
            ((List.map_uncurry_zip_eq_zipWith ..).symm.trans
              (List.map_snd_zip htargets.length_eq.ge))
        · exact not_begins_of_stops htarget hpartGrounded hdepth hstops
      · have hbudget : definitions.length * (back.length / 4) ≤
            definitions.length * ((front ++ back).length / 4) :=
          Nat.mul_le_mul_left _ (Nat.div_le_div_right (by simp))
        obtain ⟨rest, rfl, hremains⟩ := ih hparts hformed hgrounded (by omega) hnext
        refine ⟨value :: rest, by simp, .later _ (laid_of_accepts htarget haccepts) hremains⟩

/-- A word less is left behind a word, and one chain of references more can be followed. -/
theorem budget_behind_word {word : UInt32} {rest : List UInt8}
    (h : chain + definitions.length * ((wordImage word ++ rest).length / 4) ≤ depth)
    {back : List UInt8} (hback : back.length ≤ rest.length) :
    definitions.length + definitions.length * (back.length / 4) ≤ depth := by
  rw [List.length_append, length_wordImage] at h
  have hwords : definitions.length * (back.length / 4 + 1) ≤
      definitions.length * ((4 + rest.length) / 4) := Nat.mul_le_mul_left _ (by omega)
  rw [Nat.mul_succ] at hwords
  omega

/-- Where a filter on another kind of value keeps what it held wherever it stops, so does a type
whose filter it is. -/
theorem remainsAt_within {ι : Type} {inner : Filter ι} {inject : ι → Value}
    {project : Value → Option ι} (type : Ty) (hwhole : type.Whole)
    (hfilter : type.filter definitions depth = inner.within inject project)
    (hproject : ∀ {target}, Holds definitions type target →
      ∃ old, project target = some old ∧ inject old = target)
    (hkeeps : ∀ {wire old left}, (inner.decode old).Stops policy wire left → left = old) :
    RemainsAt definitions policy depth type := by
  intro _ wire target _ _ hholds _ _ h
  obtain ⟨old, hold, rfl⟩ := hproject hholds
  rw [hfilter] at h
  obtain ⟨left, hstops, rfl⟩ := stops_within h hold
  rw [hkeeps hstops]
  exact .whole wire _ hwhole

/-- What a type leaves in a target, if what names stand for does so one level further down. -/
theorem remainsAt_of_refs (href : ∀ name, RemainsAt definitions policy depth (ref name))
    (type : Ty) : RemainsAt definitions policy depth type := by
  induction type with
  | int32 =>
      refine remainsAt_within int32 trivial rfl (fun hholds => ?_) stops_int32
      cases hholds with
      | int32 old => exact ⟨old, rfl, rfl⟩
  | uint32 =>
      refine remainsAt_within uint32 trivial rfl (fun hholds => ?_) stops_uint32
      cases hholds with
      | uint32 old => exact ⟨old, rfl, rfl⟩
  | int64 =>
      refine remainsAt_within int64 trivial rfl (fun hholds => ?_) stops_int64
      cases hholds with
      | int64 old => exact ⟨old, rfl, rfl⟩
  | uint64 =>
      refine remainsAt_within uint64 trivial rfl (fun hholds => ?_) stops_uint64
      cases hholds with
      | uint64 old => exact ⟨old, rfl, rfl⟩
  | float =>
      refine remainsAt_within float trivial rfl (fun hholds => ?_) stops_float
      cases hholds with
      | float old => exact ⟨old, rfl, rfl⟩
  | double =>
      refine remainsAt_within double trivial rfl (fun hholds => ?_) stops_double
      cases hholds with
      | double old => exact ⟨old, rfl, rfl⟩
  | bool =>
      refine remainsAt_within bool trivial rfl (fun hholds => ?_) stops_bool
      cases hholds with
      | bool old => exact ⟨old, rfl, rfl⟩
  | void =>
      refine remainsAt_within void trivial rfl (fun hholds => ?_) fun _ => rfl
      cases hholds with
      | void => exact ⟨(), rfl, rfl⟩
  | quadruple =>
      refine remainsAt_within quadruple trivial rfl (fun hholds => ?_) fun _ => rfl
      cases hholds with
      | quadruple => exact ⟨(), rfl, rfl⟩
  | openEnum =>
      refine remainsAt_within openEnum trivial rfl (fun hholds => ?_) stops_int32
      cases hholds with
      | openEnum old => exact ⟨old, rfl, rfl⟩
  | string max =>
      refine remainsAt_within (string max) trivial rfl (fun hholds => ?_) stops_string
      cases hholds with
      | string _ old => exact ⟨old, rfl, rfl⟩
  | optional inner _ =>
      refine remainsAt_within (optional inner) trivial rfl (fun hholds => ?_) stops_optional
      cases hholds with
      | absent => exact ⟨none, rfl, rfl⟩
      | present _ old => exact ⟨some old, rfl, rfl⟩
  | enumeration members =>
      intro _ wire _ _ _ hholds _ _ h
      cases hholds with
      | enumeration _ old =>
          obtain ⟨left, hstops, rfl⟩ := stops_within h rfl
          rcases stops_enumeration hstops with ⟨hshort, rfl⟩ | ⟨number, rest, rfl, hmem, rfl⟩
          · exact .unnumbered members _ hshort
          · exact .noMember rest _ hmem
  | fixedOpaque length =>
      intro _ wire _ _ _ hholds _ _ h
      cases hholds with
      | fixedOpaque hlength =>
          obtain ⟨left, hstops, rfl⟩ := stops_within h rfl
          obtain rfl := stops_fixedOpaque hstops
          exact .fixedOpaque length wire rfl
  | bytes max =>
      intro _ wire _ _ _ hholds _ _ h
      cases hholds with
      | bytes _ buffer =>
          obtain ⟨left, hstops, rfl⟩ := stops_within h rfl
          obtain rfl := stops_bytes hstops
          exact .bytes max wire _
  | fixedArray length element ih =>
      intro _ wire _ _ hformed hholds hgrounded hdepth h
      cases hholds with
      | @fixedArray _ _ targets htargets =>
          obtain ⟨left, hstops, rfl⟩ := stops_within h rfl
          have hlength : length = targets.length := by simpa using htargets.length_eq
          have hrow : (Reading.inOrder (List.zipWith (fun part target =>
              (target, (part.filter definitions depth).decode target))
              (List.replicate length element) targets) []).Stops policy wire left := by
            rwa [zipWith_replicate_left _ hlength]
          obtain ⟨rest, rfl, hremains⟩ := remainsAt_row
            (fun part hpart => (List.mem_replicate.mp hpart).2 ▸ ih)
            (fun part hpart => (List.mem_replicate.mp hpart).2 ▸
              hformed.of_contains (.fixedArray length element))
            (fun part hpart => hgrounded.of_subset (direct_subset_fixedArray hpart)) htargets hdepth
            hrow
          exact .fixedArray hremains
  | struct parts ih =>
      intro _ wire _ _ hformed hholds hgrounded hdepth h
      cases hholds with
      | @struct _ targets htargets =>
          rw [filter, filterWith_struct] at h
          obtain ⟨left, hstops, rfl⟩ := stops_within h rfl
          rw [decode_struct (by rw [List.length_map, htargets.length_eq]), List.zipWith_map_left]
            at hstops
          obtain ⟨rest, rfl, hremains⟩ := remainsAt_row ih
            (fun part hpart => hformed.of_contains (.struct hpart))
            (fun part hpart => hgrounded.of_subset (direct_subset_struct hpart)) htargets hdepth
            hstops
          exact hremains
  | varArray max element ih =>
      intro _ wire _ _ hformed hholds _ hdepth h
      cases hholds with
      | varArray _ _ targets =>
          obtain ⟨left, hstops, rfl⟩ := stops_within h rfl
          rcases stops_varArray hstops with ⟨hshort, rfl⟩ | ⟨count, rest, rfl, hrest⟩
          · exact .uncounted max element _ hshort
          · rcases hrest with ⟨hmax, rfl⟩ | ⟨hmax, hcount, front, back, inner, rfl, hall, hstops⟩
            · exact .overcounted element rest _ hmax
            · have helement := hformed.of_contains (.varArray max element)
              have hdepth := budget_behind_word hdepth (show back.length ≤ _ by simp)
              refine .varArray _ hmax hcount ?_
                (not_begins_of_stops helement.holds_zero helement.grounded hdepth hstops)
              exact admits_fixedArray_of_acceptsAll helement.holds_zero hall
  | union arms fallback ih =>
      intro _ wire _ _ hformed hholds _ hdepth h
      cases hholds with
      | union _ _ discriminant arm =>
          rw [filter, filterWith_union] at h
          obtain ⟨left, hstops, rfl⟩ := stops_within h rfl
          rcases stops_union hstops with ⟨hshort, rfl⟩ | ⟨number, rest, rfl, hrest⟩
          · exact .undiscriminated arms fallback _ hshort
          · rcases hrest with ⟨harm, rfl⟩ | ⟨zero, filter, inner, harm, hinner, rfl⟩
            · exact .noArm rest discriminant arm (Option.map_eq_none_iff.mp harm)
            · obtain ⟨selected, hselect, hpair⟩ := Option.map_eq_some_iff.mp harm
              obtain ⟨rfl, rfl⟩ := Prod.mk.inj hpair
              have hselected := hformed.of_contains (.union hselect)
              exact .arm _ hselect (ih _ selected hselect hselected hselected.holds_zero
                hselected.grounded (budget_behind_word hdepth (Nat.le_refl _)) hinner)
  | ref name => exact href name

/-- Wherever enough references are followed, a target is left as `Remains` says. -/
theorem remainsAt (type : Ty) (depth : Nat) : RemainsAt definitions policy depth type := by
  induction depth generalizing type with
  | zero =>
      refine remainsAt_of_refs (fun name => ?_) type
      intro _ wire _ _ _ hholds hgrounded hdepth _
      -- where no reference is followed there is no room for the chain of this one
      cases hholds with
      | ref hbody _ =>
          obtain ⟨chain, rfl, -⟩ := hgrounded.body List.mem_cons_self hbody
          omega
  | succ depth ih =>
      refine remainsAt_of_refs (fun name => ?_) type
      intro _ wire _ _ hformed hholds hgrounded hdepth h
      cases hholds with
      | ref hbody hinner =>
          obtain ⟨chain, rfl, hbodyGrounded⟩ := hgrounded.body List.mem_cons_self hbody
          rw [decode_ref hbody] at h
          have hbodyFormed := hformed.of_contains (.ref hbody)
          exact .ref hbody (ih _ hbodyFormed hinner hbodyGrounded (by omega) h)

end Ty

/-- What a step that fails leaves in its target. On a decoder that can go on as long as there are
bytes, a well-formed type is decoded exactly if its source begins with a value of the type. If it
does not, the step hands on a target that is as `Ty.Remains` says: as before for scalars, strings
and optional data, empty for bytes, and for compound types with the parts in place that were read
in front of the error. -/
theorem remains_after_error (catalog : Catalog) {type : Ty} {target : Value} {decoder : Decoder}
    (hformed : type.WellFormed catalog.types) (hholds : type.Holds catalog.types target)
    (hready : decoder.Ready) :
    let answer := ((DecodeStep.typed type (some target)).run catalog decoder).1
    let policy := decoder.config.padding
    let wire := decoder.transport.rest
    (answer.error = none ↔ type.Begins catalog.types policy wire) ∧
      (answer.error ≠ none → ∃ left, answer.shown = some (.value left) ∧
        type.Remains catalog.types policy wire target left) := by
  intro answer policy wire
  have hdepth : catalog.types.length + catalog.types.length * (wire.length / 4) ≤
      (catalog.types.length + 1) * (wire.length / 4 + 2) := catalog.types.budget_le (by omega)
  simp only [answer, DecodeStep.run, Option.getD_some]
  rcases hrun : (type.decode catalog.types wire.length target).run decoder with
    ⟨stopped | value, after⟩
  · have hstops : (type.decode catalog.types wire.length target).Stops policy wire stopped.kept :=
      ⟨decoder, hready, rfl, rfl, stopped.error, after, hrun⟩
    exact ⟨iff_of_false (fun h => by cases h)
        (Ty.not_begins_of_stops hholds hformed.grounded hdepth hstops),
      fun _ => ⟨stopped.kept, rfl,
        Ty.remainsAt type _ hformed hholds hformed.grounded hdepth hstops⟩⟩
  · obtain ⟨front, hfront, haccepts⟩ := Reading.accepts_of_run hrun
    exact ⟨iff_of_true rfl ⟨front, _, value, hfront, Ty.laid_of_accepts hholds haccepts⟩,
      fun h => absurd rfl h⟩

/-- A list behind a discriminant, then a member, then a string: the number of the member is none.
The new discriminant and the list are there, the refused number is in its place, and the string is
that of the zero value that the arm started from. -/
theorem remains_after_error_arm :
    let node : Ty := .struct [.int32, .optional (.ref "node")]
    let catalog : Catalog := { types := [("node", node)] }
    let selected : Ty := .struct [.ref "node", .enumeration [0, 1], .string 4]
    let type : Ty := .union [([1], selected)] none
    let target : Value := .union 5 (.string "old")
    let wire : List UInt8 :=
      [0, 0, 0, 1, 0, 0, 0, 9, 0, 0, 0, 1, 0, 0, 0, 8, 0, 0, 0, 0, 0, 0, 0, 7, 0, 0, 0, 0]
    let left : Value := .union 1 (.list [.list [.int32 9, .present (.list [.int32 8, .absent])],
      .int32 7, .string ""])
    let decoder : Decoder := { transport := { rest := wire } }
    type.WellFormed catalog.types ∧ type.Holds catalog.types target ∧ decoder.Ready ∧
      ((DecodeStep.typed type (some target)).run catalog decoder).1 =
        { shown := some (.value left), error := some (.invalidEnum 7) } ∧
      ¬ type.Begins catalog.types .strict wire ∧
      type.Remains catalog.types .strict wire target left := by
  intro node catalog selected type target wire left decoder
  have hlookup : ∀ name body, catalog.types.lookup name = some body →
      name = "node" ∧ body = node := by
    intro name body hbody
    simp only [catalog, List.lookup_cons, List.lookup_nil] at hbody
    split at hbody <;> simp_all
  have hnode : ∃ body, catalog.types.lookup "node" = some body := ⟨node, rfl⟩
  have hformed : type.WellFormed catalog.types := by
    refine Ty.wellFormed_of_names (fun name body hbody => ?_) ?_ fun name body hbody => ?_
    · obtain ⟨rfl, rfl⟩ := hlookup name body hbody
      exact ⟨node, rfl, fun _ hmem => absurd hmem List.not_mem_nil⟩
    · simpa [type, selected, Ty.names, Ty.namesOfArms, Ty.namesOfArm, Ty.namesOfFallback,
        Ty.namesOfParts] using hnode
    · obtain ⟨rfl, rfl⟩ := hlookup name body hbody
      simpa [node, Ty.names, Ty.namesOfParts] using hnode
  have hholds : type.Holds catalog.types target := .union _ _ _ _
  have hready : decoder.Ready := ⟨rfl, Transport.Schedule.unfailing_default⟩
  have hanswer : ((DecodeStep.typed type (some target)).run catalog decoder).1 =
      { shown := some (.value left), error := some (.invalidEnum 7) } := by decide +kernel
  obtain ⟨hiff, hremains⟩ := remains_after_error catalog hformed hholds hready
  rw [hanswer] at hiff hremains
  obtain ⟨_, hleft, hremains⟩ := hremains (by simp)
  cases hleft
  exact ⟨hformed, hholds, hready, hanswer, fun h => absurd (hiff.mpr h) (by simp), hremains⟩

end Xdr
