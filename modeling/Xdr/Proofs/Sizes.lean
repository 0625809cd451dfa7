import Xdr.Proofs.Growth
import Xdr.Proofs.Stream.Budget
import Xdr.Proofs.Stream.Charges
import Xdr.Session

/-!
# Sizes that a source backs

Whatever lengths and counts a source claims, what is decoded from it is no larger than the bytes
that it delivers (`decoded_le_consumed`).
-/

namespace Xdr

open Transport

namespace Ty

variable {definitions : Definitions Ty} {type : Ty}

/-- A run takes four bytes for each part that it states to have read, also where it fails. -/
theorem count_parts_le (part : Part)
    (helements : part = .element → ElementsTakeBytes definitions type) (left : Nat)
    (target : Value) (decoder : Decoder) :
    ∃ given,
      decoder.transport.rest =
        given ++ ((type.decode definitions left target).run decoder).2.transport.rest ∧
      ((type.decode definitions left target).parts decoder).count part ≤ given.length / 4 := by
  have hpays : (type.decode definitions left target).Pays part :=
    pays_filter helements _ .refl target
  obtain ⟨given, hrest, hmoved⟩ := (type.decode definitions left target).advances_run decoder
  rcases hrun : (type.decode definitions left target).run decoder with ⟨result, after⟩
  rw [hrun] at hrest hmoved
  have hword := hpays.word hrun
  dsimp only at hmoved
  exact ⟨given, hrest, by omega⟩

end Ty

/-- What is decoded is bounded by what the source delivers.

Behind a length that is not refused, the buffer is at no point of the loop that reads the data more
than one portion longer than what was delivered to it, and the loop comes to the result of the
reading.

A step that decodes a well-formed type comes to an end: references are followed no deeper inside
one another than a bound that the definitions and the bytes that are left fix, for it makes no
difference what lies there. The array elements behind counts that were read by then, and the
optional values that were there, are each no more than the words consumed, whether or not the step
fails. -/
theorem decoded_le_consumed (catalog : Catalog) {decoder : Decoder}
    (husable : decoder.poisoned = false) :
    (∀ kind max buffer image source,
      decoder.transport.readExact 4 = (.ok image, source) → wordOfImage image ≤ max →
      let length := (wordOfImage image).toNat
      let total := length + padLength length
      let ran := (Reading.sized kind max buffer).run decoder
      (∀ steps state, Growth.run total steps (.start source) = some state →
        state.buffer.length ≤ state.source.moved - source.moved + 65536 ∧
          state.source.moved - source.moved ≤ source.rest.length) ∧
      ∃ state result, Growth.Leads total (.start source) state ∧
        state.control = .returned result ∧ state.source = ran.2.transport ∧
        ran.1 = match result with
          | .error failure => .error ⟨.ofRead failure, []⟩
          | .ok () =>
              if decoder.config.padding.accepts (state.buffer.drop length) then
                .ok (state.buffer.take length)
              else .error ⟨.invalidPadding, []⟩) ∧
    ∀ type target, type.WellFormed catalog.types → type.ElementsTakeBytes catalog.types →
      (∀ old, target = some old → type.Holds catalog.types old) →
      let left := decoder.transport.rest.length
      let before := target.getD (type.zero catalog.types)
      let reading := type.decode catalog.types left before
      (∀ beyond depth, (catalog.types.length + 1) * (left / 4 + 2) ≤ depth →
        ((type.filterBeyond catalog.types beyond depth).decode before).run decoder =
          reading.run decoder) ∧
      ∃ given,
        decoder.transport.rest =
          given ++ ((DecodeStep.typed type target).run catalog decoder).2.transport.rest ∧
        (reading.parts decoder).count .element ≤ given.length / 4 ∧
        (reading.parts decoder).count .present ≤ given.length / 4 := by
  refine ⟨fun kind max buffer image source hread hmax => ?_,
    fun type target hformed helements htarget => ?_⟩
  · refine ⟨fun steps state hrun => Growth.grown_le_delivered hrun, ?_⟩
    exact Growth.returned_eq_sized kind max buffer husable hread hmax
  · intro left before reading
    have hbefore : type.Holds catalog.types before := by
      cases target with
      | none => exact hformed.holds_zero
      | some old => exact htarget old rfl
    refine ⟨fun beyond depth hdepth => ?_, ?_⟩
    · exact Ty.decode_beyond hformed hbefore.not_overfull beyond hdepth decoder (Nat.le_refl _)
    · obtain ⟨given, hrest, hcount⟩ :=
        Ty.count_parts_le .element (fun _ => helements) left before decoder
      obtain ⟨same, hsame, hpresent⟩ :=
        Ty.count_parts_le .present (fun h => nomatch h) left before decoder
      obtain rfl := List.append_cancel_right (hrest.symm.trans hsame)
      exact ⟨given, hrest, hcount, hpresent⟩

/-- A list of lists with a forged count: the source ends in the middle of the second list. By then
an element and an optional value have been read, from five words. Data with a forged length does not
make the buffer grow beyond the bytes that are there and one portion. -/
theorem decoded_le_consumed_forged :
    let node : Ty := .struct [.int32, .optional (.ref "node")]
    let catalog : Catalog := { types := [("node", node)] }
    let type : Ty := .varArray 0xffffffff (.ref "node")
    let wire : List UInt8 := [255, 255, 255, 255, 0, 0, 0, 9, 0, 0, 0, 1, 0, 0, 0, 8, 0, 0, 0, 0,
      0, 0, 0, 7, 0]
    let decoder : Decoder := { transport := { rest := wire } }
    let reading := type.decode catalog.types wire.length (.list [])
    type.WellFormed catalog.types ∧ type.ElementsTakeBytes catalog.types ∧
      reading.parts decoder = [.present, .element] ∧
      (∃ given,
        wire = given ++ ((DecodeStep.typed type none).run catalog decoder).2.transport.rest ∧
        (reading.parts decoder).count .element ≤ given.length / 4 ∧
        (reading.parts decoder).count .present ≤ given.length / 4) ∧
      ∃ source : Source, decoder.transport.readExact 4 = (.ok [255, 255, 255, 255], source) ∧
        ∀ steps state, Growth.run 4294967296 steps (.start source) = some state →
          state.buffer.length ≤ 21 + 65536 := by
  intro node catalog type wire decoder reading
  have hlookup : ∀ name body, catalog.types.lookup name = some body →
      name = "node" ∧ body = node := by
    intro name body hbody
    simp only [catalog, List.lookup_cons, List.lookup_nil] at hbody
    split at hbody <;> simp_all
  have hnode : ∃ body, catalog.types.lookup "node" = some body := ⟨node, rfl⟩
  have hformed : type.WellFormed catalog.types := by
    refine Ty.wellFormed_of_names (fun name body hbody => ?_) ?_ fun name body hbody => ?_
    · obtain ⟨rfl, rfl⟩ := hlookup name body hbody
      exact ⟨node, rfl, fun _ hmem => absurd hmem List.not_mem_nil⟩
    · simpa [type, Ty.names] using hnode
    · obtain ⟨rfl, rfl⟩ := hlookup name body hbody
      simpa [node, Ty.names, Ty.namesOfParts] using hnode
  have hclosed : ∀ part ∈ [type, .ref "node", node, .int32, .optional (.ref "node")], ∀ inner,
      Ty.Contains catalog.types part inner →
      inner ∈ [type, .ref "node", node, .int32, .optional (.ref "node")] := by
    intro part hmem inner hcontains
    simp only [type, node, List.mem_cons, List.not_mem_nil, or_false] at hmem
    rcases hmem with rfl | rfl | rfl | rfl | rfl <;> cases hcontains
    · simp
    · next hbody =>
        obtain ⟨-, rfl⟩ := hlookup _ _ hbody
        simp
    · next hpart => simp_all
    · simp
  have helements : type.ElementsTakeBytes catalog.types := by
    intro max element hreaches value layout hlaid
    have hmem := Ty.Reaches.mem hreaches List.mem_cons_self hclosed
    simp only [type, node, List.mem_cons, List.not_mem_nil, or_false, reduceCtorEq,
      Ty.varArray.injEq] at hmem
    obtain ⟨-, rfl⟩ := hmem
    cases hlaid with
    | ref hbody hlaid =>
        obtain ⟨-, rfl⟩ := hlookup _ _ hbody
        have hstruct : Ty.Laid catalog.types (.struct [.int32, .optional (.ref "node")]) value
            layout := hlaid
        cases hstruct with
        | struct hparts =>
            cases hparts with
            | cons hnumber _ =>
                cases hnumber
                refine List.ne_nil_of_length_pos ?_
                rw [List.length_append, Layout.length_word]
                omega
  obtain ⟨hgrowth, hstep⟩ :=
    decoded_le_consumed catalog (show decoder.poisoned = false from rfl)
  obtain ⟨-, hcount⟩ := hstep type none hformed helements (fun _ h => by cases h)
  refine ⟨hformed, helements, by decide +kernel, hcount, ?_⟩
  obtain ⟨source, hread, hrest⟩ : ∃ source : Source,
      decoder.transport.readExact 4 = (.ok [255, 255, 255, 255], source) ∧
        source.rest = wire.drop 4 := by
    obtain ⟨source, hread, hrest, -⟩ := Source.readExact_unfailing
      Transport.Schedule.unfailing_default
      (show decoder.transport.rest = [255, 255, 255, 255] ++ wire.drop 4 from rfl)
    exact ⟨source, hread, hrest⟩
  refine ⟨source, hread, fun steps state hrun => ?_⟩
  obtain ⟨hgrown, hdelivered⟩ :=
    (hgrowth .bytes 0xffffffff [] _ source hread (by decide)).1 steps state hrun
  rw [hrest] at hdelivered
  exact hgrown.trans (Nat.add_le_add_right hdelivered _)

end Xdr
