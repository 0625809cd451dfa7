import Xdr.Proofs.Frozen
import Xdr.Proofs.Model.Fetches
import Xdr.Proofs.Model.Leaves
import Xdr.Proofs.Stream.Fetches

/-!
# Calls and items

The calls on a transport line up with the items that go through it, in runs of steps of all kinds:
each leaf of an encoded value is written in one call, and each thing that decoding fetches is read
in the calls of `Fetch.calls`. The statement to read first is `calls_eq_items`.
-/

namespace Xdr

open Transport

/-! ### Encoding -/

/-- The calls for leaves: one for each image that is not empty, up to the first refusal. -/
def Leaf.calls : List Leaf → List (List UInt8)
  | [] => []
  | .image bytes :: leaves => if bytes = [] then calls leaves else bytes :: calls leaves
  | .refusal _ :: _ => []

/-- The leaf of a direct call. -/
def Put.leaf : Put → Leaf
  | int32 value => .image (octets 4 value.toInt)
  | uint32 value => .image (octets 4 value.toNat)
  | int64 value => .image (octets 8 value.toInt)
  | uint64 value => .image (octets 8 value.toNat)
  | float bits => .image (octets 4 bits.toNat)
  | double bits => .image (octets 8 bits.toNat)
  | bool value => .image (octets 4 (if value then 1 else 0))
  | fixedOpaque data => .image (filledUp data.length data)
  | bytes data max => .sized max data
  | string text max => .sized max (Text.untilNul (Text.bytes text))

/-- The leaves of what a step encodes. -/
inductive EncodeStep.Leaves (catalog : Catalog) (ceiling : UInt32) :
    EncodeStep → List Leaf → Prop where
  | typed {type value leaves} : type.Leaves catalog.types value leaves →
      Leaves catalog ceiling (typed type value) leaves
  | put (call : Put) : Leaves catalog ceiling (put call) [call.leaf]
  | datum {schema content leaves} : schema.Leaves catalog.schemas ceiling content leaves →
      Leaves catalog ceiling (datum schema content) leaves
  | fault (error) : Leaves catalog ceiling (fault error) []

/-- The calls of steps on an encoder: those for the leaves of each step, and none once the encoder
is poisoned. -/
inductive EncodeStep.Calls (catalog : Catalog) :
    List EncodeStep → Encoder → List (List UInt8) → Prop where
  | nil (encoder) : Calls catalog [] encoder []
  | cons {step steps leaves calls} {encoder : Encoder} : encoder.poisoned = false →
      step.Leaves catalog encoder.config.maxLength leaves →
      Calls catalog steps (step.run catalog encoder).2 calls →
      Calls catalog (step :: steps) encoder (Leaf.calls leaves ++ calls)
  | poisoned (steps) {encoder : Encoder} : encoder.poisoned = true →
      Calls catalog steps encoder []

namespace Plan

/-- The leaves that a plan spells come to one call for each of its items. -/
theorem Spells.calls_eq {plan : Plan} {leaves : List Leaf} (h : plan.Spells leaves) :
    Leaf.calls leaves = (plan.items.map Item.image).filter (· ≠ []) := by
  obtain ⟨rest, rfl, hrest⟩ := h
  have hnone : Leaf.calls rest = [] := by
    cases hrefusal : plan.refusal with
    | none =>
        rw [hrefusal] at hrest
        rw [hrest]
        rfl
    | some refusal =>
        rw [hrefusal] at hrest
        obtain ⟨later, rfl⟩ := hrest
        rfl
  induction plan.items with
  | nil => exact hnone
  | cons item items ih =>
      rw [List.map_cons, List.cons_append, Leaf.calls, List.map_cons, List.filter_cons, ih]
      by_cases hempty : item.image = [] <;> simp [hempty]

/-- A refusal leaves the transport as the items left it. -/
theorem run_transport (plan : Plan) (encoder : Encoder) :
    (plan.run encoder).2.transport = (emitAll plan.items encoder).2.transport := by
  rw [run]
  rcases emitAll plan.items encoder with ⟨error | _, written⟩
  · rfl
  · cases plan.refusal with
    | none => rfl
    | some refusal => exact written.refuse_transport refusal

/-- A plan is carried out in one call for each leaf in front of the first refusal. -/
theorem Spells.offers_run {plan : Plan} {leaves : List Leaf} (h : plan.Spells leaves)
    {encoder : Encoder} (husable : encoder.poisoned = false)
    (hfull : encoder.transport.account.InFull (plan.run encoder).2.transport.account) :
    (plan.run encoder).2.transport.offers.toList =
      encoder.transport.offers.toList ++ Leaf.calls leaves := by
  rw [run_transport] at hfull ⊢
  obtain ⟨after, hitems, -, hoffers⟩ := emitAll_in_full plan.items husable hfull
  rw [hitems, h.calls_eq]
  exact hoffers

end Plan

/-- The plan of a direct call spells its leaf. -/
theorem Put.spells_plan (call : Put) : call.plan.Spells [call.leaf] := by
  cases call with
  | int32 value => exact Plan.spells_one _ (octets_int32 value)
  | uint32 value => exact Plan.spells_one _ (octets_word value)
  | int64 value => exact Plan.spells_one _ (octets_int64 value)
  | uint64 value => exact Plan.spells_one _ (octets_hyper value)
  | float bits => exact Plan.spells_one _ (octets_word bits)
  | double bits => exact Plan.spells_one _ (octets_hyper bits)
  | bool value =>
      refine Plan.spells_one (.bool value) ?_
      cases value with
      | false => exact octets_word 0
      | true => exact octets_word 1
  | fixedOpaque data =>
      refine Plan.spells_one (.fixedOpaque data) ?_
      rw [Ty.filledUp_eq, Layout.image_padded]
      rfl
  | bytes data max => exact Ty.spells_encodeSized .bytes .bytes max data
  | string text max => exact Ty.spells_encodeSized .string .string max _

namespace EncodeStep

variable {catalog : Catalog} {encoder : Encoder}

theorem within_run (step : EncodeStep) (encoder : Encoder) :
    encoder.transport.account.Within (step.run catalog encoder).2.transport.account := by
  cases step with
  | typed type value => exact Plan.within_run _ _
  | put call => exact Plan.within_run _ _
  | datum schema content => exact Plan.within_run _ _
  | fault error => exact Account.within_refl _

theorem within_after (steps : List EncodeStep) (encoder : Encoder) :
    encoder.transport.account.Within (after catalog steps encoder).transport.account := by
  induction steps generalizing encoder with
  | nil => exact Account.within_refl _
  | cons step steps ih => exact (step.within_run encoder).trans (ih _)

/-- A step is carried out in one call for each of its leaves in front of the first refusal. -/
theorem Leaves.offers_run {step : EncodeStep} {leaves : List Leaf}
    (h : step.Leaves catalog encoder.config.maxLength leaves) (husable : encoder.poisoned = false)
    (hfull : encoder.transport.account.InFull
      (step.run catalog encoder).2.transport.account) :
    (step.run catalog encoder).2.transport.offers.toList =
      encoder.transport.offers.toList ++ Leaf.calls leaves := by
  cases h with
  | @typed type value _ hleaves =>
      have hspells : (type.encode catalog.types value).Spells leaves :=
        hleaves.spelled hleaves.grounded (catalog.types.budget_le (Nat.le_refl _))
      exact hspells.offers_run husable hfull
  | put call => exact call.spells_plan.offers_run husable hfull
  | datum hleaves => exact (Schema.encode_spells hleaves).offers_run husable hfull
  | fault error => exact (List.append_nil _).symm

/-- So are steps in a row. -/
theorem Calls.offers_after {steps : List EncodeStep} {calls : List (List UInt8)}
    (h : Calls catalog steps encoder calls)
    (hfull : encoder.transport.account.InFull
      (after catalog steps encoder).transport.account) :
    (after catalog steps encoder).transport.offers.toList =
      encoder.transport.offers.toList ++ calls := by
  induction h with
  | nil encoder => exact (List.append_nil _).symm
  | @cons step steps leaves calls encoder husable hleaves _ ih =>
      obtain ⟨hfirst, hrest⟩ := hfull.split (step.within_run encoder) (within_after steps _)
      rw [← List.append_assoc, ← hleaves.offers_run husable hfirst]
      exact ih hrest
  | @poisoned steps encoder hpoisoned =>
      have hfrozen : (after catalog steps encoder).Frozen encoder.transport :=
        frozen_after ⟨hpoisoned, rfl⟩ steps
      rw [hfrozen.transport_eq, List.append_nil]

end EncodeStep

/-! ### Decoding -/

/-- What a direct call reads. -/
def Get.scalar : Get → Scalar
  | int32 | uint32 | float => .word fun _ => none
  | int64 | uint64 | double => .hyper
  | bool => .word checkBool
  | length max => .word (checkLength max)
  | bytes max => .sized max fun _ => none
  | string max => .sized max checkText
  | bytesInto max _ => .sized max fun _ => none
  | fixedOpaque buffer => .fixedOpaque buffer.length fun _ => none

/-- What a step fetches. -/
def DecodeStep.fetching (catalog : Catalog) (config : Config) : DecodeStep → Fetching
  | typed type _ => type.Fetches catalog.types config.padding
  | get call => call.scalar.Fetches config.padding
  | datum schema => schema.Fetches catalog.schemas config.maxLength config.padding
  | fault error => .nothing (some error)

/-- What steps fetch on a decoder: each what is said of it from the bytes that are left, and nothing
once the decoder is poisoned. -/
inductive DecodeStep.Fetches (catalog : Catalog) :
    List DecodeStep → Decoder → List Fetch → Prop where
  | nil (decoder) : Fetches catalog [] decoder []
  | cons {step steps fetches later} {decoder : Decoder} : decoder.poisoned = false →
      step.fetching catalog decoder.config decoder.transport.rest
        ⟨fetches, (step.run catalog decoder).1.error,
          (step.run catalog decoder).2.transport.rest⟩ →
      Fetches catalog steps (step.run catalog decoder).2 later →
      Fetches catalog (step :: steps) decoder (fetches ++ later)
  | poisoned (steps) {decoder : Decoder} : decoder.poisoned = true →
      Fetches catalog steps decoder []

/-- The types and schemas of a step are well formed, and its target is one of its type. -/
def DecodeStep.Sound (catalog : Catalog) : DecodeStep → Prop
  | typed type target => type.WellFormed catalog.types ∧
      ∀ old, target = some old → type.Holds catalog.types old
  | datum schema => schema.WellFormed catalog.schemas
  | _ => True

open Reading in
theorem Get.fetches_reading {policy : PaddingPolicy} {left : Nat} (call : Get) :
    call.reading.Fetches policy left (call.scalar.Fetches policy) := by
  cases call with
  | int32 | uint32 | float =>
      rw [reading, scalar]
      exact fetches_checked fun w => fetches_done _
  | int64 | uint64 | double =>
      rw [reading, scalar]
      exact fetches_hyper
  | bool => exact fetches_bool
  | length max => exact fetches_length
  | bytes max => exact fetches_sized.map _ _
  | string max => exact fetches_string.map _ _
  | bytesInto max buffer => exact fetches_sized.map _ _
  | fixedOpaque buffer => exact fetches_fixedOpaque fun data => fetches_done _

theorem DecodeAnswer.error_ofResult {κ α : Type} (keep : κ → Option Shown) (deliver : α → Shown)
    (result : Except (Stopped κ) α) :
    (ofResult keep deliver result).error = Reading.errorOf result := by
  cases result <;> rfl

namespace DecodeStep

variable {catalog : Catalog} {decoder : Decoder}

theorem within_run (step : DecodeStep) (decoder : Decoder) :
    decoder.transport.account.Within (step.run catalog decoder).2.transport.account := by
  cases step with
  | typed type target => exact Reading.within_run _ _
  | get call => exact Reading.within_run _ _
  | datum schema => exact Reading.within_run _ _
  | fault error => exact Account.within_refl _

theorem within_after (steps : List DecodeStep) (decoder : Decoder) :
    decoder.transport.account.Within (after catalog steps decoder).transport.account := by
  induction steps generalizing decoder with
  | nil => exact Account.within_refl _
  | cons step steps ih => exact (step.within_run decoder).trans (ih _)

/-- A step fetches what is said of it. -/
theorem fetches_run {step : DecodeStep} (hsound : step.Sound catalog)
    (husable : decoder.poisoned = false)
    (hfull : decoder.transport.account.InFull
      (step.run catalog decoder).2.transport.account) :
    ∃ fetches, step.fetching catalog decoder.config decoder.transport.rest
        ⟨fetches, (step.run catalog decoder).1.error,
          (step.run catalog decoder).2.transport.rest⟩ ∧
      (step.run catalog decoder).2.transport.requests.toList =
        decoder.transport.requests.toList ++ fetches.flatMap Fetch.calls := by
  cases step with
  | typed type target =>
      obtain ⟨hformed, htarget⟩ := hsound
      have hholds : type.Holds catalog.types (target.getD (type.zero catalog.types)) := by
        cases target with
        | none => exact hformed.holds_zero
        | some old => exact htarget old rfl
      rw [run, DecodeAnswer.error_ofResult]
      exact Ty.fetches_decode hformed hholds husable rfl hfull
  | get call =>
      rw [run, DecodeAnswer.error_ofResult]
      exact call.fetches_reading.of_run husable rfl hfull
  | datum schema =>
      rw [run, DecodeAnswer.error_ofResult]
      exact Schema.fetches_decode hsound husable rfl hfull
  | fault error => exact ⟨[], rfl, (List.append_nil _).symm⟩

/-- So do steps in a row. -/
theorem fetches_after {steps : List DecodeStep} (hsound : ∀ step ∈ steps, step.Sound catalog)
    (hfull : decoder.transport.account.InFull
      (after catalog steps decoder).transport.account) :
    ∃ fetches, Fetches catalog steps decoder fetches ∧
      (after catalog steps decoder).transport.requests.toList =
        decoder.transport.requests.toList ++ fetches.flatMap Fetch.calls := by
  induction steps generalizing decoder with
  | nil => exact ⟨[], .nil decoder, (List.append_nil _).symm⟩
  | cons step steps ih =>
      obtain ⟨hstep, hsteps⟩ := List.forall_mem_cons.mp hsound
      cases hpoisoned : decoder.poisoned with
      | true =>
          have hfrozen : (after catalog (step :: steps) decoder).Frozen decoder.transport :=
            frozen_after ⟨hpoisoned, rfl⟩ (step :: steps)
          refine ⟨[], .poisoned _ hpoisoned, ?_⟩
          rw [hfrozen.transport_eq]
          exact (List.append_nil _).symm
      | false =>
          obtain ⟨hfirst, hrest⟩ := hfull.split (step.within_run decoder) (within_after steps _)
          obtain ⟨fetches, hfetching, hrequests⟩ := fetches_run hstep hpoisoned hfirst
          obtain ⟨later, hlater, hall⟩ := ih hsteps hrest
          refine ⟨fetches ++ later, .cons hpoisoned hfetching hlater, ?_⟩
          rw [List.flatMap_append, ← List.append_assoc, ← hrequests]
          exact hall

/-- The bytes settle what a step fetches. -/
theorem fetching_unique {step : DecodeStep} {config : Config} {wire : List UInt8}
    {fetched found : Fetched} (h : step.fetching catalog config wire fetched)
    (hfound : step.fetching catalog config wire found) : fetched = found := by
  cases step with
  | typed type target => exact Opening.Fetches.unique h hfound
  | get call => exact Scalar.Fetches.unique h hfound
  | datum schema => exact Opening.Fetches.unique h hfound
  | fault error => exact Eq.trans h (Eq.symm hfound)

/-- So is what steps in a row fetch settled. -/
theorem Fetches.unique {steps : List DecodeStep} {fetches found : List Fetch}
    (h : Fetches catalog steps decoder fetches) (hfound : Fetches catalog steps decoder found) :
    fetches = found := by
  induction h generalizing found with
  | nil decoder => cases hfound <;> rfl
  | cons husable hfetching _ ih =>
      cases hfound with
      | cons _ hother hlater =>
          rw [(Fetched.mk.inj (fetching_unique hfetching hother)).1, ih hlater]
      | poisoned _ hpoisoned => cases husable.symm.trans hpoisoned
  | poisoned steps hpoisoned =>
      cases hfound with
      | nil => rfl
      | cons husable _ _ => cases husable.symm.trans hpoisoned
      | poisoned => rfl

end DecodeStep

/-- Calls on a transport line up with items. Where each call is satisfied in full, the byte strings
that steps on an encoder hand to the sink are the images of the leaves, in order and each as a
whole, and the reads of steps on a decoder are those for the words, hypers and data that the steps
fetch, which are settled by the bytes. -/
theorem calls_eq_items (catalog : Catalog) :
    (∀ (steps : List EncodeStep) (encoder : Encoder) (calls : List (List UInt8)),
      EncodeStep.Calls catalog steps encoder calls →
      encoder.transport.account.InFull
        (EncodeStep.after catalog steps encoder).transport.account →
      (EncodeStep.after catalog steps encoder).transport.offers.toList =
        encoder.transport.offers.toList ++ calls) ∧
    ∀ (steps : List DecodeStep) (decoder : Decoder), (∀ step ∈ steps, step.Sound catalog) →
      decoder.transport.account.InFull
        (DecodeStep.after catalog steps decoder).transport.account →
      (∃ fetches, DecodeStep.Fetches catalog steps decoder fetches) ∧
        ∀ fetches, DecodeStep.Fetches catalog steps decoder fetches →
          (DecodeStep.after catalog steps decoder).transport.requests.toList =
            decoder.transport.requests.toList ++ fetches.flatMap Fetch.calls := by
  refine ⟨fun _ _ _ hcalls hfull => hcalls.offers_after hfull,
    fun steps decoder hsound hfull => ?_⟩
  obtain ⟨fetches, hfetches, hrequests⟩ := DecodeStep.fetches_after hsound hfull
  refine ⟨⟨fetches, hfetches⟩, fun found hfound => ?_⟩
  rw [hfound.unique hfetches]
  exact hrequests

/-- A linked list and data of several kinds. Nothing is called for the empty data and the void, for
the byte string over its maximum, and for what follows it on the poisoned encoder. The decoder stops
at a number that is no byte, and its last step reads nothing. -/
theorem calls_eq_items_list :
    let node : Ty := .struct [.int32, .optional (.ref "node")]
    let catalog : Catalog := { types := [("node", node)] }
    let type : Ty := .struct [.bytes 5, .void, .fixedOpaque 0, .ref "node"]
    let value : Value := .list [.bytes [1, 2, 3, 4, 5], .void, .bytes [],
      .list [.int32 9, .present (.list [.int32 8, .absent])]]
    let writes : List EncodeStep := [.typed type value, .put (.fixedOpaque [6]),
      .datum (.seq .uint64 .actual {}) (.seq [.uint64 7] none), .put (.bytes [1, 2] 1),
      .put (.int32 5)]
    let encoder : Encoder := { transport := {} }
    let reads : List DecodeStep := [.typed type none, .get (.fixedOpaque [0]),
      .datum (.tuple 2 [.uint64, .uint8]), .get .int32]
    let decoder : Decoder := { transport := { rest := [0, 0, 0, 5, 1, 2, 3, 4, 5, 0, 0, 0,
      0, 0, 0, 9, 0, 0, 0, 1, 0, 0, 0, 8, 0, 0, 0, 0, 6, 0, 0, 0,
      0, 0, 0, 0, 0, 0, 0, 7, 0, 0, 1, 0, 0, 0, 0, 5] } }
    let calls : List (List UInt8) := [[0, 0, 0, 5, 1, 2, 3, 4, 5, 0, 0, 0], [0, 0, 0, 9],
      [0, 0, 0, 1], [0, 0, 0, 8], [0, 0, 0, 0], [6, 0, 0, 0], [0, 0, 0, 1],
      [0, 0, 0, 0, 0, 0, 0, 7]]
    EncodeStep.Calls catalog writes encoder calls ∧
      encoder.transport.account.InFull
        (EncodeStep.after catalog writes encoder).transport.account ∧
      (EncodeStep.after catalog writes encoder).transport.offers.toList = [] ++ calls ∧
      (∀ step ∈ reads, step.Sound catalog) ∧
      decoder.transport.account.InFull
        (DecodeStep.after catalog reads decoder).transport.account ∧
      ∃ fetches, DecodeStep.Fetches catalog reads decoder fetches ∧
        [] ++ fetches.flatMap Fetch.calls = [4, 8, 4, 4, 4, 4, 4, 8, 4] := by
  intro node catalog type value writes encoder reads decoder calls
  have hlookup : ∀ name body, catalog.types.lookup name = some body →
      name = "node" ∧ body = node := by
    intro name body hbody
    simp only [catalog, List.lookup_cons, List.lookup_nil] at hbody
    split at hbody <;> simp_all
  have hnode : catalog.types.lookup "node" = some node := rfl
  have hleaves : EncodeStep.Calls catalog writes encoder _ :=
    .cons rfl (.typed (.struct (.cons (.bytes 5 _) (.cons .void (.cons (.fixedOpaque 0 _) (.cons
      (.ref hnode (.struct (.cons (.int32 9) (.cons (.present (.ref hnode
        (.struct (.cons (.int32 8) (.cons (.absent _) .nil))))) .nil)))) .nil))))))
    (.cons (by decide +kernel) (.put _)
    (.cons (by decide +kernel) (.datum (.seq .actual {} none (.cons (.uint64 7) .nil)))
    (.cons (by decide +kernel) (.put _)
    (.poisoned _ (by decide +kernel)))))
  have hcalls : EncodeStep.Calls catalog writes encoder calls := by
    convert hleaves using 1
    decide +kernel
  have hwritten : encoder.transport.account.InFull
      (EncodeStep.after catalog writes encoder).transport.account := by
    have haccount : (EncodeStep.after catalog writes encoder).transport.account = ⟨44, 44⟩ := by
      decide +kernel
    rw [haccount]
    rfl
  have hformed : type.WellFormed catalog.types := by
    refine Ty.wellFormed_of_names (fun name body hbody => ?_) ?_ fun name body hbody => ?_
    · obtain ⟨rfl, rfl⟩ := hlookup name body hbody
      exact ⟨node, rfl, fun _ hmem => absurd hmem List.not_mem_nil⟩
    · simpa [type, Ty.names, Ty.namesOfParts] using ⟨node, hnode⟩
    · obtain ⟨rfl, rfl⟩ := hlookup name body hbody
      simpa [node, Ty.names, Ty.namesOfParts] using ⟨_, hnode⟩
  have hschema : Schema.WellFormed [] (.tuple 2 [.uint64, .uint8]) := by
    refine ⟨fun _ _ hbody => (by cases hbody), fun hreaches => ?_⟩
    rcases hreaches.cases_head with hself | ⟨part, hcontains, hbehind⟩
    · cases hself
    · cases hcontains with
      | tuple _ hmem =>
          rcases hbehind.cases_head with rfl | ⟨inner, hinner, -⟩
          · simp at hmem
          · simp only [List.mem_cons, List.not_mem_nil, or_false] at hmem
            rcases hmem with rfl | rfl <;> cases hinner
  have hsound : ∀ step ∈ reads, step.Sound catalog :=
    List.forall_mem_cons.mpr ⟨⟨hformed, fun _ hold => (by cases hold)⟩,
      List.forall_mem_cons.mpr ⟨trivial,
        List.forall_mem_cons.mpr ⟨hschema, List.forall_mem_singleton.mpr trivial⟩⟩⟩
  have hread : decoder.transport.account.InFull
      (DecodeStep.after catalog reads decoder).transport.account := by
    have haccount : (DecodeStep.after catalog reads decoder).transport.account = ⟨44, 44⟩ := by
      decide +kernel
    rw [haccount]
    rfl
  have hlogged : (DecodeStep.after catalog reads decoder).transport.requests.toList =
      [4, 8, 4, 4, 4, 4, 4, 8, 4] := by
    decide +kernel
  obtain ⟨hencode, hdecode⟩ := calls_eq_items catalog
  obtain ⟨⟨fetches, hfetches⟩, hrequests⟩ := hdecode reads decoder hsound hread
  exact ⟨hcalls, hwritten, hencode writes encoder calls hcalls hwritten, hsound, hread, fetches,
    hfetches, (hrequests fetches hfetches).symm.trans hlogged⟩

end Xdr
