import Xdr.Proofs.Stream.Filter
import Xdr.Proofs.Stream.Layout
import Xdr.Session

/-!
# Targets and what is read into them

What a target held before has no part in what is read into it. A reading without what it keeps
where it stops (`Reading.bare`) makes the same calls and comes to the same end (`run_bare`), and
two targets of a type have the same bare reading (`Ty.Holds.bare_decode`). The statement to read
first is `decoded_alike`.
-/

namespace Xdr

namespace Reading

variable {κ μ α β : Type}

/-- The reading without what it keeps where it stops. -/
def bare : {κ α : Type} → Reading κ α → Reading Unit α
  | _, _, done value => done value
  | _, _, refuse refusal _ => refuse refusal ()
  | _, _, request operation count _ _ next =>
      request operation count () () fun bytes => bare (next bytes)
  | _, _, note event next => note event (bare next)
  | _, _, mark part next => mark part (bare next)
  | _, _, checkPadding operation padding _ next => checkPadding operation padding () (bare next)
  | _, _, later next => later fun reached => bare (next reached)
  | _, _, andThen first _ next => andThen (bare first) id fun value => bare (next value)

/-- A bare reading comes to the same end on the same decoder, and only keeps nothing. -/
theorem run_bare (reading : Reading κ α) (decoder : Decoder) :
    reading.bare.run decoder =
      ((reading.run decoder).1.mapError (Stopped.map fun _ => ()), (reading.run decoder).2) := by
  induction reading generalizing decoder with
  | done value => rfl
  | refuse refusal kept => rfl
  | request operation count untouched kept next ih =>
      rw [bare, run_request, run_request]
      split
      · rfl
      · rcases decoder.useTransport fun source => source.readExact count with ⟨_ | bytes, after⟩
        · rfl
        · exact ih bytes after
  | note event next ih => exact ih (decoder.record event)
  | mark part next ih => exact ih decoder
  | checkPadding operation padding kept next ih =>
      rw [bare, run_checkPadding, run_checkPadding]
      split
      · exact ih decoder
      · rfl
  | later next ih => exact ih () decoder
  | andThen first keep next ihFirst ihNext =>
      rw [bare, run_andThen, run_andThen, ihFirst]
      rcases first.run decoder with ⟨stopped | value, after⟩
      · rfl
      · exact ihNext value after

/-- Readings that are the same when bare end with the same value or the same error, on the same
decoder. -/
theorem run_of_bare_eq {first second : Reading κ α} (h : first.bare = second.bare)
    (decoder : Decoder) :
    (second.run decoder).2 = (first.run decoder).2 ∧
      (second.run decoder).1.mapError Stopped.error =
        (first.run decoder).1.mapError Stopped.error := by
  have hrun : first.bare.run decoder = second.bare.run decoder := by rw [h]
  rw [run_bare, run_bare] at hrun
  obtain ⟨hresult, hafter⟩ := Prod.mk.inj hrun
  refine ⟨hafter.symm, ?_⟩
  -- the error is still there when nothing is kept
  have herror := congrArg (Except.mapError Stopped.error) hresult
  have hmap : ∀ result : Except (Stopped κ) α,
      (result.mapError (Stopped.map fun _ => ())).mapError Stopped.error =
        result.mapError Stopped.error := by
    rintro (stopped | value) <;> rfl
  rw [hmap, hmap] at herror
  exact herror.symm

/-- What a word keeps is left out, and the rest is alike if it is for every word. -/
theorem bare_word {operation : Operation} {kept kept' : κ} {next next' : UInt32 → Reading κ α}
    (h : ∀ w, (next w).bare = (next' w).bare) :
    (word operation kept next).bare = (word operation kept' next').bare := by
  simp only [word, bare, h]

theorem bare_map (keep : κ → μ) (change : α → β) {first second : Reading κ α}
    (h : first.bare = second.bare) :
    (first.map keep change).bare = (second.map keep change).bare := by
  simp only [map, bare, h]

/-- Values are read in order alike if the readings are alike one by one, whatever targets they come
with. -/
theorem bare_inOrder {pairs pairs' : List (α × Reading α α)}
    (h : List.Forall₂ (fun pair pair' => pair.2.bare = pair'.2.bare) pairs pairs')
    (finished : List α) : (inOrder pairs finished).bare = (inOrder pairs' finished).bare := by
  induction h generalizing finished with
  | nil => rfl
  | cons hhead _ ih => simp only [inOrder, bare, hhead, ih]

end Reading

namespace Filter

variable {α β : Type}

/-- Two targets in a larger type are replaced alike if the parts in them are. -/
theorem bare_within {inner : Filter α} {inject : α → β} {project : β → Option α}
    {target target' : β} {part part' : α} (hpart : project target = some part)
    (hpart' : project target' = some part')
    (h : (inner.decode part).bare = (inner.decode part').bare) :
    ((inner.within inject project).decode target).bare =
      ((inner.within inject project).decode target').bare := by
  rw [decode_within_of_some hpart, decode_within_of_some hpart']
  exact Reading.bare_map _ _ h

-- what these types read is fixed by the word in front, whatever the target held

theorem bare_bool (target target' : Bool) :
    (bool.decode target).bare = (bool.decode target').bare := by
  dsimp only [bool, Reading.bool]
  refine Reading.bare_word fun w => ?_
  split_ifs <;> rfl

theorem bare_string (max : UInt32) (target target' : String) :
    ((string max).decode target).bare = ((string max).decode target').bare := by
  refine congrArg (Reading.andThen _ id) (funext fun bytes => ?_)
  dsimp only
  cases Text.ofBytes? bytes <;> rfl

theorem bare_varArray (max : UInt32) (zero : Unit → α) (element : Filter α)
    (targets targets' : List α) :
    ((varArray max zero element).decode targets).bare =
      ((varArray max zero element).decode targets').bare := by
  dsimp only [varArray]
  refine Reading.bare_word fun count => ?_
  split_ifs <;> rfl

theorem bare_optional (zero : Unit → α) (inner : Filter α) (target target' : Option α) :
    ((optional zero inner).decode target).bare = ((optional zero inner).decode target').bare := by
  dsimp only [optional]
  refine Reading.bare_word fun present => ?_
  split_ifs <;> rfl

theorem bare_union (arm : Int32 → Option ((Unit → α) × Filter α)) (target target' : Int32 × α) :
    ((union arm).decode target).bare = ((union arm).decode target').bare := by
  dsimp only [union]
  refine Reading.bare_word fun w => ?_
  cases arm w.toInt32 <;> rfl

end Filter

namespace Ty

variable {definitions : Definitions Ty}

/-- The parts of two rows of targets are replaced alike, one by one. -/
theorem bare_row (depth : Nat) {parts : List Ty} {targets targets' : List Value}
    (h : List.Forall₂ (fun part target => ∃ _ : Holds definitions part target,
      ∀ target' depth, Holds definitions part target' →
        ((filter definitions depth part).decode target).bare =
          ((filter definitions depth part).decode target').bare) parts targets)
    (htargets : List.Forall₂ (Holds definitions) parts targets') :
    List.Forall₂ (fun pair pair' : Value × Reading Value Value => pair.2.bare = pair'.2.bare)
      (List.zipWith (fun part target => (target, (filter definitions depth part).decode target))
        parts targets)
      (List.zipWith (fun part target => (target, (filter definitions depth part).decode target))
        parts targets') := by
  induction h generalizing targets' with
  | nil =>
      cases htargets
      exact .nil
  | cons hhead _ ih =>
      cases htargets with
      | cons htarget htargets =>
          obtain ⟨_, halike⟩ := hhead
          exact .cons (halike _ depth htarget) (ih htargets)

/-- Two targets of a type are replaced alike, however deep references are followed. -/
theorem Holds.bare_decode {type : Ty} {target : Value} (h : Holds definitions type target) :
    ∀ target' depth, Holds definitions type target' →
      ((filter definitions depth type).decode target).bare =
        ((filter definitions depth type).decode target').bare := by
  induction h with
  | @fixedOpaque length data hlength =>
      intro target' depth h'
      cases h' with
      | @fixedOpaque _ data' hlength' =>
          refine Filter.bare_within rfl rfl ?_
          show (Reading.fixedOpaque data.length data .done).bare =
            (Reading.fixedOpaque data'.length data' .done).bare
          rw [hlength, hlength']
          rfl
  | @fixedArray length element items hitems ih =>
      intro target' depth h'
      cases h' with
      | @fixedArray _ _ items' hitems' =>
          have hlength : length = items.length := by simpa using hitems.length_eq
          have hlength' : length = items'.length := by simpa using hitems'.length_eq
          have hrow := bare_row depth ih hitems'
          rw [zipWith_replicate_left _ hlength, zipWith_replicate_left _ hlength'] at hrow
          exact Filter.bare_within rfl rfl (Reading.bare_inOrder hrow [])
  | @struct parts items hitems ih =>
      intro target' depth h'
      cases h' with
      | @struct _ items' hitems' =>
          have hrow := bare_row depth ih hitems'
          rw [filter, filterWith_struct]
          refine Filter.bare_within rfl rfl ?_
          rw [Filter.decode_struct (by rw [List.length_map, hitems.length_eq]),
            Filter.decode_struct (by rw [List.length_map, hitems'.length_eq]),
            List.zipWith_map_left, List.zipWith_map_left]
          exact Reading.bare_inOrder hrow []
  | absent inner =>
      intro target' depth h'
      cases h' with
      | absent => rfl
      | present _ value =>
          exact Filter.bare_within rfl rfl (Filter.bare_optional _ _ _ _)
  | present inner value =>
      intro target' depth h'
      cases h' with
      | absent =>
          exact Filter.bare_within rfl rfl (Filter.bare_optional _ _ _ _)
      | present _ value' =>
          exact Filter.bare_within rfl rfl (Filter.bare_optional _ _ _ _)
  | bool value =>
      intro target' depth h'
      cases h' with
      | bool value' =>
          exact Filter.bare_within rfl rfl (Filter.bare_bool value value')
  | string max text =>
      intro target' depth h'
      cases h' with
      | string _ text' =>
          exact Filter.bare_within rfl rfl (Filter.bare_string max text text')
  | varArray max element items =>
      intro target' depth h'
      cases h' with
      | varArray _ _ items' =>
          exact Filter.bare_within rfl rfl (Filter.bare_varArray max _ _ items items')
  | union arms fallback discriminant arm =>
      intro target' depth h'
      cases h' with
      | union _ _ discriminant' arm' =>
          exact Filter.bare_within rfl rfl (Filter.bare_union _ _ _)
  | ref hbody h ih =>
      intro target' depth h'
      cases h' with
      | ref hfound h' =>
          obtain rfl := Option.some.inj (hfound.symm.trans hbody)
          cases depth with
          | zero => rfl
          | succ depth =>
              rw [decode_ref hbody, decode_ref hbody]
              simp only [Reading.bare, ih _ depth h']
  -- what the other types keep is all that depends on the target
  | _ =>
      intro target' depth h'
      cases h'
      rfl

end Ty

/-- What a target held before has no part in what is read into it. Whatever the source and the state
of the decoder, decoding into two targets of a type makes the same calls, comes to the same error or
to none, and leaves the decoder alike. If there was no error, both targets hold the same value. -/
theorem decoded_alike (catalog : Catalog) {type : Ty} {target target' : Value}
    (h : type.Holds catalog.types target) (h' : type.Holds catalog.types target')
    (decoder : Decoder) :
    let first := (DecodeStep.typed type (some target)).run catalog decoder
    let second := (DecodeStep.typed type (some target')).run catalog decoder
    second.1.error = first.1.error ∧ second.2 = first.2 ∧
      (first.1.error = none →
        ∃ value, first.1.shown = some (.value value) ∧ second.1.shown = some (.value value)) := by
  intro first second
  have hbare : (type.decode catalog.types decoder.transport.rest.length target).bare =
      (type.decode catalog.types decoder.transport.rest.length target').bare :=
    h.bare_decode target' _ h'
  obtain ⟨hafter, hresult⟩ := Reading.run_of_bare_eq hbare decoder
  simp only [first, second, DecodeStep.run, Option.getD_some]
  generalize (type.decode catalog.types decoder.transport.rest.length target).run decoder = ran
    at hafter hresult ⊢
  generalize (type.decode catalog.types decoder.transport.rest.length target').run decoder = ran'
    at hafter hresult ⊢
  obtain ⟨stopped | value, after⟩ := ran <;> obtain ⟨stopped' | value', after'⟩ := ran' <;>
    simp only [Except.mapError, Except.error.injEq, Except.ok.injEq, reduceCtorEq] at hresult
  · exact ⟨congrArg some hresult, hafter, fun hnone => by cases hnone⟩
  · subst hresult
    exact ⟨rfl, hafter, fun _ => ⟨_, rfl, rfl⟩⟩

/-- A target left over from other values, in which every part is longer than what is on the wire or
of another arm, and a new one. -/
theorem decoded_alike_stale :
    let type : Ty := .struct [.bytes 8, .varArray 3 .int32, .optional .bool,
      .union [([1], .uint32)] (some .void), .fixedOpaque 2]
    let stale : Value := .list [.bytes [1, 2, 3, 4, 5, 6, 7, 8], .list [.int32 1, .int32 2],
      .present (.bool true), .union 1 (.uint32 7), .bytes [0xee, 0xee]]
    let new : Value := .list [.bytes [], .list [], .absent, .union 0 .void, .bytes [0, 0]]
    let decoder : Decoder := { transport := { rest :=
      [0, 0, 0, 1, 9, 0, 0, 0, 0, 0, 0, 0, 0, 0, 0, 0, 0, 0, 0, 2, 0xa, 0xb, 0, 0] } }
    let value : Value := .list [.bytes [9], .list [], .absent, .union 2 .void, .bytes [0xa, 0xb]]
    let run (target : Value) := (DecodeStep.typed type (some target)).run {} decoder
    (run stale).1 = { shown := some (.value value) } ∧ (run new).1 = (run stale).1 ∧
      (run new).2 = (run stale).2 := by
  intro type stale new decoder value run
  have hstale : type.Holds [] stale :=
    .struct (.cons (.bytes _ _) (.cons (.varArray _ _ _) (.cons (.present _ _)
      (.cons (.union _ _ _ _) (.cons (.fixedOpaque rfl) .nil)))))
  have hnew : type.Holds [] new :=
    .struct (.cons (.bytes _ _) (.cons (.varArray _ _ _) (.cons (.absent _)
      (.cons (.union _ _ _ _) (.cons (.fixedOpaque rfl) .nil)))))
  have hrun : (run stale).1 = { shown := some (.value value) } := by decide +kernel
  obtain ⟨herror, hafter, hvalue⟩ := decoded_alike {} hstale hnew decoder
  obtain ⟨read, hread, hread'⟩ := hvalue (congrArg DecodeAnswer.error hrun)
  refine ⟨hrun, ?_, hafter⟩
  have hshown : (run new).1.shown = (run stale).1.shown := hread'.trans hread.symm
  calc (run new).1 = ⟨(run new).1.shown, (run new).1.error⟩ := rfl
    _ = ⟨(run stale).1.shown, (run stale).1.error⟩ := by rw [hshown, herror]

end Xdr
