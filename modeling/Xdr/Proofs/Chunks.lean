import Xdr.Proofs.Acceptance.Items
import Xdr.Proofs.Transport
import Xdr.Session

/-!
# Data that arrives in chunks

Data behind its own length is read in portions, which leaves no trace: on a byte string the
outcome is that of a parser that takes the data in one piece (`plainSized`). The portions are
those of a loop that lets one buffer grow and reads into its tail (`grow`), in which no index is
out of range. The statement to read first is `chunks_eq_plain`.
-/

namespace Xdr

open Transport Reading

/-! ### One piece -/

/-- What a parser makes of a byte string that starts with data behind its own length, and how many
of the bytes it uses up. -/
def plainSized (policy : PaddingPolicy) (max : UInt32) (input : List UInt8) :
    Except Error (List UInt8) × Nat :=
  if input.length < 4 then (.error .shortRead, input.length)
  else
    let length := BigEndian.value (input.take 4)
    let total := length + padLength length
    let body := input.drop 4
    if max.toNat < length then (.error (.lengthExceeded max length), 4)
    else if body.length < total then (.error .shortRead, input.length)
    else if policy = .strict ∧ ∃ byte ∈ (body.take total).drop length, byte ≠ 0 then
      (.error .invalidPadding, 4 + total)
    else (.ok (body.take length), 4 + total)

/-- The same for a string. -/
def plainString (policy : PaddingPolicy) (max : UInt32) (input : List UInt8) :
    Except Error String × Nat :=
  match plainSized policy max input with
  | (.error error, consumed) => (.error error, consumed)
  | (.ok payload, consumed) =>
      match Text.ofBytes? payload with
      | some text => (.ok text, consumed)
      | none => (.error .invalidString, consumed)

/-- Only the strict policy looks at padding. -/
theorem PaddingPolicy.accepts_eq_false_iff (policy : PaddingPolicy) (padding : List UInt8) :
    policy.accepts padding = false ↔ policy = .strict ∧ ∃ byte ∈ padding, byte ≠ 0 := by
  cases policy <;> simp [accepts]

/-- A read on a source that does not fail is one on the bytes that are left. -/
theorem Transport.Source.readExact_rest {source : Source} (h : source.schedule.Unfailing)
    (want : Nat) :
    ∃ after, source.readExact want = (if want ≤ source.rest.length then .ok (source.rest.take want)
        else .error { kind := .unexpectedEnd }, after) ∧
      after.rest = source.rest.drop want ∧
      after.moved = source.moved + min want source.rest.length ∧
      after.schedule = source.schedule := by
  obtain ⟨hread, hoffers, hmoved⟩ := source.readExact_offers want (Source.offers_rest h)
  obtain ⟨-, -, -, hschedule, -⟩ := source.readExact_spec want
  obtain ⟨beyond, hrest, hbeyond⟩ := hoffers.rest_eq
  rw [hbeyond (hschedule ▸ h.1), List.append_nil] at hrest
  exact ⟨_, Prod.ext hread rfl, hrest, hmoved, hschedule⟩

namespace Reading

variable {κ μ α β : Type}

/-- The reading comes to this result and uses up so many bytes. The decoder is poisoned if that is
an error. -/
structure Gives (reading : Reading κ α) (decoder : Decoder) (result : Except (Stopped κ) α)
    (consumed : Nat) : Prop where
  result_eq : (reading.run decoder).1 = result
  rest_eq : (reading.run decoder).2.transport.rest = decoder.transport.rest.drop consumed
  moved_eq : (reading.run decoder).2.transport.moved = decoder.transport.moved + consumed
  poisoned_eq : (reading.run decoder).2.poisoned = !result.isOk

theorem gives_done (value : α) {decoder : Decoder} (husable : decoder.poisoned = false) :
    (done value : Reading κ α).Gives decoder (.ok value) 0 :=
  ⟨rfl, rfl, rfl, husable⟩

theorem gives_fault (operation : Operation) (error : Error) (kept : κ) (decoder : Decoder) :
    (fault operation error kept : Reading κ α).Gives decoder (.error ⟨error, kept⟩) 0 :=
  ⟨rfl, rfl, rfl, rfl⟩

/-- A reading that went well may be followed by one that uses up nothing more. -/
theorem Gives.andThen {first : Reading κ α} {keep : κ → μ} {next : α → Reading μ β}
    {decoder : Decoder} {value : α} {result : Except (Stopped μ) β} {consumed : Nat}
    (hfirst : first.Gives decoder (.ok value) consumed)
    (hnext : ∀ between : Decoder, between.poisoned = false → between.config = decoder.config →
      (next value).Gives between result 0) :
    (first.andThen keep next).Gives decoder result consumed := by
  obtain ⟨hvalue, hrest, hmoved, hpoisoned⟩ := hfirst
  have hconfig := first.run_config decoder
  have hrun : (first.andThen keep next).run decoder =
      (next value).run (first.run decoder).2 := by
    rw [run_andThen]
    rcases hfirst : first.run decoder with ⟨result, between⟩
    rw [hfirst] at hvalue
    obtain rfl : result = .ok value := hvalue
    rfl
  obtain ⟨hresult, hleft, hlater, hended⟩ := hnext _ hpoisoned hconfig
  refine ⟨by rw [hrun, hresult], ?_, ?_, by rw [hrun, hended]⟩
  · rw [hrun, hleft, hrest, List.drop_zero]
  · rw [hrun, hlater, hmoved, Nat.add_zero]

/-- Nothing follows a reading that failed. -/
theorem Gives.andThen_error {first : Reading κ α} {keep : κ → μ} {next : α → Reading μ β}
    {decoder : Decoder} {stopped : Stopped κ} {consumed : Nat}
    (hfirst : first.Gives decoder (.error stopped) consumed) :
    (first.andThen keep next).Gives decoder (.error (stopped.map keep)) consumed := by
  obtain ⟨hresult, hrest, hmoved, hpoisoned⟩ := hfirst
  have hrun : (first.andThen keep next).run decoder =
      (.error (stopped.map keep), (first.run decoder).2) := by
    rw [run_andThen]
    rcases hfirst : first.run decoder with ⟨result, between⟩
    rw [hfirst] at hresult
    obtain rfl : result = .error stopped := hresult
    rfl
  exact ⟨by rw [hrun], by rw [hrun, hrest], by rw [hrun, hmoved], by rw [hrun, hpoisoned]; rfl⟩

/-- Changing the value makes no difference to what is used up. -/
theorem Gives.map {reading : Reading κ α} {decoder : Decoder} {result : Except Error α} {kept : κ}
    {consumed : Nat} (h : reading.Gives decoder (result.mapError (⟨·, kept⟩)) consumed)
    (keep : κ → μ) (change : α → β) :
    (reading.map keep change).Gives decoder ((result.mapError (⟨·, keep kept⟩)).map change)
      consumed := by
  cases result with
  | error stopped => exact h.andThen_error
  | ok value => exact h.andThen fun between husable _ => gives_done (change value) husable

/-- A request is met if there are enough bytes for it, and otherwise all there is is used up. -/
theorem request_gives (operation : Operation) (count : Nat) (untouched kept : κ)
    (next : List UInt8 → Reading κ α) {decoder : Decoder} (hready : decoder.Ready)
    {result : Except (Stopped κ) α} {consumed : Nat}
    (hmet : count ≤ decoder.transport.rest.length → ∀ between : Decoder, between.Ready →
      between.config = decoder.config →
      between.transport.rest = decoder.transport.rest.drop count →
      ∃ more, (next (decoder.transport.rest.take count)).Gives between result more ∧
        consumed = count + more)
    (hshort : decoder.transport.rest.length < count →
      result = .error ⟨.shortRead, kept⟩ ∧ consumed = decoder.transport.rest.length) :
    (request operation count untouched kept next).Gives decoder result consumed := by
  obtain ⟨source, hread, hrest, hmoved, hschedule⟩ :=
    Source.readExact_rest hready.unfailing count
  have hrun : (request operation count untouched kept next).run decoder =
      match decoder.transport.readExact count with
      | (.ok bytes, source) => (next bytes).run { decoder with transport := source }
      | (.error failure, source) => (.error ⟨.ofRead failure, kept⟩,
          Context.fault { decoder with transport := source } operation (.ofRead failure)) := by
    rw [run_request, if_neg (by simp [hready.usable]), Context.useTransport_eq]
    rcases decoder.transport.readExact count with ⟨_ | _, _⟩ <;> rfl
  rw [hread] at hrun
  by_cases hle : count ≤ decoder.transport.rest.length
  · rw [if_pos hle] at hrun
    obtain ⟨more, hgives, rfl⟩ := hmet hle { decoder with transport := source }
      ⟨hready.usable, hschedule ▸ hready.unfailing⟩ rfl hrest
    obtain ⟨hresult, hleft, hlater, hpoisoned⟩ := hgives
    refine ⟨by rw [hrun, hresult], ?_, ?_, by rw [hrun, hpoisoned]⟩
    · rw [hrun, hleft, hrest, List.drop_drop]
    · rw [hrun, hlater, hmoved, Nat.min_eq_left hle, Nat.add_assoc]
  · rw [if_neg hle] at hrun
    have hlt := Nat.lt_of_not_le hle
    obtain ⟨rfl, rfl⟩ := hshort hlt
    refine ⟨by rw [hrun]; rfl, ?_, ?_, by rw [hrun]; rfl⟩
    · rw [hrun, Context.fault_transport, hrest, List.drop_of_length_le (Nat.le_of_lt hlt),
        List.drop_length]
    · rw [hrun, Context.fault_transport, hmoved, Nat.min_eq_right (Nat.le_of_lt hlt)]

/-- Portions are read one after the other if there are enough bytes for all of them, and otherwise
all there is is used up. -/
theorem collect_gives (operation : Operation) (sizes : List Nat) (got : List (List UInt8))
    {decoder : Decoder} (hready : decoder.Ready) :
    (collect operation sizes got).Gives decoder
      (if sizes.sum ≤ decoder.transport.rest.length then
        .ok (got.reverse.flatten ++ decoder.transport.rest.take sizes.sum)
      else .error ⟨.shortRead, []⟩)
      (min sizes.sum decoder.transport.rest.length) := by
  induction sizes generalizing got decoder with
  | nil =>
      refine ⟨by simp [collect], rfl, rfl, ?_⟩
      simpa [collect, Except.isOk, Except.toBool] using hready.usable
  | cons size sizes ih =>
      rw [List.sum_cons]
      refine request_gives operation size [] [] _ hready ?_ fun hlt => ?_
      · intro hle between hbetween _ hrest
        have hmore := ih (decoder.transport.rest.take size :: got) hbetween
        rw [hrest, List.length_drop] at hmore
        refine ⟨min sizes.sum (decoder.transport.rest.length - size), ?_, by omega⟩
        convert hmore using 1
        simp only [Nat.le_sub_iff_add_le' hle, List.take_add, List.reverse_cons,
          List.flatten_append, List.flatten_singleton, List.append_assoc]
      · rw [if_neg (by omega), Nat.min_eq_right (by omega)]
        exact ⟨rfl, rfl⟩

/-- The length in front of data is the number that its four bytes give. -/
theorem toNat_wordOfImage {bytes : List UInt8} (h : bytes.length = 4) :
    (wordOfImage bytes).toNat = BigEndian.value bytes := by
  have hlt := BigEndian.value_lt bytes
  rw [h] at hlt
  exact UInt32.toNat_ofNat_of_lt' hlt

/-- Padding is looked at by the policy, and nothing is used up. -/
theorem checkPadding_gives (operation : Operation) (padding : List UInt8) (kept : κ) (value : α)
    {decoder : Decoder} (husable : decoder.poisoned = false) :
    (checkPadding operation padding kept (done value)).Gives decoder
      (if decoder.config.padding = .strict ∧ ∃ byte ∈ padding, byte ≠ 0 then
        .error ⟨.invalidPadding, kept⟩
      else .ok value) 0 := by
  have hpolicy (h : decoder.config.padding = .strict ∧ ∃ byte ∈ padding, byte ≠ 0) :=
    (decoder.config.padding.accepts_eq_false_iff padding).mpr h
  cases haccepts : decoder.config.padding.accepts padding with
  | false =>
      have hrun : (checkPadding operation padding kept (done value)).run decoder =
          (.error ⟨.invalidPadding, kept⟩, decoder.fault operation .invalidPadding) := by
        rw [run_checkPadding, if_neg (by simp [haccepts])]
      rw [if_pos ((decoder.config.padding.accepts_eq_false_iff padding).mp haccepts)]
      exact ⟨by rw [hrun], by rw [hrun]; rfl, by rw [hrun]; rfl, by rw [hrun]; rfl⟩
  | true =>
      have hrun : (checkPadding operation padding kept (done value)).run decoder =
          (.ok value, decoder) := by
        rw [run_checkPadding, if_pos haccepts, run_done]
      rw [if_neg fun h => Bool.false_ne_true ((hpolicy h).symm.trans haccepts)]
      exact ⟨by rw [hrun], by rw [hrun]; rfl, by rw [hrun]; rfl, by rw [hrun]; exact husable⟩

/-- Behind an accepted length come the payload and its padding. -/
theorem payload_gives (operation : Operation) (event : Event) (length : Nat) {decoder : Decoder}
    (hready : decoder.Ready) :
    let body := decoder.transport.rest
    let total := length + padLength length
    (note event ((collect operation (portions total) []).andThen id fun bytes =>
      checkPadding operation (bytes.drop length) [] (done (bytes.take length)))).Gives decoder
      (if body.length < total then .error ⟨.shortRead, []⟩
      else if decoder.config.padding = .strict ∧ ∃ byte ∈ (body.take total).drop length, byte ≠ 0
        then .error ⟨.invalidPadding, []⟩
      else .ok (body.take length))
      (if body.length < total then body.length else total) := by
  intro body total
  have hnoted : Decoder.Ready (decoder.record event) := ⟨hready.usable, hready.unfailing⟩
  have hcollect := collect_gives operation (portions total) [] hnoted
  rw [sum_portions, Context.record_transport] at hcollect
  -- the event is all that a note changes
  suffices hbehind : ((collect operation (portions total) []).andThen id fun bytes =>
      checkPadding operation (bytes.drop length) [] (done (bytes.take length))).Gives
        (decoder.record event) _ _ from
    ⟨hbehind.result_eq, hbehind.rest_eq, hbehind.moved_eq, hbehind.poisoned_eq⟩
  by_cases hlt : body.length < total
  · rw [if_neg (Nat.not_le_of_lt hlt), Nat.min_eq_right (Nat.le_of_lt hlt)] at hcollect
    rw [if_pos hlt, if_pos hlt]
    exact hcollect.andThen_error
  · have hle := Nat.le_of_not_lt hlt
    rw [if_pos hle, Nat.min_eq_left hle] at hcollect
    rw [if_neg hlt, if_neg hlt]
    have htake : (body.take total).take length = body.take length := by
      rw [List.take_take, Nat.min_eq_left (Nat.le_add_right _ _)]
    refine hcollect.andThen fun between husable hconfig => ?_
    rw [Context.record_config] at hconfig
    rw [← hconfig, ← htake]
    exact checkPadding_gives operation _ [] _ husable

/-- Data behind its own length comes to the same as in one piece. -/
theorem sized_gives (kind : SizedKind) (max : UInt32) (buffer : List UInt8) {decoder : Decoder}
    (hready : decoder.Ready) :
    (sized kind max buffer).Gives decoder
      ((plainSized decoder.config.padding max decoder.transport.rest).1.mapError (⟨·, []⟩))
      (plainSized decoder.config.padding max decoder.transport.rest).2 := by
  unfold plainSized
  refine request_gives _ 4 buffer [] _ hready ?_ fun hlt => ?_
  · intro hle between hbetween hconfig hrest
    have hword := toNat_wordOfImage (List.length_take_of_le hle)
    have hlength : decoder.transport.rest.length = 4 + between.transport.rest.length := by
      rw [hrest, List.length_drop]
      omega
    rw [if_neg (Nat.not_lt_of_le hle), ← hword]
    generalize wordOfImage (decoder.transport.rest.take 4) = w
    rw [hlength, ← hrest, ← hconfig]
    dsimp only
    by_cases hmax : w ≤ max
    · rw [if_pos hmax, if_neg (Nat.not_lt_of_le (UInt32.le_iff_toNat_le.mp hmax))]
      refine ⟨if between.transport.rest.length < w.toNat + padLength w.toNat then
        between.transport.rest.length else w.toNat + padLength w.toNat, ?_, ?_⟩
      · convert payload_gives _ (.sized kind w.toNat (padLength w.toNat)) w.toNat hbetween using 1
        split_ifs <;> rfl
      · split_ifs <;> rfl
    · rw [if_neg hmax, if_pos (Nat.lt_of_not_le fun h => hmax (UInt32.le_iff_toNat_le.mpr h))]
      exact ⟨0, gives_fault _ _ _ between, rfl⟩
  · rw [if_pos hlt]
    exact ⟨rfl, rfl⟩

/-- A string comes to the same as in one piece. -/
theorem string_gives (max : UInt32) (kept : κ) {decoder : Decoder} (hready : decoder.Ready) :
    (string max kept).Gives decoder
      ((plainString decoder.config.padding max decoder.transport.rest).1.mapError (⟨·, kept⟩))
      (plainString decoder.config.padding max decoder.transport.rest).2 := by
  have hsized := sized_gives .string max [] hready
  unfold string plainString
  rcases hplain : plainSized decoder.config.padding max decoder.transport.rest with
    ⟨error | payload, consumed⟩ <;> rw [hplain] at hsized
  · exact hsized.andThen_error
  · cases htext : Text.ofBytes? payload with
    | none =>
        simp only [htext]
        refine hsized.andThen fun between _ _ => ?_
        simp only [htext]
        exact gives_fault .string .invalidString kept between
    | some text =>
        simp only [htext]
        refine hsized.andThen fun between husable _ => ?_
        simp only [htext]
        exact gives_done text husable

end Reading

/-! ### One buffer that grows -/

/-- A number that an index can hold. -/
def index? (n : Nat) : Option Nat :=
  if n < 2 ^ 64 then some n else none

theorem index?_of_lt {n : Nat} (h : n < 2 ^ 64) : index? n = some n :=
  if_pos h

theorem eq_of_index? {n size : Nat} (h : index? n = some size) : size = n := by
  unfold index? at h
  split at h <;> cases h
  rfl

/-- Read over a buffer from an index on, which must not lie behind its end. -/
def readOver (buffer : List UInt8) (start : Nat) (source : Source) :
    Option (Except Failure (List UInt8) × Source) :=
  if start ≤ buffer.length then
    match source.readExact (buffer.length - start) with
    | (.ok bytes, after) => some (.ok (buffer.take start ++ bytes), after)
    | (.error failure, after) => some (.error failure, after)
  else none

/-- Reading over a buffer leaves its length alone. -/
theorem length_of_readOver {buffer filled : List UInt8} {start : Nat} {source after : Source}
    (h : readOver buffer start source = some (.ok filled, after)) :
    filled.length = buffer.length := by
  unfold readOver at h
  split at h
  · next hle =>
      obtain ⟨given, -, -, -, hresult⟩ := source.readExact_spec (buffer.length - start)
      rcases hread : source.readExact (buffer.length - start) with ⟨failure | bytes, ended⟩ <;>
        rw [hread] at h hresult
      · cases h
      · obtain ⟨rfl, hlength⟩ := hresult
        cases h
        rw [List.length_append, List.length_take_of_le hle, hlength]
        omega
  · cases h

/-- Let a buffer grow to its final length, one portion at a time, and read into the new part each
time. There is no outcome if an index is out of range or does not fit. -/
def grow (total : Nat) (buffer : List UInt8) (source : Source) :
    Option (Except Failure (List UInt8) × Source) :=
  if buffer.length < total then
    match _ : index? (buffer.length + min (total - buffer.length) portionSize) with
    | none => none
    | some size =>
        match _ : readOver (buffer ++ List.replicate (size - buffer.length) 0) buffer.length source
          with
        | some (.ok filled, after) => grow total filled after
        | some (.error failure, after) => some (.error failure, after)
        | none => none
  else some (.ok buffer, source)
termination_by total - buffer.length
decreasing_by
  -- each round fills at least one byte more
  have hsize := eq_of_index? ‹_›
  have hlength := length_of_readOver ‹_›
  simp only [List.length_append, List.length_replicate, portionSize] at hlength hsize
  omega

/-- The first portion is a full one, or all there is to ask for. -/
theorem portions_of_pos {total : Nat} (h : 0 < total) :
    portions total = min total portionSize :: portions (total - min total portionSize) := by
  unfold portions
  rcases Nat.lt_or_ge total portionSize with hlt | hle
  · rw [Nat.min_eq_left (Nat.le_of_lt hlt), Nat.div_eq_of_lt hlt, Nat.mod_eq_of_lt hlt,
      if_neg (by omega), Nat.sub_self]
    rfl
  · have hpos : 0 < portionSize := by decide
    rw [Nat.min_eq_right hle, Nat.div_eq_sub_div hpos hle, Nat.mod_eq_sub_mod hle,
      List.replicate_succ, List.cons_append]

/-- Reading over the new part of a buffer reads as many bytes as are new, behind those of before. -/
theorem readOver_grown (buffer : List UInt8) (step : Nat) (source : Source) :
    readOver (buffer ++ List.replicate step 0) buffer.length source =
      match source.readExact step with
      | (.ok bytes, after) => some (.ok (buffer ++ bytes), after)
      | (.error failure, after) => some (.error failure, after) := by
  unfold readOver
  rw [if_pos (by simp), List.length_append, List.length_replicate, Nat.add_sub_cancel_left,
    List.take_left' rfl]

/-- One round of the loop reads a portion behind what is in the buffer, and no index goes wrong. -/
theorem grow_of_lt {total : Nat} (htotal : total < 2 ^ 64) {buffer : List UInt8} (source : Source)
    (hlt : buffer.length < total) :
    grow total buffer source =
      match source.readExact (min (total - buffer.length) portionSize) with
      | (.ok bytes, after) => grow total (buffer ++ bytes) after
      | (.error failure, after) => some (.error failure, after) := by
  have hindex := index?_of_lt
    (show buffer.length + min (total - buffer.length) portionSize < 2 ^ 64 by omega)
  rw [grow, if_pos hlt]
  split
  · next hnone => cases hnone.symm.trans hindex
  · next size hsize =>
      obtain rfl := eq_of_index? hsize
      split <;> next hread =>
        rw [Nat.add_sub_cancel_left, readOver_grown] at hread
        rcases hbytes : source.readExact (min (total - buffer.length) portionSize) with
          ⟨failure | bytes, after⟩ <;> rw [hbytes] at hread <;> cases hread <;> rfl

/-- What the loop comes to with a buffer that holds the portions so far is what reading the other
portions comes to, and in the end the buffer has its final length. -/
theorem grow_eq_collect (operation : Operation) {total : Nat} (htotal : total < 2 ^ 64)
    {got : List (List UInt8)} {buffer : List UInt8} (hbuffer : got.reverse.flatten = buffer)
    (hle : buffer.length ≤ total) {decoder : Decoder} (husable : decoder.poisoned = false) :
    let reading := collect operation (portions (total - buffer.length)) got
    ∃ result after, grow total buffer decoder.transport = some (result, after) ∧
      (∀ filled, result = .ok filled → filled.length = total) ∧
      (reading.run decoder).1 = result.mapError (fun failure => ⟨.ofRead failure, []⟩) ∧
      (reading.run decoder).2.transport = after := by
  intro reading
  subst reading
  induction hleft : total - buffer.length using Nat.strongRecOn generalizing got buffer decoder with
  | ind left ih =>
      rcases Nat.eq_or_lt_of_le hle with heq | hlt
      · rw [grow, if_neg (by omega)]
        obtain rfl : left = 0 := by omega
        refine ⟨.ok buffer, decoder.transport, rfl, fun filled h => ?_, ?_, rfl⟩
        · rw [← Except.ok.inj h, heq]
        · rw [← hbuffer]
          rfl
      · rw [grow_of_lt htotal _ hlt, hleft, portions_of_pos (by omega), collect, run_request,
          if_neg (by simp [husable]), Context.useTransport_eq]
        obtain ⟨given, -, -, -, hresult⟩ :=
          decoder.transport.readExact_spec (min left portionSize)
        rcases hread : decoder.transport.readExact (min left portionSize) with
          ⟨failure | bytes, source⟩ <;> rw [hread] at hresult
        · exact ⟨.error failure, source, rfl, fun _ h => (by cases h), rfl, rfl⟩
        · obtain ⟨rfl, hlength⟩ := hresult
          have hgrown : (bytes :: got).reverse.flatten = buffer ++ bytes := by
            simp [hbuffer]
          have hpositive : 0 < min left portionSize := Nat.lt_min.mpr ⟨by omega, by decide⟩
          have hmin := Nat.min_le_left left portionSize
          have hsize : (buffer ++ bytes).length = buffer.length + min left portionSize := by
            rw [List.length_append, hlength]
          have hbetween : Context.poisoned { decoder with transport := source } = false := husable
          exact ih (left - min left portionSize) (by omega) hgrown (by omega) hbetween (by omega)

/-- A payload of this length and its padding, read into one buffer that grows. There is no outcome
if an index is out of range or does not fit. -/
def readPayload (policy : PaddingPolicy) (length : Nat) (source : Source) :
    Option (Except Error (List UInt8) × Source) :=
  match index? (length + padLength length) with
  | none => some (.error (.allocationFailure length), source)
  | some total =>
      match grow total [] source with
      | none => none
      | some (.error failure, after) => some (.error (.ofRead failure), after)
      | some (.ok buffer, after) =>
          if length ≤ buffer.length then
            if policy.accepts (buffer.drop length) then some (.ok (buffer.take length), after)
            else some (.error .invalidPadding, after)
          else none

/-- The same behind a length of at most `max`. -/
def readVariable (policy : PaddingPolicy) (max : UInt32) (source : Source) :
    Option (Except Error (List UInt8) × Source) :=
  match source.readExact 4 with
  | (.error failure, after) => some (.error (.ofRead failure), after)
  | (.ok bytes, after) =>
      let length := (wordOfImage bytes).toNat
      if length ≤ max.toNat then readPayload policy length after
      else some (.error (.lengthExceeded max length), after)

/-- Data of any length has an end that an index can hold. -/
theorem total_lt (length : UInt32) : length.toNat + padLength length.toNat < 2 ^ 64 := by
  have hlength := length.toNat_lt
  have hpad := padLength_lt length.toNat
  omega

/-- A payload in one buffer is a payload in portions. -/
theorem readPayload_eq (operation : Operation) (length : UInt32) {decoder : Decoder}
    (husable : decoder.poisoned = false) :
    let reading := (collect operation (portions (length.toNat + padLength length.toNat)) []).andThen
      id fun bytes => checkPadding operation (bytes.drop length.toNat) []
        (done (bytes.take length.toNat))
    ∃ result after,
      readPayload decoder.config.padding length.toNat decoder.transport = some (result, after) ∧
      (reading.run decoder).1 = result.mapError (⟨·, []⟩) ∧
      (reading.run decoder).2.transport = after := by
  intro reading
  subst reading
  obtain ⟨result, after, hgrow, hfilled, hresult, htransport⟩ := grow_eq_collect operation
    (total_lt length) (show [].reverse.flatten = [] from rfl) (Nat.zero_le _) husable
  rw [List.length_nil, Nat.sub_zero] at hresult htransport
  have hconfig :=
    run_config (collect operation (portions (length.toNat + padLength length.toNat)) []) decoder
  rw [run_andThen]
  unfold readPayload
  simp only [index?_of_lt (total_lt length), hgrow]
  generalize (collect operation (portions (length.toNat + padLength length.toNat)) []).run decoder =
    answer at hresult htransport hconfig ⊢
  obtain ⟨outcome, between⟩ := answer
  obtain rfl : outcome = _ := hresult
  obtain rfl : between.transport = after := htransport
  cases result with
  | error failure => exact ⟨_, _, rfl, rfl, rfl⟩
  | ok filled =>
      have hlength := hfilled filled rfl
      have hpolicy : between.config = decoder.config := hconfig
      dsimp only [Except.mapError]
      rw [if_pos (show length.toNat ≤ filled.length by omega), run_checkPadding, hpolicy]
      split
      · exact ⟨_, _, rfl, rfl, rfl⟩
      · exact ⟨_, _, rfl, rfl, rfl⟩

/-- With one buffer that grows, all indices stay in range, and what comes out is the same as with
portions that are put together in the end. -/
theorem readVariable_eq_sized (kind : SizedKind) (max : UInt32) (buffer : List UInt8)
    {decoder : Decoder} (husable : decoder.poisoned = false) :
    ∃ result after,
      readVariable decoder.config.padding max decoder.transport = some (result, after) ∧
      ((sized kind max buffer).run decoder).1 = result.mapError (⟨·, []⟩) ∧
      ((sized kind max buffer).run decoder).2.transport = after := by
  unfold readVariable sized
  rw [run_request, if_neg (by simp [husable]), Context.useTransport_eq]
  rcases decoder.transport.readExact 4 with ⟨failure | bytes, source⟩
  · exact ⟨_, _, rfl, rfl, rfl⟩
  · dsimp only
    generalize wordOfImage bytes = w
    by_cases hmax : w ≤ max
    · rw [if_pos hmax, if_pos (UInt32.le_iff_toNat_le.mp hmax), run_note]
      have hnoted : Context.poisoned (Context.record { decoder with transport := source }
          (.sized kind w.toNat (padLength w.toNat))) = false := husable
      exact readPayload_eq _ w hnoted
    · rw [if_neg hmax, if_neg fun h => hmax (UInt32.le_iff_toNat_le.mpr h)]
      exact ⟨_, _, rfl, rfl, rfl⟩

/-! ### Calls -/

/-- The answer of a call that hands over a value, or fails and leaves this in the buffer it was
given. -/
def DecodeAnswer.ofPlain {α : Type} (kept : Option Shown) (deliver : α → Shown) :
    Except Error α → DecodeAnswer
  | .ok value => { shown := some (deliver value) }
  | .error error => { shown := kept, error := some error }

namespace DecodeStep

variable {catalog : Catalog}

/-- The step gives this answer and uses up so many bytes. The decoder is poisoned if it failed. -/
structure Gives (catalog : Catalog) (step : DecodeStep) (decoder : Decoder) (answer : DecodeAnswer)
    (consumed : Nat) : Prop where
  answer_eq : (step.run catalog decoder).1 = answer
  rest_eq : (step.run catalog decoder).2.transport.rest = decoder.transport.rest.drop consumed
  moved_eq : (step.run catalog decoder).2.transport.moved = decoder.transport.moved + consumed
  poisoned_eq : (step.run catalog decoder).2.poisoned = answer.error.isSome

/-- What the reading of a call gives, the call answers. -/
theorem get_gives {α : Type} {call : Get} {decoder : Decoder} {result : Except Error α}
    {consumed : Nat} (kept : Option Value) (deliver : α → Value)
    (h : call.reading.Gives decoder ((result.mapError (⟨·, kept⟩)).map deliver) consumed) :
    (get call).Gives catalog decoder (.ofPlain (kept.map .value) (.value ∘ deliver) result)
      consumed := by
  obtain ⟨hresult, hrest, hmoved, hpoisoned⟩ := h
  refine ⟨?_, hrest, hmoved, ?_⟩
  · show DecodeAnswer.ofResult _ _ (call.reading.run decoder).1 = _
    rw [hresult]
    cases result <;> rfl
  · show (call.reading.run decoder).2.poisoned = _
    rw [hpoisoned]
    cases result <;> rfl

end DecodeStep

/-- On a byte string, reading data behind its own length comes to what a parser makes of it that
takes it in one piece, whatever the buffer held before. The loop with one buffer that grows does the
same: it ends with the payload and its padding in the buffer, and all indices are in range and
fit. -/
theorem chunks_eq_plain (catalog : Catalog) (max : UInt32) {decoder : Decoder}
    (husable : decoder.poisoned = false) (hunfailing : decoder.transport.schedule.Unfailing) :
    let policy := decoder.config.padding
    let data := plainSized policy max decoder.transport.rest
    let text := plainString policy max decoder.transport.rest
    (DecodeStep.get (.bytes max)).Gives catalog decoder
        (.ofPlain none (.value ∘ .bytes) data.1) data.2 ∧
      (∀ buffer, (DecodeStep.get (.bytesInto max buffer)).Gives catalog decoder
        (.ofPlain (some (.value (.bytes []))) (.value ∘ .bytes) data.1) data.2) ∧
      (DecodeStep.get (.string max)).Gives catalog decoder
        (.ofPlain none (.value ∘ .string) text.1) text.2 ∧
      (∃ after, readVariable policy max decoder.transport = some (data.1, after) ∧
        ∀ kind buffer, ((Reading.sized kind max buffer).run decoder).2.transport = after) ∧
      ∀ (length : UInt32) (source : Source), ∃ result after,
        grow (length.toNat + padLength length.toNat) [] source = some (result, after) ∧
          ∀ filled, result = .ok filled →
            filled.length = length.toNat + padLength length.toNat := by
  intro policy data text
  have hready : decoder.Ready := ⟨husable, hunfailing⟩
  refine ⟨?_, fun buffer => ?_, ?_, ?_, fun length source => ?_⟩
  · exact DecodeStep.get_gives none Value.bytes ((sized_gives .bytes max [] hready).map _ _)
  · exact DecodeStep.get_gives (some (.bytes [])) Value.bytes
      ((sized_gives .bytes max buffer hready).map _ _)
  · exact DecodeStep.get_gives none Value.string ((string_gives max none hready).map _ _)
  · obtain ⟨result, after, hread, hresult, -⟩ := readVariable_eq_sized .bytes max [] husable
    have hplain : result = data.1 := by
      have hsame := hresult.symm.trans (sized_gives .bytes max [] hready).result_eq
      show result = (plainSized decoder.config.padding max decoder.transport.rest).1
      generalize (plainSized decoder.config.padding max decoder.transport.rest).1 = plain at hsame ⊢
      cases result <;> cases plain <;> cases hsame <;> rfl
    refine ⟨after, hplain ▸ hread, fun kind buffer => ?_⟩
    obtain ⟨_, _, hother, -, htransport⟩ := readVariable_eq_sized kind max buffer husable
    cases hread.symm.trans hother
    exact htransport
  · have hfresh : Context.poisoned { transport := source : Decoder } = false := rfl
    obtain ⟨result, after, hgrow, hfilled, -⟩ := grow_eq_collect .bytes (total_lt length)
      (show [].reverse.flatten = [] from rfl) (Nat.zero_le _) hfresh
    exact ⟨result, after, hgrow, hfilled⟩

/-- Five bytes that are not UTF-8, with a byte of another item behind their padding, from a source
that gives three bytes a call. -/
theorem chunks_eq_plain_not_text :
    let decoder : Decoder := { transport :=
      { rest := [0, 0, 0, 5, 255, 254, 1, 2, 3, 0, 0, 0, 9]
        schedule := { limit := fun _ => some 3, interrupts := [1] } } }
    let payload : List UInt8 := [255, 254, 1, 2, 3]
    decoder.poisoned = false ∧ decoder.transport.schedule.Unfailing ∧
      (DecodeStep.get (.bytes 8)).Gives {} decoder
        { shown := some (.value (.bytes payload)) } 12 ∧
      (∀ buffer, (DecodeStep.get (.bytesInto 8 buffer)).Gives {} decoder
        { shown := some (.value (.bytes payload)) } 12) ∧
      (DecodeStep.get (.string 8)).Gives {} decoder { error := some .invalidString } 12 ∧
      ∃ after, readVariable .strict 8 decoder.transport = some (.ok payload, after) := by
  intro decoder payload
  have hunfailing : decoder.transport.schedule.Unfailing := ⟨rfl, fun _ h => by cases h⟩
  have hdata : plainSized .strict 8 decoder.transport.rest = (.ok payload, 12) := by decide +kernel
  have htext : plainString .strict 8 decoder.transport.rest = (.error .invalidString, 12) := by
    decide +kernel
  obtain ⟨hbytes, hinto, hstring, ⟨after, hread, -⟩, -⟩ :=
    chunks_eq_plain {} 8 (show decoder.poisoned = false from rfl) hunfailing
  rw [show decoder.config.padding = .strict from rfl] at hbytes hinto hstring hread
  rw [hdata] at hbytes hinto hread
  rw [htext] at hstring
  exact ⟨rfl, hunfailing, hbytes, hinto, hstring, after, hread⟩

end Xdr
