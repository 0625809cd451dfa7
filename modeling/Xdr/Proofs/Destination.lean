import Xdr.Session

/-!
# The buffer behind fixed opaque data

A read that stores bytes in its destination as they arrive leaves some of them behind when a later
call fails (`Source.fill_spec`). Fixed opaque data takes one of two ways into a caller's buffer:
straight, where no padding follows, or through a scratch buffer (`Decoder.fillOpaque`). The answer
and the decoder are those of the reading either way (`run_fixedOpaque`), the buffer after an error
is not: `buffer_after_opaque` says what it holds.
-/

namespace Xdr

open Transport

namespace Transport

/-- A buffer after bytes have been stored at its front. -/
def overwritten (given buffer : List UInt8) : List UInt8 :=
  given ++ buffer.drop given.length

@[simp] theorem overwritten_nil (buffer : List UInt8) : overwritten [] buffer = buffer := rfl

/-- Storing more bytes behind those at the front is storing all of them. -/
theorem append_overwritten_drop (arrived given buffer : List UInt8) :
    arrived ++ overwritten given (buffer.drop arrived.length) =
      overwritten (arrived ++ given) buffer := by
  simp [overwritten, List.drop_drop]

namespace Source

/-- Fill a buffer by the calls of `gather`. Each arrival is stored at once, so that a failure leaves
what arrived before it in the buffer. -/
def fill (source : Source) (buffer : List UInt8) : (Except Failure Unit × List UInt8) × Source :=
  if buffer.length = 0 then ((.ok (), buffer), source)
  else
    match _ : source.schedule.respond source.requests.size source.moved with
    | .interrupted =>
        { source with requests := source.requests.push buffer.length }.fill buffer
    | .failed failure =>
        ((.error failure, buffer),
          { source with requests := source.requests.push buffer.length })
    | .moves limit =>
        if _ : (source.arrival limit buffer.length).length = 0 then
          ((.error { kind := .unexpectedEnd }, buffer),
            { source with requests := source.requests.push buffer.length })
        else
          let ((result, left), after) :=
            { source with
              rest := source.rest.drop (source.arrival limit buffer.length).length
              moved := source.moved + (source.arrival limit buffer.length).length
              requests := source.requests.push buffer.length }.fill
                (buffer.drop (source.arrival limit buffer.length).length)
          ((result, source.arrival limit buffer.length ++ left), after)
termination_by buffer.length + source.schedule.pending source.requests.size
decreasing_by
  -- as for `gather`
  · have := source.schedule.pending_succ_lt source.requests.size
      ((source.schedule.respond_eq_interrupted_iff _ _).mp ‹_›)
    simpa using this
  · have hpending := source.schedule.pending_succ_le source.requests.size
    have hle := (source.arrival_spec limit buffer.length).2
    simp only [Array.size_push, List.length_drop]
    omega

/-- Filling makes the calls that gathering makes, and comes to the same end. -/
theorem gather_eq_fill (source : Source) (buffer : List UInt8) (got : Array UInt8) :
    source.gather buffer.length got =
      ((source.fill buffer).1.1.map fun _ => got.toList ++ (source.fill buffer).1.2,
        (source.fill buffer).2) := by
  fun_induction fill source buffer generalizing got with
  | case1 source buffer hempty =>
      rw [gather, if_pos hempty, List.eq_nil_of_length_eq_zero hempty]
      simp [Except.map]
  | case2 source buffer hbuffer hresponse ih =>
      rw [gather, if_neg hbuffer]
      split <;> simp_all
  | case3 source buffer hbuffer failure hresponse =>
      rw [gather, if_neg hbuffer]
      split <;> simp_all [Except.map]
  | case4 source buffer hbuffer limit hresponse hnone =>
      rw [gather, if_neg hbuffer]
      split <;> simp_all [Except.map]
  | case5 source buffer hbuffer limit hresponse hsome result left after hfill ih =>
      have hrest := ih (got ++ source.arrival limit buffer.length)
      rw [gather, if_neg hbuffer]
      split <;> simp_all [Except.map]

/-- Filling uses up a leading part of the source. That part fills the buffer, or it is stored at the
front of the buffer when the source fails. -/
theorem fill_spec (source : Source) (buffer : List UInt8) :
    ∃ given after,
      (source.fill buffer = ((.ok (), given), after) ∧ given.length = buffer.length ∨
        ∃ failure, source.fill buffer = ((.error failure, overwritten given buffer), after)) ∧
      source.rest = given ++ after.rest := by
  fun_induction fill source buffer with
  | case1 source buffer hempty =>
      obtain rfl := List.eq_nil_of_length_eq_zero hempty
      exact ⟨[], source, .inl ⟨rfl, rfl⟩, rfl⟩
  | case2 source buffer hbuffer hresponse ih => exact ih
  | case3 source buffer hbuffer failure hresponse => exact ⟨[], _, .inr ⟨failure, rfl⟩, rfl⟩
  | case4 source buffer hbuffer limit hresponse hnone => exact ⟨[], _, .inr ⟨_, rfl⟩, rfl⟩
  | case5 source buffer hbuffer limit hresponse hsome result left after hfill ih =>
      rw [hfill] at ih
      obtain ⟨given, after, hgiven, hrest⟩ := ih
      obtain ⟨hsplit, hle⟩ := source.arrival_spec limit buffer.length
      refine ⟨source.arrival limit buffer.length ++ given, after, ?_, ?_⟩
      · rcases hgiven with ⟨heq, hlength⟩ | ⟨failure, heq⟩ <;> cases heq
        · refine .inl ⟨rfl, ?_⟩
          rw [List.length_append, hlength, List.length_drop]
          omega
        · exact .inr ⟨failure, by rw [append_overwritten_drop]⟩
      · rw [List.append_assoc, ← hrest, ← hsplit]

/-- A buffer that has been filled holds what a read of its length hands over. A read fails as
filling does. -/
theorem readExact_eq_fill (source : Source) (buffer : List UInt8) :
    source.readExact buffer.length =
      ((source.fill buffer).1.1.map fun _ => (source.fill buffer).1.2, (source.fill buffer).2) := by
  rw [readExact, gather_eq_fill]
  rfl

end Source

end Transport

/-- There is nothing to refuse about padding that is not there. -/
theorem PaddingPolicy.accepts_nil (policy : PaddingPolicy) : policy.accepts [] = true := by
  cases policy <;> rfl

/-- Read fixed opaque data into a buffer of its length. Without padding the bytes go straight into
the buffer. Otherwise they go into a scratch buffer, and from there when the padding has passed. -/
def Decoder.fillOpaque (decoder : Decoder) (buffer : List UInt8) :
    (Except Error Unit × List UInt8) × Decoder :=
  let pad := padLength buffer.length
  if decoder.poisoned then ((.error .poisoned, buffer), decoder)
  else if pad = 0 then
    match decoder.useTransport fun source => source.fill buffer with
    | ((.ok (), filled), after) => ((.ok (), filled), after)
    | ((.error failure, left), after) =>
        ((.error (.ofRead failure), left), after.fault .fixedOpaque (.ofRead failure))
  else
    match decoder.useTransport fun source =>
        source.fill (List.replicate (buffer.length + pad) 0) with
    | ((.ok (), scratch), after) =>
        if after.config.padding.accepts (scratch.drop buffer.length) then
          ((.ok (), scratch.take buffer.length), after)
        else ((.error .invalidPadding, buffer), after.fault .fixedOpaque .invalidPadding)
    | ((.error failure, _), after) =>
        ((.error (.ofRead failure), buffer), after.fault .fixedOpaque (.ofRead failure))

/-- Whatever is kept of a target, reading fixed opaque data comes to the same as reading it into a
buffer. -/
theorem Reading.run_fixedOpaque {κ α : Type} (kept : κ) (next : List UInt8 → Reading κ α)
    (decoder : Decoder) (buffer : List UInt8) :
    (fixedOpaque buffer.length kept next).run decoder =
      match decoder.fillOpaque buffer with
      | ((.ok (), payload), after) => (next payload).run after
      | ((.error error, _), after) => (.error ⟨error, kept⟩, after) := by
  unfold fixedOpaque Decoder.fillOpaque
  rw [run_request]
  by_cases husable : decoder.poisoned
  · rw [if_pos husable, if_pos husable]
  rw [if_neg husable, if_neg husable]
  simp only [Context.useTransport_eq]
  by_cases hpad : padLength buffer.length = 0
  · rw [hpad, if_pos rfl, Nat.add_zero, Source.readExact_eq_fill]
    obtain ⟨given, source, ⟨hfill, hlength⟩ | ⟨failure, hfill⟩, -⟩ :=
      decoder.transport.fill_spec buffer <;> rw [hfill]
    · -- no byte is left over for the padding check
      simp only [Except.map, run_checkPadding]
      rw [← hlength, List.drop_length, List.take_length, if_pos (PaddingPolicy.accepts_nil _)]
    · rfl
  · have hread := decoder.transport.readExact_eq_fill
      (List.replicate (buffer.length + padLength buffer.length) 0)
    rw [List.length_replicate] at hread
    rw [if_neg hpad, hread]
    rcases decoder.transport.fill _ with ⟨⟨failure | _, scratch⟩, source⟩
    · rfl
    · simp only [Except.map, run_checkPadding]
      split <;> rfl

/-- Reading into a buffer uses up a leading part of the source. The buffer holds the payload if that
went well. After an error it is as before if there is padding, and otherwise begins with what the
source gave. -/
theorem Decoder.fillOpaque_spec (decoder : Decoder) (buffer : List UInt8) :
    ∃ given after,
      (decoder.fillOpaque buffer = ((.ok (), given.take buffer.length), after) ∧
          given.length = buffer.length + padLength buffer.length ∨
        ∃ error left, decoder.fillOpaque buffer = ((.error error, left), after) ∧
          left = if padLength buffer.length = 0 then overwritten given buffer else buffer) ∧
      decoder.transport.rest = given ++ after.transport.rest := by
  unfold fillOpaque
  by_cases husable : decoder.poisoned
  · rw [if_pos husable]
    exact ⟨[], decoder, .inr ⟨_, _, rfl, by simp⟩, rfl⟩
  rw [if_neg husable]
  simp only [Context.useTransport_eq]
  by_cases hpad : padLength buffer.length = 0
  · rw [if_pos hpad]
    obtain ⟨given, source, ⟨hfill, hlength⟩ | ⟨failure, hfill⟩, hrest⟩ :=
      decoder.transport.fill_spec buffer <;> rw [hfill]
    · have hpayload : given = given.take buffer.length := by rw [← hlength, List.take_length]
      exact ⟨given, _, .inl ⟨Prod.ext (Prod.ext rfl hpayload) rfl, by omega⟩, hrest⟩
    · exact ⟨given, _, .inr ⟨_, _, rfl, (if_pos hpad).symm⟩, hrest⟩
  · rw [if_neg hpad]
    obtain ⟨given, source, ⟨hfill, hlength⟩ | ⟨failure, hfill⟩, hrest⟩ :=
      decoder.transport.fill_spec (List.replicate (buffer.length + padLength buffer.length) 0) <;>
      rw [hfill]
    · rw [List.length_replicate] at hlength
      simp only
      split
      · exact ⟨given, _, .inl ⟨rfl, hlength⟩, hrest⟩
      · exact ⟨given, _, .inr ⟨_, _, rfl, rfl⟩, hrest⟩
    · exact ⟨given, _, .inr ⟨_, _, rfl, (if_neg hpad).symm⟩, hrest⟩

/-- What reading fixed opaque data leaves in a caller's buffer, and what else comes of it. The call,
the stream type and the two ways into the buffer agree on the answer and on the decoder. The buffer
holds the payload if that went well. After an error it is as before if the length is not a multiple
of four, and otherwise begins with the bytes that the source gave before it failed. -/
theorem buffer_after_opaque (decoder : Decoder) (buffer : List UInt8) :
    let answer := (decoder.fillOpaque buffer).1
    let after := (decoder.fillOpaque buffer).2
    let call := (Get.fixedOpaque buffer).reading.run decoder
    let filter := (Filter.fixedOpaque.decode buffer).run decoder
    call.2 = after ∧ filter.2 = after ∧
    ∃ given, decoder.transport.rest = given ++ after.transport.rest ∧
      match answer with
      | (.ok (), payload) =>
          payload = given.take buffer.length ∧ payload.length = buffer.length ∧
          call.1 = .ok (.bytes payload) ∧ filter.1 = .ok payload
      | (.error error, left) =>
          left = (if buffer.length % 4 = 0 then overwritten given buffer else buffer) ∧
          call.1 = .error ⟨error, some (.bytes buffer)⟩ ∧ filter.1 = .error ⟨error, buffer⟩ := by
  intro answer after call filter
  have hcall := Reading.run_fixedOpaque (some (Value.bytes buffer))
    (fun data => .done (Value.bytes data)) decoder buffer
  have hfilter := Reading.run_fixedOpaque buffer .done decoder buffer
  obtain ⟨given, ended, ⟨hfill, hlength⟩ | ⟨error, left, hfill, hleft⟩, hrest⟩ :=
    decoder.fillOpaque_spec buffer <;> rw [hfill] at hcall hfilter <;>
    simp only [answer, after, call, filter, hfill, Get.reading, Filter.fixedOpaque, hcall, hfilter]
  · refine ⟨rfl, rfl, given, hrest, rfl, ?_, rfl, rfl⟩
    rw [List.length_take]
    omega
  · refine ⟨trivial, trivial, given, hrest, ?_, trivial, trivial⟩
    simpa only [padLength_eq_zero_iff] using hleft

/-- A source that gives three bytes, one by one, and fails leaves them in a buffer of eight. -/
theorem not_intact_after_opaque :
    ¬ ∀ (decoder after : Decoder) (buffer left : List UInt8) (error : Error),
      decoder.fillOpaque buffer = ((.error error, left), after) → left = buffer := by
  intro h
  let source : Source :=
    { rest := [0xc1, 0xc2, 0xc3, 0xc4, 0xc5, 0xc6, 0xc7, 0xc8]
      schedule := { limit := fun _ => some 1, halt := some ⟨3, some { kind := .timedOut }⟩ } }
  have hleft : (Decoder.fillOpaque { transport := source }
        [0x11, 0x22, 0x33, 0x44, 0x55, 0x66, 0x77, 0x88]).1 =
      (.error (.transport { kind := .timedOut }),
        [0xc1, 0xc2, 0xc3, 0x44, 0x55, 0x66, 0x77, 0x88]) := by
    simp [source, Decoder.fillOpaque, padLength, Context.useTransport, Source.fill,
      Source.arrival, Schedule.respond, Schedule.tighter, Error.ofRead]
  exact absurd (h _ _ _ _ _ (Prod.ext hleft rfl)) (by decide)

end Xdr
