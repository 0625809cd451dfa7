import Xdr.Proofs.Delivery

/-!
# Transports that do not fail

A transport may move data in pieces and interrupt calls, and still move everything in the end.
`Schedule.Unfailing` says when. Such a sink takes all data (`Sink.writeAll_unfailing`), and such a
source gives whatever it holds (`Source.readExact_unfailing`).
-/

namespace Xdr

namespace Transport

/-- The transport never comes to a halt, and each call that is not interrupted moves something. -/
def Schedule.Unfailing (schedule : Schedule) : Prop :=
  schedule.halt = none ∧ ∀ call, schedule.limit call ≠ some 0

/-- A transport without limits and interruptions does not fail. -/
theorem Schedule.unfailing_default : Schedule.Unfailing {} :=
  ⟨rfl, fun _ h => by cases h⟩

theorem Schedule.Unfailing.steady {schedule : Schedule} (h : schedule.Unfailing) :
    schedule.Steady :=
  h.2

namespace Sink

/-- A sink that does not fail takes all data. -/
theorem writeAll_unfailing (sink : Sink) (data : List UInt8) (h : sink.schedule.Unfailing) :
    ∃ after, sink.writeAll data = (.ok (), after) ∧ after.schedule = sink.schedule ∧
      after.taken.toList = sink.taken.toList ++ data := by
  have hopen : sink.Open := fun halt hhalt => by cases h.1.symm.trans hhalt
  have hok : (sink.writeAll data).1 = .ok () := by
    rcases writeAll_steady data h.steady hopen with ⟨hok, -⟩ | ⟨halt, hhalt, -⟩
    · exact hok
    · cases h.1.symm.trans hhalt
  obtain ⟨moved, rest, hsplit, htaken, hrest, hschedule⟩ := sink.writeAll_spec data
  obtain rfl := hrest.mp hok
  refine ⟨(sink.writeAll data).2, Prod.ext hok rfl, hschedule, ?_⟩
  rw [htaken, hsplit, List.append_nil]

end Sink

namespace Source

/-- What a source without a halt offers is what it holds. -/
theorem offers_rest {source : Source} (h : source.schedule.Unfailing) :
    source.Offers source.rest { kind := .unexpectedEnd } := by
  refine ⟨h.steady, ⟨[], (List.append_nil _).symm, fun _ => rfl⟩, fun halt hhalt => ?_, ?_⟩
  · cases h.1.symm.trans hhalt
  · rw [h.1]
    rfl

/-- A source that does not fail gives the bytes it begins with. -/
theorem readExact_unfailing {source : Source} {bytes rest : List UInt8}
    (h : source.schedule.Unfailing) (hrest : source.rest = bytes ++ rest) :
    ∃ after, source.readExact bytes.length = (.ok bytes, after) ∧ after.rest = rest ∧
      after.schedule = source.schedule := by
  have hok : (source.readExact bytes.length).1 = .ok bytes := by
    have hread := (readExact_offers bytes.length (offers_rest h)).1
    rwa [hrest, if_pos (by simp), List.take_left] at hread
  obtain ⟨given, hsplit, _, hschedule, hresult⟩ := source.readExact_spec bytes.length
  rw [hok] at hresult
  obtain ⟨rfl, _⟩ := hresult
  exact ⟨_, Prod.ext hok rfl, List.append_cancel_left (hsplit.symm.trans hrest), hschedule⟩

end Source

end Transport

/-- An encoder that can go on, whatever it is asked to write. -/
structure Encoder.Ready (encoder : Encoder) : Prop where
  usable : encoder.poisoned = false
  unfailing : encoder.transport.schedule.Unfailing

/-- A decoder that can go on as long as its source has bytes. -/
structure Decoder.Ready (decoder : Decoder) : Prop where
  usable : decoder.poisoned = false
  unfailing : decoder.transport.schedule.Unfailing

end Xdr
