import Xdr.Transport.Schedule

/-!
# Byte sinks

A `Sink` takes bytes call by call as its schedule allows and remembers what it took and what it was
offered. `Sink.writeAll` offers the rest again until everything is taken. The statement to read
first is `writeAll_spec`: a sink takes a leading part of the data, and the write succeeds exactly
when nothing is left over.
-/

namespace Xdr.Transport

/-- A sink with the bytes it took and the data of each call made on it. -/
structure Sink where
  schedule : Schedule := {}
  taken : Array UInt8 := #[]
  offers : Array (List UInt8) := #[]

namespace Sink

/-- The part of the data that a call moves. -/
def piece (limit : Option Nat) (data : List UInt8) : List UInt8 :=
  match limit with
  | none => data
  | some count => data.take count

/-- A piece and the data behind it make up the data. -/
theorem piece_append_drop (limit : Option Nat) (data : List UInt8) :
    piece limit data ++ data.drop (piece limit data).length = data := by
  unfold piece
  split
  · simp
  · next count =>
      rcases Nat.le_total count data.length with hle | hle
      · rw [List.length_take_of_le hle, List.take_append_drop]
      · simp [List.take_of_length_le hle]

theorem length_piece_le (limit : Option Nat) (data : List UInt8) :
    (piece limit data).length ≤ data.length := by
  unfold piece
  split
  · exact Nat.le_refl _
  · exact List.length_take_le' _ _

/-- Offer the data until all of it is taken. Interrupted calls are made again, a call that takes
nothing is a failure, and no call is made for empty data. -/
def writeAll (sink : Sink) (data : List UInt8) : Except Failure Unit × Sink :=
  if data.isEmpty then (.ok (), sink)
  else
    match _ : sink.schedule.respond sink.offers.size sink.taken.size with
    | .interrupted => { sink with offers := sink.offers.push data }.writeAll data
    | .failed failure => (.error failure, { sink with offers := sink.offers.push data })
    | .moves limit =>
        if _ : (piece limit data).length = 0 then
          (.error { kind := .writeZero }, { sink with offers := sink.offers.push data })
        else
          { sink with
            taken := sink.taken ++ piece limit data
            offers := sink.offers.push data }.writeAll (data.drop (piece limit data).length)
termination_by data.length + sink.schedule.pending sink.offers.size
decreasing_by
  -- an interruption uses up a marked call, any other call takes at least one byte
  · have := sink.schedule.pending_succ_lt sink.offers.size
      ((sink.schedule.respond_eq_interrupted_iff _ _).mp ‹_›)
    simpa using this
  · have hpending := sink.schedule.pending_succ_le sink.offers.size
    have hpiece := length_piece_le limit data
    simp only [List.length_drop, Array.size_push]
    omega

/-- The sink takes a leading part of the data and keeps its schedule. The write succeeds exactly
when no data is left over. -/
theorem writeAll_spec (sink : Sink) (data : List UInt8) :
    ∃ moved rest, data = moved ++ rest ∧
      (sink.writeAll data).2.taken.toList = sink.taken.toList ++ moved ∧
      ((sink.writeAll data).1 = .ok () ↔ rest = []) ∧
      (sink.writeAll data).2.schedule = sink.schedule := by
  fun_induction writeAll sink data with
  | case1 sink data hempty =>
      exact ⟨data, [], by simp, by simp_all, by simp, rfl⟩
  | case2 sink data hempty hresponse ih => simpa using ih
  | case3 sink data hempty failure hresponse =>
      exact ⟨[], data, by simp, by simp, by simp_all, rfl⟩
  | case4 sink data hempty limit hresponse hnone =>
      exact ⟨[], data, by simp, by simp, by simp_all, rfl⟩
  | case5 sink data hempty limit hresponse hsome ih =>
      obtain ⟨moved, rest, hsplit, htaken, hok, hschedule⟩ := ih
      refine ⟨piece limit data ++ moved, rest, ?_, ?_, hok, hschedule⟩
      · rw [List.append_assoc, ← hsplit, piece_append_drop]
      · rw [htaken]
        simp

end Sink

end Xdr.Transport
