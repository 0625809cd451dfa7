import Xdr.Transport.Schedule

/-!
# Byte sources

A `Source` holds the bytes that are still to come and delivers them call by call as its schedule
allows. `Source.readExact` asks for the rest again until everything is there. The statement to
read first is `readExact_spec`: a successful read hands over exactly the bytes asked for, and a
failed one uses up a leading part of what was left.
-/

namespace Xdr.Transport

/-- A source with the bytes to come, the number of bytes it gave, and the size of each request made
on it. -/
structure Source where
  rest : List UInt8
  schedule : Schedule := {}
  moved : Nat := 0
  requests : Array Nat := #[]

namespace Source

/-- The bytes that a call for `want` bytes moves under a limit. -/
def arrival (source : Source) (limit : Option Nat) (want : Nat) : List UInt8 :=
  source.rest.take (limit.elim want (min want))

/-- Collect `want` more bytes behind those that are there. Interrupted calls are made again, and a
call that delivers nothing is the end of the source. No call is made for an empty request. -/
def gather (source : Source) (want : Nat) (got : Array UInt8) :
    Except Failure (List UInt8) × Source :=
  if want = 0 then (.ok got.toList, source)
  else
    match _ : source.schedule.respond source.requests.size source.moved with
    | .interrupted => { source with requests := source.requests.push want }.gather want got
    | .failed failure => (.error failure, { source with requests := source.requests.push want })
    | .moves limit =>
        if _ : (source.arrival limit want).length = 0 then
          (.error { kind := .unexpectedEnd },
            { source with requests := source.requests.push want })
        else
          { source with
            rest := source.rest.drop (source.arrival limit want).length
            moved := source.moved + (source.arrival limit want).length
            requests := source.requests.push want }.gather
              (want - (source.arrival limit want).length) (got ++ source.arrival limit want)
termination_by want + source.schedule.pending source.requests.size
decreasing_by
  -- an interruption uses up a marked call, any other call brings at least one byte
  · have := source.schedule.pending_succ_lt source.requests.size
      ((source.schedule.respond_eq_interrupted_iff _ _).mp ‹_›)
    simpa using this
  · have hpending := source.schedule.pending_succ_le source.requests.size
    simp only [Array.size_push]
    omega

/-- Read exactly `want` bytes. -/
def readExact (source : Source) (want : Nat) : Except Failure (List UInt8) × Source :=
  source.gather want #[]

/-- What arrives is a leading part of what is left, no longer than asked for. -/
theorem arrival_spec (source : Source) (limit : Option Nat) (want : Nat) :
    source.rest = source.arrival limit want ++
        source.rest.drop (source.arrival limit want).length ∧
      (source.arrival limit want).length ≤ want := by
  have hbound : limit.elim want (min want) ≤ want := by
    cases limit with
    | none => exact Nat.le_refl _
    | some count => exact Nat.min_le_left want count
  unfold arrival
  generalize limit.elim want (min want) = bound at hbound
  rcases Nat.le_total bound source.rest.length with hle | hle
  · rw [List.length_take_of_le hle, List.take_append_drop]
    exact ⟨rfl, hbound⟩
  · rw [List.take_of_length_le hle]
    simp
    omega

/-- Gathering uses up a leading part of the source. On success the buffer holds what was there
before and that part, which has the length asked for. -/
theorem gather_spec (source : Source) (want : Nat) (got : Array UInt8) :
    ∃ given, source.rest = given ++ (source.gather want got).2.rest ∧
      (source.gather want got).2.moved = source.moved + given.length ∧
      (source.gather want got).2.schedule = source.schedule ∧
      match (source.gather want got).1 with
      | .ok bytes => bytes = got.toList ++ given ∧ given.length = want
      | .error _ => given.length < want := by
  fun_induction gather source want got with
  | case1 source got => exact ⟨[], by simp⟩
  | case2 source want got hwant hresponse ih => exact ih
  | case3 source want got hwant failure hresponse =>
      exact ⟨[], by simp; omega⟩
  | case4 source want got hwant limit hresponse hnone =>
      exact ⟨[], by simp; omega⟩
  | case5 source want got hwant limit hresponse hsome ih =>
      obtain ⟨given, hrest, hmoved, hschedule, hresult⟩ := ih
      obtain ⟨hsplit, hle⟩ := source.arrival_spec limit want
      refine ⟨source.arrival limit want ++ given, ?_, ?_, hschedule, ?_⟩
      · rw [List.append_assoc, ← hrest, ← hsplit]
      · rw [hmoved, List.length_append, Nat.add_assoc]
      · split at hresult
        · obtain ⟨hbytes, hlength⟩ := hresult
          simp [hbytes]
          omega
        · rw [List.length_append]
          omega

/-- A read uses up a leading part of the source. It succeeds with exactly that part when it has the
length asked for, and fails when it is shorter. -/
theorem readExact_spec (source : Source) (want : Nat) :
    ∃ given, source.rest = given ++ (source.readExact want).2.rest ∧
      (source.readExact want).2.moved = source.moved + given.length ∧
      (source.readExact want).2.schedule = source.schedule ∧
      match (source.readExact want).1 with
      | .ok bytes => bytes = given ∧ given.length = want
      | .error _ => given.length < want := by
  unfold readExact
  simpa using source.gather_spec want #[]

end Source

end Xdr.Transport
