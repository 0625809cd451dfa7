import Xdr.Transport.Failure

/-!
# Delivery schedules

A transport moves bytes call by call, and a `Schedule` says what it does to each call: it may
interrupt it, cut it short, or come to a halt for good once a number of bytes has moved.
`Schedule.respond` combines the three. `pending_succ_lt` is the reason why retrying after an
interruption comes to an end: each interruption uses up one of the calls that the schedule marks.
-/

namespace Xdr.Transport

/-- Where a transport stops for good: by failing, or by moving nothing any more. -/
structure Halt where
  /-- The number of bytes that move before the halt. -/
  offset : Nat
  /-- The failure of every later call. Without one, later calls succeed and move nothing. -/
  failure : Option Failure
  deriving DecidableEq, Repr

/-- The halt that comes first. At the same offset the earlier argument decides. -/
def Halt.earlier : Option Halt → Option Halt → Option Halt
  | none, second => second
  | first, none => first
  | some first, some second => some (if first.offset ≤ second.offset then first else second)

/-- What a transport does to the calls made on it, which are numbered from 0. -/
structure Schedule where
  /-- The most bytes that a call moves, where there is a limit. -/
  limit : Nat → Option Nat := fun _ => none
  /-- The calls that are interrupted. -/
  interrupts : List Nat := []
  halt : Option Halt := none

/-- The outcome of one call. -/
inductive Response where
  | interrupted
  | failed (failure : Failure)
  /-- Bytes move, up to the limit if there is one. -/
  | moves (limit : Option Nat)
  deriving DecidableEq, Repr

namespace Schedule

/-- The tighter of a limit that may be missing and one that is there. -/
def tighter (limit : Option Nat) (bound : Nat) : Option Nat :=
  some (limit.elim bound (min bound))

/-- The outcome of call number `call`, after `moved` bytes in the calls before it. An interruption
comes before everything else, and a call before the halt does not move past it. -/
def respond (schedule : Schedule) (call moved : Nat) : Response :=
  if call ∈ schedule.interrupts then .interrupted
  else match schedule.halt with
    | none => .moves (schedule.limit call)
    | some ⟨offset, none⟩ => .moves (tighter (schedule.limit call) (offset - moved))
    | some ⟨offset, some failure⟩ =>
        if offset ≤ moved then .failed failure
        else .moves (tighter (schedule.limit call) (offset - moved))

/-- Only the marked calls are interrupted. -/
theorem respond_eq_interrupted_iff (schedule : Schedule) (call moved : Nat) :
    schedule.respond call moved = .interrupted ↔ call ∈ schedule.interrupts := by
  unfold respond
  split
  · simpa
  · split
    · simp_all
    · simp_all
    · split <;> simp_all

/-- The number of interruptions still to come at a call. -/
def pending (schedule : Schedule) (call : Nat) : Nat :=
  schedule.interrupts.countP (call ≤ ·)

/-- A later call has no more interruptions ahead. -/
theorem pending_succ_le (schedule : Schedule) (call : Nat) :
    schedule.pending (call + 1) ≤ schedule.pending call :=
  List.countP_mono_left fun mark _ hmark => by
    simp only [decide_eq_true_eq] at hmark ⊢
    omega

/-- An interrupted call has more interruptions ahead than the call after it. -/
theorem pending_succ_lt (schedule : Schedule) (call : Nat) (h : call ∈ schedule.interrupts) :
    schedule.pending (call + 1) < schedule.pending call := by
  obtain ⟨before, after, hsplit⟩ := List.append_of_mem h
  have hle (marks : List Nat) : marks.countP (call + 1 ≤ ·) ≤ marks.countP (call ≤ ·) :=
    List.countP_mono_left fun mark _ hmark => by
      simp only [decide_eq_true_eq] at hmark ⊢
      omega
  have hbefore := hle before
  have hafter := hle after
  simp only [pending, hsplit, List.countP_append, List.countP_cons, Nat.not_succ_le_self,
    decide_false, decide_true, Nat.le_refl, Bool.false_eq_true, if_true, if_false]
  omega

end Schedule

end Xdr.Transport
