import Xdr.Context
import Xdr.Transport.Source

/-!
# Readings

A `Reading` is what decoding a value asks of a decoder: a tree of requests for bytes in which the
next request may depend on the bytes delivered so far. A reading ends with a value, or it stops with
an error and with what is kept of the caller's target. Readings do not depend on the source, and
`Reading.run` carries one out. The statement to read first is `run_andThen`: a reading made of two
runs the first and, if that went well, the second.
-/

namespace Xdr

/-- A context that reads. -/
abbrev Decoder := Context Transport.Source

/-- The parts of a value that are there because a word on the wire says so. -/
inductive Part where
  /-- An element of an array behind its count. -/
  | element
  /-- A value that may be absent. -/
  | present
  deriving DecidableEq, Repr

/-- What decoding asks for. A `κ` is kept where the reading stops, and an `α` is its value. -/
inductive Reading : (κ α : Type) → Type 1 where
  /-- Nothing more is asked for. -/
  | done {κ α : Type} (value : α) : Reading κ α
  /-- The bytes so far are refused. -/
  | refuse {κ α : Type} (refusal : Refusal) (kept : κ) : Reading κ α
  /-- Ask for bytes. A poisoned decoder does not ask and leaves `untouched`, a failed request leaves
  `kept`. -/
  | request {κ α : Type} (operation : Operation) (count : Nat) (untouched kept : κ)
      (next : List UInt8 → Reading κ α) : Reading κ α
  /-- Log an event. -/
  | note {κ α : Type} (event : Event) (next : Reading κ α) : Reading κ α
  /-- State that a part has been read. A decoder does nothing about it. -/
  | mark {κ α : Type} (part : Part) (next : Reading κ α) : Reading κ α
  /-- Have padding checked by the decoder's policy. -/
  | checkPadding {κ α : Type} (operation : Operation) (padding : List UInt8) (kept : κ)
      (next : Reading κ α) : Reading κ α
  /-- Work out what to ask for only once it is reached. -/
  | later {κ α : Type} (next : Unit → Reading κ α) : Reading κ α
  /-- Go on with `next` after the value of `first`, and keep `keep` of what is kept where `first`
  stops. -/
  | andThen {κ μ α β : Type} (first : Reading κ α) (keep : κ → μ) (next : α → Reading μ β) :
      Reading μ β

/-- An error, with what is kept of the target. -/
structure Stopped (κ : Type) where
  error : Error
  kept : κ

/-- The same stop, with what is kept seen through `keep`. -/
def Stopped.map {κ μ : Type} (keep : κ → μ) (stopped : Stopped κ) : Stopped μ :=
  ⟨stopped.error, keep stopped.kept⟩

namespace Reading

variable {κ μ α β γ : Type}

/-- Carry out a reading and hand on its result and the decoder. What is to be done after a reading
waits in `finish`, so readings may lie inside one another as deep as they like. -/
def runThen : {κ α : Type} → Reading κ α → (finish : Except (Stopped κ) α → Decoder → γ) →
    Decoder → γ
  | _, _, done value, finish, decoder => finish (.ok value) decoder
  | _, _, refuse refusal kept, finish, decoder =>
      let (error, refused) := decoder.refuse refusal
      finish (.error ⟨error, kept⟩) refused
  | _, _, request operation count untouched kept next, finish, decoder =>
      if decoder.poisoned then finish (.error ⟨.poisoned, untouched⟩) decoder
      else match decoder.useTransport fun source => source.readExact count with
        | (.ok bytes, after) => runThen (next bytes) finish after
        | (.error failure, after) =>
            finish (.error ⟨.ofRead failure, kept⟩) (after.fault operation (.ofRead failure))
  | _, _, note event next, finish, decoder => runThen next finish (decoder.record event)
  | _, _, mark _ next, finish, decoder => runThen next finish decoder
  | _, _, checkPadding operation padding kept next, finish, decoder =>
      if decoder.config.padding.accepts padding then runThen next finish decoder
      else finish (.error ⟨.invalidPadding, kept⟩) (decoder.fault operation .invalidPadding)
  | _, _, later next, finish, decoder => runThen (next ()) finish decoder
  | _, _, andThen first keep next, finish, decoder =>
      runThen first (fun result after =>
        match result with
        | .ok value => runThen (next value) finish after
        | .error stopped => finish (.error (stopped.map keep)) after) decoder

/-- Carry out a reading. -/
def run (reading : Reading κ α) (decoder : Decoder) : Except (Stopped κ) α × Decoder :=
  reading.runThen Prod.mk decoder

/-- What is handed on is the result of the run. -/
theorem runThen_eq (reading : Reading κ α) (finish : Except (Stopped κ) α → Decoder → γ)
    (decoder : Decoder) :
    reading.runThen finish decoder = finish (reading.run decoder).1 (reading.run decoder).2 := by
  unfold run
  induction reading generalizing γ decoder with
  | done value => rfl
  | refuse refusal kept => rfl
  | request operation count untouched kept next ih =>
      simp only [runThen]
      split
      · rfl
      · rcases decoder.useTransport fun source => source.readExact count with ⟨_ | bytes, after⟩
        · rfl
        · exact ih bytes finish after
  | note event next ih => exact ih finish _
  | mark part next ih => exact ih finish decoder
  | checkPadding operation padding kept next ih =>
      simp only [runThen]
      split
      · exact ih finish decoder
      · rfl
  | later next ih => exact ih () finish decoder
  | andThen first keep next ihFirst ihNext =>
      simp only [runThen]
      -- both sides carry out `first` and differ in what they do with its result
      rw [ihFirst]
      conv => rhs; rw [ihFirst]
      cases (first.runThen Prod.mk decoder).1 with
      | ok value => exact ihNext value finish _
      | error stopped => rfl

/-! ### What a run does with each kind of reading -/

@[simp] theorem run_done (value : α) (decoder : Decoder) :
    (done value : Reading κ α).run decoder = (.ok value, decoder) := rfl

@[simp] theorem run_refuse (refusal : Refusal) (kept : κ) (decoder : Decoder) :
    (refuse refusal kept : Reading κ α).run decoder =
      (.error ⟨(decoder.refuse refusal).1, kept⟩, (decoder.refuse refusal).2) := rfl

theorem run_request (operation : Operation) (count : Nat) (untouched kept : κ)
    (next : List UInt8 → Reading κ α) (decoder : Decoder) :
    (request operation count untouched kept next).run decoder =
      if decoder.poisoned then (.error ⟨.poisoned, untouched⟩, decoder)
      else match decoder.useTransport fun source => source.readExact count with
        | (.ok bytes, after) => (next bytes).run after
        | (.error failure, after) =>
            (.error ⟨.ofRead failure, kept⟩, after.fault operation (.ofRead failure)) := by
  rw [run, runThen]
  split
  · rfl
  · rcases decoder.useTransport fun source => source.readExact count with ⟨_ | bytes, after⟩ <;> rfl

@[simp] theorem run_note (event : Event) (next : Reading κ α) (decoder : Decoder) :
    (note event next).run decoder = next.run (decoder.record event) := rfl

@[simp] theorem run_mark (part : Part) (next : Reading κ α) (decoder : Decoder) :
    (mark part next).run decoder = next.run decoder := rfl

theorem run_checkPadding (operation : Operation) (padding : List UInt8) (kept : κ)
    (next : Reading κ α) (decoder : Decoder) :
    (checkPadding operation padding kept next).run decoder =
      if decoder.config.padding.accepts padding then next.run decoder
      else (.error ⟨.invalidPadding, kept⟩, decoder.fault operation .invalidPadding) := rfl

@[simp] theorem run_later (next : Unit → Reading κ α) (decoder : Decoder) :
    (later next).run decoder = (next ()).run decoder := rfl

/-- Running two readings is running the first and, if that went well, the second. -/
theorem run_andThen (first : Reading κ α) (keep : κ → μ) (next : α → Reading μ β)
    (decoder : Decoder) :
    (first.andThen keep next).run decoder =
      match first.run decoder with
      | (.ok value, after) => (next value).run after
      | (.error stopped, after) => (.error (stopped.map keep), after) := by
  rw [run, runThen, runThen_eq]
  rcases first.run decoder with ⟨_ | value, after⟩ <;> rfl

/-- Change the value and what is kept. -/
def map (keep : κ → μ) (change : α → β) (reading : Reading κ α) : Reading μ β :=
  reading.andThen keep fun value => done (change value)

/-- Values read in order, where each reading comes with the target it replaces. What is kept holds
the values read so far, the target of the reading that stopped, and the targets behind it. -/
def inOrder : List (α × Reading α α) → (done : List α) → Reading (List α) (List α)
  | [], finished => done finished.reverse
  | (_, reading) :: rest, finished =>
      reading.andThen (fun kept => finished.reverse ++ kept :: rest.map Prod.fst)
        fun value => inOrder rest (value :: finished)

/-- As many elements as counted, each with the same reading. What is kept holds the elements read so
far. -/
def replicate (reading : Reading α α) : Nat → (finished : List α) → Reading (List α) (List α)
  | 0, finished => done finished.reverse
  | count + 1, finished =>
      reading.andThen (fun _ => finished.reverse)
        fun value => mark .element (replicate reading count (value :: finished))

/-- The parts that a run states to have been read, whether or not they are part of its value. -/
def parts : {κ α : Type} → Reading κ α → Decoder → List Part
  | _, _, done _, _ => []
  | _, _, refuse _ _, _ => []
  | _, _, request _ count _ _ next, decoder =>
      if decoder.poisoned then []
      else match decoder.useTransport fun source => source.readExact count with
        | (.ok bytes, after) => parts (next bytes) after
        | (.error _, _) => []
  | _, _, note event next, decoder => parts next (decoder.record event)
  | _, _, mark part next, decoder => part :: parts next decoder
  | _, _, checkPadding _ padding _ next, decoder =>
      if decoder.config.padding.accepts padding then parts next decoder else []
  | _, _, later next, decoder => parts (next ()) decoder
  | _, _, andThen first _ next, decoder =>
      parts first decoder ++
        match first.run decoder with
        | (.ok value, after) => parts (next value) after
        | (.error _, _) => []

end Reading

end Xdr
