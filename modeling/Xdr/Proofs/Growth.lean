import Xdr.Proofs.Chunks

/-!
# How far a buffer grows

The loop that reads a payload into one growing buffer, as a machine: a step tests the length,
lengthens the buffer by one portion, or makes one call on the source. A run of the machine comes to
what the loop comes to (`returned_eq_grow`). The statement to read first is `grown_le_delivered`: at
no point of a run is the buffer more than one portion longer than what the source has delivered,
whatever length was asked for.
-/

namespace Xdr

open Transport Reading

namespace Growth

/-- The point of the loop: its test, the filling of the buffer from an index on, and what follows
the loop. -/
inductive Control where
  | test
  | fill (filled : Nat)
  | returned (result : Except Failure Unit)

end Growth

/-- A state of the loop. -/
structure Growth where
  buffer : List UInt8
  source : Source
  control : Growth.Control

namespace Growth

/-- The loop before its first round, with an empty buffer. -/
def start (source : Source) : Growth :=
  { buffer := [], source, control := .test }

/-- One call on the source for the rest of the buffer. What arrives is put behind what is there. -/
def call (state : Growth) (filled : Nat) : Growth :=
  let want := state.buffer.length - filled
  let asked := { state.source with requests := state.source.requests.push want }
  match state.source.schedule.respond state.source.requests.size state.source.moved with
  | .interrupted => { state with source := asked }
  | .failed failure => { state with source := asked, control := .returned (.error failure) }
  | .moves limit =>
      let arrived := state.source.arrival limit want
      if arrived.length = 0 then
        { state with source := asked, control := .returned (.error { kind := .unexpectedEnd }) }
      else
        { buffer :=
            state.buffer.take filled ++ arrived ++ state.buffer.drop (filled + arrived.length)
          source := { asked with
            rest := state.source.rest.drop arrived.length
            moved := state.source.moved + arrived.length }
          control := .fill (filled + arrived.length) }

/-- One step of the loop that reads `total` bytes. There is none after it has returned. -/
def next (total : Nat) (state : Growth) : Option Growth :=
  match state.control with
  | .test =>
      if state.buffer.length < total then
        some { state with
          buffer :=
            state.buffer ++ List.replicate (min (total - state.buffer.length) portionSize) 0
          control := .fill state.buffer.length }
      else some { state with control := .returned (.ok ()) }
  | .fill filled =>
      if state.buffer.length - filled = 0 then some { state with control := .test }
      else some (state.call filled)
  | .returned _ => none

/-- So many steps of the loop. -/
def run (total : Nat) : Nat → Growth → Option Growth
  | 0, state => some state
  | steps + 1, state => next total state >>= run total steps

variable {total : Nat} {state after : Growth} {source : Source}

theorem run_add (total first second : Nat) (state : Growth) :
    run total (first + second) state = (run total first state >>= run total second) := by
  induction first generalizing state with
  | zero => simp [run]
  | succ first ih =>
      simp only [Nat.succ_add, run]
      cases next total state with
      | none => rfl
      | some following => exact ih following

/-! ### The bound -/

/-- What holds at each point of a loop that began on this source: nothing is lost, the buffer in
front of the index is what was delivered, and no more than a portion lies behind it. -/
structure Bounded (source : Source) (state : Growth) : Prop where
  kept : state.source.moved + state.source.rest.length = source.moved + source.rest.length
  begun : source.moved ≤ state.source.moved
  length : state.buffer.length ≤ state.source.moved - source.moved + portionSize
  filled : match state.control with
    | .test => state.buffer.length = state.source.moved - source.moved
    | .fill filled => filled = state.source.moved - source.moved ∧ filled ≤ state.buffer.length
    | .returned _ => True

theorem bounded_start (source : Source) : (start source).Bounded source :=
  ⟨rfl, Nat.le_refl _, Nat.zero_le _, (Nat.sub_self _).symm⟩

/-- A call leaves the buffer as long as it is, and puts in front of the index what it delivers. -/
theorem Bounded.call {filled : Nat} (h : state.Bounded source)
    (hcontrol : state.control = .fill filled) : (state.call filled).Bounded source := by
  obtain ⟨hkept, hbegun, hlength, hfilled⟩ := h
  rw [hcontrol] at hfilled
  obtain ⟨hdelivered, hle⟩ := hfilled
  unfold Growth.call
  dsimp only
  split
  · refine ⟨hkept, hbegun, hlength, ?_⟩
    rw [hcontrol]
    exact ⟨hdelivered, hle⟩
  · exact ⟨hkept, hbegun, hlength, trivial⟩
  · next limit _ =>
      obtain ⟨hsplit, hwant⟩ := state.source.arrival_spec limit (state.buffer.length - filled)
      have hrest := congrArg List.length hsplit
      rw [List.length_append] at hrest
      split
      · exact ⟨hkept, hbegun, hlength, trivial⟩
      · refine ⟨?_, ?_, ?_, ?_, ?_⟩ <;>
          simp only [List.length_append, List.length_take, List.length_drop] at * <;>
          omega

theorem Bounded.next (h : state.Bounded source) (hnext : next total state = some after) :
    after.Bounded source := by
  have hall := h
  obtain ⟨hkept, hbegun, hlength, hfilled⟩ := h
  unfold Growth.next at hnext
  cases hcontrol : state.control with
  | test =>
      rw [hcontrol] at hfilled
      simp only [hcontrol] at hnext
      split at hnext <;> cases hnext
      · refine ⟨hkept, hbegun, ?_, hfilled, ?_⟩ <;>
          simp only [List.length_append, List.length_replicate] at * <;> omega
      · exact ⟨hkept, hbegun, hlength, trivial⟩
  | fill filled =>
      rw [hcontrol] at hfilled
      simp only [hcontrol] at hnext
      split at hnext <;> cases hnext
      · next hfull =>
          obtain ⟨hdelivered, hle⟩ := hfilled
          have hend : state.buffer.length = state.source.moved - source.moved := by omega
          exact ⟨hkept, hbegun, hlength, hend⟩
      · exact hall.call hcontrol
  | returned result =>
      simp only [hcontrol] at hnext
      cases hnext

/-- The bound holds at each point of a run. -/
theorem bounded_run {steps : Nat} (h : state.Bounded source)
    (hrun : run total steps state = some after) : after.Bounded source := by
  induction steps generalizing state with
  | zero =>
      cases hrun
      exact h
  | succ steps ih =>
      obtain ⟨following, hnext, hrest⟩ := Option.bind_eq_some_iff.mp hrun
      exact ih (h.next hnext) hrest

/-- At no point of the loop is the buffer more than one portion longer than what the source has
delivered to it, and the source delivers no more than it holds. -/
theorem grown_le_delivered {steps : Nat} (hrun : run total steps (start source) = some state) :
    state.buffer.length ≤ state.source.moved - source.moved + portionSize ∧
      state.source.moved - source.moved ≤ source.rest.length := by
  obtain ⟨hkept, hbegun, hlength, -⟩ := bounded_run (bounded_start source) hrun
  exact ⟨hlength, by omega⟩

/-! ### The loop -/

/-- The machine comes from the one state to the other. -/
def Leads (total : Nat) (state after : Growth) : Prop :=
  ∃ steps, run total steps state = some after

theorem Leads.trans {between : Growth} (hfirst : Leads total state between)
    (hsecond : Leads total between after) : Leads total state after := by
  obtain ⟨first, hfirst⟩ := hfirst
  obtain ⟨second, hsecond⟩ := hsecond
  refine ⟨first + second, ?_⟩
  rw [run_add, hfirst]
  exact hsecond

theorem leads_of_next (hnext : next total state = some after) : Leads total state after :=
  ⟨1, by rw [run, hnext]; rfl⟩

/-- As long as the buffer is not full, a step is a call. -/
theorem next_fill {buffer : List UInt8} {filled want : Nat}
    (hbuffer : filled + want = buffer.length) (hwant : want ≠ 0) :
    next total ⟨buffer, source, .fill filled⟩ =
      some (call ⟨buffer, source, .fill filled⟩ filled) := by
  have hlength : buffer.length - filled = want := by omega
  simp only [next, hlength, if_neg hwant]

/-- Filling the rest of the buffer is gathering as many bytes from the source. -/
theorem leads_gather (total : Nat) (source : Source) (want : Nat) (got : Array UInt8)
    {buffer : List UInt8} {filled : Nat} (hbuffer : filled + want = buffer.length) :
    ∃ after, Leads total ⟨buffer, source, .fill filled⟩ after ∧
      after.source = (source.gather want got).2 ∧
      match (source.gather want got).1 with
      | .ok bytes => ∃ given, bytes = got.toList ++ given ∧
          after.buffer = buffer.take filled ++ given ∧ after.control = .test
      | .error failure => after.control = .returned (.error failure) := by
  have hlength : buffer.length - filled = want := by omega
  fun_induction Source.gather source want got generalizing buffer filled with
  | case1 source got =>
      refine ⟨⟨buffer, source, .test⟩, leads_of_next ?_, rfl, [], (List.append_nil _).symm, ?_, rfl⟩
      · simp only [next, hlength, if_true]
      · rw [List.take_of_length_le (by omega), List.append_nil]
  | case2 source want got hwant hresponse ih =>
      obtain ⟨after, hleads, hafter⟩ := ih hbuffer hlength
      refine ⟨after, (leads_of_next (next_fill hbuffer hwant)).trans ?_, hafter⟩
      simpa only [call, hlength, hresponse] using hleads
  | case3 source want got hwant failure hresponse =>
      refine ⟨_, leads_of_next (next_fill hbuffer hwant), ?_⟩
      simp only [call, hlength, hresponse, and_self]
  | case4 source want got hwant limit hresponse hnone =>
      refine ⟨_, leads_of_next (next_fill hbuffer hwant), ?_⟩
      simp only [call, hlength, hresponse, if_pos hnone, and_self]
  | case5 source want got hwant limit hresponse hsome ih =>
      obtain ⟨-, hle⟩ := source.arrival_spec limit want
      have htake : (buffer.take filled).length = filled := List.length_take_of_le (by omega)
      obtain ⟨after, hleads, hafter, hresult⟩ := @ih
        (buffer.take filled ++ source.arrival limit want ++
          buffer.drop (filled + (source.arrival limit want).length))
        (filled + (source.arrival limit want).length) (by simp; omega) (by simp; omega)
      refine ⟨after, (leads_of_next (next_fill hbuffer hwant)).trans ?_, hafter, ?_⟩
      · simpa only [call, hlength, hresponse, if_neg hsome] using hleads
      · split at hresult
        · obtain ⟨given, hbytes, hgrown, hcontrol⟩ := hresult
          refine ⟨source.arrival limit want ++ given, ?_, ?_, hcontrol⟩
          · rw [hbytes, Array.toList_appendList, List.append_assoc]
          · rw [hgrown, List.take_left' (by simp [htake]), List.append_assoc]
        · exact hresult

/-- The machine comes to what the loop comes to. -/
theorem returned_eq_grow (htotal : total < 2 ^ 64) {buffer : List UInt8}
    {result : Except Failure (List UInt8)} {ended : Source}
    (h : grow total buffer source = some (result, ended)) :
    ∃ after, Leads total ⟨buffer, source, .test⟩ after ∧ after.source = ended ∧
      after.control = .returned (result.map fun _ => ()) ∧
      ∀ filled, result = .ok filled → after.buffer = filled := by
  induction hleft : total - buffer.length using Nat.strongRecOn generalizing buffer source with
  | ind left ih =>
      by_cases hlt : buffer.length < total
      · rw [grow_of_lt htotal _ hlt] at h
        have hextend : Leads total ⟨buffer, source, .test⟩
            ⟨buffer ++ List.replicate (min (total - buffer.length) portionSize) 0, source,
              .fill buffer.length⟩ := leads_of_next (if_pos hlt)
        have hlength : buffer.length + min (total - buffer.length) portionSize =
            (buffer ++ List.replicate (min (total - buffer.length) portionSize) 0).length := by
          rw [List.length_append, List.length_replicate]
        obtain ⟨between, hfill, hsource, hresult⟩ := leads_gather total source _ #[] hlength
        rw [List.take_left' rfl] at hresult
        rcases hread : source.readExact (min (total - buffer.length) portionSize) with
          ⟨failure | bytes, reached⟩ <;> rw [hread] at h <;>
          rw [show source.gather _ #[] = _ from hread] at hsource hresult
        · cases h
          exact ⟨between, hextend.trans hfill, hsource, hresult, fun _ hfilled => by cases hfilled⟩
        · obtain ⟨given, hbytes, hbuffer, hcontrol⟩ := hresult
          obtain rfl : bytes = given := hbytes
          obtain ⟨_, -, -, -, hgiven⟩ :=
            source.readExact_spec (min (total - buffer.length) portionSize)
          rw [hread] at hgiven
          obtain ⟨rfl, hgiven⟩ := hgiven
          have hpositive : 0 < min (total - buffer.length) portionSize :=
            Nat.lt_min.mpr ⟨by omega, by decide⟩
          obtain ⟨after, hrest, hafter⟩ := ih (total - (buffer ++ bytes).length)
            (by simp; omega) h rfl
          refine ⟨after, (hextend.trans hfill).trans ?_, hafter⟩
          obtain ⟨grown, left, control⟩ := between
          obtain rfl : grown = buffer ++ bytes := hbuffer
          obtain rfl : left = reached := hsource
          obtain rfl : control = .test := hcontrol
          exact hrest
      · rw [grow, if_neg hlt] at h
        cases h
        refine ⟨_, leads_of_next (if_neg hlt), rfl, rfl, fun filled hfilled => ?_⟩
        exact Except.ok.inj hfilled

/-- Behind a length that is not refused, the machine comes to what reading the data comes to: its
buffer holds the payload and the padding. -/
theorem returned_eq_sized (kind : SizedKind) (max : UInt32) (buffer : List UInt8)
    {decoder : Decoder} (husable : decoder.poisoned = false) {image : List UInt8}
    (hread : decoder.transport.readExact 4 = (.ok image, source)) (hmax : wordOfImage image ≤ max) :
    let length := (wordOfImage image).toNat
    let ran := (sized kind max buffer).run decoder
    ∃ after result, Leads (length + padLength length) (start source) after ∧
      after.control = .returned result ∧ after.source = ran.2.transport ∧
      ran.1 = match result with
        | .error failure => .error ⟨.ofRead failure, []⟩
        | .ok () =>
            if decoder.config.padding.accepts (after.buffer.drop length) then
              .ok (after.buffer.take length)
            else .error ⟨.invalidPadding, []⟩ := by
  intro length ran
  have htotal : length + padLength length < 2 ^ 64 := total_lt _
  obtain ⟨outcome, ended, hvariable, hresult, htransport⟩ :=
    readVariable_eq_sized kind max buffer husable
  have hpayload : readPayload decoder.config.padding length source = some (outcome, ended) := by
    rw [readVariable, hread] at hvariable
    simpa only [if_pos (UInt32.le_iff_toNat_le.mp hmax)] using hvariable
  unfold readPayload at hpayload
  simp only [index?_of_lt htotal] at hpayload
  rcases hgrow : grow (length + padLength length) [] source with _ | ⟨failure | grown, left⟩ <;>
    simp only [hgrow] at hpayload
  · cases hpayload
  · cases hpayload
    obtain ⟨after, hleads, hsource, hcontrol, -⟩ := returned_eq_grow htotal hgrow
    exact ⟨after, .error failure, hleads, hcontrol, hsource.trans htransport.symm, hresult⟩
  · obtain ⟨after, hleads, hsource, hcontrol, hbuffer⟩ := returned_eq_grow htotal hgrow
    obtain rfl : after.buffer = grown := hbuffer grown rfl
    refine ⟨after, .ok (), hleads, hcontrol, ?_⟩
    split at hpayload
    · dsimp only
      split at hpayload <;> cases hpayload
      · exact ⟨hsource.trans htransport.symm, by rw [hresult, if_pos ‹_›]; rfl⟩
      · exact ⟨hsource.trans htransport.symm, by rw [hresult, if_neg ‹_›]; rfl⟩
    · cases hpayload

end Growth

end Xdr
