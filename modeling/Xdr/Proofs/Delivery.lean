import Xdr.Item
import Xdr.Reading

/-!
# Transports that halt

A transport whose calls move something is settled by where it halts: how the data are cut into
pieces, and which calls are interrupted, makes no difference. `Sink.writeAll_steady` says what such
a sink takes, and `Source.readExact_offers` what such a source gives.
-/

namespace Xdr.Transport

namespace Schedule

/-- Each call that is not interrupted moves something, up to the halt if there is one. -/
def Steady (schedule : Schedule) : Prop :=
  ∀ call, schedule.limit call ≠ some 0

/-- What calls on a steady transport come to. In front of the halt they move something without
passing it. From there on they fail or move nothing. -/
inductive Answers (schedule : Schedule) (moved : Nat) : Response → Prop where
  | interrupted : Answers schedule moved .interrupted
  | moves {limit} : limit ≠ some 0 →
      (∀ halt, schedule.halt = some halt →
        ∃ count, limit = some count ∧ moved + count ≤ halt.offset) →
      Answers schedule moved (.moves limit)
  | stuck {halt} : schedule.halt = some halt → halt.offset ≤ moved → halt.failure = none →
      Answers schedule moved (.moves (some 0))
  | failed {halt failure} : schedule.halt = some halt → halt.offset ≤ moved →
      halt.failure = some failure → Answers schedule moved (.failed failure)

/-- In front of the halt there is room for a call that moves something. -/
theorem Steady.answers_tighter {schedule : Schedule} (h : schedule.Steady) {halt : Halt}
    (hhalt : schedule.halt = some halt) {moved : Nat} (hlt : moved < halt.offset) (call : Nat) :
    Answers schedule moved (.moves (tighter (schedule.limit call) (halt.offset - moved))) := by
  have hlimit := h call
  refine .moves ?_ fun other hother => ⟨_, rfl, ?_⟩
  · unfold tighter
    cases hcall : schedule.limit call with
    | none =>
        simp
        omega
    | some count =>
        have hcount : count ≠ 0 := fun hzero => hlimit (by rw [hcall, hzero])
        simp
        omega
  · obtain rfl := Option.some.inj (hhalt.symm.trans hother)
    cases schedule.limit call with
    | none =>
        simp
        omega
    | some count =>
        simp
        omega

theorem Steady.answers {schedule : Schedule} (h : schedule.Steady) (call moved : Nat) :
    Answers schedule moved (schedule.respond call moved) := by
  unfold respond
  split
  · exact .interrupted
  · split
    · next hhalt => exact .moves (h call) fun halt hsome => by cases hhalt.symm.trans hsome
    · next offset hhalt =>
        by_cases hlt : moved < offset
        · exact h.answers_tighter hhalt hlt call
        · have hle := Nat.le_of_not_lt hlt
          have hzero : tighter (schedule.limit call) (offset - moved) = some 0 := by
            rw [Nat.sub_eq_zero_of_le hle, tighter]
            cases schedule.limit call <;> simp
          rw [hzero]
          exact .stuck hhalt hle rfl
    · next offset failure hhalt =>
        split
        · next hle => exact .failed hhalt hle rfl
        · next hlt => exact h.answers_tighter hhalt (Nat.lt_of_not_le hlt) call

end Schedule

/-! ### Sinks -/

namespace Sink

/-- A call moves something of data that is not empty, unless its limit is nothing. -/
theorem piece_ne_nil {limit : Option Nat} {data : List UInt8} (hlimit : limit ≠ some 0)
    (hdata : data ≠ []) : piece limit data ≠ [] := by
  unfold piece
  split
  · exact hdata
  · next count =>
      have hcount : count ≠ 0 := fun h => hlimit (congrArg some h)
      simp [hcount, hdata]

/-- The sink has not passed its halt. -/
def Open (sink : Sink) : Prop :=
  ∀ halt, sink.schedule.halt = some halt → sink.taken.size ≤ halt.offset

/-- How a write ends that does not come through. -/
def ending (halt : Halt) : Failure :=
  halt.failure.getD { kind := .writeZero }

/-- At its halt a sink is short of room for any data. -/
theorem Open.at_halt {sink : Sink} (h : sink.Open) {halt : Halt}
    (hhalt : sink.schedule.halt = some halt) (hle : halt.offset ≤ sink.taken.size)
    {data : List UInt8} (hdata : data ≠ []) :
    halt.offset < sink.taken.size + data.length ∧ sink.taken.size = halt.offset := by
  have hsize := Nat.le_antisymm (h halt hhalt) hle
  have hlength := List.length_pos_iff.mpr hdata
  exact ⟨by omega, hsize⟩

/-- A write comes through, or it takes the sink to its halt, which lies in front of the end of the
data. -/
theorem writeAll_steady {sink : Sink} (data : List UInt8) (h : sink.schedule.Steady)
    (hopen : sink.Open) :
    ((sink.writeAll data).1 = .ok () ∧ (sink.writeAll data).2.Open) ∨
      ∃ halt, sink.schedule.halt = some halt ∧ (sink.writeAll data).1 = .error (ending halt) ∧
        halt.offset < sink.taken.size + data.length ∧
        (sink.writeAll data).2.taken.size = halt.offset := by
  fun_induction writeAll sink data with
  | case1 sink data hempty => exact .inl ⟨rfl, hopen⟩
  | case2 sink data hempty hresponse ih => exact ih h hopen
  | case3 sink data hempty failure hresponse =>
      have hanswer := h.answers sink.offers.size sink.taken.size
      rw [hresponse] at hanswer
      cases hanswer with
      | @failed halt _ hhalt hle hfailure =>
          refine .inr ⟨halt, hhalt, ?_, hopen.at_halt hhalt hle (by simpa using hempty)⟩
          rw [ending, hfailure]
          rfl
  | case4 sink data hempty limit hresponse hnone =>
      have hanswer := h.answers sink.offers.size sink.taken.size
      rw [hresponse] at hanswer
      cases hanswer with
      | moves hlimit _ =>
          have hdata : data ≠ [] := by simpa using hempty
          exact absurd (List.length_eq_zero_iff.mp hnone) (piece_ne_nil hlimit hdata)
      | @stuck halt hhalt hle hfailure =>
          refine .inr ⟨halt, hhalt, ?_, hopen.at_halt hhalt hle (by simpa using hempty)⟩
          rw [ending, hfailure]
          rfl
  | case5 sink data hempty limit hresponse hsome ih =>
      -- the call moves a piece that ends in front of the halt
      have hlength := length_piece_le limit data
      have hanswer := h.answers sink.offers.size sink.taken.size
      rw [hresponse] at hanswer
      cases hanswer with
      | stuck _ _ _ => exact absurd (by simp [piece]) hsome
      | moves _ hroom =>
          have hsize : (sink.taken ++ piece limit data).size =
              sink.taken.size + (piece limit data).length := by
            simp [← Array.length_toList]
          have hnext : ∀ halt, sink.schedule.halt = some halt →
              (sink.taken ++ piece limit data).size ≤ halt.offset := by
            intro halt hhalt
            obtain ⟨count, rfl, hcount⟩ := hroom halt hhalt
            have htake : (piece (some count) data).length ≤ count := List.length_take_le _ _
            omega
          rcases ih h hnext with hdone | ⟨halt, hhalt, herror, hlt, hhalted⟩
          · exact .inl hdone
          · refine .inr ⟨halt, hhalt, herror, ?_, hhalted⟩
            rw [hsize, List.length_drop] at hlt
            omega

end Sink

/-! ### Sources -/

namespace Source

/-- A call brings something, unless its limit or the request is nothing or the source is at its
end. -/
theorem arrival_ne_nil {source : Source} {limit : Option Nat} {want : Nat}
    (hlimit : limit ≠ some 0) (hwant : want ≠ 0) (hrest : source.rest ≠ []) :
    source.arrival limit want ≠ [] := by
  unfold arrival
  have hbound : limit.elim want (min want) ≠ 0 := by
    cases limit with
    | none => exact hwant
    | some count =>
        have hcount : count ≠ 0 := fun h => hlimit (congrArg some h)
        simp only [Option.elim]
        omega
  simp [hbound, hrest]

/-- How a read ends that does not come through. -/
def ending (halt : Halt) : Failure :=
  halt.failure.getD { kind := .unexpectedEnd }

/-- From here on a source gives these bytes, in pieces of its own, and then ends like this. -/
structure Offers (source : Source) (supply : List UInt8) (ending : Failure) : Prop where
  steady : source.schedule.Steady
  /-- What lies behind the halt is never given. -/
  rest_eq : ∃ beyond, source.rest = supply ++ beyond ∧
    (source.schedule.halt = none → beyond = [])
  halted : ∀ halt, source.schedule.halt = some halt →
    source.moved + supply.length = halt.offset
  ending_eq : ending = source.schedule.halt.elim { kind := .unexpectedEnd } Source.ending

variable {source : Source} {supply : List UInt8} {ending : Failure}

theorem Offers.ending_of_halt (h : source.Offers supply ending) {halt : Halt}
    (hhalt : source.schedule.halt = some halt) : ending = Source.ending halt := by
  rw [h.ending_eq, hhalt, Option.elim_some]

/-- At its halt a source has nothing more to offer. -/
theorem Offers.length_eq_zero (h : source.Offers supply ending) {halt : Halt}
    (hhalt : source.schedule.halt = some halt) (hle : halt.offset ≤ source.moved) :
    supply.length = 0 := by
  have := h.halted halt hhalt
  omega

/-- A source that is empty in front of its halt has no halt. -/
theorem Offers.ending_of_rest (h : source.Offers supply ending) (hrest : source.rest = [])
    (hroom : ∀ halt, source.schedule.halt = some halt → source.moved < halt.offset) :
    supply.length = 0 ∧ ending = { kind := .unexpectedEnd } := by
  obtain ⟨beyond, hsplit, -⟩ := h.rest_eq
  have hsupply : supply.length = 0 := by
    rw [hrest] at hsplit
    rw [(List.append_eq_nil_iff.mp hsplit.symm).1, List.length_nil]
  refine ⟨hsupply, ?_⟩
  cases hhalt : source.schedule.halt with
  | none =>
      rw [h.ending_eq, hhalt]
      rfl
  | some halt =>
      have := h.halted halt hhalt
      have := hroom halt hhalt
      omega

/-- A call that is interrupted or brings nothing leaves everything on offer. -/
theorem Offers.request (h : source.Offers supply ending) (want : Nat) :
    Offers { source with requests := source.requests.push want } supply ending :=
  ⟨h.steady, h.rest_eq, h.halted, h.ending_eq⟩

/-- Bytes that arrive in front of the halt are the first that are on offer. The others still are. -/
theorem Offers.arrival (h : source.Offers supply ending) {limit : Option Nat} (want : Nat)
    (hroom : ∀ halt, source.schedule.halt = some halt →
      ∃ count, limit = some count ∧ source.moved + count ≤ halt.offset) :
    ∃ more, supply = source.arrival limit want ++ more ∧
      Offers { source with
        rest := source.rest.drop (source.arrival limit want).length
        moved := source.moved + (source.arrival limit want).length
        requests := source.requests.push want } more ending := by
  obtain ⟨beyond, hsplit, hbeyond⟩ := h.rest_eq
  have hlength : (source.arrival limit want).length ≤ supply.length := by
    cases hhalt : source.schedule.halt with
    | none =>
        rw [hbeyond hhalt, List.append_nil] at hsplit
        rw [← hsplit]
        exact List.length_take_le' _ _
    | some halt =>
        obtain ⟨count, rfl, hcount⟩ := hroom halt hhalt
        have hoffset := h.halted halt hhalt
        have htake : (source.arrival (some count) want).length ≤ min want count :=
          List.length_take_le _ _
        omega
  have hrest := (source.arrival_spec limit want).1
  generalize source.arrival limit want = arrival at hlength hrest
  obtain ⟨more, rfl⟩ : ∃ more, supply = arrival ++ more := by
    refine ⟨supply.drop arrival.length, ?_⟩
    have hfront : arrival = supply.take arrival.length := by
      rw [← List.take_append_of_le_length hlength, ← hsplit, hrest, List.take_left']
      rfl
    conv => lhs; rw [← List.take_append_drop arrival.length supply, ← hfront]
  refine ⟨more, rfl, h.steady, ⟨beyond, ?_, hbeyond⟩, fun halt hhalt => ?_, h.ending_eq⟩
  · rw [hsplit, List.append_assoc, List.drop_left]
  · have hoffset := h.halted halt hhalt
    rw [List.length_append] at hoffset
    exact (Nat.add_assoc _ _ _).trans hoffset

/-- A call that finds nothing on offer ends the read. -/
theorem Offers.exhausted (h : source.Offers supply ending) (hsupply : supply.length = 0)
    {want : Nat} (hwant : want ≠ 0) (got : List UInt8) :
    (Except.error ending : Except Failure (List UInt8)) =
        (if want ≤ supply.length then .ok (got ++ supply.take want) else .error ending) ∧
      Offers { source with requests := source.requests.push want } (supply.drop want) ending ∧
      source.moved = source.moved + min want supply.length := by
  obtain rfl := List.length_eq_zero_iff.mp hsupply
  refine ⟨?_, ?_, by simp⟩
  · rw [if_neg (by simpa using hwant)]
  · rw [List.drop_nil]
    exact h.request want

/-- A read comes through if enough is on offer. Otherwise it uses up what there is and ends as the
source does. -/
theorem gather_offers (want : Nat) (got : Array UInt8) (h : source.Offers supply ending) :
    (source.gather want got).1 =
        (if want ≤ supply.length then .ok (got.toList ++ supply.take want) else .error ending) ∧
      (source.gather want got).2.Offers (supply.drop want) ending ∧
      (source.gather want got).2.moved = source.moved + min want supply.length := by
  fun_induction gather source want got generalizing supply with
  | case1 source got => exact ⟨by simp, h, by simp⟩
  | case2 source want got hwant hresponse ih => exact ih (h.request want)
  | case3 source want got hwant failure hresponse =>
      have hanswer := h.steady.answers source.requests.size source.moved
      rw [hresponse] at hanswer
      cases hanswer with
      | failed hhalt hle hfailure =>
          have hending : ending = failure := by
            rw [h.ending_of_halt hhalt, Source.ending, hfailure]
            rfl
          exact hending ▸ h.exhausted (h.length_eq_zero hhalt hle) hwant got.toList
  | case4 source want got hwant limit hresponse hnone =>
      have hanswer := h.steady.answers source.requests.size source.moved
      rw [hresponse] at hanswer
      cases hanswer with
      | moves hlimit hroom =>
          -- only a source that has run out brings nothing in front of its halt
          have hrest : source.rest = [] := Decidable.byContradiction fun hrest =>
            arrival_ne_nil hlimit hwant hrest (List.length_eq_zero_iff.mp hnone)
          obtain ⟨hsupply, hending⟩ := h.ending_of_rest hrest fun halt hhalt => by
            obtain ⟨count, rfl, hcount⟩ := hroom halt hhalt
            have hpositive : count ≠ 0 := fun hzero => hlimit (congrArg some hzero)
            omega
          exact hending ▸ h.exhausted hsupply hwant got.toList
      | stuck hhalt hle hfailure =>
          have hending : ending = { kind := .unexpectedEnd } := by
            rw [h.ending_of_halt hhalt, Source.ending, hfailure]
            rfl
          exact hending ▸ h.exhausted (h.length_eq_zero hhalt hle) hwant got.toList
  | case5 source want got hwant limit hresponse hsome ih =>
      have hwanted := (source.arrival_spec limit want).2
      have hanswer := h.steady.answers source.requests.size source.moved
      rw [hresponse] at hanswer
      cases hanswer with
      | stuck _ _ _ => exact absurd (by simp [arrival]) hsome
      | moves _ hroom =>
          obtain ⟨more, rfl, hoffers⟩ := h.arrival want hroom
          obtain ⟨hresult, hafter, hmoved⟩ := ih hoffers
          generalize source.arrival limit want = arrival at *
          have htake :
              (arrival ++ more).take want = arrival ++ more.take (want - arrival.length) := by
            rw [List.take_append, List.take_of_length_le hwanted]
          have hdrop : (arrival ++ more).drop want = more.drop (want - arrival.length) := by
            rw [List.drop_append, List.drop_of_length_le hwanted, List.nil_append]
          refine ⟨?_, hdrop ▸ hafter, ?_⟩
          · rw [hresult]
            simp only [List.length_append, ← Nat.sub_le_iff_le_add', htake, ← List.append_assoc,
              Array.toList_appendList]
          · rw [hmoved, List.length_append]
            show source.moved + arrival.length + _ = _
            omega

/-- What a read on a source does that offers this. -/
theorem readExact_offers (want : Nat) (h : source.Offers supply ending) :
    (source.readExact want).1 =
        (if want ≤ supply.length then .ok (supply.take want) else .error ending) ∧
      (source.readExact want).2.Offers (supply.drop want) ending ∧
      (source.readExact want).2.moved = source.moved + min want supply.length :=
  gather_offers want #[] h

end Source

end Xdr.Transport
