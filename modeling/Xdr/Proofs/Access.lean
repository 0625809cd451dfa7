import Xdr.Proofs.Delivery.Reading
import Xdr.Proofs.Runs

/-!
# Access to announced items

Who reads a sequence, a map or a tuple is given an `Access`: a decoder, and the number of items
that are left to hand out. A `Visitor` makes requests on it one by one and may let each request
depend on the answers so far, go on after an error, or keep asking after the end. What is asked
for is a `Seed`, which may open an access of its own. The statement to read first is
`Visitor.handsOut`: whatever the visitor does, it is handed out the announced number of items,
each from where the last one ended.
-/

namespace Xdr

namespace Decoder

/-- The bytes that were read from one decoder to a later one. -/
def taken (before after : Decoder) : List UInt8 :=
  before.transport.rest.take (after.transport.moved - before.transport.moved)

variable {first second third : Decoder}

/-- A decoder that has read given bytes has taken just these. -/
theorem taken_eq {given : List UInt8}
    (hrest : first.transport.rest = given ++ second.transport.rest)
    (hmoved : second.transport.moved = first.transport.moved + given.length) :
    first.taken second = given := by
  rw [taken, hmoved, Nat.add_sub_cancel_left, hrest, List.take_left]

@[simp] theorem taken_self (decoder : Decoder) : decoder.taken decoder = [] := by
  rw [taken, Nat.sub_self, List.take_zero]

/-- What was taken lies in front of what is left. -/
theorem Advances.taken_append (h : first.Advances second) :
    first.taken second ++ second.transport.rest = first.transport.rest := by
  obtain ⟨given, hrest, hmoved⟩ := h
  rw [taken_eq hrest hmoved, hrest]

/-- What is taken in two parts is what is taken in each. -/
theorem Advances.taken_trans (h : first.Advances second) (hnext : second.Advances third) :
    first.taken third = first.taken second ++ second.taken third := by
  obtain ⟨given, hrest, hmoved⟩ := h
  obtain ⟨more, hmore, hlater⟩ := hnext
  rw [taken_eq hrest hmoved, taken_eq hmore hlater]
  refine taken_eq ?_ ?_
  · rw [hrest, hmore, List.append_assoc]
  · rw [hlater, hmoved, List.length_append, Nat.add_assoc]

end Decoder

/-! ### Requests -/

/-- How an item is decoded: the datum or the error that it comes to on each decoder, and the decoder
that is left, which has read on at most. -/
structure Seed where
  run : Decoder → Except Error Datum × Decoder
  advances : ∀ decoder : Decoder, decoder.Advances (run decoder).2

/-- The bytes that a seed takes from a decoder. -/
def Seed.bytes (seed : Seed) (decoder : Decoder) : List UInt8 :=
  decoder.taken (seed.run decoder).2

/-- A decoder with the number of items that it has left to hand out. -/
structure Access where
  decoder : Decoder
  remaining : Nat

namespace Access

/-- Ask for an element or a key. It counts as handed out before it is decoded. -/
def item (access : Access) (seed : Seed) : Except Error (Option Datum) × Access :=
  match access.remaining with
  | 0 => (.ok none, access)
  | remaining + 1 =>
      let (result, decoder) := seed.run access.decoder
      (result.map some, { decoder, remaining })

/-- Ask for the value that belongs to the last key. -/
def value (access : Access) (seed : Seed) : Except Error Datum × Access :=
  let (result, decoder) := seed.run access.decoder
  (result, { access with decoder })

end Access

/-- Who makes requests on an access, and what becomes of their answers. -/
inductive Visitor where
  /-- Nothing more is asked for. -/
  | finish (result : Except Error Datum)
  /-- Ask for the number of items that are left. -/
  | hint (next : Nat → Visitor)
  /-- Ask for an element or a key. -/
  | item (seed : Seed) (next : Except Error (Option Datum) → Visitor)
  /-- Ask for the value that belongs to the last key. -/
  | value (seed : Seed) (next : Except Error Datum → Visitor)

/-- A request and the answer to it. -/
inductive Exchange where
  | hint (answer : Nat)
  | item (seed : Seed) (answer : Except Error (Option Datum))
  | value (seed : Seed) (answer : Except Error Datum)

namespace Visitor

/-- Let a visitor make its requests. -/
def run : Visitor → Access → Except Error Datum × Decoder
  | finish result, access => (result, access.decoder)
  | hint next, access => (next access.remaining).run access
  | item seed next, access =>
      let (answer, after) := access.item seed
      (next answer).run after
  | value seed next, access =>
      let (answer, after) := access.value seed
      (next answer).run after

/-- The requests that a visitor makes, with the decoder after each. -/
def trace : Visitor → Access → List (Exchange × Decoder)
  | finish _, _ => []
  | hint next, access =>
      (.hint access.remaining, access.decoder) :: (next access.remaining).trace access
  | item seed next, access =>
      let (answer, after) := access.item seed
      (.item seed answer, after.decoder) :: (next answer).trace after
  | value seed next, access =>
      let (answer, after) := access.value seed
      (.value seed answer, after.decoder) :: (next answer).trace after

end Visitor

/-! ### What requests come to -/

namespace Exchange

/-- Whether an element or a key is asked for. -/
def counts : Exchange → Bool
  | item _ _ => true
  | _ => false

/-- What the exchange decoded, if it was not answered with the end. -/
def delivered : Exchange → Option Seed
  | hint _ => none
  | item _ (.ok none) => none
  | item seed _ => some seed
  | value seed _ => some seed

/-- How a request is answered where `count` items are announced and `asked` of them were asked for
before. Items that are left are decoded, also if that fails, and behind the last item there is
nothing to decode. -/
def Fits (count asked : Nat) (before after : Decoder) : Exchange → Prop
  | hint answer => answer = count - asked ∧ after = before
  | item seed answer =>
      if asked < count then
        answer = (seed.run before).1.map some ∧ after = (seed.run before).2
      else answer = .ok none ∧ after = before
  | value seed answer => answer = (seed.run before).1 ∧ after = (seed.run before).2

end Exchange

/-- The number of elements and keys that were asked for. -/
def asked (exchanges : List (Exchange × Decoder)) : Nat :=
  exchanges.countP fun exchange => exchange.1.counts

/-- The decoder after the last exchange. -/
def reached (start : Decoder) (exchanges : List (Exchange × Decoder)) : Decoder :=
  (exchanges.getLast?.map Prod.snd).getD start

/-- The bytes of what was decoded, one after the other. -/
def deliveries : (before : Decoder) → List (Exchange × Decoder) → List UInt8
  | _, [] => []
  | before, (exchange, after) :: exchanges =>
      exchange.delivered.elim [] (Seed.bytes · before) ++ deliveries after exchanges

/-- The requests of a visitor on an access to `count` items are answered as they have to be,
whatever the visitor does. Each one continues where the one before it ended, and up to each one
the bytes of what was decoded are all that was read. -/
structure Visitor.HandsOut (visitor : Visitor) (count : Nat) (start : Decoder) : Prop where
  fits : ∀ (i : Nat) (h : i < (visitor.trace ⟨start, count⟩).length),
    let earlier := (visitor.trace ⟨start, count⟩).take i
    let exchange := (visitor.trace ⟨start, count⟩)[i]
    exchange.1.Fits count (asked earlier) (reached start earlier) exchange.2
  bytes : ∀ i : Nat,
    let earlier := (visitor.trace ⟨start, count⟩).take i
    start.transport.rest =
      deliveries start earlier ++ (reached start earlier).transport.rest
  run : (visitor.run ⟨start, count⟩).2 = reached start (visitor.trace ⟨start, count⟩)

theorem reached_cons (start : Decoder) (exchange : Exchange × Decoder)
    (exchanges : List (Exchange × Decoder)) :
    reached start (exchange :: exchanges) = reached exchange.2 exchanges :=
  last_cons exchange exchanges start

theorem asked_cons (exchange : Exchange × Decoder) (exchanges : List (Exchange × Decoder)) :
    asked (exchange :: exchanges) = exchange.1.counts.toNat + asked exchanges := by
  rw [asked, List.countP_cons, Nat.add_comm]
  cases exchange.1.counts <;> rfl

namespace Access

/-- A request for an item leaves one item less, if there was one. -/
theorem remaining_item (access : Access) (seed : Seed) :
    (access.item seed).2.remaining = access.remaining - 1 := by
  unfold item
  split
  · next h => exact h.trans (by rw [h])
  · next h => rw [h]; rfl

/-- A request for an item takes the bytes of what is decoded. -/
theorem taken_item (access : Access) (seed : Seed) :
    access.decoder.Advances (access.item seed).2.decoder ∧
      access.decoder.taken (access.item seed).2.decoder =
        (Exchange.item seed (access.item seed).1).delivered.elim []
          (Seed.bytes · access.decoder) := by
  unfold item
  split
  · exact ⟨.of_transport_eq rfl, Decoder.taken_self _⟩
  · refine ⟨seed.advances access.decoder, ?_⟩
    dsimp only
    rcases hrun : seed.run access.decoder with ⟨error | datum, after⟩ <;>
      simp [Except.map, Exchange.delivered, Seed.bytes, hrun]

/-- So does a request for a value. -/
theorem taken_value (access : Access) (seed : Seed) :
    access.decoder.Advances (access.value seed).2.decoder ∧
      access.decoder.taken (access.value seed).2.decoder = seed.bytes access.decoder :=
  ⟨seed.advances access.decoder, rfl⟩

end Access

namespace Visitor

/-- After any number of requests, what follows is what some visitor asks for of the access that is
left. -/
theorem drop_trace (visitor : Visitor) (access : Access) (i : Nat) :
    ∃ rest : Visitor, (visitor.trace access).drop i =
      rest.trace ⟨reached access.decoder ((visitor.trace access).take i),
        access.remaining - asked ((visitor.trace access).take i)⟩ := by
  induction i generalizing visitor access with
  | zero => exact ⟨visitor, rfl⟩
  | succ i ih =>
      cases visitor with
      | finish result => exact ⟨finish result, rfl⟩
      | hint next =>
          obtain ⟨rest, hrest⟩ := ih (next access.remaining) access
          refine ⟨rest, ?_⟩
          rw [trace, List.take_succ_cons, List.drop_succ_cons, reached_cons, asked_cons, hrest]
          simp only [Exchange.counts, Bool.toNat_false, Nat.zero_add]
      | item seed next =>
          obtain ⟨rest, hrest⟩ := ih (next (access.item seed).1) (access.item seed).2
          refine ⟨rest, ?_⟩
          rw [trace, List.take_succ_cons, List.drop_succ_cons, reached_cons, asked_cons, hrest,
            access.remaining_item, Nat.sub_sub]
          rfl
      | value seed next =>
          obtain ⟨rest, hrest⟩ := ih (next (access.value seed).1) (access.value seed).2
          refine ⟨rest, ?_⟩
          rw [trace, List.take_succ_cons, List.drop_succ_cons, reached_cons, asked_cons, hrest]
          simp only [Exchange.counts, Bool.toNat_false, Nat.zero_add]
          rfl

/-- The first request is answered from the decoder at hand. -/
theorem fits_head {visitor : Visitor} {decoder : Decoder} {count asked : Nat}
    {exchange : Exchange × Decoder} {exchanges : List (Exchange × Decoder)}
    (h : exchange :: exchanges = visitor.trace ⟨decoder, count - asked⟩) :
    exchange.1.Fits count asked decoder exchange.2 := by
  cases visitor with
  | finish result => cases h
  | hint next =>
      obtain ⟨rfl, -⟩ := List.cons.inj h
      exact ⟨rfl, rfl⟩
  | item seed next =>
      obtain ⟨rfl, -⟩ := List.cons.inj h
      show if asked < count then _ else _
      split
      · next hleft =>
          obtain ⟨remaining, hremaining⟩ : ∃ remaining, count - asked = remaining + 1 :=
            ⟨count - asked - 1, by omega⟩
          rw [hremaining]
          exact ⟨rfl, rfl⟩
      · next hnone =>
          rw [Nat.sub_eq_zero_of_le (Nat.le_of_not_lt hnone)]
          exact ⟨rfl, rfl⟩
  | value seed next =>
      obtain ⟨rfl, -⟩ := List.cons.inj h
      exact ⟨rfl, rfl⟩

/-- What was decoded up to a request is all that was read. -/
theorem taken_reached (visitor : Visitor) (access : Access) (i : Nat) :
    access.decoder.Advances (reached access.decoder ((visitor.trace access).take i)) ∧
      access.decoder.taken (reached access.decoder ((visitor.trace access).take i)) =
        deliveries access.decoder ((visitor.trace access).take i) := by
  induction i generalizing visitor access with
  | zero => exact ⟨.of_transport_eq rfl, Decoder.taken_self _⟩
  | succ i ih =>
      cases visitor with
      | finish result => exact ⟨.of_transport_eq rfl, Decoder.taken_self _⟩
      | hint next =>
          obtain ⟨hlater, htaken⟩ := ih (next access.remaining) access
          rw [trace, List.take_succ_cons, reached_cons]
          exact ⟨hlater, htaken⟩
      | item seed next =>
          obtain ⟨hfirst, hitem⟩ := access.taken_item seed
          obtain ⟨hlater, htaken⟩ := ih (next (access.item seed).1) (access.item seed).2
          rw [trace, List.take_succ_cons, reached_cons]
          refine ⟨hfirst.trans hlater, ?_⟩
          rw [hfirst.taken_trans hlater, htaken, hitem]
          rfl
      | value seed next =>
          obtain ⟨hfirst, hvalue⟩ := access.taken_value seed
          obtain ⟨hlater, htaken⟩ := ih (next (access.value seed).1) (access.value seed).2
          rw [trace, List.take_succ_cons, reached_cons]
          refine ⟨hfirst.trans hlater, ?_⟩
          rw [hfirst.taken_trans hlater, htaken, hvalue]
          rfl

/-- The decoder that a visitor leaves is the one after its last request. -/
theorem run_eq_reached (visitor : Visitor) (access : Access) :
    (visitor.run access).2 = reached access.decoder (visitor.trace access) := by
  induction visitor generalizing access with
  | finish result => rfl
  | hint next ih =>
      rw [trace, reached_cons]
      exact ih access.remaining access
  | item seed next ih =>
      rw [trace, reached_cons]
      exact ih (access.item seed).1 (access.item seed).2
  | value seed next ih =>
      rw [trace, reached_cons]
      exact ih (access.value seed).1 (access.value seed).2

/-- What a visitor reads in all is what was decoded for it. -/
theorem taken_run (visitor : Visitor) (access : Access) :
    access.decoder.Advances (visitor.run access).2 ∧
      access.decoder.taken (visitor.run access).2 =
        deliveries access.decoder (visitor.trace access) := by
  have hall := visitor.taken_reached access (visitor.trace access).length
  rwa [List.take_length, ← run_eq_reached] at hall

/-- Every visitor is handed out the announced number of items. -/
theorem handsOut (visitor : Visitor) (count : Nat) (start : Decoder) :
    visitor.HandsOut count start where
  fits i h := by
    obtain ⟨rest, hrest⟩ := visitor.drop_trace ⟨start, count⟩ i
    rw [List.drop_eq_getElem_cons h] at hrest
    exact fits_head hrest
  bytes i := by
    obtain ⟨hadvances, htaken⟩ := visitor.taken_reached ⟨start, count⟩ i
    have happend := hadvances.taken_append
    rw [htaken] at happend
    exact happend.symm
  run := visitor.run_eq_reached ⟨start, count⟩

end Visitor

end Xdr
