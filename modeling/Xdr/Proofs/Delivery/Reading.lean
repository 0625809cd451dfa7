import Xdr.Proofs.Acceptance
import Xdr.Proofs.Delivery
import Xdr.Proofs.Poison

/-!
# Reading from any source

What a reading delivers depends on what the source offers, not on how it comes. Two decoders are
side by side (`Decoder.Beside`) if one source offers what the other does, or a part of it. Then a
reading ends alike on both, or it asks for more than the first source offers
(`Reading.run_beside`).
-/

namespace Xdr

open Transport

namespace Decoder

/-- The second decoder has read on where the first was. -/
def Advances (before after : Decoder) : Prop :=
  ∃ given, before.transport.rest = given ++ after.transport.rest ∧
    after.transport.moved = before.transport.moved + given.length

theorem Advances.of_transport_eq {before after : Decoder}
    (h : after.transport = before.transport) : before.Advances after :=
  ⟨[], by rw [h, List.nil_append], by rw [h, List.length_nil, Nat.add_zero]⟩

theorem Advances.trans {first second third : Decoder} (h : first.Advances second)
    (hnext : second.Advances third) : first.Advances third := by
  obtain ⟨given, hrest, hmoved⟩ := h
  obtain ⟨more, hmore, hlater⟩ := hnext
  refine ⟨given ++ more, ?_, ?_⟩
  · rw [hrest, hmore, List.append_assoc]
  · rw [hlater, hmoved, List.length_append, Nat.add_assoc]

theorem Advances.moved_le {before after : Decoder} (h : before.Advances after) :
    before.transport.moved ≤ after.transport.moved := by
  obtain ⟨given, -, hmoved⟩ := h
  omega

/-- No byte gets lost on the way. -/
theorem Advances.moved_add_length {before after : Decoder} (h : before.Advances after) :
    after.transport.moved + after.transport.rest.length =
      before.transport.moved + before.transport.rest.length := by
  obtain ⟨given, hrest, hmoved⟩ := h
  rw [hrest, hmoved, List.length_append, Nat.add_assoc]

/-- Two decoders at the same position that are as usable as one another. The source of the first
offers what lies in front of `limit`, and that of the second offers `more` behind it. -/
structure Beside (more : List UInt8) (limit : Nat) (ending ending' : Failure)
    (first second : Decoder) : Prop where
  config : second.config = first.config
  poisoned : second.poisoned = first.poisoned
  moved : second.transport.moved = first.transport.moved
  offers : ∃ supply, first.transport.Offers supply ending ∧
    second.transport.Offers (supply ++ more) ending' ∧
    first.transport.moved + supply.length = limit

variable {more : List UInt8} {limit : Nat} {ending ending' : Failure} {first second : Decoder}

theorem Beside.moved_le (h : Beside more limit ending ending' first second) :
    second.transport.moved ≤ limit := by
  obtain ⟨supply, -, -, hlimit⟩ := h.offers
  have := h.moved
  omega

/-- The decoder has failed at the end of what its source offers, and cannot go on. -/
structure Spent (limit : Nat) (decoder : Decoder) : Prop where
  poisoned : decoder.poisoned = true
  moved : decoder.transport.moved = limit

/-- How a reading ends on two decoders that were side by side: in the same way, or with the first
source at its end. -/
inductive Ends (more : List UInt8) (limit : Nat) (ending ending' : Failure) {κ α : Type} :
    Except (Stopped κ) α × Decoder → Except (Stopped κ) α × Decoder → Prop where
  | same (result) {first second} : Beside more limit ending ending' first second →
      Ends more limit ending ending' (result, first) (result, second)
  /-- Both sources end at the same place. -/
  | short (kept) {first second} : more = [] → Beside more limit ending ending' first second →
      Ends more limit ending ending' (.error ⟨.ofRead ending, kept⟩, first)
        (.error ⟨.ofRead ending', kept⟩, second)
  /-- The second source goes on. -/
  | beyond (kept result) {first second} : more ≠ [] → Spent limit first →
      limit < second.transport.moved →
      Ends more limit ending ending' (.error ⟨.ofRead ending, kept⟩, first) (result, second)

end Decoder

namespace Reading

variable {κ μ α β : Type}

theorem advances_run (reading : Reading κ α) (decoder : Decoder) :
    decoder.Advances (reading.run decoder).2 := by
  induction reading generalizing decoder with
  | done value => exact .of_transport_eq rfl
  | refuse refusal kept => exact .of_transport_eq (decoder.refuse_transport refusal)
  | request operation count untouched kept next ih =>
      obtain ⟨given, hrest, hmoved, -, -⟩ := decoder.transport.readExact_spec count
      rw [run_request, Context.useTransport_eq]
      split
      · exact .of_transport_eq rfl
      · generalize decoder.transport.readExact count = answer at hrest hmoved ⊢
        obtain ⟨_ | bytes, source⟩ := answer
        · exact ⟨given, hrest, hmoved⟩
        · refine Decoder.Advances.trans ⟨given, hrest, hmoved⟩ (ih bytes _)
  | note event next ih => exact ih (decoder.record event)
  | mark part next ih => exact ih decoder
  | checkPadding operation padding kept next ih =>
      rw [run_checkPadding]
      split
      · exact ih decoder
      · exact .of_transport_eq rfl
  | later next ih => exact ih () decoder
  | andThen first keep next ihFirst ihNext =>
      have hfirst := ihFirst decoder
      rw [run_andThen]
      generalize first.run decoder = answer at hfirst ⊢
      obtain ⟨_ | value, between⟩ := answer
      · exact hfirst
      · exact hfirst.trans (ihNext value between)

/-- A poisoned decoder answers without looking at its source. -/
theorem run_eq_of_poisoned (reading : Reading κ α) {first second : Decoder}
    (hfirst : first.poisoned = true) (hsecond : second.poisoned = true)
    (hconfig : second.config = first.config) : (reading.run second).1 = (reading.run first).1 := by
  induction reading generalizing first second with
  | done value => rfl
  | refuse refusal kept =>
      rw [run_refuse, run_refuse, Context.refuse, Context.refuse, hfirst, hsecond]
      split
      · rfl
      · cases refusal.fault <;> rfl
  | request operation count untouched kept next ih =>
      rw [run_request, run_request, if_pos hfirst, if_pos hsecond]
  | note event next ih => exact ih hfirst hsecond hconfig
  | mark part next ih => exact ih hfirst hsecond hconfig
  | checkPadding operation padding kept next ih =>
      rw [run_checkPadding, run_checkPadding, hconfig]
      split
      · exact ih hfirst hsecond hconfig
      · rfl
  | later next ih => exact ih () hfirst hsecond hconfig
  | andThen head keep next ihHead ihNext =>
      have hresult := ihHead hfirst hsecond hconfig
      have hfirstAfter := (frozen_run ⟨hfirst, rfl⟩ head).poisoned
      have hsecondAfter := (frozen_run ⟨hsecond, rfl⟩ head).poisoned
      have hconfigAfter : (head.run second).2.config = (head.run first).2.config := by
        rw [run_config, run_config, hconfig]
      rw [run_andThen, run_andThen]
      generalize head.run first = answer at hresult hfirstAfter hconfigAfter ⊢
      generalize head.run second = answer' at hresult hsecondAfter hconfigAfter ⊢
      obtain ⟨result, between⟩ := answer
      obtain ⟨_, between'⟩ := answer'
      cases hresult
      cases result with
      | error stopped => rfl
      | ok value => exact ihNext value hfirstAfter hsecondAfter hconfigAfter

variable {more : List UInt8} {limit : Nat} {ending ending' : Failure}

/-- A request comes through on both decoders, or the first source is at its end. -/
theorem request_beside {operation : Operation} {count : Nat} {untouched kept : κ}
    {next : List UInt8 → Reading κ α} {first second : Decoder}
    (h : Decoder.Beside more limit ending ending' first second)
    (hnext : ∀ (bytes : List UInt8) {first second : Decoder},
      Decoder.Beside more limit ending ending' first second →
      Decoder.Ends more limit ending ending' ((next bytes).run first) ((next bytes).run second)) :
    Decoder.Ends more limit ending ending' ((request operation count untouched kept next).run first)
      ((request operation count untouched kept next).run second) := by
  obtain ⟨hconfig, hpoisoned, hmoved, supply, hfirst, hsecond, hlimit⟩ := h
  rw [run_request, run_request, hpoisoned]
  by_cases hstopped : first.poisoned = true
  · rw [if_pos hstopped, if_pos hstopped]
    exact .same _ ⟨hconfig, hpoisoned, hmoved, supply, hfirst, hsecond, hlimit⟩
  rw [if_neg hstopped, if_neg hstopped, Context.useTransport_eq, Context.useTransport_eq]
  obtain ⟨hread, hafter, hposition⟩ := Source.readExact_offers count hfirst
  obtain ⟨hread', hafter', hposition'⟩ := Source.readExact_offers count hsecond
  rw [hread]
  by_cases hcount : count ≤ supply.length
  · have hlonger : count ≤ (supply ++ more).length := by
      rw [List.length_append]
      omega
    rw [hread', if_pos hcount, if_pos hlonger, List.take_append_of_le_length hcount]
    refine hnext _ ⟨hconfig, hpoisoned, ?_, supply.drop count, hafter, ?_, ?_⟩
    · rw [hposition, hposition', hmoved, Nat.min_eq_left hcount, Nat.min_eq_left hlonger]
    · rwa [List.drop_append_of_le_length hcount] at hafter'
    · rw [hposition, List.length_drop]
      omega
  rw [if_neg hcount]
  by_cases hmore : more = []
  · subst hmore
    rw [List.append_nil] at hread' hafter' hposition'
    have hsame : (second.transport.readExact count).2.moved =
        (first.transport.readExact count).2.moved := by rw [hposition, hposition', hmoved]
    have hend : (first.transport.readExact count).2.moved + (supply.drop count).length = limit := by
      rw [hposition, List.length_drop]
      omega
    rw [hread', if_neg hcount]
    refine .short _ rfl ⟨hconfig, rfl, hsame, supply.drop count, hafter, ?_, hend⟩
    rwa [List.append_nil]
  · -- whatever becomes of the request, the second source has given some of what lies behind
    have hbehind : limit < (second.transport.readExact count).2.moved := by
      have hlength := List.length_pos_iff.mpr hmore
      rw [hposition', List.length_append]
      omega
    have hend : (first.transport.readExact count).2.moved = limit := by
      rw [hposition]
      omega
    cases hresult : (second.transport.readExact count).1 with
    | error failure => exact .beyond _ _ hmore ⟨rfl, hend⟩ hbehind
    | ok bytes =>
        let after := { second with transport := (second.transport.readExact count).2 }
        exact .beyond _ _ hmore ⟨rfl, hend⟩
          (hbehind.trans_le ((next bytes).advances_run after).moved_le)

/-- A refusal does not look at the source. -/
theorem refuse_beside {first second : Decoder}
    (h : Decoder.Beside more limit ending ending' first second) (refusal : Refusal) :
    (second.refuse refusal).1 = (first.refuse refusal).1 ∧
      Decoder.Beside more limit ending ending' (first.refuse refusal).2
        (second.refuse refusal).2 := by
  obtain ⟨hconfig, hpoisoned, hmoved, hoffers⟩ := h
  unfold Context.refuse
  rw [hpoisoned]
  split
  · exact ⟨rfl, hconfig, hpoisoned, hmoved, hoffers⟩
  · split
    · exact ⟨rfl, hconfig, hpoisoned, hmoved, hoffers⟩
    · exact ⟨rfl, hconfig, rfl, hmoved, hoffers⟩

/-- A reading ends alike on two decoders that are side by side, or it asks for more than the first
source offers. -/
theorem run_beside (reading : Reading κ α) {first second : Decoder}
    (h : Decoder.Beside more limit ending ending' first second) :
    Decoder.Ends more limit ending ending' (reading.run first) (reading.run second) := by
  induction reading generalizing first second with
  | done value => exact .same _ h
  | refuse refusal kept =>
      obtain ⟨herror, hafter⟩ := refuse_beside h refusal
      rw [run_refuse, run_refuse, herror]
      exact .same _ hafter
  | request operation count untouched kept next ih =>
      exact request_beside h fun bytes _ _ => ih bytes
  | note event next ih => exact ih ⟨h.config, h.poisoned, h.moved, h.offers⟩
  | mark part next ih => exact ih h
  | checkPadding operation padding kept next ih =>
      rw [run_checkPadding, run_checkPadding, h.config]
      split
      · exact ih h
      · exact .same _ ⟨h.config, rfl, h.moved, h.offers⟩
  | later next ih => exact ih () h
  | andThen head keep next ihHead ihNext =>
      have hhead := ihHead h
      rw [run_andThen, run_andThen]
      generalize head.run first = answer at hhead ⊢
      generalize head.run second = answer' at hhead ⊢
      cases hhead with
      | same result hbetween =>
          cases result with
          | error stopped => exact .same _ hbetween
          | ok value => exact ihNext value hbetween
      | short kept hmore hbetween => exact .short (keep kept) hmore hbetween
      | @beyond kept result between between' hmore hspent hbehind =>
          cases result with
          | error stopped => exact .beyond (keep kept) _ hmore hspent hbehind
          | ok value =>
              have hadvances := (next value).advances_run between'
              exact .beyond (keep kept) _ hmore hspent (hbehind.trans_le hadvances.moved_le)

end Reading

end Xdr
