import Xdr.Proofs.Delivery.Reading
import Xdr.Proofs.InFull

/-!
# Readings whose requests are satisfied in full

`Reading.serve` is what a reading comes to on a byte string that has all the bytes it asks for: the
sizes of its requests, its result, and the bytes that are left. No transport enters it. The
statement to read first is `serve_of_run`: a run whose calls are satisfied in full makes these
requests and comes to this result.
-/

namespace Xdr

open Transport

/-- The end of a reading: the sizes of the requests so far, and the bytes that are left. -/
structure Served (α : Type) where
  requests : List Nat
  result : Except Error α
  rest : List UInt8

/-- The same end with some requests in front. -/
def Served.behind {α : Type} (requests : List Nat) (served : Served α) : Served α :=
  { served with requests := requests ++ served.requests }

/-- A context that is not poisoned answers with the error of the refusal. -/
theorem Context.refuse_error {τ : Type} {context : Context τ} (husable : context.poisoned = false)
    (refusal : Refusal) : (context.refuse refusal).1 = refusal.error := by
  unfold refuse
  rw [husable, Bool.and_false, if_neg Bool.false_ne_true]
  cases refusal.fault <;> rfl

namespace Reading

variable {κ μ α β : Type} {policy : PaddingPolicy}

/-- What a reading comes to on these bytes, if they are all that it asks for. A request for nothing
is none. -/
def serve (policy : PaddingPolicy) : {κ α : Type} → Reading κ α → List UInt8 → Option (Served α)
  | _, _, done value, wire => some ⟨[], .ok value, wire⟩
  | _, _, refuse refusal _, wire => some ⟨[], .error refusal.error, wire⟩
  | _, _, request _ count _ _ next, wire =>
      if count ≤ wire.length then
        (serve policy (next (wire.take count)) (wire.drop count)).map
          (.behind (if count = 0 then [] else [count]))
      else none
  | _, _, note _ next, wire => serve policy next wire
  | _, _, mark _ next, wire => serve policy next wire
  | _, _, checkPadding _ padding _ next, wire =>
      if policy.accepts padding then serve policy next wire
      else some ⟨[], .error .invalidPadding, wire⟩
  | _, _, later next, wire => serve policy (next ()) wire
  | _, _, andThen first _ next, wire =>
      match serve policy first wire with
      | none => none
      | some ⟨requests, .ok value, rest⟩ =>
          (serve policy (next value) rest).map (.behind requests)
      | some ⟨requests, .error error, rest⟩ => some ⟨requests, .error error, rest⟩

/-! ### What each kind of reading comes to -/

@[simp] theorem serve_done (value : α) (wire : List UInt8) :
    serve policy (done value : Reading κ α) wire = some ⟨[], .ok value, wire⟩ := rfl

theorem serve_refuse (refusal : Refusal) (kept : κ) (wire : List UInt8) :
    serve policy (refuse refusal kept : Reading κ α) wire =
      some ⟨[], .error refusal.error, wire⟩ := rfl

theorem serve_request (operation : Operation) (count : Nat) (untouched kept : κ)
    (next : List UInt8 → Reading κ α) (wire : List UInt8) :
    serve policy (request operation count untouched kept next) wire =
      if count ≤ wire.length then
        (serve policy (next (wire.take count)) (wire.drop count)).map
          (.behind (if count = 0 then [] else [count]))
      else none := rfl

@[simp] theorem serve_note (event : Event) (next : Reading κ α) (wire : List UInt8) :
    serve policy (note event next) wire = serve policy next wire := rfl

theorem serve_checkPadding (operation : Operation) (padding : List UInt8) (kept : κ)
    (next : Reading κ α) (wire : List UInt8) :
    serve policy (checkPadding operation padding kept next) wire =
      if policy.accepts padding then serve policy next wire
      else some ⟨[], .error .invalidPadding, wire⟩ := rfl

theorem serve_andThen (first : Reading κ α) (keep : κ → μ) (next : α → Reading μ β)
    (wire : List UInt8) :
    serve policy (first.andThen keep next) wire =
      match serve policy first wire with
      | none => none
      | some ⟨requests, .ok value, rest⟩ =>
          (serve policy (next value) rest).map (.behind requests)
      | some ⟨requests, .error error, rest⟩ => some ⟨requests, .error error, rest⟩ := by
  rw [serve]

theorem within_run (reading : Reading κ α) (decoder : Decoder) :
    decoder.transport.account.Within (reading.run decoder).2.transport.account := by
  induction reading generalizing decoder with
  | done value => exact Account.within_refl _
  | refuse refusal kept =>
      rw [run_refuse]
      dsimp only
      rw [decoder.refuse_transport]
      exact Account.within_refl _
  | request operation count untouched kept next ih =>
      have hread := decoder.transport.within_readExact count
      rw [run_request, Context.useTransport_eq]
      split
      · exact Account.within_refl _
      · rcases hanswer : decoder.transport.readExact count with ⟨failure | bytes, source⟩ <;>
          rw [hanswer] at hread
        · exact hread
        · exact hread.trans (ih bytes { decoder with transport := source })
  | note event next ih => exact ih (decoder.record event)
  | mark part next ih => exact ih decoder
  | checkPadding operation padding kept next ih =>
      rw [run_checkPadding]
      split
      · exact ih decoder
      · exact Account.within_refl _
  | later next ih => exact ih () decoder
  | andThen first keep next ihFirst ihNext =>
      have hfirst := ihFirst decoder
      rw [run_andThen]
      rcases hrun : first.run decoder with ⟨stopped | value, between⟩ <;> rw [hrun] at hfirst
      · exact hfirst
      · exact hfirst.trans (ihNext value between)

/-- Where all calls are satisfied in full, a run makes the requests of the reading and comes to its
result. -/
theorem serve_of_run {reading : Reading κ α} {decoder after : Decoder}
    {result : Except (Stopped κ) α} (husable : decoder.poisoned = false)
    (hrun : reading.run decoder = (result, after))
    (hfull : decoder.transport.account.InFull after.transport.account) :
    ∃ requests,
      reading.serve decoder.config.padding decoder.transport.rest =
        some ⟨requests, result.mapError Stopped.error, after.transport.rest⟩ ∧
      after.transport.requests.toList = decoder.transport.requests.toList ++ requests ∧
      (result.isOk → after.poisoned = false) := by
  induction reading generalizing decoder after with
  | done value =>
      cases hrun
      exact ⟨[], rfl, (List.append_nil _).symm, fun _ => husable⟩
  | refuse refusal kept =>
      rw [run_refuse] at hrun
      obtain ⟨rfl, rfl⟩ := Prod.mk.inj hrun
      refine ⟨[], ?_, by rw [decoder.refuse_transport, List.append_nil], fun h => by cases h⟩
      rw [serve_refuse, decoder.refuse_transport, ← Context.refuse_error husable refusal]
      rfl
  | request operation count untouched kept next ih =>
      rw [run_request, husable, if_neg Bool.false_ne_true, Context.useTransport_eq] at hrun
      have hwithin := decoder.transport.within_readExact count
      rcases hread : decoder.transport.readExact count with ⟨answer, source⟩
      rw [hread] at hrun hwithin
      cases answer with
      | error failure =>
          cases hrun
          obtain ⟨_, hnone, -⟩ := Source.readExact_in_full hread hfull
          cases hnone
      | ok bytes =>
          have hnext : (next bytes).run { decoder with transport := source } = (result, after) :=
            hrun
          have hbehind := (next bytes).within_run { decoder with transport := source }
          rw [hnext] at hbehind
          obtain ⟨hfirst, hrest⟩ := hfull.split hwithin hbehind
          obtain ⟨_, hbytes, hsplit, hlength, hrequests⟩ := Source.readExact_in_full hread hfirst
          cases hbytes
          have hbetween : Context.poisoned { decoder with transport := source } = false := husable
          obtain ⟨requests, hserve, hlater, hafter⟩ := ih bytes hbetween hnext hrest
          refine ⟨(if count = 0 then [] else [count]) ++ requests, ?_,
            by rw [hlater, hrequests, List.append_assoc], hafter⟩
          subst hlength
          rw [serve_request, hsplit, if_pos (by simp), List.take_left, List.drop_left, hserve]
          rfl
  | note event next ih =>
      rw [run_note] at hrun
      have hnoted : (decoder.record event).poisoned = false := husable
      have hserved := ih hnoted hrun hfull
      exact hserved
  | mark part next ih =>
      rw [run_mark] at hrun
      exact ih husable hrun hfull
  | checkPadding operation padding kept next ih =>
      rw [run_checkPadding] at hrun
      rw [serve_checkPadding]
      split at hrun
      · next haccepts =>
          rw [if_pos haccepts]
          exact ih husable hrun hfull
      · next hrefused =>
          rw [if_neg hrefused]
          cases hrun
          exact ⟨[], rfl, (List.append_nil _).symm, fun h => by cases h⟩
  | later next ih =>
      rw [run_later] at hrun
      exact ih () husable hrun hfull
  | andThen first keep next ihFirst ihNext =>
      have hwithin := first.within_run decoder
      rw [run_andThen] at hrun
      rcases hfirst : first.run decoder with ⟨stopped | value, between⟩ <;>
        rw [hfirst] at hrun hwithin
      · cases hrun
        obtain ⟨requests, hserve, hrequests, -⟩ := ihFirst husable hfirst hfull
        refine ⟨requests, ?_, hrequests, fun h => by cases h⟩
        rw [serve_andThen, hserve]
        rfl
      · have hnext := (next value).within_run between
        simp only at hrun
        rw [hrun] at hnext
        obtain ⟨hfront, hback⟩ := hfull.split hwithin hnext
        obtain ⟨requests, hserve, hrequests, hbetween⟩ := ihFirst husable hfirst hfront
        obtain ⟨more, hmore, hlater, hafter⟩ := ihNext value (hbetween rfl) hrun hback
        have hconfig : between.config = decoder.config := by
          have hsame := run_config first decoder
          rwa [hfirst] at hsame
        refine ⟨requests ++ more, ?_, by rw [hlater, hrequests, List.append_assoc], hafter⟩
        rw [hconfig] at hmore
        rw [serve_andThen, hserve]
        show ((next value).serve _ _).map _ = _
        rw [hmore]
        rfl

end Reading

end Xdr
