import Mathlib.Algebra.GroupWithZero.Nat
import Xdr.Proofs.Writing

/-!
# Calls that are satisfied in full

A call on a transport asks for some bytes to be moved, and no call moves more than it was asked to.
So each call between two points of a transport is satisfied in full if as many bytes have moved as
were asked for (`Account.InFull`). A write that is satisfied in full is one call for the whole of
its data (`Sink.writeAll_in_full`), and a read one call for the whole of its length
(`Source.readExact_in_full`).
-/

namespace Xdr

namespace Transport

/-- How many bytes the calls on a transport were to move, and how many they moved. -/
structure Account where
  asked : Nat
  moved : Nat
  deriving DecidableEq

namespace Account

/-- The account after a call that was to move so many bytes and moved so many. -/
def add (account : Account) (asked moved : Nat) : Account :=
  ⟨account.asked + asked, account.moved + moved⟩

/-- The calls in between moved no more than they were asked to. -/
def Within (before after : Account) : Prop :=
  after.moved + before.asked ≤ before.moved + after.asked

/-- The calls in between moved all that they were asked to. -/
def InFull (before after : Account) : Prop :=
  after.moved + before.asked = before.moved + after.asked

variable {first second third : Account} {asked moved : Nat}

theorem within_refl (account : Account) : account.Within account :=
  Nat.le_refl _

theorem within_add (account : Account) (h : moved ≤ asked) :
    account.Within (account.add asked moved) := by
  unfold Within add
  dsimp only
  omega

theorem Within.trans (h : first.Within second) (hnext : second.Within third) :
    first.Within third := by
  unfold Within at *
  omega

/-- Where all calls are satisfied in full, so are those up to a point and those from there on. -/
theorem InFull.split (h : first.InFull third) (hfirst : first.Within second)
    (hnext : second.Within third) : first.InFull second ∧ second.InFull third := by
  unfold Within InFull at *
  omega

/-- Where all calls are satisfied in full, so is the first. -/
theorem InFull.moved_eq (h : first.InFull third) (hle : moved ≤ asked)
    (hnext : (first.add asked moved).Within third) : moved = asked := by
  unfold Within InFull add at *
  dsimp only at hnext
  omega

end Account

namespace Sink

/-- The account of a sink. -/
def account (sink : Sink) : Account :=
  ⟨(sink.offers.toList.map List.length).sum, sink.taken.size⟩

theorem account_call (sink : Sink) (data piece : List UInt8) :
    account { sink with taken := sink.taken ++ piece, offers := sink.offers.push data } =
      sink.account.add data.length piece.length := by
  simp [account, Account.add, ← Array.length_toList]

/-- A call that takes nothing. -/
theorem account_idle (sink : Sink) (data : List UInt8) :
    account { sink with offers := sink.offers.push data } = sink.account.add data.length 0 := by
  simp [account, Account.add]

theorem within_writeAll (sink : Sink) (data : List UInt8) :
    sink.account.Within (sink.writeAll data).2.account := by
  fun_induction writeAll sink data with
  | case1 sink data hempty => exact Account.within_refl _
  | case2 sink data hempty hresponse ih =>
      rw [account_idle] at ih
      exact (Account.within_add _ (Nat.zero_le _)).trans ih
  | case3 sink data hempty failure hresponse =>
      rw [account_idle]
      exact Account.within_add _ (Nat.zero_le _)
  | case4 sink data hempty limit hresponse hnone =>
      rw [account_idle]
      exact Account.within_add _ (Nat.zero_le _)
  | case5 sink data hempty limit hresponse hsome ih =>
      rw [account_call] at ih
      exact (Account.within_add _ (length_piece_le limit data)).trans ih

/-- Where every call takes all that it is offered, data are written in one. -/
theorem writeAll_in_full (sink : Sink) (data : List UInt8) :
    sink.account.InFull (sink.writeAll data).2.account →
      (sink.writeAll data).1 = .ok () ∧
        (sink.writeAll data).2.offers.toList =
          sink.offers.toList ++ if data = [] then [] else [data] := by
  have hnonempty {data : List UInt8} (h : ¬ data.isEmpty = true) : data ≠ [] :=
    mt List.isEmpty_iff.mpr h
  -- a call that takes nothing has not taken all
  have hidle {sink third : Sink} {data : List UInt8} (hdata : data ≠ [])
      (hfull : sink.account.InFull third.account)
      (hnext : (account { sink with offers := sink.offers.push data }).Within third.account) :
      False := by
    rw [account_idle] at hnext
    exact hdata (List.length_eq_zero_iff.mp (hfull.moved_eq (Nat.zero_le _) hnext).symm)
  fun_induction writeAll sink data with
  | case1 sink data hempty =>
      intro _
      rw [List.isEmpty_iff.mp hempty]
      exact ⟨rfl, (List.append_nil _).symm⟩
  | case2 sink data hempty hresponse ih =>
      exact fun hfull => (hidle (hnonempty hempty) hfull (within_writeAll _ data)).elim
  | case3 sink data hempty failure hresponse =>
      exact fun hfull => (hidle (hnonempty hempty) hfull (Account.within_refl _)).elim
  | case4 sink data hempty limit hresponse hnone =>
      exact fun hfull => (hidle (hnonempty hempty) hfull (Account.within_refl _)).elim
  | case5 sink data hempty limit hresponse hsome ih =>
      intro hfull
      have hrest := within_writeAll { sink with
        taken := sink.taken ++ piece limit data
        offers := sink.offers.push data } (data.drop (piece limit data).length)
      rw [account_call] at hrest
      have hpiece := hfull.moved_eq (length_piece_le limit data) hrest
      rw [hpiece, List.drop_length, writeAll, if_pos List.isEmpty_nil, if_neg (hnonempty hempty)]
      exact ⟨rfl, Array.toList_push⟩

end Sink

namespace Source

/-- The account of a source. -/
def account (source : Source) : Account :=
  ⟨source.requests.toList.sum, source.moved⟩

theorem account_call (source : Source) (rest : List UInt8) (want arrived : Nat) :
    account { source with
      rest, moved := source.moved + arrived, requests := source.requests.push want } =
        source.account.add want arrived := by
  simp [account, Account.add]

/-- A call that brings nothing. -/
theorem account_idle (source : Source) (want : Nat) :
    account { source with requests := source.requests.push want } = source.account.add want 0 := by
  simp [account, Account.add]

theorem within_gather (source : Source) (want : Nat) (got : Array UInt8) :
    source.account.Within (source.gather want got).2.account := by
  fun_induction gather source want got with
  | case1 source got => exact Account.within_refl _
  | case2 source want got hwant hresponse ih =>
      rw [account_idle] at ih
      exact (Account.within_add _ (Nat.zero_le _)).trans ih
  | case3 source want got hwant failure hresponse =>
      rw [account_idle]
      exact Account.within_add _ (Nat.zero_le _)
  | case4 source want got hwant limit hresponse hnone =>
      rw [account_idle]
      exact Account.within_add _ (Nat.zero_le _)
  | case5 source want got hwant limit hresponse hsome ih =>
      rw [account_call] at ih
      exact (Account.within_add _ (source.arrival_spec limit want).2).trans ih

theorem within_readExact (source : Source) (want : Nat) :
    source.account.Within (source.readExact want).2.account :=
  within_gather source want #[]

theorem gather_in_full (source : Source) (want : Nat) (got : Array UInt8) :
    source.account.InFull (source.gather want got).2.account →
      (∃ bytes, (source.gather want got).1 = .ok bytes) ∧
        (source.gather want got).2.requests.toList =
          source.requests.toList ++ if want = 0 then [] else [want] := by
  -- a call that brings nothing has not brought all
  have hidle {source third : Source} {want : Nat} (hwant : want ≠ 0)
      (hfull : source.account.InFull third.account)
      (hnext : (account { source with requests := source.requests.push want }).Within
        third.account) : False := by
    rw [account_idle] at hnext
    exact hwant (hfull.moved_eq (Nat.zero_le _) hnext).symm
  fun_induction gather source want got with
  | case1 source got => exact fun _ => ⟨⟨_, rfl⟩, (List.append_nil _).symm⟩
  | case2 source want got hwant hresponse ih =>
      exact fun hfull => (hidle hwant hfull (within_gather _ want got)).elim
  | case3 source want got hwant failure hresponse =>
      exact fun hfull => (hidle hwant hfull (Account.within_refl _)).elim
  | case4 source want got hwant limit hresponse hnone =>
      exact fun hfull => (hidle hwant hfull (Account.within_refl _)).elim
  | case5 source want got hwant limit hresponse hsome ih =>
      intro hfull
      have hrest := within_gather { source with
        rest := source.rest.drop (source.arrival limit want).length
        moved := source.moved + (source.arrival limit want).length
        requests := source.requests.push want } (want - (source.arrival limit want).length)
        (got ++ source.arrival limit want)
      rw [account_call] at hrest
      have harrival := hfull.moved_eq (source.arrival_spec limit want).2 hrest
      rw [harrival, Nat.sub_self, gather, if_pos rfl, if_neg hwant]
      exact ⟨⟨_, rfl⟩, Array.toList_push⟩

/-- Where every call brings all that it asks for, bytes are read in one, unless there are none to
read. -/
theorem readExact_in_full {source after : Source} {want : Nat}
    {result : Except Failure (List UInt8)} (hread : source.readExact want = (result, after))
    (h : source.account.InFull after.account) :
    ∃ bytes, result = .ok bytes ∧ source.rest = bytes ++ after.rest ∧ bytes.length = want ∧
      after.requests.toList = source.requests.toList ++ if want = 0 then [] else [want] := by
  obtain ⟨⟨bytes, hok⟩, hrequests⟩ : (∃ bytes, (source.readExact want).1 = .ok bytes) ∧ _ :=
    gather_in_full source want #[] (by rwa [show source.gather want #[] = _ from hread])
  obtain ⟨given, hrest, -, -, hresult⟩ := source.readExact_spec want
  rw [hok] at hresult
  obtain ⟨rfl, hlength⟩ := hresult
  rw [show source.gather want #[] = _ from hread] at hrequests
  rw [hread] at hok hrest
  exact ⟨bytes, hok, hrest, hlength, hrequests⟩

end Source

end Transport

open Transport

/-! ### Plans -/

theorem Item.within_emit (item : Item) (encoder : Encoder) :
    encoder.transport.account.Within (item.emit encoder).2.transport.account := by
  cases husable : encoder.poisoned with
  | true =>
      rw [emit, if_pos husable]
      exact Account.within_refl _
  | false =>
      obtain ⟨noted, -, -, -, hemit⟩ := item.emit_usable husable
      have hwrite := encoder.transport.within_writeAll item.image
      rw [hemit]
      rcases hwritten : encoder.transport.writeAll item.image with ⟨failure | _, sink⟩ <;>
        rw [hwritten] at hwrite <;> exact hwrite

/-- The image of an item is written in one call. -/
theorem Item.emit_in_full (item : Item) {encoder : Encoder} (husable : encoder.poisoned = false)
    (h : encoder.transport.account.InFull (item.emit encoder).2.transport.account) :
    ∃ after, item.emit encoder = (.ok (), after) ∧ after.poisoned = false ∧
      after.transport.offers.toList =
        encoder.transport.offers.toList ++ if item.image = [] then [] else [item.image] := by
  obtain ⟨noted, -, hpoisoned, -, hemit⟩ := item.emit_usable husable
  have hwrite := encoder.transport.writeAll_in_full item.image
  rw [hemit] at h ⊢
  rcases hwritten : encoder.transport.writeAll item.image with ⟨failure | _, sink⟩ <;>
    rw [hwritten] at h hwrite
  · exact absurd (hwrite h).1 (by simp)
  · exact ⟨_, rfl, hpoisoned, (hwrite h).2⟩

namespace Plan

theorem within_emitAll (items : List Item) (encoder : Encoder) :
    encoder.transport.account.Within (emitAll items encoder).2.transport.account := by
  induction items generalizing encoder with
  | nil => exact Account.within_refl _
  | cons item items ih =>
      have hitem := item.within_emit encoder
      rw [emitAll]
      rcases hemit : item.emit encoder with ⟨error | _, written⟩ <;> rw [hemit] at hitem
      · exact hitem
      · exact hitem.trans (ih written)

theorem within_run (plan : Plan) (encoder : Encoder) :
    encoder.transport.account.Within (plan.run encoder).2.transport.account := by
  have hitems := within_emitAll plan.items encoder
  rw [run]
  rcases hwritten : emitAll plan.items encoder with ⟨error | _, written⟩ <;>
    rw [hwritten] at hitems
  · exact hitems
  · cases plan.refusal with
    | none => exact hitems
    | some refusal =>
        dsimp only
        rwa [written.refuse_transport refusal]

/-- Items are written in one call each, those that have no bytes in none. -/
theorem emitAll_in_full (items : List Item) {encoder : Encoder} (husable : encoder.poisoned = false)
    (h : encoder.transport.account.InFull (emitAll items encoder).2.transport.account) :
    ∃ after, emitAll items encoder = (.ok (), after) ∧ after.poisoned = false ∧
      after.transport.offers.toList =
        encoder.transport.offers.toList ++ (items.map Item.image).filter (· ≠ []) := by
  induction items generalizing encoder with
  | nil => exact ⟨encoder, rfl, husable, (List.append_nil _).symm⟩
  | cons item items ih =>
      have hitem := item.within_emit encoder
      have hfirst : encoder.transport.account.InFull (item.emit encoder).2.transport.account := by
        rw [emitAll] at h
        rcases hemit : item.emit encoder with ⟨error | _, written⟩ <;> rw [hemit] at h hitem
        · exact h
        · exact (h.split hitem (within_emitAll items written)).1
      obtain ⟨between, hemit, hbetween, hoffers⟩ := item.emit_in_full husable hfirst
      rw [hemit] at hitem
      simp only [emitAll, hemit] at h ⊢
      obtain ⟨after, hrest, hafter, hlater⟩ :=
        ih hbetween (h.split hitem (within_emitAll items between)).2
      refine ⟨after, hrest, hafter, ?_⟩
      rw [hlater, hoffers, List.append_assoc, List.map_cons, List.filter_cons]
      by_cases hempty : item.image = [] <;> simp [hempty]

end Plan

end Xdr
