import Xdr.Proofs.Transport

/-!
# What a reading accepts

`Reading.Accepts` says which bytes a reading takes for a value, without a decoder. The two
statements to read first connect it with runs: a run that succeeds has used up bytes that the
reading accepts (`accepts_of_run`), and on a decoder that can go on, accepted bytes are used up and
whatever follows them is left (`run_of_accepts`).
-/

namespace Xdr.Reading

variable {κ μ α β : Type} {policy : PaddingPolicy} {consumed : List UInt8}

/-- The reading takes exactly these bytes, under this policy, for this value. -/
def Accepts (policy : PaddingPolicy) : {κ α : Type} → Reading κ α → List UInt8 → α → Prop
  | _, _, done value, consumed, result => consumed = [] ∧ result = value
  | _, _, refuse _ _, _, _ => False
  | _, _, request _ count _ _ next, consumed, result =>
      ∃ front back, consumed = front ++ back ∧ front.length = count ∧
        Accepts policy (next front) back result
  | _, _, note _ next, consumed, result => Accepts policy next consumed result
  | _, _, mark _ next, consumed, result => Accepts policy next consumed result
  | _, _, checkPadding _ padding _ next, consumed, result =>
      policy.accepts padding ∧ Accepts policy next consumed result
  | _, _, later next, consumed, result => Accepts policy (next ()) consumed result
  | _, _, andThen first _ next, consumed, result =>
      ∃ front back value, consumed = front ++ back ∧ Accepts policy first front value ∧
        Accepts policy (next value) back result

/-- Carrying out a reading leaves the settings alone. -/
theorem run_config (reading : Reading κ α) (decoder : Decoder) :
    (reading.run decoder).2.config = decoder.config := by
  induction reading generalizing decoder with
  | done value => rfl
  | refuse refusal kept => exact decoder.refuse_config refusal
  | request operation count untouched kept next ih =>
      rw [run_request]
      split
      · rfl
      · rw [Context.useTransport_eq]
        rcases decoder.transport.readExact count with ⟨_ | bytes, after⟩
        · rfl
        · exact ih bytes _
  | note event next ih => exact ih _
  | mark part next ih => exact ih decoder
  | checkPadding operation padding kept next ih =>
      rw [run_checkPadding]
      split
      · exact ih decoder
      · rfl
  | later next ih => exact ih () decoder
  | andThen first keep next ihFirst ihNext =>
      rw [run_andThen]
      have hfirst := ihFirst decoder
      rcases hrun : first.run decoder with ⟨_ | value, after⟩ <;> rw [hrun] at hfirst
      · exact hfirst
      · exact (ihNext value after).trans hfirst

/-- A run that succeeds has used up bytes that the reading accepts. -/
theorem accepts_of_run {reading : Reading κ α} {decoder after : Decoder} {value : α}
    (h : reading.run decoder = (.ok value, after)) :
    ∃ consumed, decoder.transport.rest = consumed ++ after.transport.rest ∧
      reading.Accepts decoder.config.padding consumed value := by
  induction reading generalizing decoder after with
  | done result =>
      cases h
      exact ⟨[], rfl, rfl, rfl⟩
  | refuse refusal kept => cases h
  | request operation count untouched kept next ih =>
      rw [run_request, Context.useTransport_eq] at h
      split at h
      · cases h
      · obtain ⟨given, hrest, _, _, hresult⟩ := decoder.transport.readExact_spec count
        rcases hread : decoder.transport.readExact count with ⟨_ | bytes, source⟩ <;>
          rw [hread] at h hrest hresult
        · cases h
        · obtain ⟨rfl, hlength⟩ := hresult
          obtain ⟨consumed, hconsumed, haccepts⟩ := ih bytes h
          refine ⟨bytes ++ consumed, ?_, bytes, consumed, rfl, hlength, haccepts⟩
          rw [hrest, List.append_assoc]
          exact congrArg _ hconsumed
  | note event next ih =>
      have hrun : next.run (decoder.record event) = (.ok value, after) := h
      obtain ⟨consumed, hrest, haccepts⟩ := ih hrun
      exact ⟨consumed, hrest, haccepts⟩
  | mark part next ih => exact ih h
  | checkPadding operation padding kept next ih =>
      rw [run_checkPadding] at h
      split at h
      · next hpadding =>
          obtain ⟨consumed, hrest, haccepts⟩ := ih h
          exact ⟨consumed, hrest, hpadding, haccepts⟩
      · cases h
  | later next ih => exact ih () h
  | andThen first keep next ihFirst ihNext =>
      rw [run_andThen] at h
      have hconfig := first.run_config decoder
      rcases hrun : first.run decoder with ⟨_ | middle, between⟩ <;> rw [hrun] at h hconfig
      · cases h
      · obtain ⟨front, hfront, hfirst⟩ := ihFirst hrun
        obtain ⟨back, hback, hnext⟩ := ihNext middle h
        refine ⟨front ++ back, ?_, front, back, middle, rfl, hfirst, hconfig ▸ hnext⟩
        rw [hfront, hback, List.append_assoc]

/-- On a decoder that can go on, accepted bytes are used up and what follows them is left. -/
theorem run_of_accepts {reading : Reading κ α} {decoder : Decoder} {value : α}
    {rest : List UInt8} (hready : decoder.Ready) (hrest : decoder.transport.rest = consumed ++ rest)
    (h : reading.Accepts decoder.config.padding consumed value) :
    ∃ after, reading.run decoder = (.ok value, after) ∧ after.transport.rest = rest ∧
      Decoder.Ready after := by
  induction reading generalizing decoder consumed rest with
  | done result =>
      obtain ⟨rfl, rfl⟩ := h
      exact ⟨decoder, rfl, hrest, hready⟩
  | refuse refusal kept => exact False.elim h
  | request operation count untouched kept next ih =>
      obtain ⟨front, back, rfl, rfl, hnext⟩ := h
      rw [List.append_assoc] at hrest
      obtain ⟨source, hread, hleft, hschedule⟩ :=
        Transport.Source.readExact_unfailing hready.unfailing hrest
      rw [run_request, if_neg (by simp [hready.usable]), Context.useTransport_eq, hread]
      have hbetween : Decoder.Ready { decoder with transport := source } :=
        ⟨hready.usable, hschedule ▸ hready.unfailing⟩
      exact ih front hbetween hleft hnext
  | note event next ih =>
      have hrecord : Decoder.Ready (decoder.record event) := ⟨hready.usable, hready.unfailing⟩
      exact ih hrecord hrest h
  | mark part next ih => exact ih hready hrest h
  | checkPadding operation padding kept next ih =>
      rw [run_checkPadding, if_pos h.1]
      exact ih hready hrest h.2
  | later next ih => exact ih () hready hrest h
  | andThen first keep next ihFirst ihNext =>
      obtain ⟨front, back, middle, rfl, hfirst, hnext⟩ := h
      rw [List.append_assoc] at hrest
      obtain ⟨between, hrun, hleft, hbetween⟩ := ihFirst hready hrest hfirst
      have hconfig := first.run_config decoder
      rw [hrun] at hconfig
      rw [run_andThen, hrun]
      exact ihNext middle hbetween hleft (hconfig ▸ hnext)

/-! ### Readings put together -/

@[simp] theorem accepts_map_iff {keep : κ → μ} {change : α → β} {reading : Reading κ α}
    {result : β} : (reading.map keep change).Accepts policy consumed result ↔
      ∃ value, reading.Accepts policy consumed value ∧ result = change value := by
  constructor
  · intro h
    obtain ⟨front, back, value, rfl, hfirst, rfl, rfl⟩ := h
    exact ⟨value, by rwa [List.append_nil], rfl⟩
  · intro h
    obtain ⟨value, h, rfl⟩ := h
    exact ⟨consumed, [], value, (List.append_nil _).symm, h, rfl, rfl⟩

/-- The readings take these bytes, one after the other, for these values. -/
def AcceptsAll (policy : PaddingPolicy) : List (Reading κ α) → List UInt8 → List α → Prop
  | [], consumed, values => consumed = [] ∧ values = []
  | reading :: readings, consumed, values =>
      ∃ front back value others, consumed = front ++ back ∧ values = value :: others ∧
        reading.Accepts policy front value ∧ AcceptsAll policy readings back others

/-- There are as many values as readings. -/
theorem AcceptsAll.length_eq {readings : List (Reading κ α)} {values : List α}
    (h : AcceptsAll policy readings consumed values) : readings.length = values.length := by
  induction readings generalizing consumed values with
  | nil =>
      obtain ⟨_, rfl⟩ := h
      rfl
  | cons reading readings ih =>
      obtain ⟨front, back, value, others, _, rfl, _, hothers⟩ := h
      rw [List.length_cons, List.length_cons, ih hothers]

/-- Each of the readings takes some of the bytes. -/
theorem AcceptsAll.accepts_of_mem {readings : List (Reading κ α)} {values : List α}
    (h : AcceptsAll policy readings consumed values) {reading : Reading κ α}
    (hmem : reading ∈ readings) : ∃ front value, reading.Accepts policy front value := by
  induction readings generalizing consumed values with
  | nil => cases hmem
  | cons first readings ih =>
      obtain ⟨front, back, value, others, _, _, hfirst, hothers⟩ := h
      rcases List.mem_cons.mp hmem with rfl | hmem
      · exact ⟨front, value, hfirst⟩
      · exact ih hothers hmem

/-- It does not matter when it is worked out what the elements ask for. -/
theorem acceptsAll_later_iff {next : Unit → Reading κ α} {count : Nat} {values : List α} :
    AcceptsAll policy (List.replicate count (later next)) consumed values ↔
      AcceptsAll policy (List.replicate count (next ())) consumed values := by
  induction count generalizing consumed values with
  | zero => exact Iff.rfl
  | succ count ih =>
      constructor
      · intro h
        obtain ⟨front, back, value, others, rfl, rfl, hfirst, hothers⟩ := h
        exact ⟨front, back, value, others, rfl, rfl, hfirst, ih.mp hothers⟩
      · intro h
        obtain ⟨front, back, value, others, rfl, rfl, hfirst, hothers⟩ := h
        exact ⟨front, back, value, others, rfl, rfl, hfirst, ih.mpr hothers⟩

/-- Values read in order are those of their readings, behind the values that were there. -/
theorem accepts_inOrder_iff {pairs : List (α × Reading α α)} {finished values : List α} :
    (inOrder pairs finished).Accepts policy consumed values ↔
      ∃ others, values = finished.reverse ++ others ∧
        AcceptsAll policy (pairs.map Prod.snd) consumed others := by
  induction pairs generalizing consumed finished with
  | nil =>
      constructor
      · intro h
        obtain ⟨rfl, rfl⟩ := h
        exact ⟨[], (List.append_nil _).symm, rfl, rfl⟩
      · intro h
        obtain ⟨_, rfl, rfl, rfl⟩ := h
        exact ⟨rfl, List.append_nil _⟩
  | cons pair pairs ih =>
      obtain ⟨target, reading⟩ := pair
      constructor
      · intro h
        obtain ⟨front, back, value, rfl, hfirst, hnext⟩ := h
        obtain ⟨others, rfl, hothers⟩ := ih.mp hnext
        exact ⟨value :: others, by simp, front, back, value, others, rfl, rfl, hfirst, hothers⟩
      · intro h
        obtain ⟨_, rfl, front, back, value, others, rfl, rfl, hfirst, hothers⟩ := h
        exact ⟨front, back, value, rfl, hfirst, ih.mpr ⟨others, by simp, hothers⟩⟩

/-- Counted elements are those of as many copies of their reading. -/
theorem accepts_replicate_iff {reading : Reading α α} {count : Nat} {finished values : List α} :
    (replicate reading count finished).Accepts policy consumed values ↔
      ∃ others, values = finished.reverse ++ others ∧
        AcceptsAll policy (List.replicate count reading) consumed others := by
  induction count generalizing consumed finished with
  | zero =>
      constructor
      · intro h
        obtain ⟨rfl, rfl⟩ := h
        exact ⟨[], (List.append_nil _).symm, rfl, rfl⟩
      · intro h
        obtain ⟨_, rfl, rfl, rfl⟩ := h
        exact ⟨rfl, List.append_nil _⟩
  | succ count ih =>
      constructor
      · intro h
        obtain ⟨front, back, value, rfl, hfirst, hnext⟩ := h
        obtain ⟨others, rfl, hothers⟩ := ih.mp hnext
        exact ⟨value :: others, by simp, front, back, value, others, rfl, rfl, hfirst, hothers⟩
      · intro h
        obtain ⟨_, rfl, front, back, value, others, rfl, rfl, hfirst, hothers⟩ := h
        exact ⟨front, back, value, rfl, hfirst, ih.mpr ⟨others, by simp, hothers⟩⟩

end Xdr.Reading
