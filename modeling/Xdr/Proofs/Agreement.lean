import Xdr.Filter
import Xdr.Model.Elements
import Xdr.Proofs.Delivery.Reading

/-!
# Readings that agree

Two readings agree where few bytes are left (`Reading.Agrees`) if no decoder whose source holds no
more than that can tell them apart. Behind a request there are fewer bytes left, so what follows has
to agree on less. So it has behind any reading that never succeeds without a word
(`Reading.Spends`).
-/

namespace Xdr

namespace Reading

variable {κ μ α β τ : Type} {left : Nat}

/-- Decoders with no more than this many bytes left cannot tell the readings apart. -/
def Agrees (left : Nat) (first second : Reading κ α) : Prop :=
  ∀ decoder : Decoder, decoder.transport.rest.length ≤ left → first.run decoder = second.run decoder

theorem agrees_self (reading : Reading κ α) : reading.Agrees left reading :=
  fun _ _ => rfl

/-- Behind a request, what follows has to agree on what the request leaves. -/
theorem agrees_request {operation : Operation} {count : Nat} {untouched kept : κ}
    {next next' : List UInt8 → Reading κ α}
    (h : ∀ bytes less, less + count ≤ left → (next bytes).Agrees less (next' bytes)) :
    (request operation count untouched kept next).Agrees left
      (request operation count untouched kept next') := by
  intro decoder hleft
  obtain ⟨given, hrest, -, -, hresult⟩ := decoder.transport.readExact_spec count
  rw [run_request, run_request, Context.useTransport_eq]
  split
  · rfl
  · generalize decoder.transport.readExact count = answer at hrest hresult ⊢
    obtain ⟨_ | bytes, source⟩ := answer
    · rfl
    · have hlength : decoder.transport.rest.length = count + source.rest.length := by
        rw [hrest, List.length_append, hresult.2]
      exact h bytes source.rest.length (by omega) _ (Nat.le_refl _)

theorem agrees_word {operation : Operation} {kept : κ} {next next' : UInt32 → Reading κ α}
    (h : ∀ w less, less + 4 ≤ left → (next w).Agrees less (next' w)) :
    (word operation kept next).Agrees left (word operation kept next') :=
  agrees_request fun bytes => h (wordOfImage bytes)

/-- What agrees where some bytes are left does so where fewer are. -/
theorem Agrees.mono {first second : Reading κ α} (h : first.Agrees left second) {less : Nat}
    (hle : less ≤ left) : first.Agrees less second :=
  fun decoder hless => h decoder (hless.trans hle)

/-- Behind a reading that succeeds, what follows has to agree on what the reading leaves. -/
theorem Agrees.andThen_of_accepts {first first' : Reading κ α} {keep : κ → μ}
    {next next' : α → Reading μ β} (h : first.Agrees left first')
    (hnext : ∀ {policy consumed value less}, first.Accepts policy consumed value →
      less + consumed.length ≤ left → (next value).Agrees less (next' value)) :
    (first.andThen keep next).Agrees left (first'.andThen keep next') := by
  intro decoder hleft
  rw [run_andThen, run_andThen, ← h decoder hleft]
  rcases hrun : first.run decoder with ⟨_ | value, between⟩
  · rfl
  · obtain ⟨consumed, hrest, haccepts⟩ := accepts_of_run hrun
    rw [hrest, List.length_append] at hleft
    exact hnext haccepts ((Nat.add_comm _ _).trans_le hleft) between (Nat.le_refl _)

/-- What follows a reading has no more bytes left than the reading. -/
theorem Agrees.andThen {first first' : Reading κ α} {keep : κ → μ} {next next' : α → Reading μ β}
    (h : first.Agrees left first') (hnext : ∀ value, (next value).Agrees left (next' value)) :
    (first.andThen keep next).Agrees left (first'.andThen keep next') :=
  h.andThen_of_accepts fun _ hless => (hnext _).mono (by omega)

theorem Agrees.map {first second : Reading κ α} (h : first.Agrees left second) (keep : κ → μ)
    (change : α → β) : (first.map keep change).Agrees left (second.map keep change) :=
  h.andThen fun _ => agrees_self _

/-- A value is only read from a word or more. -/
def Spends (reading : Reading κ α) : Prop :=
  ∀ ⦃policy consumed value⦄, reading.Accepts policy consumed value → 4 ≤ consumed.length

theorem spends_request {operation : Operation} {count : Nat} {untouched kept : κ}
    {next : List UInt8 → Reading κ α} (h : 4 ≤ count) :
    (request operation count untouched kept next).Spends := by
  intro policy consumed value haccepts
  obtain ⟨front, back, rfl, hfront, -⟩ := haccepts
  rw [List.length_append]
  omega

theorem spends_refuse (refusal : Refusal) (kept : κ) :
    (refuse refusal kept : Reading κ α).Spends :=
  fun _ _ _ haccepts => False.elim haccepts

theorem Spends.andThen {first : Reading κ α} (h : first.Spends) (keep : κ → μ)
    (next : α → Reading μ β) : (first.andThen keep next).Spends := by
  intro policy consumed result haccepts
  obtain ⟨front, back, value, rfl, hfirst, -⟩ := haccepts
  have hfront := h hfirst
  rw [List.length_append]
  omega

theorem Spends.map {reading : Reading κ α} (h : reading.Spends) (keep : κ → μ)
    (change : α → β) : (reading.map keep change).Spends :=
  h.andThen keep _

/-- A reading that is worked out late makes no difference. -/
theorem Agrees.later {first second : Reading κ α} (h : first.Agrees left second) :
    (later fun _ => first).Agrees left (later fun _ => second) :=
  h

/-- Readings in order agree if they do so target by target. -/
theorem agrees_inOrder {targets : List τ} {target : τ → α} {read read' : τ → Reading α α}
    (h : ∀ part ∈ targets, (read part).Agrees left (read' part)) (finished : List α) :
    (inOrder (targets.map fun part => (target part, read part)) finished).Agrees left
      (inOrder (targets.map fun part => (target part, read' part)) finished) := by
  induction targets generalizing finished with
  | nil => exact agrees_self _
  | cons part targets ih =>
      obtain ⟨hpart, htargets⟩ := List.forall_mem_cons.mp h
      simp only [List.map_cons, inOrder, List.map_map, Function.comp_def]
      exact hpart.andThen fun value => ih htargets (value :: finished)

theorem agrees_replicate {element element' : Reading α α} (h : element.Agrees left element')
    (count : Nat) (finished : List α) :
    (replicate element count finished).Agrees left (replicate element' count finished) := by
  induction count generalizing finished with
  | zero => exact agrees_self _
  | succ count ih => exact h.andThen fun value decoder hleft => ih (value :: finished) decoder hleft

theorem agrees_next {element element' : Reading Unit α} (h : element.Agrees left element')
    (remaining : Nat) :
    (Elements.next element remaining).Agrees left (Elements.next element' remaining) := by
  cases remaining with
  | zero => exact agrees_self _
  | succ remaining => exact h.map _ _

theorem agrees_visit {element element' : Reading Unit α} (h : element.Agrees left element')
    (requests remaining : Nat) (values : List α) (hints : List Nat) :
    (Elements.visit element requests remaining values hints).Agrees left
      (Elements.visit element' requests remaining values hints) := by
  induction requests generalizing remaining values hints with
  | zero => exact agrees_self _
  | succ requests ih =>
      refine (agrees_next h remaining).andThen fun (answer, rest) => ?_
      cases answer with
      | none => exact agrees_self _
      | some value => exact ih rest (value :: values) (remaining :: hints)

theorem agrees_each {kinds : List τ} {read read' : τ → Reading Unit α}
    (h : ∀ kind ∈ kinds, (read kind).Agrees left (read' kind)) (index remaining : Nat)
    (values : List α) :
    (Elements.each (kinds.map read) index remaining values).Agrees left
      (Elements.each (kinds.map read') index remaining values) := by
  induction kinds generalizing index remaining values with
  | nil => exact agrees_self _
  | cons kind kinds ih =>
      obtain ⟨hkind, hkinds⟩ := List.forall_mem_cons.mp h
      refine (agrees_next hkind remaining).andThen fun (answer, rest) => ?_
      cases answer with
      | none => exact agrees_self _
      | some value => exact ih hkinds (index + 1) rest (value :: values)

end Reading

end Xdr
