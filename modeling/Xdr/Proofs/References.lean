import Mathlib.Data.Finset.Card
import Mathlib.Data.Finset.Dedup
import Xdr.Definitions

/-!
# Chains of references

A name leads to the names that its body mentions directly. `Ends` says that every chain of such
references from a name comes to an end within a number of steps, `Grounded` that every chain from a
body does. The statement to read first is `Ends.within_length`: chains that end at all end within as
many steps as there are definitions, so a budget of that many references is never short.
-/

namespace Xdr.Definitions

universe u v

variable {τ : Type} {definitions : Definitions τ}

/-- What holds of a name without a meaning, and of a definition whenever it holds of the names in
its body, holds of every name. -/
theorem meaning_induction {β : Type u} {interpret : (String → β) → τ → β} {unresolved : β}
    {motive : String → β → Prop} (base : ∀ name, motive name unresolved)
    (step : ∀ named, (∀ name, motive name (named name)) → ∀ name body,
      definitions.lookup name = some body → motive name (interpret named body))
    (depth : Nat) (name : String) :
    motive name (definitions.meaning interpret unresolved depth name) := by
  induction depth generalizing name with
  | zero => exact base name
  | succ depth ih =>
      cases hbody : definitions.lookup name with
      | none => simpa only [meaning, hbody] using base name
      | some body =>
          rw [meaning_succ _ _ _ _ hbody]
          exact step _ ih name body hbody

/-- The same for two lists of definitions with the same names, whose bodies are interpreted side by
side. -/
theorem meaning_alongside {τ' : Type} {definitions' : Definitions τ'} {β : Type u} {β' : Type v}
    {interpret : (String → β) → τ → β} {interpret' : (String → β') → τ' → β'} {unresolved : β}
    {unresolved' : β'} {motive : String → β → β' → Prop}
    (base : ∀ name, motive name unresolved unresolved')
    (missing : ∀ name, definitions.lookup name = none → definitions'.lookup name = none)
    (step : ∀ named named', (∀ name, motive name (named name) (named' name)) → ∀ name body,
      definitions.lookup name = some body → ∃ body', definitions'.lookup name = some body' ∧
        motive name (interpret named body) (interpret' named' body'))
    (depth : Nat) (name : String) :
    motive name (definitions.meaning interpret unresolved depth name)
      (definitions'.meaning interpret' unresolved' depth name) := by
  induction depth generalizing name with
  | zero => exact base name
  | succ depth ih =>
      cases hbody : definitions.lookup name with
      | none => simpa only [meaning, hbody, missing name hbody] using base name
      | some body =>
          obtain ⟨body', hbody', hmotive⟩ := step _ _ ih name body hbody
          rwa [meaning_succ _ _ _ _ hbody, meaning_succ _ _ _ _ hbody']

variable {direct : τ → List String}

/-- Every chain of direct references from the name ends within `depth` steps. -/
def Ends (definitions : Definitions τ) (direct : τ → List String) : (depth : Nat) → String → Prop
  | 0, _ => False
  | depth + 1, name => ∃ body, definitions.lookup name = some body ∧
      ∀ inner ∈ direct body, Ends definitions direct depth inner

/-- A chain that ends within some steps ends within one more. -/
theorem Ends.succ {depth : Nat} {name : String} (h : Ends definitions direct depth name) :
    Ends definitions direct (depth + 1) name := by
  induction depth generalizing name with
  | zero => exact False.elim h
  | succ depth ih =>
      obtain ⟨body, hbody, hinner⟩ := h
      exact ⟨body, hbody, fun inner hmem => ih (hinner inner hmem)⟩

theorem Ends.mono {depth more : Nat} {name : String} (h : Ends definitions direct depth name)
    (hle : depth ≤ more) : Ends definitions direct more name := by
  induction hle with
  | refl => exact h
  | step _ ih => exact ih.succ

/-- Only defined names end. -/
theorem Ends.defined {depth : Nat} {name : String} (h : Ends definitions direct depth name) :
    name ∈ definitions.map Prod.fst := by
  cases depth with
  | zero => exact False.elim h
  | succ depth =>
      obtain ⟨body, hbody, _⟩ := h
      obtain ⟨before, after, hsplit, _⟩ := List.lookup_eq_some_iff.mp hbody
      rw [hsplit]
      simp

/-- One step more brings no name that did not end before. -/
def Settled (definitions : Definitions τ) (direct : τ → List String) (depth : Nat) : Prop :=
  ∀ name, Ends definitions direct (depth + 1) name → Ends definitions direct depth name

/-- Once a step brings nothing new, no later step does. -/
theorem Settled.succ {depth : Nat} (h : Settled definitions direct depth) :
    Settled definitions direct (depth + 1) := by
  intro name hends
  obtain ⟨body, hbody, hinner⟩ := hends
  exact ⟨body, hbody, fun inner hmem => h inner (hinner inner hmem)⟩

/-- Once a step brings nothing new, every name that ends has ended before. -/
theorem Settled.ends {depth more : Nat} {name : String} (h : Settled definitions direct depth)
    (hends : Ends definitions direct more name) : Ends definitions direct depth name := by
  rcases Nat.le_total more depth with hle | hle
  · exact hends.mono hle
  · have hlater : ∀ extra, Settled definitions direct (depth + extra) := fun extra => by
      induction extra with
      | zero => exact h
      | succ extra ih => exact ih.succ
    obtain ⟨extra, rfl⟩ := Nat.exists_eq_add_of_le hle
    clear hle
    induction extra with
    | zero => exact hends
    | succ extra ih => exact ih (hlater extra name hends)

open Classical in
/-- The defined names that end within `depth` steps. -/
noncomputable def ending (definitions : Definitions τ) (direct : τ → List String) (depth : Nat) :
    Finset String :=
  (definitions.map Prod.fst).toFinset.filter (Ends definitions direct depth)

theorem mem_ending {depth : Nat} {name : String} :
    name ∈ ending definitions direct depth ↔ Ends definitions direct depth name := by
  classical
  simp only [ending, Finset.mem_filter, List.mem_toFinset, and_iff_right_iff_imp]
  exact Ends.defined

/-- Up to the first step that brings nothing new, each step brings at least one name. -/
theorem settled_or_lt_card (definitions : Definitions τ) (direct : τ → List String) (depth : Nat) :
    Settled definitions direct depth ∨ depth < (ending definitions direct (depth + 1)).card := by
  by_cases hsettled : Settled definitions direct depth
  · exact Or.inl hsettled
  · refine Or.inr ?_
    have hgrows : ending definitions direct depth ⊂ ending definitions direct (depth + 1) := by
      refine Finset.ssubset_iff_subset_ne.mpr
        ⟨fun name h => ?_, fun heq => hsettled fun name h => ?_⟩
      · exact mem_ending.mpr (mem_ending.mp h).succ
      · exact mem_ending.mp (heq ▸ mem_ending.mpr h)
    have hlt := Finset.card_lt_card hgrows
    cases depth with
    | zero => omega
    | succ depth =>
        rcases settled_or_lt_card definitions direct depth with hprev | hprev
        · exact absurd hprev.succ hsettled
        · omega

/-- Chains that end at all end within as many steps as there are definitions. -/
theorem Ends.within_length {depth : Nat} {name : String}
    (h : Ends definitions direct depth name) :
    Ends definitions direct definitions.length name := by
  have hcard : (ending definitions direct (definitions.length + 1)).card ≤ definitions.length := by
    classical
    calc (ending definitions direct (definitions.length + 1)).card
        ≤ (definitions.map Prod.fst).toFinset.card := by
          unfold ending
          exact Finset.card_le_card (Finset.filter_subset _ _)
      _ ≤ (definitions.map Prod.fst).length := List.toFinset_card_le _
      _ = definitions.length := List.length_map _
  rcases settled_or_lt_card definitions direct definitions.length with hsettled | hlt
  · exact hsettled.ends h
  · omega

/-- Every chain of references that starts in the body ends within `depth` steps. -/
def Grounded (definitions : Definitions τ) (direct : τ → List String) (depth : Nat) (body : τ) :
    Prop :=
  ∀ name ∈ direct body, Ends definitions direct depth name

variable {depth : Nat} {whole part : τ} {name : String}

/-- What mentions nothing else is grounded too. -/
theorem Grounded.of_subset (h : Grounded definitions direct depth whole)
    (hsubset : direct part ⊆ direct whole) : Grounded definitions direct depth part :=
  fun name hmem => h name (hsubset hmem)

/-- What a grounded body mentions stands for something that is grounded one level further down. -/
theorem Grounded.body (h : Grounded definitions direct depth whole) (hname : name ∈ direct whole)
    (hpart : definitions.lookup name = some part) :
    ∃ less, depth = less + 1 ∧ Grounded definitions direct less part := by
  have hends := h name hname
  cases depth with
  | zero => exact False.elim hends
  | succ less =>
      obtain ⟨found, hfound, hinner⟩ := hends
      obtain rfl : found = part := Option.some.inj (hfound.symm.trans hpart)
      exact ⟨less, rfl, hinner⟩

/-- A name that stands for something grounded leads to nothing that is not, and the number of
definitions is enough again. -/
theorem Grounded.ends (h : Grounded definitions direct definitions.length part)
    (hpart : definitions.lookup name = some part) :
    Ends definitions direct definitions.length name := by
  have hends : Ends definitions direct (definitions.length + 1) name := ⟨part, hpart, h⟩
  exact hends.within_length

/-- A definition leads back to itself only behind a word: every chain of direct references that
starts at a definition comes to an end. -/
def Guarded (definitions : Definitions τ) (direct : τ → List String) : Prop :=
  ∀ name body, definitions.lookup name = some body →
    Ends definitions direct definitions.length name

/-- A name without an entry has no meaning at any depth. -/
theorem meaning_of_none {β : Type u} {interpret : (String → β) → τ → β} {unresolved : β}
    (h : definitions.lookup name = none) (depth : Nat) :
    definitions.meaning interpret unresolved depth name = unresolved := by
  cases depth with
  | zero => rfl
  | succ depth => simp only [meaning, h]

section

variable {β : Type u} {interpret : (String → β) → τ → β} {unresolved unresolved' : β}
  {related : Nat → String → β → β → Prop} {left : Nat}

/-- What two budgets make of a name is related if both follow a chain of references from the name to
its end and do not differ behind a word, where fewer bytes are left. -/
theorem meaning_related_chain
    (base : ∀ left name, definitions.lookup name = none →
      related left name unresolved unresolved')
    (step : ∀ {left name body depth depth'}, definitions.lookup name = some body →
      let named := definitions.meaning interpret unresolved depth
      let named' := definitions.meaning interpret unresolved' depth'
      (∀ inner ∈ direct body, related left inner (named inner) (named' inner)) →
      (∀ less, less + 4 ≤ left → ∀ inner, related less inner (named inner) (named' inner)) →
      related left name (interpret named body) (interpret named' body))
    {behind : Nat}
    (hbehind : ∀ less, less + 4 ≤ left → ∀ {depth depth'}, behind ≤ depth → behind ≤ depth' →
      ∀ name, related less name (definitions.meaning interpret unresolved depth name)
        (definitions.meaning interpret unresolved' depth' name))
    {chain depth depth' : Nat} (hdepth : chain + behind ≤ depth) (hdepth' : chain + behind ≤ depth')
    {name : String}
    (hends : ∀ body, definitions.lookup name = some body → Ends definitions direct chain name) :
    related left name (definitions.meaning interpret unresolved depth name)
      (definitions.meaning interpret unresolved' depth' name) := by
  -- each reference takes one from the chain and from both budgets
  induction chain generalizing depth depth' name with
  | zero =>
      have hnone : definitions.lookup name = none := by
        cases hbody : definitions.lookup name with
        | none => rfl
        | some body => exact False.elim (hends body hbody)
      rw [meaning_of_none hnone, meaning_of_none hnone]
      exact base left name hnone
  | succ chain ih =>
      cases hbody : definitions.lookup name with
      | none =>
          rw [meaning_of_none hbody, meaning_of_none hbody]
          exact base left name hbody
      | some body =>
          obtain ⟨depth, rfl⟩ := Nat.exists_eq_add_of_le' (show 1 ≤ depth by omega)
          obtain ⟨depth', rfl⟩ := Nat.exists_eq_add_of_le' (show 1 ≤ depth' by omega)
          rw [meaning_succ _ _ _ _ hbody, meaning_succ _ _ _ _ hbody]
          obtain ⟨found, hfound, hinner⟩ := hends body hbody
          obtain rfl := Option.some.inj (hfound.symm.trans hbody)
          refine step hbody (fun inner hmem => ?_) fun less hless inner => ?_
          · exact ih (by omega) (by omega) fun _ _ => hinner inner hmem
          · exact hbehind less hless (by omega) (by omega) inner

/-- What two budgets make of a name is related if both follow one chain of references at the start
and one behind each of the words that are left, and if interpreting a body relates what it makes of
related meanings: of those it mentions directly with as many bytes left, and of all others behind a
word. -/
theorem meaning_related (hguarded : definitions.Guarded direct)
    (base : ∀ left name, definitions.lookup name = none →
      related left name unresolved unresolved')
    (step : ∀ {left name body depth depth'}, definitions.lookup name = some body →
      let named := definitions.meaning interpret unresolved depth
      let named' := definitions.meaning interpret unresolved' depth'
      (∀ inner ∈ direct body, related left inner (named inner) (named' inner)) →
      (∀ less, less + 4 ≤ left → ∀ inner, related less inner (named inner) (named' inner)) →
      related left name (interpret named body) (interpret named' body))
    (left : Nat) {depth depth' : Nat}
    (hdepth : definitions.length + definitions.length * (left / 4) ≤ depth)
    (hdepth' : definitions.length + definitions.length * (left / 4) ≤ depth') (name : String) :
    related left name (definitions.meaning interpret unresolved depth name)
      (definitions.meaning interpret unresolved' depth' name) := by
  induction left using Nat.strongRecOn generalizing depth depth' name with
  | ind left ih =>
      refine meaning_related_chain base step (fun less hless depth depth' hle hle' name => ?_)
        hdepth hdepth' (hguarded name)
      -- behind a word there is one chain less to follow
      have hbudget : definitions.length * (less / 4 + 1) ≤ definitions.length * (left / 4) :=
        Nat.mul_le_mul_left _ (by omega)
      rw [Nat.mul_succ] at hbudget
      exact ih less (by omega) (by omega) (by omega) name

end

/-- One chain at the start and one behind each part stay within the budget of the model. -/
theorem budget_le (definitions : Definitions τ) {parts budget : Nat} (h : parts + 1 ≤ budget) :
    definitions.length + definitions.length * parts ≤ (definitions.length + 1) * budget :=
  calc definitions.length + definitions.length * parts
      = definitions.length * (parts + 1) := by rw [Nat.mul_succ, Nat.add_comm]
    _ ≤ (definitions.length + 1) * budget := Nat.mul_le_mul (Nat.le_succ _) h

end Xdr.Definitions
