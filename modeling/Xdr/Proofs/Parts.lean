/-!
# Parts of a whole

Compound data have their parts one after the other. `Parts` relates the kinds of the parts, the
parts, and what the parts come to together, be it bytes or anything else that can be put in a row.
-/

namespace Xdr

universe u

/-- Each item has this relation to its kind and to what it comes to, and the whole is all of that in
order. -/
inductive Parts {τ ν μ : Type} [EmptyCollection μ] [Append μ] (R : τ → ν → μ → Prop) :
    List τ → List ν → μ → Prop where
  | nil : Parts R [] [] ∅
  | cons {kind kinds item items front back} : R kind item front → Parts R kinds items back →
      Parts R (kind :: kinds) (item :: items) (front ++ back)

namespace Parts

variable {τ ν μ : Type} [EmptyCollection μ] [Append μ] {R S : τ → ν → μ → Prop} {kinds : List τ}
  {items : List ν} {whole : μ}

theorem length_eq (h : Parts R kinds items whole) : kinds.length = items.length := by
  induction h with
  | nil => rfl
  | cons _ _ ih => rw [List.length_cons, List.length_cons, ih]

/-- The relation may be replaced where it concerns these kinds and items, and what weighs no more
than the whole. -/
theorem imp_of_mem (h : Parts R kinds items whole) (weight : μ → Nat)
    (hweight : ∀ front back, weight (front ++ back) = weight front + weight back)
    (himp : ∀ kind ∈ kinds, ∀ item ∈ items, ∀ front, weight front ≤ weight whole →
      R kind item front → S kind item front) : Parts S kinds items whole := by
  induction h with
  | nil => exact .nil
  | cons hhead _ ih =>
      rw [hweight] at himp
      refine .cons (himp _ List.mem_cons_self _ List.mem_cons_self _ (by omega) hhead) (ih ?_)
      intro kind hkind item hitem front hle
      exact himp kind (List.mem_cons_of_mem _ hkind) item (List.mem_cons_of_mem _ hitem) front
        (by omega)

theorem imp (h : Parts R kinds items whole)
    (himp : ∀ {kind item front}, R kind item front → S kind item front) :
    Parts S kinds items whole :=
  h.imp_of_mem (fun _ => 0) (fun _ _ => rfl) fun _ _ _ _ _ _ hR => himp hR

/-- What the relation says of a kind holds of each of the kinds. -/
theorem forall_kind {P : τ → Prop} (h : Parts R kinds items whole)
    (himp : ∀ {kind item front}, R kind item front → P kind) : ∀ kind ∈ kinds, P kind := by
  induction h with
  | nil => exact fun _ hmem => absurd hmem List.not_mem_nil
  | cons hhead _ ih =>
      intro kind hmem
      rcases List.mem_cons.mp hmem with rfl | hmem
      · exact himp hhead
      · exact ih kind hmem

end Parts

/-- Items that all go with the same are taken one by one. -/
theorem zipWith_replicate_left {α β : Type} {γ : Type u} (f : α → β → γ) {same : α} {length : Nat}
    {items : List β} (h : length = items.length) :
    List.zipWith f (List.replicate length same) items = items.map (f same) := by
  subst h
  induction items with
  | nil => rfl
  | cons item items ih =>
      rw [List.length_cons, List.replicate_succ, List.zipWith_cons_cons, ih, List.map_cons]

end Xdr
