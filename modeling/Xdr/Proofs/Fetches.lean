import Xdr.Proofs.Chunks
import Xdr.Proofs.Fetching
import Xdr.Proofs.Serving

/-!
# What readings fetch

A reading fetches what is said of it if, on bytes that are enough for it, its requests are the calls
of what is fetched (`Reading.Fetches`). The statement to read first is `fetches_andThen`: what two
readings fetch in a row is what the first fetches and, unless it was refused, what the second does.
-/

namespace Xdr

open Reading in
/-- The portions of a reading are these chunks. -/
theorem chunkSizes_eq_portions (total : Nat) : chunkSizes total = portions total := by
  have hfull : ∀ count, 65536 * count ≤ total →
      (List.range count).map (fun index => min 65536 (total - 65536 * index)) =
        List.replicate count 65536 := by
    intro count hcount
    refine List.eq_replicate_iff.mpr ⟨by simp, fun size hsize => ?_⟩
    obtain ⟨index, hindex, rfl⟩ := List.mem_map.mp hsize
    have hlt := List.mem_range.mp hindex
    omega
  unfold chunkSizes portions portionSize
  split
  · next hmod =>
      rw [show (total + 65535) / 65536 = total / 65536 by omega, hfull _ (by omega),
        List.append_nil]
  · next hmod =>
      rw [show (total + 65535) / 65536 = total / 65536 + 1 by omega, List.range_succ,
        List.map_append, hfull _ (by omega), List.map_cons, List.map_nil]
      congr 2
      omega

/-- Data of 65533 bytes with their padding are one chunk, and data of 65537 bytes are two. -/
example : chunkSizes (65533 + padLength 65533) = [65536] ∧
    chunkSizes (65537 + padLength 65537) = [65536, 4] := by decide

/-- The error of a reading that was refused. -/
def Served.error {α : Type} (served : Served α) : Option Error :=
  match served.result with
  | .ok _ => none
  | .error error => some error

namespace Reading

variable {κ μ α β : Type} {policy : PaddingPolicy} {left : Nat} {R S : Fetching}

/-- Where no more than this many bytes are left and each request is satisfied in full, the requests
of the reading are the calls of what it fetches. -/
def Fetches (policy : PaddingPolicy) (left : Nat) (reading : Reading κ α) (R : Fetching) : Prop :=
  ∀ ⦃wire served⦄, wire.length ≤ left → reading.serve policy wire = some served →
    ∃ fetches, R wire ⟨fetches, served.error, served.rest⟩ ∧
      served.requests = fetches.flatMap Fetch.calls

/-- A reading does not put bytes back. -/
theorem length_rest_le {reading : Reading κ α} {wire : List UInt8} {served : Served α}
    (h : reading.serve policy wire = some served) : served.rest.length ≤ wire.length := by
  induction reading generalizing wire with
  | done value =>
      cases h
      exact Nat.le_refl _
  | refuse refusal kept =>
      cases h
      exact Nat.le_refl _
  | request operation count untouched kept next ih =>
      rw [serve_request] at h
      split at h
      · obtain ⟨behind, hbehind, rfl⟩ := Option.map_eq_some_iff.mp h
        have hle := ih _ hbehind
        rw [List.length_drop] at hle
        exact hle.trans (Nat.sub_le _ _)
      · cases h
  | note event next ih => exact ih h
  | mark part next ih => exact ih h
  | checkPadding operation padding kept next ih =>
      rw [serve_checkPadding] at h
      split at h
      · exact ih h
      · cases h
        exact Nat.le_refl _
  | later next ih => exact ih () h
  | andThen first keep next ihFirst ihNext =>
      rw [serve_andThen] at h
      split at h
      · cases h
      · next requests value rest hfirst =>
          obtain ⟨behind, hbehind, rfl⟩ := Option.map_eq_some_iff.mp h
          exact (ihNext value hbehind).trans (ihFirst hfirst)
      · next requests error rest hfirst =>
          cases h
          exact ihFirst hfirst

theorem Fetches.mono {reading : Reading κ α} (h : reading.Fetches policy left R)
    (hmono : ∀ {wire fetched}, R wire fetched → S wire fetched) :
    reading.Fetches policy left S := by
  intro wire served hleft hserve
  obtain ⟨fetches, hR, hrequests⟩ := h hleft hserve
  exact ⟨fetches, hmono hR, hrequests⟩

theorem fetches_done (value : α) :
    (done value : Reading κ α).Fetches policy left (.nothing none) := by
  rintro wire _ - ⟨⟩
  exact ⟨[], rfl, rfl⟩

theorem fetches_refuse (refusal : Refusal) (kept : κ) :
    (refuse refusal kept : Reading κ α).Fetches policy left (.nothing (some refusal.error)) := by
  rintro wire _ - ⟨⟩
  exact ⟨[], rfl, rfl⟩

/-- Two readings in a row fetch what the first does and, unless it ends with an error, what the
second does. -/
theorem fetches_andThen {first : Reading κ α} {keep : κ → μ} {next : α → Reading μ β}
    (h : first.Fetches policy left R) (hnext : ∀ value, (next value).Fetches policy left S) :
    (first.andThen keep next).Fetches policy left (R.Then S) := by
  intro wire served hleft hserve
  rw [serve_andThen] at hserve
  split at hserve
  · cases hserve
  · next requests value rest hfirst =>
      obtain ⟨behind, hbehind, rfl⟩ := Option.map_eq_some_iff.mp hserve
      obtain ⟨front, hR, rfl⟩ := h hleft hfirst
      obtain ⟨back, hS, hback⟩ := hnext value ((length_rest_le hfirst).trans hleft) hbehind
      refine ⟨front ++ back, .both hR hS, ?_⟩
      rw [List.flatMap_append, ← hback]
      rfl
  · next requests error rest hfirst =>
      cases hserve
      obtain ⟨front, hR, rfl⟩ := h hleft hfirst
      exact ⟨front, .first hR, rfl⟩

/-- Nothing is added by what fetches nothing. -/
theorem Fetches.andThen_nothing {first : Reading κ α} (h : first.Fetches policy left R)
    {keep : κ → μ} {next : α → Reading μ β}
    (hnext : ∀ value, (next value).Fetches policy left (.nothing none)) :
    (first.andThen keep next).Fetches policy left R := by
  refine (fetches_andThen h hnext).mono fun hthen => ?_
  cases hthen with
  | both hR hnothing =>
      cases hnothing
      simpa [Fetched.behind] using hR
  | first hR => exact hR

theorem Fetches.map {reading : Reading κ α} (h : reading.Fetches policy left R) (keep : κ → μ)
    (change : α → β) : (reading.map keep change).Fetches policy left R :=
  h.andThen_nothing fun value => fetches_done (change value)

/-- What follows a reading that is seen through `change` follows the reading. -/
theorem fetches_map_andThen {ν : Type} {reading : Reading κ α} (h : reading.Fetches policy left R)
    {keep : κ → μ} {change : α → β} {keepThen : μ → ν} {γ : Type} {next : β → Reading ν γ}
    (hnext : ∀ value, (next (change value)).Fetches policy left S) :
    ((reading.map keep change).andThen keepThen next).Fetches policy left (R.Then S) := by
  have hdirect : (reading.andThen (keepThen ∘ keep) fun value => next (change value)).Fetches
      policy left (R.Then S) := fetches_andThen h hnext
  intro wire served hleft hserve
  refine hdirect hleft ?_
  rw [← hserve, map, serve_andThen, serve_andThen, serve_andThen]
  rcases serve policy reading wire with _ | ⟨requests, error | value, rest⟩
  · rfl
  · rfl
  · simp [Served.behind]

theorem Fetches.later {next : Unit → Reading κ α} (h : (next ()).Fetches policy left R) :
    (later next).Fetches policy left R :=
  fun _ _ hleft hserve => h hleft hserve

theorem Fetches.mark {part : Part} {next : Reading κ α} (h : next.Fetches policy left R) :
    (mark part next).Fetches policy left R :=
  fun _ _ hleft hserve => h hleft hserve

/-- What follows a word may depend on it. -/
theorem fetches_word {operation : Operation} {kept : κ} {next : UInt32 → Reading κ α}
    (h : ∀ w, (next w).Fetches policy left
      fun wire fetched => R (wordImage w ++ wire) (fetched.behind [.word])) :
    (word operation kept next).Fetches policy left R := by
  intro wire served hleft hserve
  rw [word, serve_request] at hserve
  split at hserve
  · next hlength =>
      obtain ⟨behind, hbehind, rfl⟩ := Option.map_eq_some_iff.mp hserve
      have hword : wordImage (wordOfImage (wire.take 4)) = wire.take 4 :=
        wordImage_wordOfImage (List.length_take_of_le hlength)
      obtain ⟨back, hR, hback⟩ := h _ (by rw [List.length_drop]; omega) hbehind
      rw [hword, List.take_append_drop] at hR
      refine ⟨.word :: back, hR, ?_⟩
      rw [List.flatMap_cons, ← hback]
      rfl
  · cases hserve

/-- Ask for some bytes. -/
def asking (count : Nat) (kept : κ) (value : α) : Reading κ α :=
  request .user count kept kept fun _ => done value

/-- More bytes than there are do not arrive. -/
theorem fetches_asking {kept : κ} {value : α} :
    (asking (left + 1) kept value).Fetches policy left R := by
  intro wire served hleft hserve
  rw [asking, serve_request, if_neg (by omega)] at hserve
  cases hserve

/-- The error that a run stopped with, if it did. -/
def errorOf : Except (Stopped κ) α → Option Error
  | .ok _ => none
  | .error stopped => some stopped.error

/-- What a run fetches on a decoder that is not poisoned, where its calls are satisfied in full. -/
theorem Fetches.of_run {reading : Reading κ α} {decoder after : Decoder}
    {result : Except (Stopped κ) α}
    (h : reading.Fetches decoder.config.padding decoder.transport.rest.length R)
    (husable : decoder.poisoned = false) (hrun : reading.run decoder = (result, after))
    (hfull : decoder.transport.account.InFull after.transport.account) :
    ∃ fetches, R decoder.transport.rest
        ⟨fetches, errorOf result, after.transport.rest⟩ ∧
      after.transport.requests.toList =
        decoder.transport.requests.toList ++ fetches.flatMap Fetch.calls := by
  obtain ⟨requests, hserve, hrequests, -⟩ := serve_of_run husable hrun hfull
  obtain ⟨fetches, hR, rfl⟩ := h (Nat.le_refl _) hserve
  refine ⟨fetches, ?_, hrequests⟩
  cases result <;> exact hR

/-! ### Items -/

/-- Behind a word there is nothing but a check of it. -/
theorem fetches_checked {operation : Operation} {kept : κ} {next : UInt32 → Reading κ α}
    {check : UInt32 → Option Error}
    (h : ∀ w, (next w).Fetches policy left (.nothing (check w))) :
    (word operation kept next).Fetches policy left (Scalar.Fetches policy (.word check)) := by
  refine fetches_word fun w => (h w).mono ?_
  rintro wire _ rfl
  exact .word check w wire

theorem fetches_hyper {operation : Operation} {kept : κ} {value : UInt64 → α} :
    (hyper operation kept fun h => done (value h) : Reading κ α).Fetches policy left
      (Scalar.Fetches policy .hyper) := by
  intro wire served hleft hserve
  rw [hyper, serve_request] at hserve
  split at hserve
  · next hlength =>
      cases hserve
      have hhyper : hyperImage (hyperOfImage (wire.take 8)) = wire.take 8 :=
        hyperImage_hyperOfImage (List.length_take_of_le hlength)
      refine ⟨[.hyper], ?_, rfl⟩
      have hfetches : Scalar.Fetches policy .hyper _ _ :=
        .hyper (hyperOfImage (wire.take 8)) (wire.drop 8)
      rwa [hhyper, List.take_append_drop] at hfetches
  · cases hserve

/-- Bytes that are enough for data and padding begin with data and padding. -/
theorem exists_padded {length : Nat} {wire : List UInt8}
    (h : length + padLength length ≤ wire.length) :
    ∃ data padding rest, wire = data ++ padding ++ rest ∧ length = data.length ∧
      padding.length = padLength data.length := by
  refine ⟨wire.take length, (wire.drop length).take (padLength length),
    wire.drop (length + padLength length), ?_, ?_, ?_⟩
  · rw [← List.take_add, List.take_append_drop]
  · rw [List.length_take_of_le (by omega)]
  · rw [List.length_take_of_le (by rw [List.length_drop]; omega),
      List.length_take_of_le (by omega)]

/-- Padding is checked without a request. -/
theorem fetches_checkPadding {operation : Operation} {padding : List UInt8} {kept : κ}
    {next : Reading κ α} {error : Option Error} (h : next.Fetches policy left (.nothing error)) :
    (checkPadding operation padding kept next).Fetches policy left
      (.nothing (policy.refusal padding error)) := by
  intro wire served hleft hserve
  rw [serve_checkPadding] at hserve
  unfold PaddingPolicy.refusal
  split at hserve
  · next haccepts =>
      rw [if_pos haccepts]
      exact h hleft hserve
  · next hrefused =>
      rw [if_neg hrefused]
      cases hserve
      exact ⟨[], rfl, rfl⟩

/-- Opaque data and their padding are one request. -/
theorem fetches_fixedOpaque {length : Nat} {kept : κ} {next : List UInt8 → Reading κ α}
    {check : List UInt8 → Option Error}
    (h : ∀ data, (next data).Fetches policy left (.nothing (check data))) :
    (fixedOpaque length kept next).Fetches policy left
      (Scalar.Fetches policy (.fixedOpaque length check)) := by
  intro wire served hleft hserve
  rw [fixedOpaque, serve_request] at hserve
  split at hserve
  · next hlength =>
      obtain ⟨behind, hbehind, rfl⟩ := Option.map_eq_some_iff.mp hserve
      obtain ⟨data, padding, rest, rfl, rfl, hpadding⟩ := exists_padded hlength
      have htotal : data.length + padLength data.length = (data ++ padding).length := by
        rw [List.length_append, hpadding]
      simp only [htotal, List.take_left, List.drop_left] at hbehind
      obtain ⟨fetches, hnothing, hnone⟩ :=
        fetches_checkPadding (h data) (show rest.length ≤ left by simp at hleft; omega) hbehind
      obtain ⟨rfl, herror, rfl⟩ := Fetched.mk.inj hnothing
      have hfetches : Scalar.Fetches policy (.fixedOpaque data.length check) _ _ :=
        .fixedOpaque check behind.rest hpadding
      rw [← herror] at hfetches
      refine ⟨[.fixedOpaque data.length], hfetches, ?_⟩
      have hzero : data.length + padLength data.length = 0 ↔ data.length = 0 :=
        ⟨fun h => by omega, fun h => by rw [h]; rfl⟩
      rw [Served.behind, hnone, List.flatMap_nil, List.append_nil, List.flatMap_singleton,
        Fetch.calls]
      simp only [hzero]
  · cases hserve

/-- The requests for portions are those for their sizes. -/
theorem serve_collect {operation : Operation} {sizes : List Nat} (hsizes : ∀ size ∈ sizes, size ≠ 0)
    (got : List (List UInt8)) (wire : List UInt8) :
    serve policy (collect operation sizes got) wire =
      if sizes.sum ≤ wire.length then
        some ⟨sizes, .ok (got.reverse.flatten ++ wire.take sizes.sum), wire.drop sizes.sum⟩
      else none := by
  induction sizes generalizing got wire with
  | nil => simp [collect]
  | cons size sizes ih =>
      obtain ⟨hsize, hsizes⟩ := List.forall_mem_cons.mp hsizes
      rw [collect, serve_request, List.sum_cons]
      by_cases hfirst : size ≤ wire.length
      · rw [if_pos hfirst, ih hsizes, List.length_drop, if_neg hsize]
        by_cases hall : sizes.sum ≤ wire.length - size
        · rw [if_pos hall, if_pos (by omega)]
          simp [Served.behind, List.take_add]
        · rw [if_neg hall, if_neg (by omega)]
          rfl
      · rw [if_neg hfirst, if_neg (by omega)]

theorem ne_zero_of_mem_portions {total size : Nat} (h : size ∈ portions total) : size ≠ 0 := by
  rcases List.mem_append.mp h with hfull | hlast
  · rw [List.eq_of_mem_replicate hfull]
    decide
  · split at hlast
    · cases hlast
    · next hmod => exact List.mem_singleton.mp hlast ▸ hmod

/-- Data behind their length are a request for the length and one for each portion. -/
theorem serve_sized {kind : SizedKind} {max : UInt32} {buffer wire : List UInt8}
    {served : Served (List UInt8)} (h : serve policy (sized kind max buffer) wire = some served) :
    ∃ w rest, wire = wordImage w ++ rest ∧
      (max < w ∧ served = ⟨[4], .error (.lengthExceeded max w.toNat), rest⟩ ∨
        w ≤ max ∧ ∃ data padding behind, rest = data ++ padding ++ behind ∧
          data.length = w.toNat ∧ padding.length = padLength data.length ∧
          served = ⟨4 :: portions (data.length + padLength data.length),
            if policy.accepts padding then .ok data else .error .invalidPadding, behind⟩) := by
  unfold sized at h
  rw [serve_request] at h
  split at h
  · next hlength =>
      obtain ⟨behind, hbehind, rfl⟩ := Option.map_eq_some_iff.mp h
      refine ⟨wordOfImage (wire.take 4), wire.drop 4, ?_, ?_⟩
      · rw [wordImage_wordOfImage (List.length_take_of_le hlength), List.take_append_drop]
      generalize wordOfImage (wire.take 4) = w at hbehind
      generalize wire.drop 4 = rest at hbehind
      dsimp only at hbehind
      split at hbehind
      · next hmax =>
          rw [serve_note, serve_andThen, serve_collect (fun _ => ne_zero_of_mem_portions),
            sum_portions]
            at hbehind
          by_cases hlength : w.toNat + padLength w.toNat ≤ rest.length
          · obtain ⟨data, padding, behind', rfl, hdata, hpadding⟩ := exists_padded hlength
            have htotal : data.length + padLength data.length = (data ++ padding).length := by
              rw [List.length_append, hpadding]
            rw [hdata] at hlength
            rw [hdata, if_pos hlength] at hbehind
            simp only [htotal, List.take_left, List.drop_left, List.reverse_nil, List.flatten_nil,
              List.nil_append, serve_checkPadding, serve_done] at hbehind
            refine .inr ⟨hmax, data, padding, behind', rfl, hdata.symm, hpadding, ?_⟩
            rw [htotal]
            split at hbehind <;> cases hbehind
            · next haccepts => simp [Served.behind, haccepts]
            · next hrefused => simp [Served.behind, hrefused]
          · rw [if_neg hlength] at hbehind
            cases hbehind
      · next hmax =>
          cases hbehind
          exact .inl ⟨UInt32.not_le.mp hmax, rfl⟩
  · cases h

/-- So are data that are checked. -/
theorem fetches_sized_then {kind : SizedKind} {max : UInt32} {buffer : List UInt8}
    {keep : List UInt8 → μ} {next : List UInt8 → Reading μ β} {check : List UInt8 → Option Error}
    (h : ∀ data, (next data).Fetches policy left (.nothing (check data))) :
    ((sized kind max buffer).andThen keep next).Fetches policy left
      (Scalar.Fetches policy (.sized max check)) := by
  intro wire served hleft hserve
  rw [serve_andThen] at hserve
  rcases hsized : serve policy (sized kind max buffer) wire with _ | ended
  · rw [hsized] at hserve
    cases hserve
  · obtain ⟨w, rest, rfl, hover | ⟨hmax, data, padding, behind, rfl, hw, hpadding, hended⟩⟩ :=
      serve_sized hsized
    · obtain ⟨hover, rfl⟩ := hover
      rw [hsized] at hserve
      cases hserve
      exact ⟨[.word], .overlong check rest hover, rfl⟩
    · have hfetches : Scalar.Fetches policy (.sized max check) _ _ :=
        .sized check behind hmax hw hpadding
      unfold PaddingPolicy.refusal at hfetches
      rw [hsized, hended, ← chunkSizes_eq_portions] at hserve
      split at hserve
      · cases hserve
      · next requests value after hok =>
          obtain ⟨rfl, hresult, rfl⟩ := Served.mk.inj (Option.some.inj hok)
          obtain ⟨last, hlast, rfl⟩ := Option.map_eq_some_iff.mp hserve
          split at hresult
          · next haccepts =>
              obtain rfl := Except.ok.inj hresult
              obtain ⟨fetches, hnothing, hnone⟩ :=
                h data (show behind.length ≤ left by simp at hleft; omega) hlast
              obtain ⟨rfl, herror, rfl⟩ := Fetched.mk.inj hnothing
              rw [if_pos haccepts, ← herror] at hfetches
              refine ⟨[.sized data.length], hfetches, ?_⟩
              rw [Served.behind, hnone, List.flatMap_nil, List.append_nil, List.flatMap_singleton,
                Fetch.calls]
          · cases hresult
      · next requests error after herror =>
          cases hserve
          obtain ⟨rfl, hresult, rfl⟩ := Served.mk.inj (Option.some.inj herror)
          split at hresult
          · cases hresult
          · next hrefused =>
              obtain rfl := Except.error.inj hresult
              rw [if_neg hrefused] at hfetches
              refine ⟨[.sized data.length], hfetches, ?_⟩
              rw [List.flatMap_singleton, Fetch.calls]

theorem fetches_sized {kind : SizedKind} {max : UInt32} {buffer : List UInt8} :
    (sized kind max buffer).Fetches policy left
      (Scalar.Fetches policy (.sized max fun _ => none)) := by
  have hchecked : ((sized kind max buffer).andThen id done).Fetches policy left
      (Scalar.Fetches policy (.sized max fun _ => none)) :=
    fetches_sized_then fun data => fetches_done data
  intro wire served hleft hserve
  refine hchecked hleft ?_
  rw [serve_andThen, hserve]
  obtain ⟨requests, error | value, rest⟩ := served
  · rfl
  · simp [Served.behind]

/-- So are the bytes of a string. -/
theorem fetches_string {max : UInt32} {kept : κ} :
    (string max kept).Fetches policy left (Scalar.Fetches policy (.sized max checkText)) := by
  refine fetches_sized_then fun data => ?_
  unfold checkText
  split
  · next htext =>
      rw [htext]
      exact fetches_done _
  · next htext =>
      rw [htext]
      exact fetches_refuse _ kept

theorem fetches_bool {kept : κ} {value : Bool → α} :
    (bool kept fun b => done (value b)).Fetches policy left
      (Scalar.Fetches policy (.word checkBool)) := by
  refine fetches_checked fun w => ?_
  unfold checkBool
  split
  · next hzero =>
      rw [if_pos (.inl hzero)]
      exact fetches_done _
  · next hzero =>
      split
      · next hone =>
          rw [if_pos (.inr hone)]
          exact fetches_done _
      · next hone =>
          rw [if_neg (by simp [hzero, hone])]
          exact fetches_refuse _ kept

theorem fetches_length {max : UInt32} {kept : κ} {value : UInt32 → α} :
    (length max kept fun w => done (value w)).Fetches policy left
      (Scalar.Fetches policy (.word (checkLength max))) := by
  refine fetches_checked fun w => ?_
  unfold checkLength
  split
  · exact fetches_done _
  · exact fetches_refuse _ kept

/-! ### Rows -/

section

variable {τ : Type} {F : τ → Fetching}

open Fetching

theorem fetches_emptyRow (value : α) :
    (done value : Reading κ α).Fetches policy left (Row F []) := by
  refine (fetches_done value).mono ?_
  rintro wire _ rfl
  exact .nil

/-- Values that are read in order are fetched in a row. -/
theorem fetches_inOrder {kinds : List τ} {pairs : List (α × Reading α α)}
    (h : List.Forall₂ (fun kind pair => pair.2.Fetches policy left (F kind)) kinds pairs)
    (finished : List α) : (inOrder pairs finished).Fetches policy left (Row F kinds) := by
  induction h generalizing finished with
  | nil => exact fetches_emptyRow _
  | cons hhead _ ih => exact (fetches_andThen hhead fun value => ih _).mono Row.of_then

/-- So are elements behind a count. -/
theorem fetches_replicate {kind : τ} {reading : Reading α α}
    (h : reading.Fetches policy left (F kind)) (count : Nat) (finished : List α) :
    (replicate reading count finished).Fetches policy left
      (Row F (List.replicate count kind)) := by
  induction count generalizing finished with
  | zero => exact fetches_emptyRow _
  | succ count ih => exact (fetches_andThen h fun value => (ih _).mark).mono Row.of_then

end

end Reading

namespace Elements

open Reading Fetching

variable {α τ : Type} {policy : PaddingPolicy} {left : Nat} {F : τ → Fetching}

/-- Elements that are all needed are fetched in a row as far as they are announced. -/
theorem fetches_each {kinds : List τ} {elements : List (Reading Unit α)}
    (h : List.Forall₂ (fun kind element => element.Fetches policy left (F kind)) kinds elements)
    (index remaining : Nat) (values : List α) :
    (each elements index remaining values).Fetches policy left fun wire fetched =>
      ∃ found, Row F (kinds.take remaining) wire found ∧
        fetched = found.orElse
          (if remaining < kinds.length then some (missing (index + remaining)) else none) := by
  induction h generalizing index remaining values with
  | nil =>
      refine (fetches_done _).mono ?_
      rintro wire _ rfl
      rw [List.take_nil]
      exact ⟨_, .nil, rfl⟩
  | @cons kind element kinds elements hhead _ ih =>
      cases remaining with
      | zero =>
          rintro wire served - hserve
          rw [each, next, serve_andThen, serve_done] at hserve
          cases hserve
          exact ⟨[], ⟨_, .nil, rfl⟩, rfl⟩
      | succ remaining =>
          rw [each, next]
          refine Fetches.mono (fetches_map_andThen hhead fun value =>
            ih (index + 1) remaining (value :: values)) ?_
          intro wire fetched hthen
          rw [List.take_succ_cons]
          cases hthen with
          | both hkind hrest =>
              obtain ⟨found, hrow, rfl⟩ := hrest
              refine ⟨_, .cons hkind hrow, ?_⟩
              simp only [List.length_cons, Nat.add_lt_add_iff_right,
                show index + 1 + remaining = index + (remaining + 1) by omega]
              rfl
          | first hkind => exact ⟨_, .stop hkind, rfl⟩

/-- Elements are fetched one after the other until they end or no more are asked for. -/
theorem fetches_visit {kinds : List τ} {element : Reading Unit α}
    (h : element.Fetches policy left (Row F kinds)) (requests remaining : Nat) (values : List α)
    (hints : List Nat) :
    (visit element requests remaining values hints).Fetches policy left
      (Row F (List.replicate (min requests remaining) kinds).flatten) := by
  induction requests generalizing remaining values hints with
  | zero =>
      rw [Nat.zero_min]
      exact fetches_emptyRow _
  | succ requests ih =>
      cases remaining with
      | zero =>
          rintro wire served - hserve
          rw [visit, next, serve_andThen, serve_done] at hserve
          cases hserve
          exact ⟨[], .nil, rfl⟩
      | succ remaining =>
          rw [Nat.succ_min_succ, List.replicate_succ, List.flatten_cons]
          rw [visit, next]
          exact Fetches.mono (fetches_map_andThen h fun value =>
            ih remaining (value :: values) (_ :: hints)) Row.append

end Elements

/-! ### Openings -/

namespace Opening

open Reading Fetching

variable {τ κ α : Type} {opening : τ → Option (Opening τ)} {policy : PaddingPolicy} {left : Nat}
  {kind : τ}

/-- What fetches a leaf is fetched as such. -/
theorem fetches_leaf {leaf : Scalar} (hopen : opening kind = some (.leaf leaf))
    {reading : Reading κ α} (h : reading.Fetches policy left (leaf.Fetches policy)) :
    reading.Fetches policy left (Fetches opening policy kind) :=
  h.mono (.leaf hopen)

/-- So is what fetches a row. -/
theorem fetches_row {kinds : List τ} (hopen : opening kind = some (.row kinds none))
    {reading : Reading κ α}
    (h : reading.Fetches policy left (Row (Fetches opening policy) kinds)) :
    reading.Fetches policy left (Fetches opening policy kind) := by
  refine h.mono fun {wire fetched} hrow => ?_
  rw [← fetched.orElse_none]
  exact .row hopen hrow

/-- What fetches nothing is an empty row. -/
theorem fetches_nothing {error : Option Error} (hopen : opening kind = some (.row [] error))
    {reading : Reading κ α} (h : reading.Fetches policy left (.nothing error)) :
    reading.Fetches policy left (Fetches opening policy kind) := by
  refine h.mono ?_
  rintro wire _ rfl
  exact .row hopen .nil

/-- Behind a word, what the word says is fetched in a row. -/
theorem fetches_word {behind : UInt32 → Except Error (List τ)}
    (hopen : opening kind = some (.word behind)) {operation : Operation} {kept : κ}
    {next : UInt32 → Reading κ α}
    (h : ∀ w, (next w).Fetches policy left
      (match behind w with
        | .ok kinds => Row (Fetches opening policy) kinds
        | .error error => nothing (some error))) :
    (Reading.word operation kept next).Fetches policy left (Fetches opening policy kind) := by
  refine Reading.fetches_word fun w => (h w).mono fun {wire fetched} hbehind => ?_
  cases hw : behind w with
  | ok kinds =>
      rw [hw] at hbehind
      exact .behind hopen hw hbehind
  | error error =>
      rw [hw] at hbehind
      cases hbehind
      exact .refused wire hopen hw

end Opening

end Xdr
