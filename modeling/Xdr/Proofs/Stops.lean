import Xdr.Proofs.Acceptance.Items
import Xdr.Proofs.Stream.Filter

/-!
# Where readings stop

`Reading.Stops` says what a reading keeps of its target on a wire on which it fails, when nothing
but the bytes is in its way. There is one lemma for each kind of reading that says where it can
stop. The statement to read first is `stops_andThen`: of two readings the first stops, or the second
stops behind bytes that the first accepts.
-/

namespace Xdr

namespace Reading

variable {κ μ α β : Type} {policy : PaddingPolicy} {wire : List UInt8} {kept : κ}

/-- The reading fails on this wire, on a decoder that can go on as long as there are bytes, and
keeps this. -/
def Stops (policy : PaddingPolicy) (reading : Reading κ α) (wire : List UInt8) (kept : κ) : Prop :=
  ∃ decoder : Decoder, decoder.Ready ∧ decoder.config.padding = policy ∧
    decoder.transport.rest = wire ∧
    ∃ error after, reading.run decoder = (.error ⟨error, kept⟩, after)

/-- A reading does not stop on a wire that begins with bytes that it accepts. -/
theorem Stops.not_accepts {reading : Reading κ α} {front back : List UInt8} {value : α}
    (h : reading.Stops policy (front ++ back) kept) : ¬ reading.Accepts policy front value := by
  obtain ⟨decoder, hready, rfl, hrest, error, after, hrun⟩ := h
  intro haccepts
  obtain ⟨after', hrun', -⟩ := run_of_accepts hready hrest haccepts
  cases hrun.symm.trans hrun'

/-! ### Each kind of reading -/

theorem not_stops_done {value : α} : ¬ (done value : Reading κ α).Stops policy wire kept := by
  intro h
  obtain ⟨decoder, -, -, -, error, after, hrun⟩ := h
  cases hrun

theorem stops_refuse {refusal : Refusal} {left : κ}
    (h : (refuse refusal left : Reading κ α).Stops policy wire kept) : kept = left := by
  obtain ⟨decoder, -, -, -, error, after, hrun⟩ := h
  cases hrun
  rfl

theorem stops_fault {operation : Operation} {error : Error} {left : κ}
    (h : (fault operation error left : Reading κ α).Stops policy wire kept) : kept = left :=
  stops_refuse h

/-- A request stops where there are too few bytes, and after that only the rest can. -/
theorem stops_request {operation : Operation} {count : Nat} {untouched left : κ}
    {next : List UInt8 → Reading κ α}
    (h : (request operation count untouched left next).Stops policy wire kept) :
    wire.length < count ∧ kept = left ∨
      ∃ front back, wire = front ++ back ∧ front.length = count ∧
        (next front).Stops policy back kept := by
  obtain ⟨decoder, hready, hpolicy, rfl, error, after, hrun⟩ := h
  rw [run_request, if_neg (by simp [hready.usable]), Context.useTransport_eq] at hrun
  rcases Nat.lt_or_ge decoder.transport.rest.length count with hshort | hlong
  · refine .inl ⟨hshort, ?_⟩
    have hread := (Transport.Source.readExact_offers count
      (Transport.Source.offers_rest hready.unfailing)).1
    rw [if_neg (by omega)] at hread
    rw [hread] at hrun
    cases hrun
    rfl
  · obtain ⟨source, hread, hleft, hschedule⟩ := Transport.Source.readExact_unfailing
      hready.unfailing (List.take_append_drop count decoder.transport.rest).symm
    have hlength : (decoder.transport.rest.take count).length = count :=
      List.length_take_of_le hlong
    rw [hlength] at hread
    rw [hread] at hrun
    refine .inr ⟨_, _, (List.take_append_drop count _).symm, hlength, ?_⟩
    exact ⟨{ decoder with transport := source }, ⟨hready.usable, hschedule ▸ hready.unfailing⟩,
      hpolicy, hleft, error, after, hrun⟩

theorem stops_note {event : Event} {next : Reading κ α}
    (h : (note event next).Stops policy wire kept) : next.Stops policy wire kept := by
  obtain ⟨decoder, hready, hpolicy, hrest, hrun⟩ := h
  exact ⟨decoder.record event, ⟨hready.usable, hready.unfailing⟩, hpolicy, hrest, hrun⟩

theorem stops_mark {part : Part} {next : Reading κ α}
    (h : (mark part next).Stops policy wire kept) : next.Stops policy wire kept :=
  h

/-- Padding stops a reading where the policy does not accept it. -/
theorem stops_checkPadding {operation : Operation} {padding : List UInt8} {left : κ}
    {next : Reading κ α} (h : (checkPadding operation padding left next).Stops policy wire kept) :
    kept = left ∨ next.Stops policy wire kept := by
  obtain ⟨decoder, hready, hpolicy, hrest, error, after, hrun⟩ := h
  rw [run_checkPadding] at hrun
  split at hrun
  · exact .inr ⟨decoder, hready, hpolicy, hrest, error, after, hrun⟩
  · cases hrun
    exact .inl rfl

/-- Of two readings, the first stops, or the second stops behind what the first accepts. -/
theorem stops_andThen {first : Reading κ α} {keep : κ → μ} {next : α → Reading μ β} {kept : μ}
    (h : (first.andThen keep next).Stops policy wire kept) :
    (∃ inner, first.Stops policy wire inner ∧ kept = keep inner) ∨
      ∃ front back value, wire = front ++ back ∧ first.Accepts policy front value ∧
        (next value).Stops policy back kept := by
  obtain ⟨decoder, hready, hpolicy, hrest, error, after, hrun⟩ := h
  rw [run_andThen] at hrun
  rcases hfirst : first.run decoder with ⟨⟨inner, innerKept⟩ | value, between⟩ <;>
    rw [hfirst] at hrun
  · cases hrun
    exact .inl ⟨innerKept, ⟨decoder, hready, hpolicy, hrest, _, _, hfirst⟩, rfl⟩
  · obtain ⟨front, hfront, haccepts⟩ := accepts_of_run hfirst
    obtain ⟨between', hrun', hleft, hbetween⟩ := run_of_accepts hready hfront haccepts
    obtain ⟨-, rfl⟩ := Prod.mk.inj (hfirst.symm.trans hrun')
    have hconfig := first.run_config decoder
    rw [hfirst] at hconfig
    refine .inr ⟨front, _, value, hrest.symm.trans hfront, hpolicy ▸ haccepts, ?_⟩
    exact ⟨between, hbetween, hconfig ▸ hpolicy, hleft, error, after, hrun⟩

/-! ### Readings put together -/

theorem stops_map {keep : κ → μ} {change : α → β} {reading : Reading κ α} {kept : μ}
    (h : (reading.map keep change).Stops policy wire kept) :
    ∃ inner, reading.Stops policy wire inner ∧ kept = keep inner := by
  rcases stops_andThen h with h | ⟨_, _, _, _, _, hdone⟩
  · exact h
  · exact absurd hdone not_stops_done

/-- Of counted elements, one stops, and those in front of it were read. -/
theorem stops_replicate {reading : Reading α α} {count : Nat} {finished kept : List α}
    (h : (replicate reading count finished).Stops policy wire kept) :
    ∃ front back values left, values.length < count ∧ wire = front ++ back ∧
      AcceptsAll policy (List.replicate values.length reading) front values ∧
      reading.Stops policy back left ∧ kept = finished.reverse ++ values := by
  induction count generalizing wire finished with
  | zero => exact absurd h not_stops_done
  | succ count ih =>
      rcases stops_andThen h with ⟨left, hstops, rfl⟩ | ⟨first, rest, value, rfl, hfirst, hnext⟩
      · exact ⟨[], wire, [], left, Nat.succ_pos count, rfl, ⟨rfl, rfl⟩, hstops, by simp⟩
      · obtain ⟨front, back, values, left, hlength, rfl, hvalues, hstops, rfl⟩ :=
          ih (stops_mark hnext)
        exact ⟨first ++ front, back, value :: values, left, Nat.succ_lt_succ hlength,
          (List.append_assoc ..).symm, ⟨first, front, value, values, rfl, rfl, hfirst, hvalues⟩,
          hstops, by simp⟩

/-! ### Items -/

/-- A word stops where there are fewer than four bytes, and after that only the rest can. -/
theorem stops_word {operation : Operation} {left : κ} {next : UInt32 → Reading κ α}
    (h : (word operation left next).Stops policy wire kept) :
    wire.length < 4 ∧ kept = left ∨
      ∃ w rest, wire = wordImage w ++ rest ∧ (next w).Stops policy rest kept := by
  rcases stops_request h with h | ⟨front, rest, rfl, hlength, hnext⟩
  · exact .inl h
  · exact .inr ⟨wordOfImage front, rest, by rw [wordImage_wordOfImage hlength], hnext⟩

/-- A word or a hyper that is all there is to read keeps its target. -/
theorem stops_word_done {operation : Operation} {left : κ} {change : UInt32 → α}
    (h : (word operation left fun w => done (change w)).Stops policy wire kept) : kept = left := by
  rcases stops_word h with ⟨-, rfl⟩ | ⟨w, rest, -, hdone⟩
  · rfl
  · exact absurd hdone not_stops_done

theorem stops_hyper_done {operation : Operation} {left : κ} {change : UInt64 → α}
    (h : (hyper operation left fun h => done (change h)).Stops policy wire kept) : kept = left := by
  rcases stops_request h with ⟨-, rfl⟩ | ⟨front, rest, -, -, hdone⟩
  · rfl
  · exact absurd hdone not_stops_done

theorem stops_bool_done {left : κ} {change : Bool → α}
    (h : (bool left fun value => done (change value)).Stops policy wire kept) : kept = left := by
  rcases stops_word h with ⟨-, rfl⟩ | ⟨w, rest, -, hnext⟩
  · rfl
  · split at hnext
    · exact absurd hnext not_stops_done
    · split at hnext
      · exact absurd hnext not_stops_done
      · exact stops_fault hnext

/-- Opaque data of a known length keeps its target. -/
theorem stops_fixedOpaque_done {length : Nat} {left : κ} {change : List UInt8 → α}
    (h : (fixedOpaque length left fun data => done (change data)).Stops policy wire kept) :
    kept = left := by
  rcases stops_request h with ⟨-, rfl⟩ | ⟨front, rest, -, -, hnext⟩
  · rfl
  · rcases stops_checkPadding hnext with rfl | hdone
    · rfl
    · exact absurd hdone not_stops_done

/-- Nothing is kept of portions. -/
theorem stops_collect {operation : Operation} {sizes : List Nat} {got : List (List UInt8)}
    {kept : List UInt8} (h : (collect operation sizes got).Stops policy wire kept) : kept = [] := by
  induction sizes generalizing wire got with
  | nil => exact absurd h not_stops_done
  | cons size sizes ih =>
      rcases stops_request h with ⟨-, rfl⟩ | ⟨front, rest, -, -, hnext⟩
      · rfl
      · exact ih hnext

/-- Wherever data behind its own length stops, the buffer is empty. -/
theorem stops_sized {kind : SizedKind} {max : UInt32} {buffer kept : List UInt8}
    (h : (sized kind max buffer).Stops policy wire kept) : kept = [] := by
  rcases stops_request h with ⟨-, rfl⟩ | ⟨front, rest, -, -, hnext⟩
  · rfl
  · dsimp only at hnext
    split at hnext
    · rcases stops_andThen (stops_note hnext) with
        ⟨inner, hcollect, rfl⟩ | ⟨_, _, bytes, -, -, hnext⟩
      · exact stops_collect hcollect
      · rcases stops_checkPadding hnext with rfl | hdone
        · rfl
        · exact absurd hdone not_stops_done
    · exact stops_fault hnext

/-- Wherever a string stops, its target is kept. -/
theorem stops_string {max : UInt32} {left : κ} (h : (string max left).Stops policy wire kept) :
    kept = left := by
  rcases stops_andThen h with ⟨inner, -, rfl⟩ | ⟨_, _, bytes, -, -, hnext⟩
  · rfl
  · split at hnext
    · exact absurd hnext not_stops_done
    · exact stops_fault hnext

end Reading

namespace Filter

variable {α β : Type} {policy : PaddingPolicy} {wire : List UInt8}

/-! ### Filters -/

theorem stops_int32 {target kept : Int32} (h : (int32.decode target).Stops policy wire kept) :
    kept = target := by
  dsimp only [int32] at h
  exact Reading.stops_word_done h

theorem stops_uint32 {target kept : UInt32} (h : (uint32.decode target).Stops policy wire kept) :
    kept = target := by
  dsimp only [uint32] at h
  exact Reading.stops_word_done h

theorem stops_int64 {target kept : Int64} (h : (int64.decode target).Stops policy wire kept) :
    kept = target := by
  dsimp only [int64] at h
  exact Reading.stops_hyper_done h

theorem stops_uint64 {target kept : UInt64} (h : (uint64.decode target).Stops policy wire kept) :
    kept = target := by
  dsimp only [uint64] at h
  exact Reading.stops_hyper_done h

theorem stops_float {target kept : UInt32} (h : (float.decode target).Stops policy wire kept) :
    kept = target := by
  dsimp only [float] at h
  exact Reading.stops_word_done h

theorem stops_double {target kept : UInt64} (h : (double.decode target).Stops policy wire kept) :
    kept = target := by
  dsimp only [double] at h
  exact Reading.stops_hyper_done h

theorem stops_bool {target kept : Bool} (h : (bool.decode target).Stops policy wire kept) :
    kept = target := by
  dsimp only [bool] at h
  exact Reading.stops_bool_done h

/-- A number that is no member's is kept, since it was read before it was checked. -/
theorem stops_enumeration {members : List Int32} {target kept : Int32}
    (h : ((enumeration members).decode target).Stops policy wire kept) :
    wire.length < 4 ∧ kept = target ∨
      ∃ number rest, wire = wordImage number ++ rest ∧ number.toInt32 ∉ members ∧
        kept = number.toInt32 := by
  dsimp only [enumeration] at h
  rcases Reading.stops_word h with h | ⟨number, rest, rfl, hnext⟩
  · exact .inl h
  · split at hnext
    · exact absurd hnext Reading.not_stops_done
    · next hmem => exact .inr ⟨number, rest, rfl, hmem, Reading.stops_fault hnext⟩

theorem stops_fixedOpaque {buffer kept : List UInt8}
    (h : (fixedOpaque.decode buffer).Stops policy wire kept) : kept = buffer := by
  dsimp only [fixedOpaque] at h
  exact Reading.stops_fixedOpaque_done h

theorem stops_bytes {max : UInt32} {buffer kept : List UInt8}
    (h : ((bytes max).decode buffer).Stops policy wire kept) : kept = [] := by
  dsimp only [bytes] at h
  exact Reading.stops_sized h

theorem stops_string {max : UInt32} {target kept : String}
    (h : ((string max).decode target).Stops policy wire kept) : kept = target := by
  dsimp only [string] at h
  exact Reading.stops_string h

/-- Without a count, or with one over the maximum, the old elements are kept. Otherwise those in
front of the element that stops are. -/
theorem stops_varArray {max : UInt32} {zero : Unit → α} {element : Filter α}
    {targets kept : List α}
    (h : ((varArray max zero element).decode targets).Stops policy wire kept) :
    wire.length < 4 ∧ kept = targets ∨
      ∃ count rest, wire = wordImage count ++ rest ∧
        (max < count ∧ kept = targets ∨
          count ≤ max ∧ kept.length < count.toNat ∧ ∃ front back left, rest = front ++ back ∧
            Reading.AcceptsAll policy (List.replicate kept.length (element.decode (zero ()))) front
              kept ∧
            (element.decode (zero ())).Stops policy back left) := by
  dsimp only [varArray] at h
  rcases Reading.stops_word h with h | ⟨count, rest, rfl, hnext⟩
  · exact .inl h
  · refine .inr ⟨count, rest, rfl, ?_⟩
    split at hnext
    · next hmax =>
        obtain ⟨front, back, values, left, hcount, rfl, hvalues, hstops, rfl⟩ :=
          Reading.stops_replicate hnext
        exact .inr ⟨hmax, hcount, front, back, left, rfl, Reading.acceptsAll_later_iff.mp hvalues,
          hstops⟩
    · next hmax => exact .inl ⟨UInt32.not_le.mp hmax, Reading.stops_fault hnext⟩

/-- Wherever optional data stops, the target is kept. -/
theorem stops_optional {zero : Unit → α} {inner : Filter α} {target kept : Option α}
    (h : ((optional zero inner).decode target).Stops policy wire kept) : kept = target := by
  dsimp only [optional] at h
  rcases Reading.stops_word h with ⟨-, rfl⟩ | ⟨present, rest, rfl, hnext⟩
  · rfl
  · split at hnext
    · exact absurd hnext Reading.not_stops_done
    · split at hnext
      · rcases Reading.stops_andThen hnext with ⟨left, -, rfl⟩ | ⟨_, _, value, -, -, hdone⟩
        · rfl
        · exact absurd (Reading.stops_mark hdone) Reading.not_stops_done
      · exact Reading.stops_fault hnext

/-- Once a discriminant is there, it is kept with what the arm keeps, or with the old arm if there
is none for it. -/
theorem stops_union {arm : Int32 → Option ((Unit → α) × Filter α)} {target kept : Int32 × α}
    (h : ((union arm).decode target).Stops policy wire kept) :
    wire.length < 4 ∧ kept = target ∨
      ∃ number rest, wire = wordImage number ++ rest ∧
        (arm number.toInt32 = none ∧ kept = (number.toInt32, target.2) ∨
          ∃ zero selected left, arm number.toInt32 = some (zero, selected) ∧
            (selected.decode (zero ())).Stops policy rest left ∧
              kept = (number.toInt32, left)) := by
  dsimp only [union] at h
  rcases Reading.stops_word h with h | ⟨number, rest, rfl, hnext⟩
  · exact .inl h
  · refine .inr ⟨number, rest, rfl, ?_⟩
    split at hnext
    · next zero selected harm =>
        obtain ⟨left, hstops, rfl⟩ := Reading.stops_map hnext
        exact .inr ⟨zero, selected, left, harm, hstops, rfl⟩
    · next harm => exact .inl ⟨harm, Reading.stops_fault hnext⟩

/-- A target of a larger type keeps what the part in it keeps. -/
theorem stops_within {inner : Filter α} {inject : α → β} {project : β → Option α} {target kept : β}
    (h : ((inner.within inject project).decode target).Stops policy wire kept) {part : α}
    (hpart : project target = some part) :
    ∃ left, (inner.decode part).Stops policy wire left ∧ kept = inject left := by
  rw [decode_within_of_some hpart] at h
  exact Reading.stops_map h

end Filter

end Xdr
