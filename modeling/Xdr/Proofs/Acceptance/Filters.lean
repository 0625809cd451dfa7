import Xdr.Filter
import Xdr.Proofs.Acceptance.Items

/-!
# What filters accept

For each filter, the bytes that its reading takes for a value. Nothing but the target's length,
where the type fixes it, has a part in that. The statement to read first is `accepts_optional_iff`:
only the words 0 and 1 are taken in front of optional data.
-/

namespace Xdr.Filter

open Reading

variable {α β : Type} {policy : PaddingPolicy} {consumed : List UInt8}

theorem accepts_int32_iff {target value : Int32} :
    (int32.decode target).Accepts policy consumed value ↔
      (Layout.word value.toUInt32).Admits policy consumed := by
  refine accepts_word_done_iff.trans ⟨?_, fun h => ⟨_, h, (Int32.toInt32_toUInt32 value).symm⟩⟩
  intro h
  obtain ⟨w, hadmits, rfl⟩ := h
  rwa [UInt32.toUInt32_toInt32]

theorem accepts_uint32_iff {target value : UInt32} :
    (uint32.decode target).Accepts policy consumed value ↔
      (Layout.word value).Admits policy consumed := by
  show (word .uint32 target fun w => done (id w)).Accepts policy consumed value ↔ _
  refine accepts_word_done_iff.trans ⟨?_, fun h => ⟨value, h, rfl⟩⟩
  intro h
  obtain ⟨w, hadmits, rfl⟩ := h
  exact hadmits

theorem accepts_int64_iff {target value : Int64} :
    (int64.decode target).Accepts policy consumed value ↔
      (Layout.hyper value.toUInt64).Admits policy consumed := by
  refine accepts_hyper_done_iff.trans ⟨?_, fun h => ⟨_, h, (Int64.toInt64_toUInt64 value).symm⟩⟩
  intro h
  obtain ⟨h, hadmits, rfl⟩ := h
  rwa [UInt64.toUInt64_toInt64]

theorem accepts_uint64_iff {target value : UInt64} :
    (uint64.decode target).Accepts policy consumed value ↔
      (Layout.hyper value).Admits policy consumed := by
  show (hyper .uint64 target fun h => done (id h)).Accepts policy consumed value ↔ _
  refine accepts_hyper_done_iff.trans ⟨?_, fun h => ⟨value, h, rfl⟩⟩
  intro h
  obtain ⟨h, hadmits, rfl⟩ := h
  exact hadmits

/-- Bit patterns are taken as they are. -/
theorem accepts_float_iff {target bits : UInt32} :
    (float.decode target).Accepts policy consumed bits ↔
      (Layout.word bits).Admits policy consumed :=
  @accepts_uint32_iff policy consumed target bits

theorem accepts_double_iff {target bits : UInt64} :
    (double.decode target).Accepts policy consumed bits ↔
      (Layout.hyper bits).Admits policy consumed :=
  @accepts_uint64_iff policy consumed target bits

/-- Only the words 0 and 1 are taken for booleans. -/
theorem accepts_bool_iff {target value : Bool} :
    (bool.decode target).Accepts policy consumed value ↔
      (Layout.word (boolWord value)).Admits policy consumed := by
  rw [Layout.admits_word_iff]
  constructor
  · intro h
    obtain ⟨found, rest, rfl, rfl, rfl⟩ := Reading.accepts_bool_iff.mp h
    rw [List.append_nil]
  · rintro rfl
    exact Reading.accepts_bool_iff.mpr ⟨value, [], (List.append_nil _).symm, rfl, rfl⟩

/-- Only members are taken. -/
theorem accepts_enumeration_iff {members : List Int32} {target value : Int32} :
    ((enumeration members).decode target).Accepts policy consumed value ↔
      value ∈ members ∧ (Layout.word value.toUInt32).Admits policy consumed := by
  rw [Layout.admits_word_iff]
  simp only [enumeration]
  refine accepts_word_iff.trans ⟨?_, ?_⟩
  · intro h
    obtain ⟨w, rest, rfl, hnext⟩ := h
    split at hnext
    · next hmem =>
        obtain ⟨rfl, rfl⟩ := hnext
        exact ⟨hmem, by rw [List.append_nil, UInt32.toUInt32_toInt32]⟩
    · exact absurd hnext not_accepts_fault
  · intro h
    obtain ⟨hmem, rfl⟩ := h
    refine ⟨value.toUInt32, [], (List.append_nil _).symm, ?_⟩
    rw [Int32.toInt32_toUInt32, if_pos hmem]
    exact ⟨rfl, rfl⟩

/-- Opaque data is as long as the buffer it is read into. -/
theorem accepts_fixedOpaque_iff {buffer data : List UInt8} :
    (fixedOpaque.decode buffer).Accepts policy consumed data ↔
      data.length = buffer.length ∧ (Layout.padded data).Admits policy consumed := by
  constructor
  · intro h
    obtain ⟨found, front, back, rfl, hlength, hadmits, rfl, rfl⟩ :=
      Reading.accepts_fixedOpaque_iff.mp h
    rw [List.append_nil]
    exact ⟨hlength, hadmits⟩
  · intro h
    obtain ⟨hlength, hadmits⟩ := h
    exact Reading.accepts_fixedOpaque_iff.mpr
      ⟨data, consumed, [], (List.append_nil _).symm, hlength, hadmits, rfl, rfl⟩

theorem accepts_bytes_iff {max : UInt32} {buffer data : List UInt8} :
    ((bytes max).decode buffer).Accepts policy consumed data ↔
      data.length ≤ max.toNat ∧ (Layout.sized data).Admits policy consumed :=
  @accepts_sized_iff policy consumed .bytes max buffer data

/-- What is taken for a string may hold NULs. -/
theorem accepts_string_iff {max : UInt32} {target text : String} :
    ((string max).decode target).Accepts policy consumed text ↔
      (Text.bytes text).length ≤ max.toNat ∧
        (Layout.sized (Text.bytes text)).Admits policy consumed :=
  Reading.accepts_string_iff

/-- Behind a count of at most `max`, as many elements are taken. -/
theorem accepts_varArray_iff {max : UInt32} {zero : Unit → α} {element : Filter α}
    {targets values : List α} :
    ((varArray max zero element).decode targets).Accepts policy consumed values ↔
      values.length ≤ max.toNat ∧ ∃ rest,
        consumed = wordImage (UInt32.ofNat values.length) ++ rest ∧
        AcceptsAll policy (List.replicate values.length (element.decode (zero ()))) rest
          values := by
  simp only [varArray]
  refine accepts_word_iff.trans ⟨?_, ?_⟩
  · intro h
    obtain ⟨count, rest, rfl, hnext⟩ := h
    split at hnext
    · next hmax =>
        obtain ⟨_, rfl, hall⟩ := accepts_replicate_iff.mp hnext
        have hlength := hall.length_eq
        rw [List.length_replicate] at hlength
        rw [← hlength, UInt32.ofNat_toNat]
        exact ⟨UInt32.le_iff_toNat_le.mp hmax, rest, rfl, acceptsAll_later_iff.mp hall⟩
    · exact absurd hnext not_accepts_fault
  · intro h
    obtain ⟨hmax, rest, rfl, hall⟩ := h
    have hcount : (UInt32.ofNat values.length).toNat = values.length :=
      UInt32.toNat_ofNat_of_lt' (Nat.lt_of_le_of_lt hmax max.toNat_lt)
    have hle : UInt32.ofNat values.length ≤ max := by
      rw [UInt32.le_iff_toNat_le, hcount]
      exact hmax
    refine ⟨UInt32.ofNat values.length, rest, rfl, ?_⟩
    rw [if_pos hle, hcount]
    exact accepts_replicate_iff.mpr ⟨values, rfl, acceptsAll_later_iff.mpr hall⟩

/-- Only the words 0 and 1 are taken in front of optional data. -/
theorem accepts_optional_iff {zero : Unit → α} {inner : Filter α} {target value : Option α} :
    ((optional zero inner).decode target).Accepts policy consumed value ↔
      match value with
      | none => consumed = wordImage 0
      | some value => ∃ rest, consumed = wordImage 1 ++ rest ∧
          (inner.decode (zero ())).Accepts policy rest value := by
  simp only [optional]
  refine accepts_word_iff.trans ⟨?_, ?_⟩
  · intro h
    obtain ⟨present, rest, rfl, hnext⟩ := h
    split at hnext
    · next hpresent =>
        obtain ⟨rfl, rfl⟩ := hnext
        rw [hpresent, List.append_nil]
    · split at hnext
      · next hpresent =>
          obtain ⟨front, back, value, rfl, hinner, rfl, rfl⟩ := hnext
          exact ⟨front, by rw [hpresent, List.append_nil], hinner⟩
      · exact absurd hnext not_accepts_fault
  · intro h
    cases value with
    | none => exact ⟨0, [], by rw [h, List.append_nil], rfl, rfl⟩
    | some value =>
        obtain ⟨rest, rfl, hinner⟩ := h
        exact ⟨1, rest, rfl, rest, [], value, (List.append_nil _).symm, hinner, rfl, rfl⟩

theorem accepts_struct_iff {parts : List (Filter α)} {targets values : List α} :
    ((struct parts).decode targets).Accepts policy consumed values ↔
      parts.length = targets.length ∧
        AcceptsAll policy (List.zipWith Filter.decode parts targets) consumed values := by
  have hreadings :
      (List.zipWith (fun part target => (target, part.decode target)) parts targets).map Prod.snd =
        List.zipWith Filter.decode parts targets := by
    rw [List.map_zipWith]
  simp only [struct]
  by_cases hlength : parts.length = targets.length
  · rw [if_pos hlength, accepts_inOrder_iff, hreadings]
    constructor
    · intro h
      obtain ⟨_, rfl, hall⟩ := h
      exact ⟨hlength, hall⟩
    · intro h
      obtain ⟨_, hall⟩ := h
      exact ⟨values, rfl, hall⟩
  · rw [if_neg hlength]
    exact ⟨False.elim, fun h => hlength h.1⟩

/-- Each element is read into a target of its own. -/
theorem accepts_fixedArray_iff {element : Filter α} {targets values : List α} :
    ((fixedArray element).decode targets).Accepts policy consumed values ↔
      AcceptsAll policy (targets.map element.decode) consumed values := by
  simp only [fixedArray]
  rw [accepts_inOrder_iff, List.map_map]
  constructor
  · intro h
    obtain ⟨_, rfl, hall⟩ := h
    exact hall
  · intro hall
    exact ⟨values, rfl, hall⟩

/-- A discriminant with an arm is taken, then the arm. -/
theorem accepts_union_iff {arm : Int32 → Option ((Unit → α) × Filter α)}
    {target value : Int32 × α} :
    ((union arm).decode target).Accepts policy consumed value ↔
      ∃ zero selected rest, arm value.1 = some (zero, selected) ∧
        consumed = wordImage value.1.toUInt32 ++ rest ∧
        (selected.decode (zero ())).Accepts policy rest value.2 := by
  simp only [union]
  refine accepts_word_iff.trans ⟨?_, ?_⟩
  · intro h
    obtain ⟨w, rest, rfl, hnext⟩ := h
    split at hnext
    · next zero selected harm =>
        obtain ⟨found, hselected, rfl⟩ := accepts_map_iff.mp hnext
        exact ⟨zero, selected, rest, harm, by rw [UInt32.toUInt32_toInt32], hselected⟩
    · exact absurd hnext not_accepts_fault
  · intro h
    obtain ⟨zero, selected, rest, harm, rfl, hselected⟩ := h
    refine ⟨value.1.toUInt32, rest, rfl, ?_⟩
    simp only [Int32.toInt32_toUInt32, harm]
    exact accepts_map_iff.mpr ⟨value.2, hselected, rfl⟩

/-- Only a target of the smaller type is read into. -/
theorem accepts_within_iff {inject : α → β} {project : β → Option α} {inner : Filter α}
    {target value : β} :
    ((within inject project inner).decode target).Accepts policy consumed value ↔
      ∃ old new, project target = some old ∧ value = inject new ∧
        (inner.decode old).Accepts policy consumed new := by
  simp only [within]
  cases hproject : project target with
  | none =>
      refine ⟨False.elim, ?_⟩
      intro h
      obtain ⟨old, new, hold, _⟩ := h
      cases hold
  | some old =>
      refine accepts_map_iff.trans ⟨?_, ?_⟩
      · intro h
        obtain ⟨new, hinner, rfl⟩ := h
        exact ⟨old, new, rfl, rfl, hinner⟩
      · intro h
        obtain ⟨_, new, hold, rfl, hinner⟩ := h
        cases hold
        exact ⟨new, hinner, rfl⟩

end Xdr.Filter
