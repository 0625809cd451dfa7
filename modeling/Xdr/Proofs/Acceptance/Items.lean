import Mathlib.Algebra.GroupWithZero.Nat
import Xdr.Proofs.Acceptance
import Xdr.Proofs.Layout
import Xdr.Reading.Items

/-!
# What the readings of items accept

Each item is accepted exactly where its layout is found. The statement to read first is
`accepts_sized_iff`: data that arrives in portions behind its own length is accepted as one piece,
and the portions leave no trace in it.
-/

namespace Xdr.Reading

variable {κ α : Type} {policy : PaddingPolicy} {consumed : List UInt8} {result : α}

@[simp] theorem not_accepts_fault {operation : Operation} {error : Error} {kept : κ} :
    ¬ (fault operation error kept : Reading κ α).Accepts policy consumed result :=
  id

/-- Any four bytes are accepted as the word with that image. -/
theorem accepts_word_iff {operation : Operation} {kept : κ} {next : UInt32 → Reading κ α} :
    (word operation kept next).Accepts policy consumed result ↔
      ∃ w rest, consumed = wordImage w ++ rest ∧ (next w).Accepts policy rest result := by
  constructor
  · intro h
    obtain ⟨front, rest, rfl, hlength, hnext⟩ := h
    exact ⟨wordOfImage front, rest, by rw [wordImage_wordOfImage hlength], hnext⟩
  · intro h
    obtain ⟨w, rest, rfl, hnext⟩ := h
    refine ⟨wordImage w, rest, rfl, length_wordImage w, ?_⟩
    simpa only [wordOfImage_wordImage] using hnext

/-- A word with nothing behind it is accepted where its layout is found. -/
theorem accepts_word_done_iff {operation : Operation} {kept : κ} {change : UInt32 → α} :
    (word operation kept fun w => done (change w)).Accepts policy consumed result ↔
      ∃ w, (Layout.word w).Admits policy consumed ∧ result = change w := by
  rw [accepts_word_iff]
  constructor
  · intro h
    obtain ⟨w, rest, rfl, rfl, rfl⟩ := h
    exact ⟨w, Layout.admits_word_iff.mpr (List.append_nil _), rfl⟩
  · intro h
    obtain ⟨w, hadmits, rfl⟩ := h
    obtain rfl := Layout.admits_word_iff.mp hadmits
    exact ⟨w, [], (List.append_nil _).symm, rfl, rfl⟩

/-- Any eight bytes are accepted as the hyper with that image. -/
theorem accepts_hyper_iff {operation : Operation} {kept : κ} {next : UInt64 → Reading κ α} :
    (hyper operation kept next).Accepts policy consumed result ↔
      ∃ h rest, consumed = hyperImage h ++ rest ∧ (next h).Accepts policy rest result := by
  constructor
  · intro h
    obtain ⟨front, rest, rfl, hlength, hnext⟩ := h
    exact ⟨hyperOfImage front, rest, by rw [hyperImage_hyperOfImage hlength], hnext⟩
  · intro h
    obtain ⟨h, rest, rfl, hnext⟩ := h
    refine ⟨hyperImage h, rest, rfl, length_hyperImage h, ?_⟩
    simpa only [hyperOfImage_hyperImage] using hnext

/-- A hyper with nothing behind it is accepted where its layout is found. -/
theorem accepts_hyper_done_iff {operation : Operation} {kept : κ} {change : UInt64 → α} :
    (hyper operation kept fun h => done (change h)).Accepts policy consumed result ↔
      ∃ h, (Layout.hyper h).Admits policy consumed ∧ result = change h := by
  rw [accepts_hyper_iff]
  constructor
  · intro h
    obtain ⟨h, rest, rfl, rfl, rfl⟩ := h
    exact ⟨h, Layout.admits_hyper_iff.mpr (List.append_nil _), rfl⟩
  · intro h
    obtain ⟨h, hadmits, rfl⟩ := h
    obtain rfl := Layout.admits_hyper_iff.mp hadmits
    exact ⟨h, [], (List.append_nil _).symm, rfl, rfl⟩

/-- The word of a boolean. -/
def boolWord (value : Bool) : UInt32 :=
  if value then 1 else 0

/-- Only the words 0 and 1 are accepted as booleans. -/
theorem accepts_bool_iff {kept : κ} {next : Bool → Reading κ α} :
    (bool kept next).Accepts policy consumed result ↔
      ∃ value rest, consumed = wordImage (boolWord value) ++ rest ∧
        (next value).Accepts policy rest result := by
  unfold bool
  rw [accepts_word_iff]
  constructor
  · intro h
    obtain ⟨w, rest, rfl, hnext⟩ := h
    split at hnext
    · next hw => exact ⟨false, rest, by rw [hw]; rfl, hnext⟩
    · split at hnext
      · next hw => exact ⟨true, rest, by rw [hw]; rfl, hnext⟩
      · exact False.elim hnext
  · intro h
    obtain ⟨value, rest, rfl, hnext⟩ := h
    refine ⟨boolWord value, rest, rfl, ?_⟩
    cases value <;> exact hnext

/-- Only words up to the maximum are accepted as lengths. -/
theorem accepts_length_iff {max : UInt32} {kept : κ} {next : UInt32 → Reading κ α} :
    (length max kept next).Accepts policy consumed result ↔
      ∃ w rest, consumed = wordImage w ++ rest ∧ w ≤ max ∧
        (next w).Accepts policy rest result := by
  unfold length
  rw [accepts_word_iff]
  constructor
  · intro h
    obtain ⟨w, rest, rfl, hnext⟩ := h
    split at hnext
    · next hw => exact ⟨w, rest, rfl, hw, hnext⟩
    · exact False.elim hnext
  · intro h
    obtain ⟨w, rest, rfl, hw, hnext⟩ := h
    exact ⟨w, rest, rfl, by rwa [if_pos hw]⟩

/-- Bytes that are taken apart behind their payload are accepted where the layout of the payload
admits them. -/
theorem admits_padded_take_iff {bytes : List UInt8} {length : Nat}
    (h : bytes.length = length + padLength length) :
    (Layout.padded (bytes.take length)).Admits policy bytes ↔
      policy.accepts (bytes.drop length) := by
  have htake : (bytes.take length).length = length := List.length_take_of_le (by omega)
  rw [Layout.admits_padded_iff, htake]
  constructor
  · intro h
    obtain ⟨padding, hbytes, _, hpadding⟩ := h
    have hdrop : bytes.drop length = padding := by
      conv => lhs; rw [hbytes]
      exact List.drop_left' htake
    rwa [hdrop]
  · intro hpadding
    refine ⟨bytes.drop length, (List.take_append_drop _ _).symm, ?_, hpadding⟩
    rw [List.length_drop]
    omega

/-- Bytes that the layout of padded data admits are the data and the padding of it. -/
theorem take_of_admits_padded {data bytes : List UInt8}
    (h : (Layout.padded data).Admits policy bytes) :
    bytes.length = data.length + padLength data.length ∧ bytes.take data.length = data := by
  obtain ⟨padding, rfl, hlength, _⟩ := Layout.admits_padded_iff.mp h
  exact ⟨by rw [List.length_append, hlength], List.take_left' rfl⟩

/-- Opaque data of a known length is accepted together with its padding. -/
theorem accepts_fixedOpaque_iff {length : Nat} {kept : κ} {next : List UInt8 → Reading κ α} :
    (fixedOpaque length kept next).Accepts policy consumed result ↔
      ∃ data front back, consumed = front ++ back ∧ data.length = length ∧
        (Layout.padded data).Admits policy front ∧ (next data).Accepts policy back result := by
  constructor
  · intro h
    obtain ⟨front, back, rfl, hlength, hpadding, hnext⟩ := h
    exact ⟨front.take length, front, back, rfl, List.length_take_of_le (by omega),
      (admits_padded_take_iff hlength).mpr hpadding, hnext⟩
  · intro h
    obtain ⟨data, front, back, rfl, rfl, hadmits, hnext⟩ := h
    obtain ⟨hlength, htake⟩ := take_of_admits_padded hadmits
    refine ⟨front, back, rfl, hlength, (admits_padded_take_iff hlength).mp ?_, ?_⟩
    · rwa [htake]
    · rwa [htake]

/-- The sizes of the portions add up to the total. -/
theorem sum_portions (total : Nat) : (portions total).sum = total := by
  have hdiv := Nat.div_add_mod total portionSize
  have hcomm := Nat.mul_comm portionSize (total / portionSize)
  unfold portions
  rw [List.sum_append, List.sum_replicate_nat]
  split <;> simp <;> omega

/-- Portions are accepted as the bytes they add up to. -/
theorem accepts_collect_iff {operation : Operation} {sizes : List Nat} {got : List (List UInt8)}
    {bytes : List UInt8} : (collect operation sizes got).Accepts policy consumed bytes ↔
      consumed.length = sizes.sum ∧ bytes = got.reverse.flatten ++ consumed := by
  induction sizes generalizing consumed got with
  | nil =>
      constructor
      · intro h
        obtain ⟨rfl, rfl⟩ := h
        exact ⟨rfl, (List.append_nil _).symm⟩
      · intro h
        obtain ⟨hlength, rfl⟩ := h
        obtain rfl := List.length_eq_zero_iff.mp hlength
        exact ⟨rfl, List.append_nil _⟩
  | cons size sizes ih =>
      constructor
      · intro h
        obtain ⟨front, back, rfl, rfl, hnext⟩ := h
        obtain ⟨hlength, rfl⟩ := ih.mp hnext
        exact ⟨by simp [hlength], by simp⟩
      · intro h
        obtain ⟨hlength, rfl⟩ := h
        rw [List.sum_cons] at hlength
        refine ⟨consumed.take size, consumed.drop size, (List.take_append_drop _ _).symm,
          List.length_take_of_le (by omega), ih.mpr ⟨?_, ?_⟩⟩
        · rw [List.length_drop]
          omega
        · simp [List.take_append_drop]

/-- Data of at most `max` bytes is accepted behind its own length, whatever its portions. -/
theorem accepts_sized_iff {kind : SizedKind} {max : UInt32} {buffer data : List UInt8} :
    (sized kind max buffer).Accepts policy consumed data ↔
      data.length ≤ max.toNat ∧ (Layout.sized data).Admits policy consumed := by
  constructor
  · intro h
    obtain ⟨front, back, rfl, hlength, hnext⟩ := h
    by_cases hmax : wordOfImage front ≤ max
    · simp only [if_pos hmax] at hnext
      obtain ⟨gathered, _, bytes, rfl, hcollect, hpadding, rfl, rfl⟩ := hnext
      obtain ⟨hbytes, hgathered⟩ := accepts_collect_iff.mp hcollect
      obtain rfl : bytes = gathered := hgathered
      rw [sum_portions] at hbytes
      rw [List.append_nil]
      have htake : (bytes.take (wordOfImage front).toNat).length = (wordOfImage front).toNat :=
        List.length_take_of_le (by omega)
      refine ⟨by rw [htake]; exact UInt32.le_iff_toNat_le.mp hmax, ?_⟩
      refine Layout.Admits.append ?_ ((admits_padded_take_iff hbytes).mpr hpadding)
      rw [htake, UInt32.ofNat_toNat, Layout.admits_word_iff, wordImage_wordOfImage hlength]
    · simp only [if_neg hmax] at hnext
      exact False.elim hnext
  · intro h
    obtain ⟨hmax, hadmits⟩ := h
    obtain ⟨front, back, rfl, hfront, hback⟩ := Layout.admits_append_iff.mp hadmits
    obtain rfl := Layout.admits_word_iff.mp hfront
    obtain ⟨hlength, htake⟩ := take_of_admits_padded hback
    have hword : (UInt32.ofNat data.length).toNat = data.length :=
      UInt32.toNat_ofNat_of_lt' (Nat.lt_of_le_of_lt hmax max.toNat_lt)
    have hle : UInt32.ofNat data.length ≤ max := by
      rw [UInt32.le_iff_toNat_le, hword]
      exact hmax
    refine ⟨wordImage (UInt32.ofNat data.length), back, rfl, length_wordImage _, ?_⟩
    simp only [wordOfImage_wordImage, hword, if_pos hle]
    refine ⟨back, [], back, (List.append_nil _).symm, ?_, ?_, rfl, htake.symm⟩
    · rw [accepts_collect_iff, sum_portions]
      exact ⟨hlength, rfl⟩
    · rw [← admits_padded_take_iff hlength, htake]
      exact hback

/-- A string of at most `max` bytes is accepted as those bytes behind their number. -/
theorem accepts_string_iff {max : UInt32} {kept : κ} {text : String} :
    (string max kept).Accepts policy consumed text ↔
      (Text.bytes text).length ≤ max.toNat ∧
        (Layout.sized (Text.bytes text)).Admits policy consumed := by
  constructor
  · intro h
    obtain ⟨front, back, bytes, rfl, hsized, hnext⟩ := h
    cases htext : Text.ofBytes? bytes with
    | none =>
        simp only [htext] at hnext
        exact False.elim hnext
    | some found =>
        simp only [htext] at hnext
        obtain ⟨rfl, rfl⟩ := hnext
        rw [Text.bytes_of_ofBytes? htext, List.append_nil]
        exact accepts_sized_iff.mp hsized
  · intro h
    refine ⟨consumed, [], Text.bytes text, (List.append_nil _).symm, accepts_sized_iff.mpr h, ?_⟩
    simp only [Text.ofBytes?_bytes]
    exact ⟨rfl, rfl⟩

end Xdr.Reading
