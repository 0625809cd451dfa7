import Mathlib.Data.List.TakeWhile
import Xdr.Text

/-!
# Strings up to their first NUL

`Text.cut` is the part of a string in front of its first NUL. NUL bytes come from NUL characters
only, so this part has exactly the bytes in front of the first NUL byte (`bytes_cut`).
-/

namespace Xdr.Text

/-- The characters in front of the first NUL. -/
def cut (text : String) : String :=
  String.ofList (text.toList.takeWhile (· ≠ '\x00'))

/-- The bytes of a string are those of its characters in order. -/
theorem bytes_eq (text : String) : bytes text = text.toList.flatMap String.utf8EncodeChar := by
  have h : text.toByteArray = text.toList.utf8Encode := String.utf8Encode_toList.symm
  show text.toByteArray.data.toList = _
  rw [h]
  simp [List.utf8Encode]

/-- Every character but NUL is encoded without NUL bytes. -/
theorem ne_zero_of_mem_encodeChar {c : Char} (hc : c ≠ '\x00') {byte : UInt8}
    (h : byte ∈ String.utf8EncodeChar c) : byte ≠ 0 := by
  have hval : c.val.toNat ≠ 0 := fun h0 => hc (Char.ext (UInt32.toNat_inj.mp h0))
  have hne {n : Nat} (hn : n % 256 ≠ 0) : UInt8.ofNat n ≠ 0 := fun h0 => hn (by
    simpa using congrArg UInt8.toNat h0)
  simp only [String.utf8EncodeChar] at h
  split at h
  · obtain rfl := List.mem_singleton.mp h
    exact hne (by omega)
  · split at h
    · simp only [List.mem_cons, List.not_mem_nil, or_false] at h
      rcases h with rfl | rfl <;> exact hne (by omega)
    · split at h
      · simp only [List.mem_cons, List.not_mem_nil, or_false] at h
        rcases h with rfl | rfl | rfl <;> exact hne (by omega)
      · simp only [List.mem_cons, List.not_mem_nil, or_false] at h
        rcases h with rfl | rfl | rfl | rfl <;> exact hne (by omega)

/-- The bytes in front of the first NUL byte are those of the characters in front of the first
NUL. -/
theorem untilNul_flatMap (chars : List Char) :
    untilNul (chars.flatMap String.utf8EncodeChar) =
      (chars.takeWhile (· ≠ '\x00')).flatMap String.utf8EncodeChar := by
  unfold untilNul
  induction chars with
  | nil => rfl
  | cons c chars ih =>
      by_cases hc : c = '\x00'
      · rw [hc]
        rfl
      · have hbytes : ∀ byte ∈ String.utf8EncodeChar c, (byte != 0) = true := fun byte h => by
          simpa using ne_zero_of_mem_encodeChar hc h
        rw [List.flatMap_cons, List.takeWhile_append_of_pos hbytes, ih,
          List.takeWhile_cons_of_pos (by simpa using hc), List.flatMap_cons]

/-- Cutting a string cuts its bytes. -/
theorem bytes_cut (text : String) : bytes (cut text) = untilNul (bytes text) := by
  rw [bytes_eq, bytes_eq, untilNul_flatMap, cut, String.toList_ofList]

/-- A string that has been cut has no NUL left to be cut at. -/
@[simp] theorem cut_cut (text : String) : cut (cut text) = cut text := by
  unfold cut
  rw [String.toList_ofList, List.takeWhile_idem]

/-- What is written of a string is written of it when it has been cut. -/
theorem untilNul_bytes_cut (text : String) :
    untilNul (bytes (cut text)) = untilNul (bytes text) := by
  rw [← bytes_cut, cut_cut, bytes_cut]

/-- A string without NUL is written as a whole. -/
theorem untilNul_of_cut_eq {text : String} (h : cut text = text) :
    untilNul (bytes text) = bytes text := by
  rw [← bytes_cut, h]

end Xdr.Text
