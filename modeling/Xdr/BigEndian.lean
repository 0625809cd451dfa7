/-!
# Big-endian images of natural numbers

`BigEndian.image count n` writes the low `8 * count` bits of `n` as `count` bytes, the most
significant byte first, and `BigEndian.value` reads any byte list back as a number. The two
statements to read first are `value_image`, which says that writing and reading gives back the
number modulo `256 ^ count`, and `image_value`, which says that every byte list is the image of its
value. `image_add` splits a long image into a high and a low part.
-/

namespace Xdr.BigEndian

/-- The last `count` base-256 digits of `n` as bytes, most significant first. -/
def image : Nat → Nat → List UInt8
  | 0, _ => []
  | count + 1, n => image count (n / 256) ++ [UInt8.ofNat n]

/-- The number whose base-256 digits are `bytes`, most significant first. -/
def value (bytes : List UInt8) : Nat :=
  bytes.foldl (fun total byte => total * 256 + byte.toNat) 0

/-- An image has the number of bytes asked for. -/
@[simp] theorem length_image (count n : Nat) : (image count n).length = count := by
  induction count generalizing n with
  | zero => rfl
  | succ count ih => simp [image, ih]

@[simp] theorem value_nil : value [] = 0 := rfl

/-- Appending a byte shifts the value by one digit. -/
theorem value_concat (bytes : List UInt8) (byte : UInt8) :
    value (bytes ++ [byte]) = value bytes * 256 + byte.toNat := by
  simp [value]

/-- Reading an image gives the number back, without the digits that did not fit. -/
theorem value_image (count n : Nat) : value (image count n) = n % Nat.pow 256 count := by
  rw [Nat.pow_eq]
  induction count generalizing n with
  | zero => simp [image, Nat.mod_one]
  | succ count ih =>
      rw [image, value_concat, ih, Nat.pow_succ, Nat.mul_comm (256 ^ count) 256, Nat.mod_mul]
      simp only [UInt8.toNat_ofNat']
      omega

/-- The digits above position `count` do not show in an image. -/
theorem image_mod (count n : Nat) : image count (n % Nat.pow 256 count) = image count n := by
  rw [Nat.pow_eq]
  induction count generalizing n with
  | zero => rfl
  | succ count ih =>
      -- neither the last byte nor the digits in front of it see what lies above
      have hdiv : n % 256 ^ (count + 1) / 256 = n / 256 % 256 ^ count := by
        rw [Nat.pow_succ, Nat.mul_comm, Nat.mod_mul_right_div_self]
      have hmod : n % 256 ^ (count + 1) % 256 = n % 256 :=
        Nat.mod_mod_of_dvd n ⟨256 ^ count, by rw [Nat.pow_succ, Nat.mul_comm]⟩
      have hbyte : UInt8.ofNat (n % 256 ^ (count + 1)) = UInt8.ofNat n := by
        apply UInt8.toNat_inj.mp
        rw [UInt8.toNat_ofNat', UInt8.toNat_ofNat']
        exact hmod
      rw [image, image, hdiv, ih, hbyte]

/-- The value of a byte list is below `256 ^ length`. -/
theorem value_lt (bytes : List UInt8) : value bytes < Nat.pow 256 bytes.length := by
  rw [Nat.pow_eq]
  -- images grow at their low end, so the induction takes the last byte off
  induction h : bytes.length generalizing bytes with
  | zero => simp [List.length_eq_zero_iff.mp h]
  | succ count ih =>
      have hne : bytes ≠ [] := by intro hnil; simp [hnil] at h
      obtain ⟨front, last, rfl⟩ : ∃ front last, bytes = front ++ [last] :=
        ⟨bytes.dropLast, bytes.getLast hne, (List.dropLast_concat_getLast hne).symm⟩
      have hfront := ih front (by simpa using h)
      have hlast := last.toNat_lt
      rw [value_concat, Nat.pow_succ]
      omega

/-- Every byte list is the image of its value. -/
theorem image_value (bytes : List UInt8) : image bytes.length (value bytes) = bytes := by
  induction h : bytes.length generalizing bytes with
  | zero => simp [List.length_eq_zero_iff.mp h, image]
  | succ count ih =>
      have hne : bytes ≠ [] := by intro hnil; simp [hnil] at h
      obtain ⟨front, last, rfl⟩ : ∃ front last, bytes = front ++ [last] :=
        ⟨bytes.dropLast, bytes.getLast hne, (List.dropLast_concat_getLast hne).symm⟩
      have hfront := ih front (by simpa using h)
      have hlast := last.toNat_lt
      rw [image, value_concat, show (value front * 256 + last.toNat) / 256 = value front by omega,
        hfront]
      congr 2
      apply UInt8.toNat_inj.mp
      simp only [UInt8.toNat_ofNat']
      omega

/-- A long image is the image of the high digits followed by the image of the low ones. -/
theorem image_add (high low n : Nat) :
    image (high + low) n = image high (n / Nat.pow 256 low) ++ image low n := by
  rw [Nat.pow_eq]
  induction low generalizing n with
  | zero => simp [image]
  | succ low ih =>
      rw [← Nat.add_assoc, image, image, ih, Nat.div_div_eq_div_mul, Nat.pow_succ,
        Nat.mul_comm 256, List.append_assoc]

end Xdr.BigEndian
