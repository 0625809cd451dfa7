import Xdr.BigEndian

/-!
# Words and hypers

Numbers travel as words of four bytes or hypers of eight. Reading an image gives the number back
(`wordOfImage_wordImage`), every four bytes are the image of a word (`wordImage_wordOfImage`), and a
hyper is its high word followed by its low word (`hyperImage_eq`).
-/

namespace Xdr

/-- The four bytes of a word. -/
def wordImage (word : UInt32) : List UInt8 :=
  BigEndian.image 4 word.toNat

/-- The eight bytes of a hyper. -/
def hyperImage (hyper : UInt64) : List UInt8 :=
  BigEndian.image 8 hyper.toNat

/-- The word with these bytes. -/
def wordOfImage (bytes : List UInt8) : UInt32 :=
  UInt32.ofNat (BigEndian.value bytes)

/-- The hyper with these bytes. -/
def hyperOfImage (bytes : List UInt8) : UInt64 :=
  UInt64.ofNat (BigEndian.value bytes)

@[simp] theorem length_wordImage (word : UInt32) : (wordImage word).length = 4 :=
  BigEndian.length_image 4 _

@[simp] theorem length_hyperImage (hyper : UInt64) : (hyperImage hyper).length = 8 :=
  BigEndian.length_image 8 _

@[simp] theorem wordOfImage_wordImage (word : UInt32) : wordOfImage (wordImage word) = word := by
  apply UInt32.toNat_inj.mp
  have := word.toNat_lt
  simp only [wordOfImage, wordImage, BigEndian.value_image, Nat.pow_eq, UInt32.toNat_ofNat']
  omega

@[simp] theorem hyperOfImage_hyperImage (hyper : UInt64) :
    hyperOfImage (hyperImage hyper) = hyper := by
  apply UInt64.toNat_inj.mp
  have := hyper.toNat_lt
  simp only [hyperOfImage, hyperImage, BigEndian.value_image, Nat.pow_eq, UInt64.toNat_ofNat']
  omega

/-- Four bytes are the image of the word that they give. -/
theorem wordImage_wordOfImage {bytes : List UInt8} (h : bytes.length = 4) :
    wordImage (wordOfImage bytes) = bytes := by
  have hlt := BigEndian.value_lt bytes
  rw [h, Nat.pow_eq] at hlt
  have hnat : (UInt32.ofNat (BigEndian.value bytes)).toNat = BigEndian.value bytes := by
    rw [UInt32.toNat_ofNat']
    omega
  rw [wordImage, wordOfImage, hnat, ← h, BigEndian.image_value]

/-- Eight bytes are the image of the hyper that they give. -/
theorem hyperImage_hyperOfImage {bytes : List UInt8} (h : bytes.length = 8) :
    hyperImage (hyperOfImage bytes) = bytes := by
  have hlt := BigEndian.value_lt bytes
  rw [h, Nat.pow_eq] at hlt
  have hnat : (UInt64.ofNat (BigEndian.value bytes)).toNat = BigEndian.value bytes := by
    rw [UInt64.toNat_ofNat']
    omega
  rw [hyperImage, hyperOfImage, hnat, ← h, BigEndian.image_value]

/-- A hyper is its high word followed by its low word. -/
theorem hyperImage_eq (hyper : UInt64) :
    hyperImage hyper = wordImage (hyper >>> 32).toUInt32 ++ wordImage hyper.toUInt32 := by
  have hhigh : (hyper >>> 32).toUInt32.toNat = hyper.toNat / Nat.pow 256 4 := by
    have := hyper.toNat_lt
    rw [UInt64.toNat_toUInt32, UInt64.toNat_shiftRight,
      show UInt64.toNat 32 % 64 = 32 from rfl, Nat.shiftRight_eq_div_pow, Nat.pow_eq]
    omega
  have hlow : BigEndian.image 4 hyper.toUInt32.toNat = BigEndian.image 4 hyper.toNat := by
    rw [UInt64.toNat_toUInt32, show (2 : Nat) ^ 32 = Nat.pow 256 4 by decide, BigEndian.image_mod]
  rw [hyperImage, wordImage, wordImage, hhigh, hlow, ← BigEndian.image_add]

end Xdr
