import Mathlib.Algebra.Group.Int.Defs
import Xdr.Proofs.Stream.RoundTrip

/-!
# Standard images

`Ty.Standard` gives the bytes that RFC 4506 lays down for a value, with one rule for each kind of
type. Numbers are `octets`, which are the digits of an integer and know nothing of machine words.
The statement to read first is `writes_standard`: a value within the limits of its type has one
standard image, and that is what an encoder appends to whatever it has written before.
-/

namespace Xdr

/-! ### Numbers and opaque data -/

/-- The last `count` base-256 digits of an integer in two's complement, most significant first. -/
def octets (count : Nat) (n : Int) : List UInt8 :=
  (List.range count).reverse.map fun place => UInt8.ofNat (n / 256 ^ place % 256).toNat

/-- A hyper as two words, the high one first. -/
def wordPair (hyper : UInt64) : List UInt8 :=
  octets 4 (hyper >>> 32).toUInt32.toNat ++ octets 4 hyper.toUInt32.toNat

/-- Opaque data of a length, with zeros up to the next multiple of four. -/
def filledUp (length : Nat) (data : List UInt8) : List UInt8 :=
  data ++ List.replicate ((4 - length % 4) % 4) 0

/-- The last digit is the remainder, and the digits in front of it are those of the quotient. -/
theorem octets_succ (count : Nat) (n : Int) :
    octets (count + 1) n = octets count (n / 256) ++ [UInt8.ofNat (n % 256).toNat] := by
  have hplace (place : Nat) : n / 256 ^ (place + 1) = n / 256 / 256 ^ place := by
    rw [Int.pow_succ', Int.ediv_ediv_of_nonneg (by decide)]
  simp only [octets, List.range_succ_eq_map, List.reverse_cons, List.map_append, List.map_cons,
    List.map_nil, ← List.map_reverse, List.map_map, Function.comp_def, hplace, Int.pow_zero,
    Int.ediv_one]

/-- The digits of a natural number are its big-endian image. -/
theorem octets_natCast (count n : Nat) : octets count n = BigEndian.image count n := by
  induction count generalizing n with
  | zero => rfl
  | succ count ih =>
      have hlast : UInt8.ofNat ((n : Int) % 256).toNat = UInt8.ofNat n := UInt8.ofNat_mod_size
      rw [octets_succ, BigEndian.image, hlast]
      exact congrArg (· ++ [UInt8.ofNat n]) (ih (n / 256))

/-- Digits further up do not count. -/
theorem octets_add_mul (count : Nat) (n times : Int) :
    octets count (n + times * 256 ^ count) = octets count n := by
  induction count generalizing n with
  | zero => rfl
  | succ count ih =>
      rw [octets_succ, octets_succ, Int.pow_succ, ← Int.mul_assoc,
        Int.add_mul_ediv_right n _ (by decide), Int.add_mul_emod_self_right, ih]

/-- An integer has the digits of its two's complement. -/
theorem octets_bitVec_toInt (count : Nat) (bits : BitVec (8 * count)) :
    octets count bits.toInt = octets count bits.toNat := by
  have hsize : ((2 ^ (8 * count) : Nat) : Int) = 256 ^ count := by
    rw [Nat.pow_mul, Int.natCast_pow]
    rfl
  rw [BitVec.toInt_eq_toNat_cond, hsize]
  split
  · rfl
  · rw [← octets_add_mul count bits.toNat (-1), Int.neg_one_mul, Int.sub_eq_add_neg]

theorem octets_word (word : UInt32) : octets 4 word.toNat = wordImage word :=
  octets_natCast 4 _

theorem octets_hyper (hyper : UInt64) : octets 8 hyper.toNat = hyperImage hyper :=
  octets_natCast 8 _

theorem octets_int32 (value : Int32) : octets 4 value.toInt = wordImage value.toUInt32 :=
  (octets_bitVec_toInt 4 value.toBitVec).trans (octets_word value.toUInt32)

theorem octets_int64 (value : Int64) : octets 8 value.toInt = hyperImage value.toUInt64 :=
  (octets_bitVec_toInt 8 value.toBitVec).trans (octets_hyper value.toUInt64)

/-- The two words of a hyper are its image. -/
theorem wordPair_eq (hyper : UInt64) : wordPair hyper = hyperImage hyper := by
  rw [wordPair, octets_word, octets_word, hyperImage_eq]

/-- A count within the limit of a word is written as it is. -/
theorem octets_count {count : Nat} {max : UInt32} (h : count ≤ max.toNat) :
    octets 4 count = wordImage (UInt32.ofNat count) := by
  rw [← octets_word, UInt32.toNat_ofNat_of_lt' (Nat.lt_of_le_of_lt h max.toNat_lt)]

/-! ### Values -/

namespace Ty

/-- The image of a value by RFC 4506. The limits of the type are not looked at. -/
inductive Standard (definitions : Definitions Ty) : Ty → Value → List UInt8 → Prop where
  | int32 (value : Int32) : Standard definitions int32 (.int32 value) (octets 4 value.toInt)
  | uint32 (value : UInt32) : Standard definitions uint32 (.uint32 value) (octets 4 value.toNat)
  | int64 (value : Int64) : Standard definitions int64 (.int64 value) (octets 8 value.toInt)
  | uint64 (value : UInt64) : Standard definitions uint64 (.uint64 value) (octets 8 value.toNat)
  | float (bits : UInt32) : Standard definitions float (.float bits) (octets 4 bits.toNat)
  | double (bits : UInt64) : Standard definitions double (.double bits) (octets 8 bits.toNat)
  | bool (value : Bool) :
      Standard definitions bool (.bool value) (octets 4 (if value then 1 else 0))
  | void : Standard definitions void .void []
  | openEnum (value : Int32) : Standard definitions openEnum (.int32 value) (octets 4 value.toInt)
  | enumeration (members) (value : Int32) :
      Standard definitions (enumeration members) (.int32 value) (octets 4 value.toInt)
  | fixedOpaque (length data) :
      Standard definitions (fixedOpaque length) (.bytes data) (filledUp length data)
  | bytes (max) (data : List UInt8) : Standard definitions (bytes max) (.bytes data)
      (octets 4 data.length ++ filledUp data.length data)
  | string (max text) : Standard definitions (string max) (.string text)
      (octets 4 (Text.bytes text).length ++ filledUp (Text.bytes text).length (Text.bytes text))
  | fixedArray {length element items image} :
      Parts (Standard definitions) (List.replicate length element) items image →
      Standard definitions (fixedArray length element) (.list items) image
  | varArray {max element items image} :
      Parts (Standard definitions) (List.replicate items.length element) items image →
      Standard definitions (varArray max element) (.list items) (octets 4 items.length ++ image)
  | absent (inner) : Standard definitions (optional inner) .absent (octets 4 0)
  | present {inner value image} : Standard definitions inner value image →
      Standard definitions (optional inner) (.present value) (octets 4 1 ++ image)
  | struct {parts items image} : Parts (Standard definitions) parts items image →
      Standard definitions (struct parts) (.list items) image
  | union {arms fallback selected arm image} {discriminant : Int32} :
      selectArm arms fallback discriminant = some selected →
      Standard definitions selected arm image →
      Standard definitions (union arms fallback) (.union discriminant arm)
        (octets 4 discriminant.toInt ++ image)
  | ref {name body value image} : definitions.lookup name = some body →
      Standard definitions body value image → Standard definitions (ref name) value image

variable {definitions : Definitions Ty}

/-- The image of this layout is the one standard image of the value. -/
def Pinned (definitions : Definitions Ty) (type : Ty) (value : Value) (layout : Layout) : Prop :=
  ∀ image, Standard definitions type value image ↔ image = layout.image

/-- Parts with one image each have one image in a row. -/
theorem parts_standard_iff {parts : List Ty} {items : List Value} {layout : Layout}
    (h : Parts (Pinned definitions) parts items layout) (image : List UInt8) :
    Parts (Standard definitions) parts items image ↔ image = layout.image := by
  induction h generalizing image with
  | nil =>
      constructor
      · rintro ⟨⟩
        rfl
      · rintro rfl
        exact .nil
  | cons hhead _ ih =>
      rw [Layout.image_append]
      constructor
      · rintro (_ | ⟨hfront, hback⟩)
        rw [(hhead _).mp hfront, (ih _).mp hback]
      · rintro rfl
        exact .cons ((hhead _).mpr rfl) ((ih _).mpr rfl)

theorem filledUp_eq (data : List UInt8) :
    filledUp data.length data = (Layout.padded data).image :=
  (Layout.image_padded data).symm

/-- Data within the limit of a word is written behind its length. -/
theorem sized_eq {data : List UInt8} {max : UInt32} (h : data.length ≤ max.toNat) :
    octets 4 data.length ++ filledUp data.length data = (Layout.sized data).image := by
  rw [Layout.image_sized, octets_count h, filledUp_eq, Layout.image_padded]

/-- A value with one rule to itself has the image that the rule gives. -/
theorem pinned_of_image {type : Ty} {value : Value} {layout : Layout} {image : List UInt8}
    (himage : image = layout.image) (hstandard : Standard definitions type value image)
    (honly : ∀ other, Standard definitions type value other → other = image) :
    Pinned definitions type value layout := by
  intro other
  rw [← himage]
  constructor
  · exact honly other
  · rintro rfl
    exact hstandard

/-- A value that is laid out has one standard image, which is that of its layout. -/
theorem Laid.pinned {type : Ty} {value : Value} {layout : Layout}
    (h : Laid definitions type value layout) : Pinned definitions type value layout := by
  have hword (word : UInt32) : octets 4 word.toNat = (Layout.word word).image :=
    (octets_word word).trans (Layout.image_word word).symm
  have hhyper (hyper : UInt64) : octets 8 hyper.toNat = (Layout.hyper hyper).image :=
    (octets_hyper hyper).trans (Layout.image_hyper hyper).symm
  have hint32 (value : Int32) : octets 4 value.toInt = (Layout.word value.toUInt32).image :=
    (octets_int32 value).trans (Layout.image_word _).symm
  induction h with
  | int32 value => exact pinned_of_image (hint32 value) (.int32 value) (by rintro _ ⟨⟩; rfl)
  | uint32 value => exact pinned_of_image (hword value) (.uint32 value) (by rintro _ ⟨⟩; rfl)
  | int64 value =>
      exact pinned_of_image ((octets_int64 value).trans (Layout.image_hyper _).symm) (.int64 value)
        (by rintro _ ⟨⟩; rfl)
  | uint64 value => exact pinned_of_image (hhyper value) (.uint64 value) (by rintro _ ⟨⟩; rfl)
  | float bits => exact pinned_of_image (hword bits) (.float bits) (by rintro _ ⟨⟩; rfl)
  | double bits => exact pinned_of_image (hhyper bits) (.double bits) (by rintro _ ⟨⟩; rfl)
  | bool value =>
      refine pinned_of_image ?_ (.bool value) (by rintro _ ⟨⟩; rfl)
      cases value with
      | false => exact hword 0
      | true => exact hword 1
  | void => exact pinned_of_image rfl .void (by rintro _ ⟨⟩; rfl)
  | openEnum value => exact pinned_of_image (hint32 value) (.openEnum value) (by rintro _ ⟨⟩; rfl)
  | @enumeration members value _ =>
      exact pinned_of_image (hint32 value) (.enumeration members value) (by rintro _ ⟨⟩; rfl)
  | @fixedOpaque length data hlength =>
      subst hlength
      exact pinned_of_image (filledUp_eq data) (.fixedOpaque _ data) (by rintro _ ⟨⟩; rfl)
  | @bytes max data hmax =>
      exact pinned_of_image (sized_eq hmax) (.bytes max data) (by rintro _ ⟨⟩; rfl)
  | @string max text hmax =>
      exact pinned_of_image (sized_eq hmax) (.string max text) (by rintro _ ⟨⟩; rfl)
  | @fixedArray length element items layout _ ih =>
      intro image
      rw [← parts_standard_iff (ih.imp fun hpart => hpart.2)]
      exact ⟨fun | .fixedArray hparts => hparts, .fixedArray⟩
  | @varArray max element items layout hmax _ ih =>
      intro image
      have hparts := parts_standard_iff (ih.imp fun hpart => hpart.2)
      rw [Layout.image_append, ← (octets_count hmax).trans (Layout.image_word _).symm]
      constructor
      · intro h
        cases h with
        | varArray hitems => rw [(hparts _).mp hitems]
      · rintro rfl
        exact .varArray ((hparts _).mpr rfl)
  | absent => exact pinned_of_image (hword 0) (.absent _) (by rintro _ ⟨⟩; rfl)
  | @present inner value layout _ ih =>
      intro image
      rw [Layout.image_append, ← hword]
      constructor
      · intro h
        cases h with
        | present hvalue => rw [(ih _).mp hvalue]; rfl
      · rintro rfl
        exact .present ((ih _).mpr rfl)
  | @struct parts items layout _ ih =>
      intro image
      rw [← parts_standard_iff (ih.imp fun hpart => hpart.2)]
      exact ⟨fun | .struct hparts => hparts, .struct⟩
  | @union arms fallback discriminant selected arm layout hselect _ ih =>
      intro image
      rw [Layout.image_append, ← hint32]
      constructor
      · intro h
        cases h with
        | union hother harm =>
            obtain rfl := Option.some.inj (hselect.symm.trans hother)
            rw [(ih _).mp harm]
      · rintro rfl
        exact .union hselect ((ih _).mpr rfl)
  | @ref name body value layout hbody _ ih =>
      intro image
      rw [← ih image]
      constructor
      · intro h
        cases h with
        | ref hother hvalue =>
            obtain rfl := Option.some.inj (hbody.symm.trans hother)
            exact hvalue
      · exact .ref hbody

/-- A value within the limits of its type, up to the first NUL of each string, has one image by
the standard. An encoder that is not poisoned writes it behind all that its sink has taken before,
if the sink takes everything. What the standard says of hypers is the same as one word after the
other. -/
theorem writes_standard (catalog : Catalog) (type : Ty) (value : Value)
    (hfits : type.Fits catalog.types value.cut) :
    (∃ image, (∀ other, type.Standard catalog.types value.cut other ↔ other = image) ∧
      ∀ encoder : Encoder, encoder.poisoned = false → encoder.transport.schedule.Unfailing →
        ∃ after, (EncodeStep.typed type value).run catalog encoder = (.ok (), after) ∧
          after.poisoned = false ∧
          after.transport.taken.toList = encoder.transport.taken.toList ++ image) ∧
      (∀ hyper : UInt64, octets 8 hyper.toNat = wordPair hyper) ∧
      ∀ hyper : Int64, octets 8 hyper.toInt = wordPair hyper.toUInt64 := by
  obtain ⟨layout, hlaid⟩ := hfits
  refine ⟨⟨layout.image, hlaid.pinned, fun encoder husable hunfailing => ?_⟩,
    fun hyper => ?_, fun hyper => ?_⟩
  · obtain ⟨after, hrun, hready, htaken⟩ :=
      @Transfer.send_of_laid catalog { type, value } encoder layout ⟨husable, hunfailing⟩ hlaid
    exact ⟨after, hrun, hready.usable, htaken⟩
  · rw [octets_hyper, wordPair_eq]
  · rw [octets_int64, wordPair_eq]

/-- A negative hyper, a string with a NUL and a list of optional booleans, behind a byte of another
value, in pieces of at most three bytes. -/
theorem writes_standard_struct :
    let type : Ty := .struct [.int64, .string 8, .varArray 2 (.optional .bool)]
    let value : Value :=
      .list [.int64 (-2), .string "ab\x00c", .list [.present (.bool true), .absent]]
    let encoder : Encoder :=
      { transport :=
          { schedule := { limit := fun _ => some 3, interrupts := [1] }, taken := #[9] } }
    type.Fits [] value.cut ∧ encoder.poisoned = false ∧ encoder.transport.schedule.Unfailing ∧
      ∃ after, (EncodeStep.typed type value).run {} encoder = (.ok (), after) ∧
        after.transport.taken.toList =
          [9, 255, 255, 255, 255, 255, 255, 255, 254, 0, 0, 0, 2, 97, 98, 0, 0, 0, 0, 0, 2,
            0, 0, 0, 1, 0, 0, 0, 1, 0, 0, 0, 0] := by
  intro type value encoder
  have hfits : type.Fits [] value.cut :=
    ⟨_, .struct (.cons (.int64 (-2)) (.cons (.string (by decide))
      (.cons (.varArray (by decide) (.cons (.present (.bool true)) (.cons .absent .nil))) .nil)))⟩
  have hstandard : type.Standard [] value.cut _ :=
    .struct (.cons (.int64 (-2)) (.cons (.string 8 "ab")
      (.cons (.varArray (.cons (.present (.bool true)) (.cons (.absent _) .nil))) .nil)))
  have hunfailing : encoder.transport.schedule.Unfailing := ⟨rfl, fun _ h => by cases h⟩
  refine ⟨hfits, rfl, hunfailing, ?_⟩
  obtain ⟨⟨image, hone, hwrites⟩, _⟩ := writes_standard {} type value hfits
  obtain ⟨after, hrun, _, htaken⟩ := hwrites encoder rfl hunfailing
  refine ⟨after, hrun, ?_⟩
  rw [htaken, ← (hone _).mp hstandard]
  decide

end Ty

end Xdr
