/-!
# Padding to the four-byte boundary

Opaque data is followed by zero bytes up to the next multiple of four. `padLength` counts them and
`padded` adds them. The main statement is `length_padded_mod`: padded data always ends on the
boundary.
-/

namespace Xdr

/-- The number of padding bytes that follow `length` bytes of data. -/
def padLength (length : Nat) : Nat :=
  (4 - length % 4) % 4

/-- Data followed by its zero padding. -/
def padded (data : List UInt8) : List UInt8 :=
  data ++ List.replicate (padLength data.length) 0

theorem padLength_lt (length : Nat) : padLength length < 4 :=
  Nat.mod_lt _ (by omega)

/-- Data together with its padding fills whole groups of four bytes. -/
theorem add_padLength_mod (length : Nat) : (length + padLength length) % 4 = 0 := by
  unfold padLength
  omega

/-- No padding follows exactly the lengths that are multiples of four. -/
theorem padLength_eq_zero_iff (length : Nat) : padLength length = 0 ↔ length % 4 = 0 := by
  unfold padLength
  omega

@[simp] theorem length_padded (data : List UInt8) :
    (padded data).length = data.length + padLength data.length := by
  simp [padded]

theorem length_padded_mod (data : List UInt8) : (padded data).length % 4 = 0 := by
  rw [length_padded]
  exact add_padLength_mod data.length

end Xdr
