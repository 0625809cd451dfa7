import Xdr.Error

/-!
# Byte arrays of fixed length

Byte strings turned into arrays whose length is part of their type, as they are received from
formats that carry a length of their own.
-/

namespace Xdr.FixedOpaque

/-- The array of exactly these bytes, if there are as many as its length. -/
def ofExact? (length : Nat) (data : List UInt8) : Option (Vector UInt8 length) :=
  if h : data.length = length then some ⟨data.toArray, by simpa using h⟩ else none

/-- The array of these bytes, or the error that says how many were expected. -/
def receive (length : Nat) (data : List UInt8) : Except Error (Vector UInt8 length) :=
  match ofExact? length data with
  | some array => .ok array
  | none =>
      .error (.custom
        s!"invalid length {data.length}, expected fixed-length opaque ({length} bytes)")

/-- An array is received exactly from its own bytes. -/
theorem ofExact?_eq_some_iff {length : Nat} {data : List UInt8} {array : Vector UInt8 length} :
    ofExact? length data = some array ↔ data = array.toList := by
  unfold ofExact?
  split
  · rw [Option.some.injEq]
    constructor
    · rintro rfl
      simp [Vector.toList]
    · intro h
      ext
      simp [h]
  · next hlength =>
      simp only [reduceCtorEq, false_iff]
      rintro rfl
      exact hlength (by simp)

/-- An array is received from its own bytes and from no others. -/
theorem receive_eq_ok_iff {length : Nat} {data : List UInt8} {array : Vector UInt8 length} :
    receive length data = .ok array ↔ data = array.toList := by
  rw [← ofExact?_eq_some_iff, receive]
  cases ofExact? length data <;> simp

/-- What is not received is too short or too long, and the error says so. -/
theorem receive_eq_error_iff {length : Nat} {data : List UInt8} {stopped : Error} :
    receive length data = .error stopped ↔ data.length ≠ length ∧ stopped = .custom
      s!"invalid length {data.length}, expected fixed-length opaque ({length} bytes)" := by
  by_cases h : data.length = length
  · simp [receive, ofExact?, h]
  · simp [receive, ofExact?, h, eq_comm]

end Xdr.FixedOpaque
