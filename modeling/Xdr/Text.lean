/-!
# Text as bytes

Strings travel as UTF-8. `Text.ofBytes?` refuses every other byte string, and `Text.untilNul` is the
part of a string that the string type writes. `ofBytes?_bytes` says that the bytes of a string are
read back as that string, and `bytes_of_ofBytes?` that no other bytes are.
-/

namespace Xdr.Text

/-- The UTF-8 bytes of a string. -/
def bytes (text : String) : List UInt8 :=
  text.toUTF8.data.toList

/-- The string with these UTF-8 bytes. -/
def ofBytes? (data : List UInt8) : Option String :=
  String.fromUTF8? ⟨data.toArray⟩

/-- The bytes in front of the first NUL. -/
def untilNul (data : List UInt8) : List UInt8 :=
  data.takeWhile (· != 0)

/-- The bytes of a string are read back as that string. -/
theorem ofBytes?_bytes (text : String) : ofBytes? (bytes text) = some text := by
  have hdata : (⟨(bytes text).toArray⟩ : ByteArray) = text.toUTF8 := rfl
  unfold ofBytes? String.fromUTF8?
  rw [hdata, dif_pos (show text.toUTF8.IsValidUTF8 from text.isValidUTF8)]
  rfl

/-- Bytes that are read as a string are the bytes of that string. -/
theorem bytes_of_ofBytes? {data : List UInt8} {text : String} (h : ofBytes? data = some text) :
    bytes text = data := by
  unfold ofBytes? String.fromUTF8? at h
  split at h
  · simp at h; subst h; rfl
  · simp at h

end Xdr.Text
