import Xdr.Model.Reading
import Xdr.Proofs.Acceptance.Items
import Xdr.Proofs.Model.Layout

/-!
# What the readings of data accept

For each kind of reading, the bytes that it takes for a datum. The statement to read first is
`accepts_visiting_iff`: a reader that asks until the end gets as many elements as the count says.
-/

namespace Xdr

open Reading

variable {policy : PaddingPolicy} {consumed : List UInt8}

namespace Elements

variable {α : Type} {element : Reading Unit α}

/-- A request is answered with an element while there are any left. -/
theorem accepts_next_succ_iff {remaining : Nat} {answer : Option α × Nat} :
    (next element (remaining + 1)).Accepts policy consumed answer ↔
      ∃ value, element.Accepts policy consumed value ∧ answer = (some value, remaining) :=
  accepts_map_iff

/-- A reader that needs all its elements gets them if that many are announced. -/
theorem accepts_each_iff {elements : List (Reading Unit α)} {index remaining : Nat}
    {values all : List α} : (each elements index remaining values).Accepts policy consumed all ↔
      elements.length ≤ remaining ∧ ∃ others, all = values.reverse ++ others ∧
        AcceptsAll policy elements consumed others := by
  induction elements generalizing index remaining values consumed with
  | nil =>
      constructor
      · intro h
        obtain ⟨rfl, rfl⟩ := h
        exact ⟨Nat.zero_le _, [], (List.append_nil _).symm, rfl, rfl⟩
      · intro h
        obtain ⟨_, _, rfl, rfl, rfl⟩ := h
        exact ⟨rfl, List.append_nil _⟩
  | cons element elements ih =>
      cases remaining with
      | zero =>
          constructor
          · intro h
            obtain ⟨front, back, answer, _, ⟨_, rfl⟩, hnext⟩ := h
            exact False.elim hnext
          · intro h
            obtain ⟨hle, _⟩ := h
            cases hle
      | succ remaining =>
          constructor
          · intro h
            obtain ⟨front, back, answer, rfl, hfirst, hnext⟩ := h
            obtain ⟨value, hvalue, rfl⟩ := accepts_next_succ_iff.mp hfirst
            obtain ⟨hle, others, rfl, hothers⟩ := ih.mp hnext
            refine ⟨Nat.succ_le_succ hle, value :: others, by simp, ?_⟩
            exact ⟨front, back, value, others, rfl, rfl, hvalue, hothers⟩
          · intro h
            obtain ⟨hle, _, rfl, front, back, value, others, rfl, rfl, hvalue, hothers⟩ := h
            refine ⟨front, back, (some value, remaining), rfl,
              accepts_next_succ_iff.mpr ⟨value, hvalue, rfl⟩, ?_⟩
            exact ih.mpr ⟨Nat.le_of_succ_le_succ hle, others, by simp, hothers⟩

/-- A reader that makes one request more than there are elements gets all of them, and notes down
the number of elements left before each request. -/
theorem accepts_visit_iff {remaining : Nat} {values all : List α} {hints noted : List Nat} :
    (visit element (remaining + 1) remaining values hints).Accepts policy consumed (all, noted) ↔
      noted = hints.reverse ++ (List.range (remaining + 1)).reverse ∧
        ∃ others, all = values.reverse ++ others ∧
          AcceptsAll policy (List.replicate remaining element) consumed others := by
  induction remaining generalizing values hints consumed with
  | zero =>
      constructor
      · intro h
        obtain ⟨front, back, answer, rfl, ⟨rfl, rfl⟩, rfl, hall⟩ := h
        obtain ⟨rfl, rfl⟩ := Prod.mk.inj hall
        exact ⟨List.reverse_cons, [], (List.append_nil _).symm, rfl, rfl⟩
      · intro h
        obtain ⟨rfl, _, rfl, rfl, rfl⟩ := h
        refine ⟨[], [], (none, 0), rfl, ⟨rfl, rfl⟩, rfl, ?_⟩
        rw [List.append_nil, List.reverse_cons]
        rfl
  | succ remaining ih =>
      have hnoted : hints.reverse ++ (List.range (remaining + 1 + 1)).reverse =
          ((remaining + 1) :: hints).reverse ++ (List.range (remaining + 1)).reverse := by
        rw [List.range_succ, List.reverse_concat, List.reverse_cons, List.append_assoc]
        rfl
      rw [hnoted]
      constructor
      · intro h
        obtain ⟨front, back, answer, rfl, hfirst, hnext⟩ := h
        obtain ⟨value, hvalue, rfl⟩ := accepts_next_succ_iff.mp hfirst
        obtain ⟨hhints, others, rfl, hothers⟩ := ih.mp hnext
        refine ⟨hhints, value :: others, by simp, ?_⟩
        exact ⟨front, back, value, others, rfl, rfl, hvalue, hothers⟩
      · intro h
        obtain ⟨hhints, _, rfl, front, back, value, others, rfl, rfl, hvalue, hothers⟩ := h
        refine ⟨front, back, (some value, remaining), rfl,
          accepts_next_succ_iff.mpr ⟨value, hvalue, rfl⟩, ?_⟩
        exact ih.mpr ⟨hhints, others, by simp, hothers⟩

end Elements

namespace Schema

variable {ceiling : UInt32} {resolve : Schema → Schema} {named : String → Reading Unit Datum}
  {datum : Datum}

theorem readingsWith_eq_map (schemas : List Schema) :
    readingsWith ceiling resolve named schemas =
      schemas.map (readingWith ceiling resolve named) := by
  induction schemas with
  | nil => rfl
  | cons schema schemas ih => rw [readingsWith, ih, List.map_cons]

/-! ### Items -/

/-- Only the words 0 and 1 are taken for booleans. -/
theorem accepts_bool_iff : (readingWith ceiling resolve named bool).Accepts policy consumed datum ↔
    ∃ value, datum = .bool value ∧ (Layout.word (boolWord value)).Admits policy consumed := by
  show (Reading.bool () fun value => done (Datum.bool value)).Accepts policy consumed datum ↔ _
  rw [Reading.accepts_bool_iff]
  constructor
  · intro h
    obtain ⟨value, rest, rfl, rfl, rfl⟩ := h
    exact ⟨value, rfl, Layout.admits_word_iff.mpr (List.append_nil _)⟩
  · intro h
    obtain ⟨value, rfl, hadmits⟩ := h
    refine ⟨value, [], ?_, rfl, rfl⟩
    rw [List.append_nil]
    exact Layout.admits_word_iff.mp hadmits

theorem accepts_int32_iff :
    (readingWith ceiling resolve named int32).Accepts policy consumed datum ↔
    ∃ value, datum = .int32 value ∧ (Layout.word value.toUInt32).Admits policy consumed := by
  show (word .int32 () fun w => done (Datum.int32 w.toInt32)).Accepts policy consumed datum ↔ _
  rw [accepts_word_done_iff]
  constructor
  · intro h
    obtain ⟨w, hadmits, rfl⟩ := h
    exact ⟨_, rfl, by rwa [UInt32.toUInt32_toInt32]⟩
  · intro h
    obtain ⟨value, rfl, hadmits⟩ := h
    exact ⟨_, hadmits, by rw [Int32.toInt32_toUInt32]⟩

theorem accepts_int64_iff :
    (readingWith ceiling resolve named int64).Accepts policy consumed datum ↔
    ∃ value, datum = .int64 value ∧ (Layout.hyper value.toUInt64).Admits policy consumed := by
  show (hyper .int64 () fun h => done (Datum.int64 h.toInt64)).Accepts policy consumed datum ↔ _
  rw [accepts_hyper_done_iff]
  constructor
  · intro h
    obtain ⟨h, hadmits, rfl⟩ := h
    exact ⟨_, rfl, by rwa [UInt64.toUInt64_toInt64]⟩
  · intro h
    obtain ⟨value, rfl, hadmits⟩ := h
    exact ⟨_, hadmits, by rw [Int64.toInt64_toUInt64]⟩

/-- A word that stands for itself is taken whatever it is. -/
theorem accepts_asWord_iff {operation : Operation} {make : UInt32 → Datum} :
    (word operation () fun w => done (make w)).Accepts policy consumed datum ↔
      ∃ w, datum = make w ∧ (Layout.word w).Admits policy consumed := by
  rw [accepts_word_done_iff]
  exact exists_congr fun w => and_comm

/-- A hyper that stands for itself is taken whatever it is. -/
theorem accepts_asHyper_iff {operation : Operation} {make : UInt64 → Datum} :
    (hyper operation () fun h => done (make h)).Accepts policy consumed datum ↔
      ∃ h, datum = make h ∧ (Layout.hyper h).Admits policy consumed := by
  rw [accepts_hyper_done_iff]
  exact exists_congr fun h => and_comm

/-- Only words within the bound are taken for signed integers of less than 32 bits, and each of them
for another integer. -/
theorem accepts_narrowSigned_iff {ι : Type} {operation : Operation} {bound : Nat}
    {widen : ι → Int32} {ofInt : Int → ι} {make : ι → Datum}
    (hbound : ∀ value, -bound ≤ (widen value).toInt ∧ (widen value).toInt < bound)
    (hofInt : ∀ value, ofInt (widen value).toInt = value)
    (hwiden : ∀ n : Int, -bound ≤ n → n < bound → (widen (ofInt n)).toInt = n) :
    (narrowSigned operation bound fun n => make (ofInt n)).Accepts policy consumed datum ↔
      ∃ value, datum = make value ∧
        (Layout.word (widen value).toUInt32).Admits policy consumed := by
  unfold narrowSigned
  rw [accepts_word_iff]
  constructor
  · intro h
    obtain ⟨w, rest, rfl, hnext⟩ := h
    by_cases hw : -bound ≤ w.toInt32.toInt ∧ w.toInt32.toInt < bound
    · simp only [if_pos hw] at hnext
      obtain ⟨rfl, rfl⟩ := hnext
      have hword : widen (ofInt w.toInt32.toInt) = w.toInt32 :=
        Int32.toInt.inj (hwiden _ hw.1 hw.2)
      refine ⟨_, rfl, Layout.admits_word_iff.mpr ?_⟩
      rw [hword, UInt32.toUInt32_toInt32, List.append_nil]
    · simp only [if_neg hw] at hnext
      exact absurd hnext not_accepts_fault
  · intro h
    obtain ⟨value, rfl, hadmits⟩ := h
    refine ⟨(widen value).toUInt32, [], ?_, ?_⟩
    · rw [List.append_nil]
      exact Layout.admits_word_iff.mp hadmits
    · simp only [Int32.toInt32_toUInt32, if_pos (hbound value), hofInt]
      exact ⟨rfl, rfl⟩

theorem accepts_int8_iff :
    (readingWith ceiling resolve named int8).Accepts policy consumed datum ↔
      ∃ value : Int8, datum = .int8 value ∧
        (Layout.word value.toInt32.toUInt32).Admits policy consumed := by
  show (narrowSigned .int8 128 fun n => Datum.int8 (Int8.ofInt n)).Accepts policy consumed
    datum ↔ _
  refine accepts_narrowSigned_iff (fun value => ?_) (fun value => ?_) fun n hlow hhigh => ?_
  · rw [Int8.toInt_toInt32]
    exact ⟨value.le_toInt, value.toInt_lt⟩
  · rw [Int8.toInt_toInt32, Int8.ofInt_toInt]
  · rw [Int8.toInt_toInt32, Int8.toInt_ofInt_of_le hlow hhigh]

theorem accepts_int16_iff :
    (readingWith ceiling resolve named int16).Accepts policy consumed datum ↔
      ∃ value : Int16, datum = .int16 value ∧
        (Layout.word value.toInt32.toUInt32).Admits policy consumed := by
  show (narrowSigned .int16 32768 fun n => Datum.int16 (Int16.ofInt n)).Accepts policy consumed
    datum ↔ _
  refine accepts_narrowSigned_iff (fun value => ?_) (fun value => ?_) fun n hlow hhigh => ?_
  · rw [Int16.toInt_toInt32]
    exact ⟨value.le_toInt, value.toInt_lt⟩
  · rw [Int16.toInt_toInt32, Int16.ofInt_toInt]
  · rw [Int16.toInt_toInt32, Int16.toInt_ofInt_of_le hlow hhigh]

/-- Only words below the bound are taken for unsigned integers of less than 32 bits, and each of
them for another integer. -/
theorem accepts_narrowUnsigned_iff {ι : Type} {operation : Operation} {bound : Nat}
    {widen : ι → UInt32} {ofNat : Nat → ι} {make : ι → Datum}
    (hbound : ∀ value, (widen value).toNat < bound)
    (hofNat : ∀ value, ofNat (widen value).toNat = value)
    (hwiden : ∀ n < bound, (widen (ofNat n)).toNat = n) :
    (narrowUnsigned operation bound fun n => make (ofNat n)).Accepts policy consumed datum ↔
      ∃ value, datum = make value ∧ (Layout.word (widen value)).Admits policy consumed := by
  unfold narrowUnsigned
  rw [accepts_word_iff]
  constructor
  · intro h
    obtain ⟨w, rest, rfl, hnext⟩ := h
    by_cases hw : w.toNat < bound
    · simp only [if_pos hw] at hnext
      obtain ⟨rfl, rfl⟩ := hnext
      have hword : widen (ofNat w.toNat) = w := UInt32.toNat.inj (hwiden _ hw)
      refine ⟨_, rfl, Layout.admits_word_iff.mpr ?_⟩
      rw [hword, List.append_nil]
    · simp only [if_neg hw] at hnext
      exact absurd hnext not_accepts_fault
  · intro h
    obtain ⟨value, rfl, hadmits⟩ := h
    refine ⟨widen value, [], ?_, ?_⟩
    · rw [List.append_nil]
      exact Layout.admits_word_iff.mp hadmits
    · simp only [if_pos (hbound value), hofNat]
      exact ⟨rfl, rfl⟩

theorem accepts_uint8_iff :
    (readingWith ceiling resolve named uint8).Accepts policy consumed datum ↔
      ∃ value : UInt8, datum = .uint8 value ∧
        (Layout.word value.toUInt32).Admits policy consumed := by
  show (narrowUnsigned .uint8 256 fun n => Datum.uint8 (UInt8.ofNat n)).Accepts policy consumed
    datum ↔ _
  refine accepts_narrowUnsigned_iff (fun value => ?_) (fun value => ?_) fun n hn => ?_
  · rw [UInt8.toNat_toUInt32]
    exact value.toNat_lt
  · rw [UInt8.toNat_toUInt32, UInt8.ofNat_toNat]
  · rw [UInt8.toNat_toUInt32, UInt8.toNat_ofNat_of_lt' hn]

theorem accepts_uint16_iff :
    (readingWith ceiling resolve named uint16).Accepts policy consumed datum ↔
      ∃ value : UInt16, datum = .uint16 value ∧
        (Layout.word value.toUInt32).Admits policy consumed := by
  show (narrowUnsigned .uint16 65536 fun n => Datum.uint16 (UInt16.ofNat n)).Accepts policy
    consumed datum ↔ _
  refine accepts_narrowUnsigned_iff (fun value => ?_) (fun value => ?_) fun n hn => ?_
  · rw [UInt16.toNat_toUInt32]
    exact value.toNat_lt
  · rw [UInt16.toNat_toUInt32, UInt16.ofNat_toNat]
  · rw [UInt16.toNat_toUInt32, UInt16.toNat_ofNat_of_lt' hn]

/-- Only words that are characters are taken for characters. -/
theorem accepts_char_iff : (readingWith ceiling resolve named char).Accepts policy consumed datum ↔
    ∃ value : Char, datum = .char value ∧ (Layout.word value.val).Admits policy consumed := by
  show character.Accepts policy consumed datum ↔ _
  rw [character, accepts_word_iff]
  constructor
  · intro h
    obtain ⟨w, rest, rfl, hnext⟩ := h
    by_cases hvalid : w.isValidChar
    · rw [dif_pos hvalid] at hnext
      obtain ⟨rfl, rfl⟩ := hnext
      exact ⟨_, rfl, Layout.admits_word_iff.mpr (List.append_nil _)⟩
    · rw [dif_neg hvalid] at hnext
      exact absurd hnext not_accepts_fault
  · intro h
    obtain ⟨value, rfl, hadmits⟩ := h
    refine ⟨value.val, [], ?_, ?_⟩
    · rw [List.append_nil]
      exact Layout.admits_word_iff.mp hadmits
    · rw [dif_pos value.valid]
      exact ⟨rfl, rfl⟩

theorem accepts_string_iff : (readingWith ceiling resolve named string).Accepts policy consumed
    datum ↔ ∃ text, datum = .string text ∧ (Text.bytes text).length ≤ ceiling.toNat ∧
      (Layout.sized (Text.bytes text)).Admits policy consumed := by
  show ((Reading.string ceiling ()).map id Datum.string).Accepts policy consumed datum ↔ _
  rw [Reading.accepts_map_iff]
  refine exists_congr fun text => ?_
  rw [Reading.accepts_string_iff, and_comm]

theorem accepts_bytes_iff : (readingWith ceiling resolve named bytes).Accepts policy consumed
    datum ↔ ∃ data, datum = .bytes data ∧ data.length ≤ ceiling.toNat ∧
      (Layout.sized data).Admits policy consumed := by
  show ((sized .bytes ceiling []).map (fun _ => ()) Datum.bytes).Accepts policy consumed datum ↔ _
  rw [Reading.accepts_map_iff]
  refine exists_congr fun data => ?_
  rw [accepts_sized_iff, and_comm]

theorem accepts_fixedOpaque_iff {length : Nat} :
    (readingWith ceiling resolve named (fixedOpaque length)).Accepts policy consumed datum ↔
      ∃ data, datum = .bytes data ∧ data.length = length ∧
        (Layout.padded data).Admits policy consumed := by
  show (Reading.fixedOpaque length () fun data => done (Datum.bytes data)).Accepts policy consumed
    datum ↔ _
  rw [Reading.accepts_fixedOpaque_iff]
  constructor
  · intro h
    obtain ⟨data, front, back, rfl, hlength, hadmits, rfl, rfl⟩ := h
    rw [List.append_nil]
    exact ⟨data, rfl, hlength, hadmits⟩
  · intro h
    obtain ⟨data, rfl, hlength, hadmits⟩ := h
    exact ⟨data, consumed, [], (List.append_nil _).symm, hlength, hadmits, rfl, rfl⟩

/-! ### Compound data -/

/-- Only the words 0 and 1 are taken in front of optional data. -/
theorem accepts_option_iff {inner : Schema} :
    (readingWith ceiling resolve named (option inner)).Accepts policy consumed datum ↔
      (datum = .absent ∧ consumed = wordImage 0) ∨
        ∃ content rest, datum = .present content ∧ consumed = wordImage 1 ++ rest ∧
          (readingWith ceiling resolve named inner).Accepts policy rest content := by
  show (word .uint32 () fun present =>
    if present = 0 then done Datum.absent
    else if present = 1 then (readingWith ceiling resolve named inner).map id .present
    else fault .optional (.invalidOption present) ()).Accepts policy consumed datum ↔ _
  rw [accepts_word_iff]
  constructor
  · intro h
    obtain ⟨present, rest, rfl, hnext⟩ := h
    split at hnext
    · next hpresent =>
        obtain ⟨rfl, rfl⟩ := hnext
        exact Or.inl ⟨rfl, by rw [hpresent, List.append_nil]⟩
    · split at hnext
      · next hpresent =>
          obtain ⟨content, hcontent, rfl⟩ := Reading.accepts_map_iff.mp hnext
          exact Or.inr ⟨content, rest, rfl, by rw [hpresent], hcontent⟩
      · exact absurd hnext not_accepts_fault
  · rintro (⟨rfl, rfl⟩ | ⟨content, rest, rfl, rfl, hcontent⟩)
    · exact ⟨0, [], (List.append_nil _).symm, rfl, rfl⟩
    · exact ⟨1, rest, rfl, Reading.accepts_map_iff.mpr ⟨content, hcontent, rfl⟩⟩

/-- As many elements as the reader asks for are taken if that many are declared. -/
theorem accepts_tuple_iff {declared : Nat} {elements : List Schema} :
    (readingWith ceiling resolve named (tuple declared elements)).Accepts policy consumed datum ↔
      ∃ data, datum = .tuple data ∧ elements.length ≤ declared ∧
        AcceptsAll policy (elements.map (readingWith ceiling resolve named)) consumed data := by
  show ((Elements.each (readingsWith ceiling resolve named elements) 0 declared []).map id
    Datum.tuple).Accepts policy consumed datum ↔ _
  rw [Reading.accepts_map_iff]
  refine exists_congr fun data => ?_
  rw [Elements.accepts_each_iff, readingsWith_eq_map, List.length_map, and_comm]
  refine and_congr_right fun _ => and_congr_right fun _ => ?_
  constructor
  · intro h
    obtain ⟨_, rfl, hall⟩ := h
    exact hall
  · exact fun hall => ⟨data, rfl, hall⟩

/-- A name makes no difference to what is taken. -/
theorem accepts_record_iff {declared : Nat} {fields : List Schema} :
    (readingWith ceiling resolve named (record declared fields)).Accepts policy consumed datum ↔
      ∃ data, datum = .tuple data ∧ fields.length ≤ declared ∧
        AcceptsAll policy (fields.map (readingWith ceiling resolve named)) consumed data :=
  accepts_tuple_iff

/-- Behind a count within the ceiling, a reader that asks until the end gets as many elements. -/
theorem accepts_visiting_iff {α : Type} {visit : Visit} {element : Reading Unit α}
    {make : List α → Option (List Nat) → Datum} (htake : visit.take = none) :
    (visiting ceiling visit element make).Accepts policy consumed datum ↔
      ∃ values rest, datum = make values (visit.noted values.length) ∧
        values.length ≤ ceiling.toNat ∧
        consumed = wordImage (UInt32.ofNat values.length) ++ rest ∧
        AcceptsAll policy (List.replicate values.length element) rest values := by
  unfold visiting
  rw [htake, accepts_length_iff]
  constructor
  · intro h
    obtain ⟨count, rest, rfl, hmax, hnext⟩ := h
    obtain ⟨⟨values, noted⟩, hvisit, rfl⟩ := Reading.accepts_map_iff.mp hnext
    obtain ⟨rfl, _, rfl, hall⟩ := Elements.accepts_visit_iff.mp hvisit
    have hlength := hall.length_eq
    rw [List.length_replicate] at hlength
    refine ⟨values, rest, ?_, ?_⟩
    · unfold Visit.noted
      rw [← hlength]
      rfl
    · rw [← hlength, UInt32.ofNat_toNat]
      exact ⟨UInt32.le_iff_toNat_le.mp hmax, rfl, hall⟩
  · intro h
    obtain ⟨values, rest, rfl, hmax, rfl, hall⟩ := h
    have hcount : (UInt32.ofNat values.length).toNat = values.length :=
      UInt32.toNat_ofNat_of_lt' (Nat.lt_of_le_of_lt hmax ceiling.toNat_lt)
    refine ⟨UInt32.ofNat values.length, rest, rfl, ?_, ?_⟩
    · rw [UInt32.le_iff_toNat_le, hcount]
      exact hmax
    · rw [hcount]
      have hvisit : (Elements.visit element (values.length + 1) values.length [] []).Accepts policy
          rest (values, (List.range (values.length + 1)).reverse) :=
        Elements.accepts_visit_iff.mpr ⟨rfl, values, rfl, hall⟩
      exact Reading.accepts_map_iff.mpr ⟨_, hvisit, rfl⟩

/-- Behind a count within the ceiling, as many elements are taken. -/
theorem accepts_seq_iff {element : Schema} {told : Told} {visit : Visit}
    (htake : visit.take = none) :
    (readingWith ceiling resolve named (seq element told visit)).Accepts policy consumed datum ↔
      ∃ data rest, datum = .seq data (visit.noted data.length) ∧ data.length ≤ ceiling.toNat ∧
        consumed = wordImage (UInt32.ofNat data.length) ++ rest ∧
        AcceptsAll policy
          ((List.replicate data.length element).map (readingWith ceiling resolve named)) rest
          data := by
  show (visiting ceiling visit (readingWith ceiling resolve named element) Datum.seq).Accepts policy
    consumed datum ↔ _
  rw [accepts_visiting_iff htake]
  simp only [List.map_replicate]

/-- Entries are taken as their keys and values in a row. -/
theorem acceptsAll_entries_iff {read : Schema → Reading Unit Datum} {key value : Schema}
    {entries : List (Datum × Datum)} :
    AcceptsAll policy (List.replicate entries.length
      ((read key).andThen id fun k => (read value).map id fun v => (k, v))) consumed entries ↔
      AcceptsAll policy ((entryKinds key value entries.length).map read) consumed
        (Datum.flat entries) := by
  induction entries generalizing consumed with
  | nil => exact ⟨fun h => ⟨h.1, rfl⟩, fun h => ⟨h.1, rfl⟩⟩
  | cons head entries ih =>
      constructor
      · intro h
        obtain ⟨_, rest, _, _, rfl, hcons, hhead, hrest⟩ := h
        obtain ⟨rfl, rfl⟩ := List.cons.inj hcons
        obtain ⟨front, back, k, rfl, hkey, hmap⟩ := hhead
        obtain ⟨v, hvalue, rfl⟩ := Reading.accepts_map_iff.mp hmap
        refine ⟨front, back ++ rest, k, _, List.append_assoc _ _ _, rfl, hkey, ?_⟩
        exact ⟨back, rest, v, _, rfl, rfl, hvalue, ih.mp hrest⟩
      · obtain ⟨k, v⟩ := head
        intro h
        obtain ⟨front, _, _, _, rfl, hflat, hkey, back, rest, _, _, rfl, hothers, hvalue,
          hrest⟩ := h
        obtain ⟨rfl, rfl⟩ := List.cons.inj hflat
        obtain ⟨rfl, rfl⟩ := List.cons.inj hothers
        refine ⟨front ++ back, rest, (k, v), entries, (List.append_assoc _ _ _).symm, rfl, ?_,
          ih.mpr hrest⟩
        exact ⟨front, back, k, rfl, hkey, Reading.accepts_map_iff.mpr ⟨v, hvalue, rfl⟩⟩

/-- Behind a count within the ceiling, as many keys and values are taken. -/
theorem accepts_map_iff {key value : Schema} {told : Told} {visit : Visit}
    (htake : visit.take = none) :
    (readingWith ceiling resolve named (map key value told visit)).Accepts policy consumed datum ↔
      ∃ entries rest, datum = .map entries (visit.noted entries.length) ∧
        entries.length ≤ ceiling.toNat ∧
        consumed = wordImage (UInt32.ofNat entries.length) ++ rest ∧
        AcceptsAll policy
          ((entryKinds key value entries.length).map (readingWith ceiling resolve named)) rest
          (Datum.flat entries) := by
  show (visiting ceiling visit ((readingWith ceiling resolve named key).andThen id fun k =>
    (readingWith ceiling resolve named value).map id fun v => (k, v)) Datum.map).Accepts policy
    consumed datum ↔ _
  rw [accepts_visiting_iff htake]
  simp only [acceptsAll_entries_iff]

/-- Only an index that has a variant is taken, then the content of that variant. -/
theorem accepts_enumeration_iff {variants : List Schema} :
    (readingWith ceiling resolve named (enumeration variants)).Accepts policy consumed datum ↔
      ∃ index selected content rest, datum = .variant index none content ∧
        variants[index.toNat]? = some selected ∧ consumed = wordImage index ++ rest ∧
        (readingWith ceiling resolve named selected).Accepts policy rest content := by
  rw [readingWith, accepts_word_iff]
  constructor
  · intro h
    obtain ⟨index, rest, rfl, hnext⟩ := h
    rw [readingsWith_eq_map, List.getElem?_map] at hnext
    cases hselect : variants[index.toNat]? with
    | none =>
        simp only [hselect, Option.map_none] at hnext
        exact absurd hnext not_accepts_fault
    | some selected =>
        simp only [hselect, Option.map_some] at hnext
        obtain ⟨content, hcontent, rfl⟩ := Reading.accepts_map_iff.mp hnext
        exact ⟨index, selected, content, rest, rfl, hselect, rfl, hcontent⟩
  · intro h
    obtain ⟨index, selected, content, rest, rfl, hselect, rfl, hcontent⟩ := h
    refine ⟨index, rest, rfl, ?_⟩
    rw [readingsWith_eq_map, List.getElem?_map, hselect]
    exact Reading.accepts_map_iff.mpr ⟨content, hcontent, rfl⟩

end Schema

end Xdr
