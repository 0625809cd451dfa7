import Xdr.Config.Json
import Xdr.Config.Wire
import Xdr.FixedOpaque
import Xdr.Proofs.Json
import Xdr.Proofs.Model.RoundTrip

/-!
# Settings and arrays that come back

Settings are read back from the text and from the bytes that are written for them, and arrays of
fixed length from their bytes. The statements to read first say what else they are read from:
`Config.ofJson?_eq_some_iff` with `Config.ofValue?_object_eq_some_iff` for texts, and
`Config.ofBytes_eq_ok_iff` and `FixedOpaque.fromBytes_eq_ok_iff` for byte strings, where only those
do that begin with the bytes that are written.
-/

namespace Xdr

/-! ### Settings as text -/

/-- The values of the members of an object that have this key. -/
def Json.valuesOf (key : String) (members : List (Option String × Json)) : List Json :=
  (members.filter fun member => member.1 = some key).map Prod.snd

theorem Json.valuesOf_cons (key other : String) (value : Json)
    (members : List (Option String × Json)) :
    valuesOf key ((some other, value) :: members) =
      if other = key then value :: valuesOf key members else valuesOf key members := by
  by_cases h : other = key <;> simp [valuesOf, h]

/-- What is read from no value is nothing, and what is read from one value is there. -/
inductive Once {α : Type} (read : Json → Option α) : List Json → Option α → Prop where
  | missing : Once read [] none
  | given {value found} : read value = some found → Once read [value] (some found)

section

variable {α β : Type} {read : Json → Option α} {value : Json} {values : List Json}

theorem once_cons_iff {found : Option α} : Once read (value :: values) found ↔
    Once read values none ∧ ∃ setting, read value = some setting ∧ found = some setting := by
  constructor
  · intro h
    cases h with
    | given h => exact ⟨.missing, _, h, rfl⟩
  · rintro ⟨hnone, setting, h, rfl⟩
    cases hnone with
    | missing => exact .given h

/-- A setting is taken where there was none before. -/
theorem ite_isSome_eq_some_iff {before : Option α} {place : α → β} {placed : β} :
    (if before.isSome then none else (read value).bind fun setting => some (place setting)) =
      some placed ↔
    before = none ∧ ∃ setting, read value = some setting ∧ place setting = placed := by
  cases before <;> simp [Option.bind_eq_some_iff]

end

namespace Config

open Json (valuesOf)

/-- The members of an object give settings wherever they stand and whatever else is there, as long
as every key has a text and no setting comes twice. -/
theorem ofMembers?_eq_some_iff {members : List (Option String × Json)}
    {padding : Option PaddingPolicy} {maxLength : Option UInt32} :
    ofMembers? members = some (padding, maxLength) ↔
      (∀ member ∈ members, member.1 ≠ none) ∧
        Once PaddingPolicy.ofJson? (valuesOf "padding" members) padding ∧
        Once maxLengthOfJson? (valuesOf "max_length" members) maxLength := by
  induction members generalizing padding maxLength with
  | nil =>
      constructor
      · intro h
        cases h
        exact ⟨fun _ hmem => (List.not_mem_nil hmem).elim, .missing, .missing⟩
      · rintro ⟨-, hpadding, hmaxLength⟩
        cases hpadding
        cases hmaxLength
        rfl
  | cons member members ih =>
      obtain ⟨_ | key, value⟩ := member
      · exact iff_of_false (fun h => by cases h) fun h => h.1 _ List.mem_cons_self rfl
      have hkey : (some key, value).1 ≠ none := Option.some_ne_none key
      rw [ofMembers?, Json.valuesOf_cons, Json.valuesOf_cons, List.forall_mem_cons,
        and_iff_right hkey]
      simp only [bind, pure, Option.bind_eq_some_iff, Prod.exists, ih]
      by_cases hpadding : key = "padding"
      · subst hpadding
        simp only [if_true, ite_isSome_eq_some_iff, once_cons_iff]
        rw [if_neg (by decide)]
        constructor
        · rintro ⟨before, other, ⟨hkeys, hbefore, hother⟩, rfl, setting, hsetting, heq⟩
          cases heq
          exact ⟨hkeys, ⟨hbefore, setting, hsetting, rfl⟩, hother⟩
        · rintro ⟨hkeys, ⟨hbefore, setting, hsetting, rfl⟩, hother⟩
          exact ⟨none, maxLength, ⟨hkeys, hbefore, hother⟩, rfl, setting, hsetting, rfl⟩
      simp only [if_neg hpadding]
      by_cases hmaxLength : key = "max_length"
      · subst hmaxLength
        simp only [if_true, ite_isSome_eq_some_iff, once_cons_iff]
        constructor
        · rintro ⟨other, before, ⟨hkeys, hother, hbefore⟩, rfl, setting, hsetting, heq⟩
          cases heq
          exact ⟨hkeys, hother, hbefore, setting, hsetting, rfl⟩
        · rintro ⟨hkeys, hother, hbefore, setting, hsetting, rfl⟩
          exact ⟨padding, none, ⟨hkeys, hother, hbefore⟩, rfl, setting, hsetting, rfl⟩
      simp only [if_neg hmaxLength]
      constructor
      · rintro ⟨before, other, hrest, heq⟩
        cases heq
        exact hrest
      · exact fun hrest => ⟨padding, maxLength, hrest, rfl⟩

/-- The settings that an object gives. -/
theorem ofValue?_object_eq_some_iff {members : List (Option String × Json)} {config : Config} :
    ofValue? (.object members) = some config ↔
      (∀ member ∈ members, member.1 ≠ none) ∧ ∃ padding maxLength,
        Once PaddingPolicy.ofJson? (valuesOf "padding" members) padding ∧
        Once maxLengthOfJson? (valuesOf "max_length" members) maxLength ∧
        config = ⟨padding.getD default.padding, maxLength.getD default.maxLength⟩ := by
  simp only [ofValue?, bind, pure, Option.bind_eq_some_iff, Prod.exists, ofMembers?_eq_some_iff,
    Option.some.injEq]
  constructor
  · rintro ⟨padding, maxLength, ⟨hkeys, hpadding, hmaxLength⟩, rfl⟩
    exact ⟨hkeys, padding, maxLength, hpadding, hmaxLength, rfl⟩
  · rintro ⟨hkeys, padding, maxLength, hpadding, hmaxLength, rfl⟩
    exact ⟨padding, maxLength, ⟨hkeys, hpadding, hmaxLength⟩, rfl⟩

/-- A text gives settings if it spells, between blanks, a value that gives them. -/
theorem ofJson?_eq_some_iff {text : String} {config : Config} : ofJson? text = some config ↔
    ∃ front value chars back, Json.Blank front ∧ Json.Spells value chars ∧ Json.Blank back ∧
      text.toList = front ++ (chars ++ back) ∧ ofValue? value = some config := by
  simp only [ofJson?, bind, Option.bind_eq_some_iff, Json.parse?_eq_some_iff]
  constructor
  · rintro ⟨value, ⟨front, chars, back, hfront, hspells, hback, htext⟩, hvalue⟩
    exact ⟨front, value, chars, back, hfront, hspells, hback, htext, hvalue⟩
  · rintro ⟨front, value, chars, back, hfront, hspells, hback, htext, hvalue⟩
    exact ⟨value, ⟨front, chars, back, hfront, hspells, hback, htext⟩, hvalue⟩

/-- The object that is written for settings. -/
def toValue (config : Config) : Json :=
  .object [(some "padding", .string (some config.padding.name)),
    (some "max_length", .number (some config.maxLength.toNat))]

theorem spells_toJson (config : Config) : Json.Spells config.toValue config.toJson.toList := by
  have hname : Json.Plain config.padding.name.toList := by
    cases config.padding <;> decide
  have hpadding := Json.spellsMember_text "padding" (by decide) (Json.spells_text hname)
  have hmaxLength := Json.spellsMember_text "max_length" (by decide)
    (.number (Json.unsigned_toDigits config.maxLength.toNat))
  have hobject := Json.Spells.object (.cons hpadding (.last hmaxLength))
  simpa [toJson, toValue] using hobject

/-- Settings come back from their text. -/
theorem ofJson?_toJson (config : Config) : ofJson? config.toJson = some config := by
  refine ofJson?_eq_some_iff.mpr
    ⟨[], _, _, [], Json.blank_nil, config.spells_toJson, Json.blank_nil, by simp, ?_⟩
  have hpadding : PaddingPolicy.ofJson? (.string (some config.padding.name)) =
      some config.padding := by
    cases config.padding <;> rfl
  have hmaxLength : maxLengthOfJson? (.number (some config.maxLength.toNat)) =
      some config.maxLength := by
    rw [maxLengthOfJson?, if_pos config.maxLength.toNat_lt_size, UInt32.ofNat_toNat]
  refine ofValue?_object_eq_some_iff.mpr ⟨by simp, some config.padding, some config.maxLength, ?_⟩
  exact ⟨.given hpadding, .given hmaxLength, rfl⟩

/-! ### Settings on the wire -/

/-- The bytes of settings: a word for the policy and a word for the ceiling. -/
def image (config : Config) : List UInt8 :=
  wordImage (match config.padding with | .strict => 0 | .lenient => 1) ++
    wordImage config.maxLength

/-- The data of the schema are settings, laid out as their image. -/
theorem laid_schema_iff {datum : Datum} {outline : Outline} :
    Schema.Laid [] schema datum outline ↔
      ∃ config : Config, datum = config.toDatum ∧ outline = .plain (.plain config.image) := by
  constructor
  · intro h
    cases h with
    | record _ hparts =>
        obtain _ | ⟨hpolicy, _ | ⟨hmaxLength, hparts⟩⟩ := hparts
        cases hparts
        cases hmaxLength with
        | uint32 maxLength =>
            cases hpolicy with
            | @variant _ index _ _ _ hselect hcontent =>
                have hlt : index.toNat < 2 := (List.getElem?_eq_some_iff.mp hselect).1
                have hindex : index = 0 ∨ index = 1 := by
                  rw [← UInt32.toNat_inj, ← UInt32.toNat_inj]
                  show index.toNat = 0 ∨ index.toNat = 1
                  omega
                rcases hindex with rfl | rfl <;>
                  obtain rfl := Option.some.inj hselect <;>
                  cases hcontent
                · exact ⟨⟨.strict, maxLength⟩, rfl, rfl⟩
                · exact ⟨⟨.lenient, maxLength⟩, rfl, rfl⟩
  · rintro ⟨⟨policy, maxLength⟩, rfl, rfl⟩
    have hrecord (index : UInt32) (h : [Schema.unit, .unit][index.toNat]? = some .unit) :
        Schema.Laid [] schema (.tuple [.variant index none .unit, .uint32 maxLength])
          (.plain (.word index) ++ ∅ ++ (.plain (.word maxLength) ++ ∅)) :=
      .record rfl (.cons (.variant h .unit) (.cons (.uint32 maxLength) .nil))
    cases policy with
    | strict => exact hrecord 0 rfl
    | lenient => exact hrecord 1 rfl

/-- Settings are written as their image. -/
theorem toBytes_eq (config : Config) : config.toBytes = .ok config.image := by
  have hlaid := laid_schema_iff.mpr ⟨config, rfl, rfl⟩
  rw [toBytes, Schema.toBytes_of_within hlaid (Outline.within_plain _ _), Outline.layout_plain,
    Layout.image_plain]

/-- The schema is read as settings, from the byte strings that begin with their image. -/
theorem fromBytes_schema_eq_ok_iff {data : List UInt8} {datum : Datum} :
    schema.fromBytes data = .ok datum ↔
      ∃ config : Config, datum = config.toDatum ∧ config.image <+: data := by
  have hsymmetric : schema.Symmetric := ⟨rfl, ⟨trivial, trivial, trivial⟩, trivial, trivial⟩
  rw [Schema.fromBytes_eq_ok_iff (fun _ _ h => by cases h) hsymmetric rfl]
  constructor
  · rintro ⟨outline, hlaid, -, hprefix⟩
    obtain ⟨config, rfl, rfl⟩ := laid_schema_iff.mp hlaid
    exact ⟨config, rfl, by simpa using hprefix⟩
  · rintro ⟨config, rfl, hprefix⟩
    exact ⟨_, laid_schema_iff.mpr ⟨config, rfl, rfl⟩, Outline.within_plain _ _,
      by simpa using hprefix⟩

theorem ofBytes_of_fromBytes {config : Config} {data : List UInt8}
    (h : schema.fromBytes data = .ok config.toDatum) : ofBytes data = .ok config := by
  rw [ofBytes, h]
  obtain ⟨_ | _, maxLength⟩ := config <;> rfl

/-- Settings are read from exactly the byte strings that begin with what is written for them. -/
theorem ofBytes_eq_ok_iff {config : Config} {data : List UInt8} :
    ofBytes data = .ok config ↔ config.image <+: data := by
  constructor
  · intro h
    cases hread : schema.fromBytes data with
    | error stopped =>
        rw [ofBytes, hread] at h
        cases h
    | ok datum =>
        obtain ⟨found, rfl, hprefix⟩ := fromBytes_schema_eq_ok_iff.mp hread
        rw [Except.ok.inj (h.symm.trans (ofBytes_of_fromBytes hread))]
        exact hprefix
  · exact fun hprefix =>
      ofBytes_of_fromBytes (fromBytes_schema_eq_ok_iff.mpr ⟨config, rfl, hprefix⟩)

/-- Settings are not read exactly where their schema is not, for the same reason: data of the schema
that are no settings do not come up. -/
theorem ofBytes_eq_error_iff {data : List UInt8} {stopped : Error} :
    ofBytes data = .error stopped ↔ schema.fromBytes data = .error stopped := by
  cases hread : schema.fromBytes data with
  | error found =>
      rw [ofBytes, hread]
      show (.error found : Except Error Config) = .error stopped ↔ _
      rw [Except.error.injEq, Except.error.injEq]
  | ok datum =>
      obtain ⟨config, rfl, -⟩ := fromBytes_schema_eq_ok_iff.mp hread
      rw [ofBytes_of_fromBytes hread]
      exact iff_of_false nofun nofun

end Config

/-! ### Arrays of fixed length -/

namespace FixedOpaque

variable {length : Nat}

/-- The data of the schema are arrays of its length, laid out with their padding. -/
theorem laid_fixedOpaque_iff {datum : Datum} {outline : Outline} :
    Schema.Laid [] (.fixedOpaque length) datum outline ↔ ∃ array : Vector UInt8 length,
      datum = .bytes array.toList ∧ outline = .plain (.padded array.toList) := by
  constructor
  · rintro (_ | _)
    next data hlength =>
      obtain ⟨array, rfl⟩ : ∃ array : Vector UInt8 length, data = array.toList :=
        ⟨⟨data.toArray, by simpa using hlength⟩, by simp [Vector.toList]⟩
      exact ⟨array, rfl, rfl⟩
  · rintro ⟨array, rfl, rfl⟩
    exact .fixedOpaque (by simp)

/-- An array is written as its bytes and their padding, whatever the ceiling. -/
theorem toBytes_eq (array : Vector UInt8 length) (config : Config) :
    (Schema.fixedOpaque length).toBytes (.bytes array.toList) config =
      .ok (padded array.toList) := by
  have hlaid := laid_fixedOpaque_iff.mpr ⟨array, rfl, rfl⟩
  rw [Schema.toBytes_of_within hlaid (Outline.within_plain _ _), Outline.layout_plain,
    Layout.image_padded]

/-- The schema is read as an array that is received, from the byte strings that begin with what is
written for the array. -/
theorem fromBytes_eq_ok_iff {data : List UInt8} {datum : Datum} :
    (Schema.fixedOpaque length).fromBytes data = .ok datum ↔ ∃ bytes array,
      datum = .bytes bytes ∧ receive length bytes = .ok array ∧ padded array.toList <+: data := by
  have hsymmetric : (Schema.fixedOpaque length).Symmetric := trivial
  rw [Schema.fromBytes_eq_ok_iff (fun _ _ h => by cases h) hsymmetric rfl]
  constructor
  · rintro ⟨outline, hlaid, -, hprefix⟩
    obtain ⟨array, rfl, rfl⟩ := laid_fixedOpaque_iff.mp hlaid
    exact ⟨_, array, rfl, receive_eq_ok_iff.mpr rfl, by simpa using hprefix⟩
  · rintro ⟨bytes, array, rfl, hreceive, hprefix⟩
    obtain rfl := receive_eq_ok_iff.mp hreceive
    exact ⟨_, laid_fixedOpaque_iff.mpr ⟨array, rfl, rfl⟩, Outline.within_plain _ _,
      by simpa using hprefix⟩

end FixedOpaque

end Xdr
