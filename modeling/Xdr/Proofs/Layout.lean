import Mathlib.Data.List.Forall2
import Xdr.Config
import Xdr.Padding
import Xdr.Word

/-!
# Layouts

A `Layout` says what stands at each position of the wire: a byte of its own, or padding. Its
`image` is what a writer produces, and `Layout.Admits` says which bytes a reader may find in its
place. A strict reader admits the image only (`admits_strict_iff`), a lenient one whatever agrees
with it outside the padding (`admits_lenient_iff`).
-/

namespace Xdr

/-- What stands at one position of the wire. -/
inductive Cell where
  | byte (value : UInt8)
  | padding
  deriving DecidableEq, Repr

namespace Cell

/-- The byte that a writer puts there. -/
def written : Cell → UInt8
  | byte value => value
  | padding => 0

/-- Whether a reader takes this byte there. -/
def Admits (policy : PaddingPolicy) : Cell → UInt8 → Prop
  | byte value, found => found = value
  | padding, found => policy = .strict → found = 0

theorem admits_written (policy : PaddingPolicy) (cell : Cell) :
    cell.Admits policy cell.written := by
  cases cell with
  | byte value => rfl
  | padding => exact fun _ => rfl

theorem admits_strict_iff {cell : Cell} {found : UInt8} :
    cell.Admits .strict found ↔ found = cell.written := by
  cases cell with
  | byte value => rfl
  | padding => simp [Admits, written]

end Cell

/-- What stands at the positions of a part of the wire, in order. -/
abbrev Layout := List Cell

namespace Layout

/-- The bytes that a writer produces. -/
def image (layout : Layout) : List UInt8 :=
  layout.map Cell.written

/-- Whether a reader takes these bytes. -/
def Admits (policy : PaddingPolicy) (layout : Layout) (bytes : List UInt8) : Prop :=
  List.Forall₂ (Cell.Admits policy) layout bytes

/-- The layout of bytes without padding. -/
def plain (bytes : List UInt8) : Layout :=
  bytes.map .byte

/-- The layout of a word. -/
def word (word : UInt32) : Layout :=
  plain (wordImage word)

/-- The layout of a hyper. -/
def hyper (hyper : UInt64) : Layout :=
  plain (hyperImage hyper)

/-- The layout of data with the padding behind it. -/
def padded (data : List UInt8) : Layout :=
  plain data ++ List.replicate (padLength data.length) .padding

/-- The layout of data behind its own length. -/
def sized (data : List UInt8) : Layout :=
  word (UInt32.ofNat data.length) ++ padded data

@[simp] theorem image_append (front back : Layout) :
    image (front ++ back) = image front ++ image back :=
  List.map_append

@[simp] theorem length_image (layout : Layout) : layout.image.length = layout.length :=
  List.length_map _

@[simp] theorem image_plain (bytes : List UInt8) : image (plain bytes) = bytes := by
  simp [image, plain, Function.comp_def, Cell.written]

@[simp] theorem image_word (word : UInt32) : image (Layout.word word) = wordImage word :=
  image_plain _

@[simp] theorem image_hyper (hyper : UInt64) : image (Layout.hyper hyper) = hyperImage hyper :=
  image_plain _

@[simp] theorem image_padded (data : List UInt8) : image (padded data) = Xdr.padded data := by
  simp only [padded, image_append, image_plain, Xdr.padded]
  simp [image, Cell.written]

@[simp] theorem image_sized (data : List UInt8) :
    image (sized data) = wordImage (UInt32.ofNat data.length) ++ Xdr.padded data := by
  rw [sized, image_append, image_word, image_padded]

@[simp] theorem length_plain (bytes : List UInt8) : (plain bytes).length = bytes.length :=
  List.length_map _

@[simp] theorem length_word (word : UInt32) : (Layout.word word).length = 4 := by
  simp [Layout.word]

/-- A number for each word is still there behind a word, and once more. -/
theorem behind_word {number start total : Nat} {word : UInt32} {layout : Layout}
    (h : start + number * ((Layout.word word ++ layout).length / 4) ≤ total) :
    number + number * (layout.length / 4) ≤ total := by
  have hwords : (Layout.word word ++ layout).length / 4 = layout.length / 4 + 1 := by
    rw [List.length_append, length_word]
    omega
  rw [hwords, Nat.mul_succ] at h
  omega

variable {policy : PaddingPolicy} {layout : Layout} {bytes : List UInt8}

/-- Every reader takes what a writer produces. -/
theorem admits_image (policy : PaddingPolicy) (layout : Layout) :
    layout.Admits policy layout.image := by
  unfold Admits image
  rw [List.forall₂_map_right_iff, List.forall₂_same]
  exact fun cell _ => cell.admits_written policy

/-- A strict reader takes nothing else. -/
theorem admits_strict_iff : layout.Admits .strict bytes ↔ bytes = layout.image := by
  constructor
  · intro h
    induction h with
    | nil => rfl
    | cons hcell _ ih => rw [Cell.admits_strict_iff.mp hcell, ih]; rfl
  · rintro rfl
    exact admits_image _ _

theorem Admits.length_eq (h : layout.Admits policy bytes) : bytes.length = layout.length :=
  (List.Forall₂.length_eq h).symm

/-- A lenient reader takes what any reader takes. -/
theorem Admits.lenient (h : layout.Admits policy bytes) : layout.Admits .lenient bytes := by
  refine List.Forall₂.imp (fun cell found hcell => ?_) h
  cases cell with
  | byte value => exact hcell
  | padding => exact fun hstrict => by cases hstrict

/-- A lenient reader takes the bytes of the right number that agree with the layout outside its
padding. -/
theorem admits_lenient_iff : layout.Admits .lenient bytes ↔
    bytes.length = layout.length ∧
      ∀ (position : Nat) (value : UInt8),
        layout[position]? = some (Cell.byte value) → bytes[position]? = some value := by
  constructor
  · intro h
    refine ⟨h.length_eq, fun position value hcell => ?_⟩
    induction h generalizing position with
    | nil => simp at hcell
    | cons hadmits _ ih =>
        cases position with
        | zero =>
            obtain rfl : _ = Cell.byte value := by simpa using hcell
            exact congrArg some hadmits
        | succ position => exact ih position (by simpa using hcell)
  · intro ⟨hlength, hagree⟩
    induction layout generalizing bytes with
    | nil =>
        obtain rfl := List.length_eq_zero_iff.mp hlength
        exact .nil
    | cons cell layout ih =>
        cases bytes with
        | nil => simp at hlength
        | cons found bytes =>
            refine .cons ?_ (ih (by simpa using hlength) fun position value hcell => ?_)
            · cases cell with
              | byte value => exact Option.some.inj (hagree 0 value rfl)
              | padding => exact fun hstrict => by cases hstrict
            · simpa using hagree (position + 1) value (by simpa using hcell)

/-- Whatever the policy, bytes that are taken are the image outside the padding. -/
theorem Admits.padding_of_ne (h : layout.Admits policy bytes) {position : Nat}
    (hne : bytes[position]? ≠ layout.image[position]?) : layout[position]? = some .padding := by
  obtain ⟨hlength, hagree⟩ := admits_lenient_iff.mp h.lenient
  have himage : layout.image[position]? = layout[position]?.map Cell.written := List.getElem?_map
  rcases hcell : layout[position]? with _ | value | _
  · have hbytes : bytes[position]? = none := by
      rw [List.getElem?_eq_none_iff, hlength]
      exact List.getElem?_eq_none_iff.mp hcell
    exact absurd (by rw [himage, hcell, hbytes]; rfl) hne
  · exact absurd (by rw [himage, hcell, hagree position value hcell]; rfl) hne
  · rfl

@[simp] theorem admits_nil_iff : Admits policy [] bytes ↔ bytes = [] :=
  List.forall₂_nil_left_iff

/-- The bytes of two parts are those of the one followed by those of the other. -/
theorem admits_append_iff {back : Layout} : Admits policy (layout ++ back) bytes ↔
    ∃ first second, bytes = first ++ second ∧ layout.Admits policy first ∧
      back.Admits policy second := by
  constructor
  · intro h
    refine ⟨bytes.take layout.length, bytes.drop layout.length,
      (List.take_append_drop _ _).symm, ?_, ?_⟩
    · simpa [Admits] using List.forall₂_take layout.length h
    · simpa [Admits] using List.forall₂_drop layout.length h
  · intro h
    obtain ⟨first, second, rfl, hfirst, hsecond⟩ := h
    exact List.rel_append hfirst hsecond

theorem Admits.append {back : Layout} {others : List UInt8} (h : layout.Admits policy bytes)
    (hback : back.Admits policy others) : Admits policy (layout ++ back) (bytes ++ others) :=
  List.rel_append h hback

/-- Bytes without padding are found as they are. -/
@[simp] theorem admits_plain_iff {data : List UInt8} :
    (plain data).Admits policy bytes ↔ bytes = data := by
  unfold Admits plain
  rw [List.forall₂_map_left_iff]
  constructor
  · intro h
    induction h with
    | nil => rfl
    | cons hcell _ ih => rw [ih, show _ = _ from hcell]
  · rintro rfl
    exact List.forall₂_same.mpr fun _ _ => rfl

@[simp] theorem admits_word_iff {word : UInt32} :
    (Layout.word word).Admits policy bytes ↔ bytes = wordImage word :=
  admits_plain_iff

theorem admits_word_append_iff {word : UInt32} : Admits policy (Layout.word word ++ layout) bytes ↔
    ∃ rest, bytes = wordImage word ++ rest ∧ layout.Admits policy rest := by
  rw [admits_append_iff]
  constructor
  · intro h
    obtain ⟨front, rest, rfl, hfront, hrest⟩ := h
    exact ⟨rest, by rw [admits_word_iff.mp hfront], hrest⟩
  · intro h
    obtain ⟨rest, rfl, hrest⟩ := h
    exact ⟨wordImage word, rest, rfl, admits_word_iff.mpr rfl, hrest⟩

@[simp] theorem admits_hyper_iff {hyper : UInt64} :
    (Layout.hyper hyper).Admits policy bytes ↔ bytes = hyperImage hyper :=
  admits_plain_iff

/-- Padding is found as the policy accepts it. -/
theorem admits_padding_iff {count : Nat} :
    Admits policy (List.replicate count .padding) bytes ↔
      bytes.length = count ∧ policy.accepts bytes := by
  induction count generalizing bytes with
  | zero =>
      rw [List.replicate_zero, admits_nil_iff, List.length_eq_zero_iff]
      constructor
      · rintro rfl
        cases policy <;> exact ⟨rfl, rfl⟩
      · exact And.left
  | succ count ih =>
      cases bytes with
      | nil => simp [Admits, List.replicate_succ]
      | cons found bytes =>
          rw [List.replicate_succ, Admits, List.forall₂_cons, ← Admits, ih]
          cases policy <;> simp [Cell.Admits, PaddingPolicy.accepts, and_left_comm]

/-- Padded data is found as the data, then as many accepted padding bytes as belong to it. -/
theorem admits_padded_iff {data : List UInt8} : (padded data).Admits policy bytes ↔
    ∃ padding, bytes = data ++ padding ∧ padding.length = padLength data.length ∧
      policy.accepts padding := by
  rw [padded, admits_append_iff]
  constructor
  · intro h
    obtain ⟨first, padding, rfl, hfirst, hpadding⟩ := h
    obtain rfl := admits_plain_iff.mp hfirst
    exact ⟨padding, rfl, admits_padding_iff.mp hpadding⟩
  · intro h
    obtain ⟨padding, rfl, hpadding⟩ := h
    exact ⟨data, padding, rfl, admits_plain_iff.mpr rfl, admits_padding_iff.mpr hpadding⟩

end Layout

end Xdr
