import Mathlib.Data.List.TakeDrop
import Mathlib.Data.List.TakeWhile
import Xdr.Json

/-!
# The grammar of JSON texts

`Json.Spells` says which characters spell a value, one constructor for each way to write one. The
statement to read first is `parse?_eq_some_iff`: the reader takes exactly the texts that spell a
value between blanks, so what it allows for calls inside one another is never what stops it.
-/

namespace Xdr.Json

/-- Blanks and nothing else. -/
def Blank (chars : List Char) : Prop :=
  ∀ c ∈ chars, isBlank c

/-- These characters, between quotes, stand for these code units. -/
inductive Quoted : List Nat → List Char → Prop where
  | nil : Quoted [] []
  | plain {c units chars} : c ≠ '"' → c ≠ '\\' → 0x20 ≤ c.toNat → Quoted units chars →
      Quoted (c.toNat :: units) (c :: chars)
  | escape {letter c units chars} : escaped? letter = some c → Quoted units chars →
      Quoted (c.toNat :: units) ('\\' :: letter :: chars)
  | unit {a b c d unit units chars} : hexUnit? a b c d = some unit → Quoted units chars →
      Quoted (unit :: units) ('\\' :: 'u' :: a :: b :: c :: d :: chars)

/-- The text of code units, if they have one. -/
def textOf? (units : List Nat) : Option String :=
  (charsOfUnits? units).map String.ofList

/-- Digits, of which there are some. -/
def Digits (digits : List Char) : Prop :=
  digits ≠ [] ∧ ∀ c ∈ digits, c.isDigit

/-- A fraction, or none. -/
inductive Fraction : Bool → List Char → Prop where
  | absent : Fraction false []
  | present {digits} : Digits digits → Fraction true ('.' :: digits)

/-- An exponent with or without a sign, or none. -/
inductive Exponent : Bool → List Char → Prop where
  | absent : Exponent false []
  | present {mark sign digits} : mark = 'e' ∨ mark = 'E' → sign = [] ∨ sign = ['+'] ∨ sign = ['-'] →
      Digits digits → Exponent true (mark :: (sign ++ digits))

/-- A number without a sign. It has a value if it is a natural number. -/
inductive Unsigned : Option Nat → List Char → Prop where
  | mk {digits fraction exponent fractional scaled} : Digits digits →
      (digits.head? = some '0' → digits.length = 1) →
      Fraction fractional fraction → Exponent scaled exponent →
      Unsigned (if fractional || scaled then none else some (naturalOf digits))
        (digits ++ (fraction ++ exponent))

mutual
/-- These characters spell the value. -/
inductive Spells : Json → List Char → Prop where
  | null : Spells .null ['n', 'u', 'l', 'l']
  | boolTrue : Spells (.bool true) ['t', 'r', 'u', 'e']
  | boolFalse : Spells (.bool false) ['f', 'a', 'l', 's', 'e']
  | number {natural chars} : Unsigned natural chars → Spells (.number natural) chars
  | negative {natural chars} : Unsigned natural chars → Spells (.number none) ('-' :: chars)
  | string {units chars} : Quoted units chars →
      Spells (.string (textOf? units)) ('"' :: (chars ++ ['"']))
  | emptyArray {gap} : Blank gap → Spells (.array []) ('[' :: (gap ++ [']']))
  | array {items chars} : SpellsItems items chars → Spells (.array items) ('[' :: chars)
  | emptyObject {gap} : Blank gap → Spells (.object []) ('\x7b' :: (gap ++ ['\x7d']))
  | object {members chars} : SpellsMembers members chars →
      Spells (.object members) ('\x7b' :: chars)

/-- These characters spell the items of an array and its end. -/
inductive SpellsItems : List Json → List Char → Prop where
  | last {front item chars back} : Blank front → Spells item chars → Blank back →
      SpellsItems [item] (front ++ (chars ++ (back ++ [']'])))
  | cons {front item chars back items others} : Blank front → Spells item chars → Blank back →
      SpellsItems items others →
      SpellsItems (item :: items) (front ++ (chars ++ (back ++ ',' :: others)))

/-- These characters spell a key with its value. -/
inductive SpellsMember : Option String × Json → List Char → Prop where
  | mk {front units key gap start value chars back} : Blank front → Quoted units key →
      Blank gap → Blank start → Spells value chars → Blank back →
      SpellsMember (textOf? units, value)
        (front ++ '"' :: (key ++ '"' :: (gap ++ ':' :: (start ++ (chars ++ back)))))

/-- These characters spell the members of an object and its end. -/
inductive SpellsMembers : List (Option String × Json) → List Char → Prop where
  | last {member chars} : SpellsMember member chars → SpellsMembers [member] (chars ++ ['\x7d'])
  | cons {member chars members others} : SpellsMember member chars →
      SpellsMembers members others →
      SpellsMembers (member :: members) (chars ++ ',' :: others)
end

/-! ### Reading -/

variable {chars rest gap : List Char}

/-- Where a text stops being made of such characters. -/
theorem splits_while_iff (p : Char → Bool) {front : List Char} :
    chars.takeWhile p = front ∧ chars.dropWhile p = rest ↔
      (∀ c ∈ front, p c) ∧ (∀ c ∈ rest.head?, p c = false) ∧ chars = front ++ rest := by
  constructor
  · rintro ⟨rfl, rfl⟩
    refine ⟨fun c hmem => List.mem_takeWhile_imp hmem, fun c hmem => ?_,
      List.takeWhile_append_dropWhile.symm⟩
    have hfirst := List.head?_dropWhile_not p chars
    rw [Option.mem_def.mp hmem] at hfirst
    simpa using hfirst
  · rintro ⟨hfront, hrest, rfl⟩
    rw [List.takeWhile_append_of_pos hfront, List.dropWhile_append_of_pos hfront]
    cases rest with
    | nil => exact ⟨List.append_nil _, rfl⟩
    | cons c rest =>
        have hc : ¬ p c := by simp [hrest c rfl]
        rw [List.takeWhile_cons_of_neg hc, List.dropWhile_cons_of_neg hc]
        exact ⟨List.append_nil _, rfl⟩

/-! ### Blanks -/

theorem blank_nil : Blank [] :=
  fun _ hmem => by cases hmem

/-- Blanks are skipped up to where there are no more. -/
theorem skipBlank_eq_iff : skipBlank chars = rest ↔
    ∃ gap, Blank gap ∧ (∀ c ∈ rest.head?, isBlank c = false) ∧ chars = gap ++ rest := by
  constructor
  · intro h
    exact ⟨_, (splits_while_iff isBlank).mp ⟨rfl, h⟩⟩
  · rintro ⟨gap, h⟩
    exact ((splits_while_iff isBlank).mpr h).2

/-- Blanks are what is skipped altogether. -/
theorem blank_iff : Blank chars ↔ skipBlank chars = [] := by
  rw [skipBlank, List.dropWhile_eq_nil_iff]
  rfl

/-- Behind blanks, a character that is none is what is found. -/
theorem skipBlank_append_cons (hgap : Blank gap) {c : Char} (hc : isBlank c = false) :
    skipBlank (gap ++ c :: rest) = c :: rest := by
  refine skipBlank_eq_iff.mpr ⟨gap, hgap, fun found hmem => ?_, rfl⟩
  obtain rfl := Option.some.inj hmem
  exact hc

/-! ### Strings -/

theorem stringBody?_of_quoted {units : List Nat} (h : Quoted units chars) :
    stringBody? (chars ++ '"' :: rest) = some (units, rest) := by
  induction h with
  | nil => rfl
  | plain hquote hslash hprints _ ih =>
      rw [List.cons_append, stringBody?, if_neg (by omega), ih]
      · rfl
      · exact hquote
      · exact fun _ _ _ _ _ h _ => hslash h
      · exact fun _ _ h _ => hslash h
  | escape hletter _ ih =>
      rw [List.cons_append, List.cons_append, stringBody?, hletter, ih]
      · rfl
      · rintro _ _ _ _ _ rfl _
        cases hletter
  | unit hunit _ ih =>
      simp only [List.cons_append, stringBody?, hunit, ih]
      rfl

theorem quoted_of_stringBody? {units : List Nat} (h : stringBody? chars = some (units, rest)) :
    ∃ front, Quoted units front ∧ chars = front ++ '"' :: rest := by
  fun_induction stringBody? chars generalizing units with
  | case1 => cases h
  | case2 rest =>
      obtain ⟨rfl, rfl⟩ := Prod.mk.inj (Option.some.inj h)
      exact ⟨[], .nil, rfl⟩
  | case3 a b c d rest ih =>
      simp only [bind, Option.bind_eq_some_iff, pure, Option.some.injEq, Prod.mk.injEq] at h
      obtain ⟨unit, hunit, ⟨units, back⟩, hback, rfl, rfl⟩ := h
      obtain ⟨front, hfront, rfl⟩ := ih hback
      exact ⟨_, .unit hunit hfront, rfl⟩
  | case4 letter rest hletter ih =>
      simp only [bind, Option.bind_eq_some_iff, pure, Option.some.injEq, Prod.mk.injEq] at h
      obtain ⟨c, hc, ⟨units, back⟩, hback, rfl, rfl⟩ := h
      obtain ⟨front, hfront, rfl⟩ := ih hback
      exact ⟨_, .escape hc hfront, rfl⟩
  | case5 => cases h
  | case6 c rest hquote _ hslash hprints ih =>
      simp only [bind, Option.bind_eq_some_iff, pure, Option.some.injEq, Prod.mk.injEq] at h
      obtain ⟨⟨units, back⟩, hback, rfl, rfl⟩ := h
      obtain ⟨front, hfront, rfl⟩ := ih hback
      have hplain : c ≠ '\\' := by
        intro hc
        cases front with
        | nil => exact hslash _ _ hc rfl
        | cons next front => exact hslash _ _ hc rfl
      exact ⟨_, .plain hquote hplain (by omega) hfront, rfl⟩

/-- A string is what stands between its quotes. -/
theorem string?_of_quoted {units : List Nat} (h : Quoted units chars) (rest : List Char) :
    string? (chars ++ '"' :: rest) = some (textOf? units, rest) := by
  rw [string?, stringBody?_of_quoted h]
  rfl

theorem quoted_of_string? {text : Option String} (h : string? chars = some (text, rest)) :
    ∃ units front, Quoted units front ∧ textOf? units = text ∧ chars = front ++ '"' :: rest := by
  simp only [string?, bind, Option.bind_eq_some_iff, pure, Option.some.injEq, Prod.mk.injEq] at h
  obtain ⟨⟨units, back⟩, hread, htext, rfl⟩ := h
  obtain ⟨front, hfront, rfl⟩ := quoted_of_stringBody? hread
  exact ⟨units, front, hfront, htext, rfl⟩

/-! ### Numbers -/

/-- Digits are read up to where there are no more. -/
theorem digits?_eq_some_iff {digits : List Char} : digits? chars = some (digits, rest) ↔
    Digits digits ∧ (∀ c ∈ rest.head?, c.isDigit = false) ∧ chars = digits ++ rest := by
  have hsplits := @splits_while_iff chars rest Char.isDigit digits
  rw [digits?, List.span_eq_takeWhile_dropWhile]
  constructor
  · intro h
    split at h
    · cases h
    · next hsome heq =>
        obtain ⟨rfl, rfl⟩ := Prod.mk.inj (Option.some.inj h)
        obtain ⟨hdigits, hends, hchars⟩ := hsplits.mp (Prod.mk.inj heq)
        exact ⟨⟨hsome, hdigits⟩, hends, hchars⟩
  · rintro ⟨⟨hsome, hdigits⟩, hends, hchars⟩
    obtain ⟨htake, hdrop⟩ := hsplits.mpr ⟨hdigits, hends, hchars⟩
    rw [htake, hdrop]
    split
    · next heq => exact absurd (Prod.mk.inj heq).1 hsome
    · next heq =>
        obtain ⟨rfl, rfl⟩ := Prod.mk.inj heq
        rfl

theorem fraction_of_fraction? {fractional : Bool} (h : fraction? chars = some (fractional, rest)) :
    ∃ front, Fraction fractional front ∧ chars = front ++ rest := by
  unfold fraction? at h
  split at h
  · obtain ⟨⟨digits, behind⟩, hread, heq⟩ := Option.map_eq_some_iff.mp h
    obtain ⟨rfl, rfl⟩ := Prod.mk.inj heq
    obtain ⟨hdigits, -, rfl⟩ := digits?_eq_some_iff.mp hread
    exact ⟨_, .present hdigits, rfl⟩
  · obtain ⟨rfl, rfl⟩ := Prod.mk.inj (Option.some.inj h)
    exact ⟨[], .absent, rfl⟩

theorem exponent_of_exponent? {scaled : Bool} (h : exponent? chars = some (scaled, rest)) :
    ∃ front, Exponent scaled front ∧ chars = front ++ rest := by
  unfold exponent? at h
  split at h
  · next mark behind =>
      split at h
      · next hmark =>
          obtain ⟨⟨digits, last⟩, hread, heq⟩ := Option.map_eq_some_iff.mp h
          obtain ⟨rfl, rfl⟩ := Prod.mk.inj heq
          obtain ⟨hdigits, -, hchars⟩ := digits?_eq_some_iff.mp hread
          split at hchars <;> subst hchars
          · exact ⟨_, .present hmark (.inr (.inl rfl)) hdigits, rfl⟩
          · exact ⟨_, .present hmark (.inr (.inr rfl)) hdigits, rfl⟩
          · exact ⟨_, .present hmark (.inl rfl) hdigits, rfl⟩
      · obtain ⟨rfl, rfl⟩ := Prod.mk.inj (Option.some.inj h)
        exact ⟨[], .absent, rfl⟩
  · obtain ⟨rfl, rfl⟩ := Prod.mk.inj (Option.some.inj h)
    exact ⟨[], .absent, rfl⟩

theorem unsigned_of_unsigned? {natural : Option Nat} (h : unsigned? chars = some (natural, rest)) :
    ∃ front, Unsigned natural front ∧ chars = front ++ rest := by
  simp only [unsigned?, bind, Option.bind_eq_some_iff] at h
  obtain ⟨⟨digits, behind⟩, hread, h⟩ := h
  obtain ⟨hdigits, -, rfl⟩ := digits?_eq_some_iff.mp hread
  split at h
  · cases h
  · next hzero =>
      simp only [Option.bind_eq_some_iff, pure, Option.some.injEq, Prod.mk.injEq] at h
      obtain ⟨⟨fractional, back⟩, hread, ⟨scaled, last⟩, hlast, rfl, rfl⟩ := h
      obtain ⟨fraction, hfraction, rfl⟩ := fraction_of_fraction? hread
      obtain ⟨exponent, hexponent, rfl⟩ := exponent_of_exponent? hlast
      refine ⟨_, .mk hdigits (fun hhead => ?_) hfraction hexponent, by simp⟩
      exact Decidable.not_not.mp fun hlength => hzero ⟨hhead, hlength⟩

/-- No number goes on like this. -/
def Ends (chars : List Char) : Prop :=
  ∀ c ∈ chars.head?, c.isDigit = false ∧ c ≠ '.' ∧ c ≠ 'e' ∧ c ≠ 'E'

theorem fraction?_of_fraction {fractional : Bool} (h : Fraction fractional chars)
    (hrest : ∀ c ∈ rest.head?, c.isDigit = false ∧ c ≠ '.') :
    fraction? (chars ++ rest) = some (fractional, rest) := by
  cases h with
  | absent =>
      rw [List.nil_append, fraction?]
      rintro behind rfl
      exact (hrest '.' rfl).2 rfl
  | present hdigits =>
      have hread := digits?_eq_some_iff.mpr ⟨hdigits, fun c hmem => (hrest c hmem).1, rfl⟩
      rw [List.cons_append, fraction?, hread]
      rfl

theorem exponent?_of_exponent {scaled : Bool} (h : Exponent scaled chars) (hrest : Ends rest) :
    exponent? (chars ++ rest) = some (scaled, rest) := by
  cases h with
  | absent =>
      cases rest with
      | nil => rfl
      | cons c rest =>
          obtain ⟨-, -, hlower, hupper⟩ := hrest c rfl
          exact if_neg fun hmark => hmark.elim hlower hupper
  | @present mark sign digits hmark hsign hdigits =>
      have hread := digits?_eq_some_iff.mpr ⟨hdigits, fun c hmem => (hrest c hmem).1, rfl⟩
      refine (if_pos hmark).trans ?_
      rcases hsign with rfl | rfl | rfl
      · obtain ⟨first, others, rfl⟩ := List.exists_cons_of_ne_nil hdigits.1
        have hfirst := hdigits.2 first List.mem_cons_self
        dsimp only [List.nil_append, List.cons_append] at hread ⊢
        split
        · next heq =>
            obtain ⟨rfl, -⟩ := List.cons.inj heq
            cases hfirst
        · next heq =>
            obtain ⟨rfl, -⟩ := List.cons.inj heq
            cases hfirst
        · exact congrArg _ hread
      · exact congrArg _ hread
      · exact congrArg _ hread

theorem Exponent.begins {scaled : Bool} (h : Exponent scaled chars) (hrest : Ends rest) :
    ∀ c ∈ (chars ++ rest).head?, c.isDigit = false ∧ c ≠ '.' := by
  intro c hmem
  cases h with
  | absent => exact ⟨(hrest c hmem).1, (hrest c hmem).2.1⟩
  | present hmark _ _ =>
      obtain rfl := Option.some.inj hmem
      rcases hmark with rfl | rfl <;> decide

theorem Fraction.begins {fractional : Bool} (h : Fraction fractional chars)
    (hrest : ∀ c ∈ rest.head?, c.isDigit = false ∧ c ≠ '.') :
    ∀ c ∈ (chars ++ rest).head?, c.isDigit = false := by
  intro c hmem
  cases h with
  | absent => exact (hrest c hmem).1
  | present _ =>
      obtain rfl := Option.some.inj hmem
      rfl

theorem unsigned?_of_unsigned {natural : Option Nat} (h : Unsigned natural chars)
    (hrest : Ends rest) : unsigned? (chars ++ rest) = some (natural, rest) := by
  cases h with
  | @mk digits fraction exponent fractional scaled hdigits hzero hfraction hexponent =>
      have hbehind := hexponent.begins hrest
      have hread := digits?_eq_some_iff.mpr ⟨hdigits, hfraction.begins hbehind, rfl⟩
      rw [List.append_assoc, List.append_assoc, unsigned?, hread]
      simp only [bind, Option.bind_some]
      rw [if_neg fun hhead => hhead.2 (hzero hhead.1), fraction?_of_fraction hfraction hbehind]
      simp only [Option.bind_some, exponent?_of_exponent hexponent hrest]
      rfl

/-! ### Values -/

/-- A number begins with a digit. -/
theorem Unsigned.exists_cons {natural : Option Nat} (h : Unsigned natural chars) :
    ∃ first others, chars = first :: others ∧ first.isDigit := by
  cases h with
  | mk hdigits _ _ _ =>
      obtain ⟨first, others, rfl⟩ := List.exists_cons_of_ne_nil hdigits.1
      exact ⟨first, _, rfl, hdigits.2 first List.mem_cons_self⟩

theorem isBlank_of_isDigit {c : Char} (hc : c.isDigit) : isBlank c = false := by
  simp only [isBlank, Bool.or_eq_false_iff, decide_eq_false_iff_not]
  refine ⟨⟨⟨?_, ?_⟩, ?_⟩, ?_⟩ <;> rintro rfl <;> cases hc

theorem ends_nil : Ends [] :=
  fun _ hmem => by cases hmem

theorem ends_cons (c : Char) (rest : List Char)
    (hc : c.isDigit = false ∧ c ≠ '.' ∧ c ≠ 'e' ∧ c ≠ 'E') : Ends (c :: rest) := by
  intro found hmem
  obtain rfl := Option.some.inj hmem
  exact hc

theorem ends_of_blank (hgap : Blank gap) (hrest : Ends rest) : Ends (gap ++ rest) := by
  intro c hmem
  cases gap with
  | nil => exact hrest c hmem
  | cons blank gap =>
      obtain rfl := Option.some.inj hmem
      have hblank := hgap blank List.mem_cons_self
      simp only [isBlank, Bool.or_eq_true, decide_eq_true_eq] at hblank
      rcases hblank with ((rfl | rfl) | rfl) | rfl <;> decide

/-- What is behind blanks is read as if it stood alone. -/
theorem skipBlank_skipBlank : skipBlank (skipBlank chars) = skipBlank chars := by
  obtain ⟨gap, -, hbegun, -⟩ := skipBlank_eq_iff.mp (rfl : skipBlank chars = _)
  exact skipBlank_eq_iff.mpr ⟨[], blank_nil, hbegun, rfl⟩

theorem value?_skipBlank (fuel : Nat) (chars : List Char) :
    value? fuel (skipBlank chars) = value? fuel chars := by
  cases fuel with
  | zero => rfl
  | succ fuel => rw [value?, value?, skipBlank_skipBlank]

theorem items?_skipBlank (fuel : Nat) (chars : List Char) :
    items? fuel (skipBlank chars) = items? fuel chars := by
  cases fuel with
  | zero => rfl
  | succ fuel => rw [items?, items?, value?_skipBlank]

theorem members?_skipBlank (fuel : Nat) (chars : List Char) :
    members? fuel (skipBlank chars) = members? fuel chars := by
  cases fuel with
  | zero => rfl
  | succ fuel => rw [members?, members?, skipBlank_skipBlank]

/-! ### How a value begins -/

section

variable {others : List Char} (fuel : Nat)

theorem value?_of_digit {first : Char} (hskip : skipBlank chars = first :: others)
    (hfirst : first.isDigit) : value? (fuel + 1) chars =
      (unsigned? (first :: others)).map fun (natural, rest) => (.number natural, rest) := by
  rw [value?, hskip]
  split
  case h_8 => rfl
  all_goals
    next heq =>
      obtain ⟨rfl, -⟩ := List.cons.inj heq
      cases hfirst

theorem value?_of_minus (hskip : skipBlank chars = '-' :: others) : value? (fuel + 1) chars =
    (unsigned? others).map fun (_, rest) => (.number none, rest) := by
  rw [value?, hskip]
  rfl

theorem value?_of_quote (hskip : skipBlank chars = '"' :: others) : value? (fuel + 1) chars =
    (string? others).map fun (text, rest) => (.string text, rest) := by
  rw [value?, hskip]
  rfl

theorem value?_of_bracket (hskip : skipBlank chars = '[' :: others) : value? (fuel + 1) chars =
    match skipBlank others with
    | ']' :: rest => some (.array [], rest)
    | rest => (items? fuel rest).map fun (items, rest) => (.array items, rest) := by
  rw [value?, hskip]
  rfl

theorem value?_of_brace (hskip : skipBlank chars = '\x7b' :: others) : value? (fuel + 1) chars =
    match skipBlank others with
    | '\x7d' :: rest => some (.object [], rest)
    | rest => (members? fuel rest).map fun (members, rest) => (.object members, rest) := by
  rw [value?, hskip]
  rfl

end

/-- A value does not begin with a blank, nor with what closes an array. -/
theorem Spells.exists_cons {value : Json} (h : Spells value chars) :
    ∃ first others, chars = first :: others ∧ isBlank first = false ∧ first ≠ ']' := by
  cases h with
  | number hnumber =>
      obtain ⟨first, others, rfl, hfirst⟩ := hnumber.exists_cons
      refine ⟨first, others, rfl, isBlank_of_isDigit hfirst, ?_⟩
      rintro rfl
      cases hfirst
  | _ => exact ⟨_, _, rfl, rfl, by decide⟩

theorem SpellsItems.not_closed {items : List Json} (h : SpellsItems items chars)
    (behind : List Char) : skipBlank (chars ++ rest) ≠ ']' :: behind := by
  have hitem {front chars back : List Char} {item : Json} (hfront : Blank front)
      (h : Spells item chars) : skipBlank (front ++ (chars ++ back)) ≠ ']' :: behind := by
    obtain ⟨first, others, rfl, hblank, hfirst⟩ := h.exists_cons
    rw [List.cons_append, skipBlank_append_cons hfront hblank]
    exact fun heq => hfirst (List.cons.inj heq).1
  cases h with
  | last hfront h _ =>
      rw [List.append_assoc, List.append_assoc]
      exact hitem hfront h
  | cons hfront h _ _ =>
      rw [List.append_assoc, List.append_assoc]
      exact hitem hfront h

theorem SpellsMembers.not_closed {members : List (Option String × Json)}
    (h : SpellsMembers members chars) (behind : List Char) :
    skipBlank (chars ++ rest) ≠ '\x7d' :: behind := by
  have hmember {member : Option String × Json} {chars back : List Char}
      (h : SpellsMember member chars) : skipBlank (chars ++ back) ≠ '\x7d' :: behind := by
    cases h with
    | mk hfront _ _ _ _ _ =>
        rw [List.append_assoc, List.cons_append, skipBlank_append_cons hfront rfl]
        exact fun heq => absurd (List.cons.inj heq).1 (by decide)
  cases h with
  | last h =>
      rw [List.append_assoc]
      exact hmember h
  | cons h _ =>
      rw [List.append_assoc]
      exact hmember h

theorem SpellsItems.ne_nil {items : List Json} (h : SpellsItems items chars) : chars ≠ [] := by
  cases h <;> simp

theorem SpellsMembers.ne_nil {members : List (Option String × Json)}
    (h : SpellsMembers members chars) : chars ≠ [] := by
  cases h <;> simp

/-- Enough fuel for a text that is not empty is enough for a call. -/
theorem exists_fuel {fuel : Nat} (hsome : chars ≠ []) (hfuel : 2 * chars.length ≤ fuel) :
    ∃ left, fuel = left + 1 ∧ 2 * chars.length ≤ left + 1 := by
  have hlength := List.length_pos_iff.mpr hsome
  exact ⟨fuel - 1, by omega, by omega⟩

mutual
/-- A value is read from what spells it, behind blanks and in front of what ends a number. -/
theorem value?_of_spells {gap chars rest : List Char} {value : Json} {fuel : Nat}
    (h : Spells value chars) (hgap : Blank gap) (hrest : Ends rest)
    (hfuel : 2 * chars.length ≤ fuel) :
    value? fuel (gap ++ (chars ++ rest)) = some (value, rest) := by
  obtain ⟨first, others, hchars, -, -⟩ := h.exists_cons
  obtain ⟨left, rfl, hleft⟩ := exists_fuel (by simp [hchars]) hfuel
  cases h with
  | null | boolTrue | boolFalse =>
      rw [List.cons_append, value?, skipBlank_append_cons hgap rfl]
      rfl
  | number hnumber =>
      obtain ⟨first, others, rfl, hfirst⟩ := hnumber.exists_cons
      rw [List.cons_append, value?_of_digit left
        (skipBlank_append_cons hgap (isBlank_of_isDigit hfirst)) hfirst, ← List.cons_append,
        unsigned?_of_unsigned hnumber hrest]
      rfl
  | negative hnumber =>
      rw [List.cons_append, value?_of_minus left (skipBlank_append_cons hgap rfl),
        unsigned?_of_unsigned hnumber hrest]
      rfl
  | string hquoted =>
      rw [List.cons_append, value?_of_quote left (skipBlank_append_cons hgap rfl),
        List.append_assoc, List.singleton_append, string?_of_quoted hquoted]
      rfl
  | emptyArray hblank =>
      rw [List.cons_append, value?_of_bracket left (skipBlank_append_cons hgap rfl),
        List.append_assoc, List.singleton_append, skipBlank_append_cons hblank rfl]
      rfl
  | array hitems =>
      have hread := @items?_of_spells _ rest _ left hitems (by simp at hleft; omega)
      rw [List.cons_append, value?_of_bracket left (skipBlank_append_cons hgap rfl)]
      split
      · next behind hclosed => exact absurd hclosed (hitems.not_closed behind)
      · rw [items?_skipBlank, hread]
        rfl
  | emptyObject hblank =>
      rw [List.cons_append, value?_of_brace left (skipBlank_append_cons hgap rfl),
        List.append_assoc, List.singleton_append, skipBlank_append_cons hblank rfl]
      rfl
  | object hmembers =>
      have hread := @members?_of_spells _ rest _ left hmembers (by simp at hleft; omega)
      rw [List.cons_append, value?_of_brace left (skipBlank_append_cons hgap rfl)]
      split
      · next behind hclosed => exact absurd hclosed (hmembers.not_closed behind)
      · rw [members?_skipBlank, hread]
        rfl

/-- Items are read up to the end of their array. -/
theorem items?_of_spells {chars rest : List Char} {items : List Json} {fuel : Nat}
    (h : SpellsItems items chars) (hfuel : 2 * chars.length ≤ fuel) :
    items? fuel (chars ++ rest) = some (items, rest) := by
  obtain ⟨left, rfl, hleft⟩ := exists_fuel h.ne_nil hfuel
  cases h with
  | last hfront hitem hback =>
      simp only [List.length_append, List.length_singleton] at hleft
      have hends := ends_of_blank hback (ends_cons ']' rest (by decide))
      have hread := value?_of_spells hitem hfront hends (show 2 * _ ≤ left by omega)
      simp only [List.append_assoc, List.singleton_append]
      rw [items?, hread]
      simp only [bind, Option.bind_some]
      rw [skipBlank_append_cons hback rfl]
      rfl
  | @cons _ _ _ _ _ others hfront hitem hback hitems =>
      simp only [List.length_append, List.length_cons] at hleft
      have hends := ends_of_blank hback (ends_cons ',' (others ++ rest) (by decide))
      have hread := value?_of_spells hitem hfront hends (show 2 * _ ≤ left by omega)
      have hothers := @items?_of_spells _ rest _ left hitems (by omega)
      simp only [List.append_assoc, List.cons_append]
      rw [items?, hread]
      simp only [bind, Option.bind_some]
      rw [skipBlank_append_cons hback rfl]
      show (items? left (others ++ rest)).bind _ = _
      rw [hothers]
      rfl

/-- A key with its value is read up to the comma or the brace behind it. -/
theorem members?_of_member {chars behind : List Char} {c : Char} {member : Option String × Json}
    {fuel : Nat} (h : SpellsMember member chars) (hc : isBlank c = false)
    (hbehind : Ends (c :: behind)) (hfuel : 2 * chars.length ≤ fuel) :
    members? (fuel + 1) (chars ++ c :: behind) =
      match c :: behind with
      | ',' :: rest => do
          let (members, rest) ← members? fuel rest
          pure (member :: members, rest)
      | '\x7d' :: rest => pure ([member], rest)
      | _ => none := by
  cases h with
  | mk hfront hkey hgap hstart hvalue hback =>
      simp only [List.length_append, List.length_cons] at hfuel
      have hends := ends_of_blank hback hbehind
      have hread := value?_of_spells hvalue hstart hends (show 2 * _ ≤ fuel by omega)
      simp only [List.append_assoc, List.cons_append]
      rw [members?, skipBlank_append_cons hfront rfl]
      show (string? _).bind _ = _
      rw [string?_of_quoted hkey, Option.bind_some]
      dsimp only
      rw [skipBlank_append_cons hgap rfl]
      show (value? fuel _).bind _ = _
      rw [hread, Option.bind_some]
      dsimp only
      have hskip := @skipBlank_append_cons behind _ hback c hc
      generalize skipBlank _ = begun at hskip ⊢
      subst hskip
      rfl

/-- Members are read up to the end of their object. -/
theorem members?_of_spells {chars rest : List Char} {members : List (Option String × Json)}
    {fuel : Nat} (h : SpellsMembers members chars) (hfuel : 2 * chars.length ≤ fuel) :
    members? fuel (chars ++ rest) = some (members, rest) := by
  obtain ⟨left, rfl, hleft⟩ := exists_fuel h.ne_nil hfuel
  cases h with
  | last hmember =>
      simp only [List.length_append, List.length_singleton] at hleft
      rw [List.append_assoc, List.singleton_append,
        members?_of_member hmember rfl (ends_cons '\x7d' rest (by decide)) (by omega)]
      rfl
  | @cons _ _ _ others hmember hmembers =>
      simp only [List.length_append, List.length_cons] at hleft
      have hothers := @members?_of_spells _ rest _ left hmembers (by omega)
      rw [List.append_assoc, List.cons_append,
        members?_of_member hmember rfl (ends_cons ',' (others ++ rest) (by decide)) (by omega)]
      show (members? left (others ++ rest)).bind _ = _
      rw [hothers]
      rfl
end

mutual
/-- What a value is read from are blanks and what spells it. -/
theorem spells_of_value? {fuel : Nat} {chars rest : List Char} {value : Json}
    (h : value? fuel chars = some (value, rest)) :
    ∃ gap front, Blank gap ∧ Spells value front ∧ chars = gap ++ (front ++ rest) := by
  cases fuel with
  | zero => cases h
  | succ fuel =>
      rw [value?] at h
      obtain ⟨gap, hgap, -, hchars⟩ := skipBlank_eq_iff.mp (rfl : skipBlank chars = _)
      generalize skipBlank chars = begun at h hchars
      subst hchars
      split at h
      · obtain ⟨rfl, rfl⟩ := Prod.mk.inj (Option.some.inj h)
        exact ⟨gap, _, hgap, .null, rfl⟩
      · obtain ⟨rfl, rfl⟩ := Prod.mk.inj (Option.some.inj h)
        exact ⟨gap, _, hgap, .boolTrue, rfl⟩
      · obtain ⟨rfl, rfl⟩ := Prod.mk.inj (Option.some.inj h)
        exact ⟨gap, _, hgap, .boolFalse, rfl⟩
      · obtain ⟨⟨text, behind⟩, hread, heq⟩ := Option.map_eq_some_iff.mp h
        obtain ⟨rfl, rfl⟩ := Prod.mk.inj heq
        obtain ⟨units, front, hquoted, rfl, rfl⟩ := quoted_of_string? hread
        exact ⟨gap, _, hgap, .string hquoted, by simp⟩
      · split at h
        · next hskip =>
            obtain ⟨inner, hinner, -, rfl⟩ := skipBlank_eq_iff.mp hskip
            obtain ⟨rfl, rfl⟩ := Prod.mk.inj (Option.some.inj h)
            exact ⟨gap, _, hgap, .emptyArray hinner, by simp⟩
        · rw [items?_skipBlank] at h
          obtain ⟨⟨items, behind⟩, hread, heq⟩ := Option.map_eq_some_iff.mp h
          obtain ⟨rfl, rfl⟩ := Prod.mk.inj heq
          obtain ⟨front, hitems, rfl⟩ := spells_of_items? hread
          exact ⟨gap, _, hgap, .array hitems, rfl⟩
      · split at h
        · next hskip =>
            obtain ⟨inner, hinner, -, rfl⟩ := skipBlank_eq_iff.mp hskip
            obtain ⟨rfl, rfl⟩ := Prod.mk.inj (Option.some.inj h)
            exact ⟨gap, _, hgap, .emptyObject hinner, by simp⟩
        · rw [members?_skipBlank] at h
          obtain ⟨⟨members, behind⟩, hread, heq⟩ := Option.map_eq_some_iff.mp h
          obtain ⟨rfl, rfl⟩ := Prod.mk.inj heq
          obtain ⟨front, hmembers, rfl⟩ := spells_of_members? hread
          exact ⟨gap, _, hgap, .object hmembers, rfl⟩
      · obtain ⟨⟨natural, behind⟩, hread, heq⟩ := Option.map_eq_some_iff.mp h
        obtain ⟨rfl, rfl⟩ := Prod.mk.inj heq
        obtain ⟨front, hnumber, rfl⟩ := unsigned_of_unsigned? hread
        exact ⟨gap, _, hgap, .negative hnumber, rfl⟩
      · obtain ⟨⟨natural, behind⟩, hread, heq⟩ := Option.map_eq_some_iff.mp h
        obtain ⟨rfl, rfl⟩ := Prod.mk.inj heq
        obtain ⟨front, hnumber, rfl⟩ := unsigned_of_unsigned? hread
        exact ⟨gap, _, hgap, .number hnumber, rfl⟩

/-- What the items of an array are read from spells them. -/
theorem spells_of_items? {fuel : Nat} {chars rest : List Char} {items : List Json}
    (h : items? fuel chars = some (items, rest)) :
    ∃ front, SpellsItems items front ∧ chars = front ++ rest := by
  cases fuel with
  | zero => cases h
  | succ fuel =>
      rw [items?] at h
      obtain ⟨⟨item, behind⟩, hread, hnext⟩ := Option.bind_eq_some_iff.mp h
      obtain ⟨front, chars, hfront, hitem, rfl⟩ := spells_of_value? hread
      dsimp only at hnext
      split at hnext
      · next hskip =>
          obtain ⟨back, hback, -, rfl⟩ := skipBlank_eq_iff.mp hskip
          obtain ⟨⟨items, last⟩, hrest, heq⟩ := Option.bind_eq_some_iff.mp hnext
          obtain ⟨rfl, rfl⟩ := Prod.mk.inj (Option.some.inj heq)
          obtain ⟨others, hothers, rfl⟩ := spells_of_items? hrest
          exact ⟨_, .cons hfront hitem hback hothers, by simp⟩
      · next hskip =>
          obtain ⟨back, hback, -, rfl⟩ := skipBlank_eq_iff.mp hskip
          obtain ⟨rfl, rfl⟩ := Prod.mk.inj (Option.some.inj hnext)
          exact ⟨_, .last hfront hitem hback, by simp⟩
      · cases hnext

/-- What the members of an object are read from spells them. -/
theorem spells_of_members? {fuel : Nat} {chars rest : List Char}
    {members : List (Option String × Json)} (h : members? fuel chars = some (members, rest)) :
    ∃ front, SpellsMembers members front ∧ chars = front ++ rest := by
  cases fuel with
  | zero => cases h
  | succ fuel =>
      rw [members?] at h
      split at h
      · next hskip =>
          obtain ⟨front, hfront, -, rfl⟩ := skipBlank_eq_iff.mp hskip
          obtain ⟨⟨text, behind⟩, hread, hnext⟩ := Option.bind_eq_some_iff.mp h
          obtain ⟨units, key, hkey, rfl, rfl⟩ := quoted_of_string? hread
          dsimp only at hnext
          split at hnext
          · next hskip =>
              obtain ⟨gap, hgap, -, rfl⟩ := skipBlank_eq_iff.mp hskip
              obtain ⟨⟨value, behind⟩, hinner, hlast⟩ := Option.bind_eq_some_iff.mp hnext
              obtain ⟨start, chars, hstart, hvalue, rfl⟩ := spells_of_value? hinner
              dsimp only at hlast
              split at hlast
              · next hskip =>
                  obtain ⟨back, hback, -, rfl⟩ := skipBlank_eq_iff.mp hskip
                  obtain ⟨⟨members, last⟩, hrest, heq⟩ := Option.bind_eq_some_iff.mp hlast
                  obtain ⟨rfl, rfl⟩ := Prod.mk.inj (Option.some.inj heq)
                  obtain ⟨others, hothers, rfl⟩ := spells_of_members? hrest
                  exact ⟨_, .cons (.mk hfront hkey hgap hstart hvalue hback) hothers, by simp⟩
              · next hskip =>
                  obtain ⟨back, hback, -, rfl⟩ := skipBlank_eq_iff.mp hskip
                  obtain ⟨rfl, rfl⟩ := Prod.mk.inj (Option.some.inj hlast)
                  exact ⟨_, .last (.mk hfront hkey hgap hstart hvalue hback), by simp⟩
              · cases hlast
          · cases hnext
      · cases h
end

/-- A text is read exactly if it spells a value between blanks. -/
theorem parse?_eq_some_iff {text : String} {value : Json} : parse? text = some value ↔
    ∃ front chars back, Blank front ∧ Spells value chars ∧ Blank back ∧
      text.toList = front ++ (chars ++ back) := by
  constructor
  · intro h
    obtain ⟨⟨found, back⟩, hread, hnext⟩ := Option.bind_eq_some_iff.mp h
    obtain ⟨front, chars, hfront, hspells, htext⟩ := spells_of_value? hread
    dsimp only at hnext
    split at hnext
    · next hend =>
        obtain rfl := Option.some.inj hnext
        have hback := blank_iff.mpr (List.isEmpty_iff.mp hend)
        exact ⟨front, chars, back, hfront, hspells, hback, htext⟩
    · cases hnext
  · rintro ⟨front, chars, back, hfront, hspells, hback, htext⟩
    have hlength : 2 * chars.length ≤ 2 * text.length + 2 := by
      have := congrArg List.length htext
      simp only [String.length_toList, List.length_append] at this
      omega
    have hends : Ends back := List.append_nil back ▸ ends_of_blank hback ends_nil
    show (value? _ _).bind _ = _
    rw [htext, value?_of_spells hspells hfront hends hlength, Option.bind_some]
    dsimp only
    rw [blank_iff.mp hback]
    rfl

/-- The same characters do not spell two values. -/
theorem Spells.unique {value other : Json} (h : Spells value chars) (hother : Spells other chars) :
    value = other := by
  have hread {found : Json} (h : Spells found chars) :
      parse? (String.ofList chars) = some found :=
    parse?_eq_some_iff.mpr ⟨[], chars, [], blank_nil, h, blank_nil, by simp⟩
  exact Option.some.inj ((hread h).symm.trans (hread hother))

/-! ### Writing -/

/-- None of the characters needs an escape. -/
def Plain (chars : List Char) : Prop :=
  ∀ c ∈ chars, c ≠ '"' ∧ c ≠ '\\' ∧ 0x20 ≤ c.toNat

instance (chars : List Char) : Decidable (Plain chars) :=
  List.decidableBAll _ chars

/-- Characters that need no escape stand for themselves. -/
theorem quoted_of_plain (h : Plain chars) : Quoted (chars.map Char.toNat) chars := by
  induction chars with
  | nil => exact .nil
  | cons c chars ih =>
      obtain ⟨⟨hquote, hslash, hprints⟩, hchars⟩ := List.forall_mem_cons.mp h
      exact .plain hquote hslash hprints (ih hchars)

theorem charsOfUnits?_map_toNat (chars : List Char) :
    charsOfUnits? (chars.map Char.toNat) = some chars := by
  have hvalid (c : Char) : c.toNat.isValidChar := c.valid
  induction chars with
  | nil => rfl
  | cons c chars ih =>
      cases chars with
      | nil =>
          simp only [List.map_cons, List.map_nil, charsOfUnits?, if_pos (hvalid c),
            Char.ofNat_toNat]
      | cons next chars =>
          simp only [List.map_cons] at ih ⊢
          rw [charsOfUnits?, if_pos (hvalid c), ih, Option.map_some, Char.ofNat_toNat]

theorem textOf?_map_toNat (text : String) :
    textOf? (text.toList.map Char.toNat) = some text := by
  rw [textOf?, charsOfUnits?_map_toNat, Option.map_some, String.ofList_toList]

/-- A text that needs no escapes is spelled by itself between quotes. -/
theorem spells_text {text : String} (h : Plain text.toList) :
    Spells (.string (some text)) ('"' :: (text.toList ++ ['"'])) := by
  rw [← textOf?_map_toNat text]
  exact .string (quoted_of_plain h)

/-- A value with a key in front of it, without blanks. -/
theorem spellsMember_text (key : String) {value : Json} (hkey : Plain key.toList)
    (h : Spells value chars) :
    SpellsMember (some key, value) ('"' :: (key.toList ++ '"' :: ':' :: chars)) := by
  rw [← textOf?_map_toNat key]
  simpa using
    SpellsMember.mk blank_nil (quoted_of_plain hkey) blank_nil blank_nil h blank_nil

/-- Of the decimal digits of a number, the first is zero only for zero itself. -/
theorem eq_zero_of_head?_toDigits (n : Nat) (h : (Nat.toDigits 10 n).head? = some '0') : n = 0 := by
  have hdigit : ∀ digit < 10, digit.digitChar = '0' → digit = 0 := by decide
  induction n using Nat.strongRecOn with
  | ind n ih =>
      rcases Nat.lt_or_ge n 10 with hlt | hge
      · rw [Nat.toDigits_of_lt_base hlt] at h
        exact hdigit n hlt (Option.some.inj h)
      · have hsome : Nat.toDigits 10 (n / 10) ≠ [] := Nat.toDigits_ne_nil
        rw [Nat.toDigits_of_base_le (by decide) hge] at h
        obtain ⟨first, others, hfront⟩ := List.exists_cons_of_ne_nil hsome
        rw [hfront] at h
        have hzero := ih (n / 10) (by omega) (by rw [hfront]; exact h)
        omega

/-- The decimal digits of a number spell it. -/
theorem unsigned_toDigits (n : Nat) : Unsigned (some n) (Nat.toDigits 10 n) := by
  have hdigits : Digits (Nat.toDigits 10 n) :=
    ⟨Nat.toDigits_ne_nil, fun c hmem => Nat.isDigit_of_mem_toDigits (by decide) (by decide) hmem⟩
  have hvalue : naturalOf (Nat.toDigits 10 n) = n := by
    have hread : Nat.ofDigitChars 10 (Nat.toDigits 10 n) 0 = n := Nat.ofDigitChars_ten_toDigits
    rw [Nat.ofDigitChars_eq_foldl] at hread
    simpa only [naturalOf, Nat.mul_comm] using hread
  have hzero (h : (Nat.toDigits 10 n).head? = some '0') : (Nat.toDigits 10 n).length = 1 := by
    rw [eq_zero_of_head?_toDigits n h, Nat.toDigits_zero]
    rfl
  have hspells := Unsigned.mk hdigits hzero .absent .absent
  rw [hvalue] at hspells
  simpa using hspells

end Xdr.Json
