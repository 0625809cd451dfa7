import Xdr.Padding
import Xdr.Text
import Xdr.Word
import Xdr.Config
import Xdr.Error

/-!
# What is read at once

Decoding fetches one thing after the other: words, hypers, opaque data, and data behind a length.
`Fetch.calls` gives the calls that a transport gets for each, and `Fetched` lists what has been
fetched when decoding ends. A table of openings says for each kind of value what comes first: a
leaf, other kinds in a row, or a word that settles what is behind it (`Opening`). `Opening.Fetches`
is what is fetched according to the table. The statement to read first is
`Opening.Fetches.unique`: the bytes settle what is fetched.
-/

namespace Xdr

/-- The sizes of as many chunks as it takes, all of 65536 bytes but the last. -/
def chunkSizes (total : Nat) : List Nat :=
  (List.range ((total + 65535) / 65536)).map fun index => min 65536 (total - 65536 * index)

/-- What is fetched at once. -/
inductive Fetch where
  /-- A number of four bytes, a count or a discriminant. -/
  | word
  /-- A number of eight bytes. -/
  | hyper
  /-- Opaque data of a known length. -/
  | fixedOpaque (length : Nat)
  /-- Data behind a length that is accepted. -/
  | sized (length : Nat)
  deriving DecidableEq, Repr

/-- The sizes of the calls: one for each number, one for opaque data together with their padding
unless there are none, and for data behind a length one for the length and one for each chunk. -/
def Fetch.calls : Fetch → List Nat
  | word => [4]
  | hyper => [8]
  | fixedOpaque length => if length = 0 then [] else [length + padLength length]
  | sized length => 4 :: chunkSizes (length + padLength length)

/-- What has been fetched at the end, the error that ended it, and the bytes that are left. -/
structure Fetched where
  fetches : List Fetch
  error : Option Error
  rest : List UInt8

/-- The same with something fetched in front. -/
def Fetched.behind (front : List Fetch) (fetched : Fetched) : Fetched :=
  { fetched with fetches := front ++ fetched.fetches }

/-- The same, and an error at the end where there was none before. -/
def Fetched.orElse (fetched : Fetched) (error : Option Error) : Fetched :=
  { fetched with error := fetched.error.or error }

theorem Fetched.orElse_none (fetched : Fetched) : fetched.orElse none = fetched := by
  rw [orElse, Option.or_none]

/-- What a reading fetches from which bytes. -/
abbrev Fetching := List UInt8 → Fetched → Prop

namespace Fetching

/-- Nothing is fetched. -/
def nothing (error : Option Error) : Fetching :=
  fun wire fetched => fetched = ⟨[], error, wire⟩

/-- One after the other, unless the first ends with an error. -/
inductive Then (first second : Fetching) : Fetching where
  | both {wire front between fetched} : first wire ⟨front, none, between⟩ →
      second between fetched → Then first second wire (fetched.behind front)
  | first {wire front error rest} : first wire ⟨front, some error, rest⟩ →
      Then first second wire ⟨front, some error, rest⟩

/-- Things of these kinds in a row, up to the first that ends with an error. -/
inductive Row {τ : Type} (R : τ → Fetching) : List τ → Fetching where
  | nil {wire} : Row R [] wire ⟨[], none, wire⟩
  | cons {kind kinds wire front between fetched} : R kind wire ⟨front, none, between⟩ →
      Row R kinds between fetched → Row R (kind :: kinds) wire (fetched.behind front)
  | stop {kind kinds wire front error rest} : R kind wire ⟨front, some error, rest⟩ →
      Row R (kind :: kinds) wire ⟨front, some error, rest⟩

variable {τ : Type} {R : τ → Fetching} {wire : List UInt8} {fetched : Fetched}

/-- One thing in front of a row is a row. -/
theorem Row.of_then {kind : τ} {kinds : List τ} (h : Then (R kind) (Row R kinds) wire fetched) :
    Row R (kind :: kinds) wire fetched := by
  cases h with
  | both hkind hrow => exact .cons hkind hrow
  | first hkind => exact .stop hkind

theorem Row.singleton {kind : τ} (h : R kind wire fetched) : Row R [kind] wire fetched := by
  obtain ⟨front, error | error, rest⟩ := fetched
  · simpa [Fetched.behind] using Row.cons h .nil
  · exact .stop h

/-- Rows one after the other are one row. -/
theorem Row.append {front back : List τ} (h : Then (Row R front) (Row R back) wire fetched) :
    Row R (front ++ back) wire fetched := by
  cases h with
  | @both _ fetches between behind hfront hback =>
      generalize hend : (⟨fetches, none, between⟩ : Fetched) = reached at hfront
      induction hfront generalizing fetches with
      | nil =>
          cases hend
          simpa [Fetched.behind] using hback
      | @cons kind kinds wire first middle fetched hkind _ ih =>
          obtain ⟨rest, error, last⟩ := fetched
          cases hend
          have hrow := Row.cons hkind (ih rfl)
          simpa [Fetched.behind] using hrow
      | stop hkind => cases hend
  | @first _ fetches error rest hfront =>
      generalize hend : (⟨fetches, some error, rest⟩ : Fetched) = reached at hfront
      induction hfront generalizing fetches with
      | nil => cases hend
      | @cons kind kinds wire first middle fetched hkind _ ih =>
          obtain ⟨more, _, last⟩ := fetched
          cases hend
          exact .cons hkind (ih rfl)
      | stop hkind =>
          cases hend
          exact .stop hkind

/-- What a row fetches is settled by the bytes if that of each thing in it is. -/
theorem Row.unique {kinds : List τ} {found : Fetched}
    (h : Row (fun kind wire found => ∀ other, R kind wire other → found = other) kinds wire fetched)
    (hfound : Row R kinds wire found) : fetched = found := by
  induction h generalizing found with
  | nil =>
      cases hfound
      rfl
  | cons hkind _ ih =>
      cases hfound with
      | cons hother hrow =>
          obtain ⟨rfl, -, rfl⟩ := Fetched.mk.inj (hkind _ hother)
          rw [ih hrow]
      | stop hother => cases hkind _ hother
  | stop hkind =>
      cases hfound with
      | cons hother _ => cases hkind _ hother
      | stop hother => exact hkind _ hother

end Fetching

/-- What a leaf reads. A check gives the error that what was read is refused with, if it is. -/
inductive Scalar where
  | word (check : UInt32 → Option Error)
  | hyper
  | fixedOpaque (length : Nat) (check : List UInt8 → Option Error)
  | sized (max : UInt32) (check : List UInt8 → Option Error)

/-- The error of a word that stands for a boolean. -/
def checkBool (w : UInt32) : Option Error :=
  if w = 0 ∨ w = 1 then none else some (.invalidBool w)

/-- The error of a length or count of at most `max`. -/
def checkLength (max w : UInt32) : Option Error :=
  if w ≤ max then none else some (.lengthExceeded max w.toNat)

/-- The error of the bytes of a string. -/
def checkText (data : List UInt8) : Option Error :=
  if (Text.ofBytes? data).isSome then none else some .invalidString

/-- The error of data behind which there is this padding. The padding is looked at first. -/
def PaddingPolicy.refusal (policy : PaddingPolicy) (padding : List UInt8)
    (check : Option Error) : Option Error :=
  if policy.accepts padding then check else some .invalidPadding

/-- What is fetched for a leaf. -/
inductive Scalar.Fetches (policy : PaddingPolicy) : Scalar → Fetching where
  | word (check w rest) :
      Fetches policy (word check) (wordImage w ++ rest) ⟨[.word], check w, rest⟩
  | hyper (h rest) : Fetches policy hyper (hyperImage h ++ rest) ⟨[.hyper], none, rest⟩
  | fixedOpaque (check) {data padding : List UInt8} (rest) :
      padding.length = padLength data.length →
      Fetches policy (fixedOpaque data.length check) (data ++ padding ++ rest)
        ⟨[.fixedOpaque data.length], policy.refusal padding (check data), rest⟩
  | sized {max : UInt32} (check) {w : UInt32} {data padding : List UInt8} (rest) :
      w ≤ max → data.length = w.toNat → padding.length = padLength data.length →
      Fetches policy (sized max check) (wordImage w ++ (data ++ padding ++ rest))
        ⟨[.sized data.length], policy.refusal padding (check data), rest⟩
  | overlong {max : UInt32} (check) {w : UInt32} (rest) : max < w →
      Fetches policy (sized max check) (wordImage w ++ rest)
        ⟨[.word], some (.lengthExceeded max w.toNat), rest⟩

/-- Bytes that begin with a word begin with no other. -/
theorem wordImage_append_inj {w w' : UInt32} {wire wire' : List UInt8}
    (h : wordImage w ++ wire = wordImage w' ++ wire') : w = w' ∧ wire = wire' := by
  obtain ⟨hword, hwire⟩ := List.append_inj h (by simp)
  exact ⟨by rw [← wordOfImage_wordImage w, hword, wordOfImage_wordImage], hwire⟩

theorem padded_append_inj {data data' padding padding' rest rest' : List UInt8}
    (hlength : data.length = data'.length) (hpadding : padding.length = padLength data.length)
    (hpadding' : padding'.length = padLength data'.length)
    (h : data ++ padding ++ rest = data' ++ padding' ++ rest') :
    data = data' ∧ padding = padding' ∧ rest = rest' := by
  obtain ⟨hfront, hrest⟩ := List.append_inj h (by simp [hpadding, hpadding', hlength])
  obtain ⟨hdata, hpad⟩ := List.append_inj hfront hlength
  exact ⟨hdata, hpad, hrest⟩

/-- What is fetched for a leaf is settled by the bytes. -/
theorem Scalar.Fetches.unique {policy : PaddingPolicy} {leaf : Scalar} {wire : List UInt8}
    {fetched found : Fetched} (h : leaf.Fetches policy wire fetched)
    (hfound : leaf.Fetches policy wire found) : fetched = found := by
  cases h with
  | word check w rest =>
      generalize hwire : wordImage w ++ rest = wire at hfound
      cases hfound
      obtain ⟨rfl, rfl⟩ := wordImage_append_inj hwire
      rfl
  | hyper h rest =>
      generalize hwire : hyperImage h ++ rest = wire at hfound
      cases hfound with
      | hyper h' rest' =>
          obtain ⟨-, rfl⟩ := List.append_inj hwire (by simp)
          rfl
  | @fixedOpaque check data padding rest hpadding =>
      generalize hlength : data.length = length at hfound
      generalize hwire : data ++ padding ++ rest = wire at hfound
      cases hfound with
      | fixedOpaque _ _ hpadding' =>
          obtain ⟨rfl, rfl, rfl⟩ := padded_append_inj hlength hpadding hpadding' hwire
          rfl
  | @sized max check w data padding rest hmax hw hpadding =>
      generalize hwire : wordImage w ++ (data ++ padding ++ rest) = wire at hfound
      cases hfound with
      | sized _ _ _ hw' hpadding' =>
          obtain ⟨rfl, hrest⟩ := wordImage_append_inj hwire
          obtain ⟨rfl, rfl, rfl⟩ := padded_append_inj (hw.trans hw'.symm) hpadding hpadding' hrest
          rfl
      | overlong _ _ hover =>
          obtain ⟨rfl, -⟩ := wordImage_append_inj hwire
          exact absurd hmax (UInt32.not_le.mpr hover)
  | @overlong max check w rest hover =>
      generalize hwire : wordImage w ++ rest = wire at hfound
      cases hfound with
      | sized _ _ hmax _ _ =>
          obtain ⟨rfl, -⟩ := wordImage_append_inj hwire
          exact absurd hmax (UInt32.not_le.mpr hover)
      | overlong =>
          obtain ⟨rfl, rfl⟩ := wordImage_append_inj hwire
          rfl

/-- What is read of a kind of value before anything else is. -/
inductive Opening (τ : Type) where
  | leaf (leaf : Scalar)
  /-- Values of these kinds in a row, and then an error if there is one. -/
  | row (kinds : List τ) (error : Option Error)
  /-- A word that is refused, or that says what kinds are behind it. -/
  | word (behind : UInt32 → Except Error (List τ))

namespace Opening

open Fetching

variable {τ : Type} {opening : τ → Option (Opening τ)} {policy : PaddingPolicy} {kind : τ}

/-- What is fetched for values of a kind, if this is how each kind opens. -/
inductive Fetches (opening : τ → Option (Opening τ)) (policy : PaddingPolicy) : τ → Fetching where
  | leaf {kind leaf wire fetched} : opening kind = some (.leaf leaf) →
      leaf.Fetches policy wire fetched → Fetches opening policy kind wire fetched
  | row {kind kinds error wire fetched} : opening kind = some (.row kinds error) →
      Row (Fetches opening policy) kinds wire fetched →
      Fetches opening policy kind wire (fetched.orElse error)
  | behind {kind behind kinds wire fetched} {w : UInt32} : opening kind = some (.word behind) →
      behind w = .ok kinds → Row (Fetches opening policy) kinds wire fetched →
      Fetches opening policy kind (wordImage w ++ wire) (fetched.behind [.word])
  | refused {kind behind error} {w : UInt32} (wire) : opening kind = some (.word behind) →
      behind w = .error error →
      Fetches opening policy kind (wordImage w ++ wire) ⟨[.word], some error, wire⟩

/-- What is fetched follows the openings: what holds of the kinds in a row holds of the whole. -/
theorem Fetches.induction {motive : τ → Fetching}
    (leaf : ∀ {kind leaf wire fetched}, opening kind = some (.leaf leaf) →
      leaf.Fetches policy wire fetched → motive kind wire fetched)
    (row : ∀ {kind kinds error wire fetched}, opening kind = some (.row kinds error) →
      Row motive kinds wire fetched → motive kind wire (fetched.orElse error))
    (behind : ∀ {kind behind kinds wire fetched} {w : UInt32},
      opening kind = some (.word behind) → behind w = .ok kinds → Row motive kinds wire fetched →
      motive kind (wordImage w ++ wire) (fetched.behind [.word]))
    (refused : ∀ {kind behind error} {w : UInt32} wire, opening kind = some (.word behind) →
      behind w = .error error → motive kind (wordImage w ++ wire) ⟨[.word], some error, wire⟩)
    {wire : List UInt8} {fetched : Fetched} (h : Fetches opening policy kind wire fetched) :
    motive kind wire fetched :=
  @Fetches.rec τ opening policy (fun kind wire fetched _ => motive kind wire fetched)
    (fun kinds wire fetched _ => Row motive kinds wire fetched) leaf (fun hopen _ => row hopen)
    (fun hopen hbehind _ => behind hopen hbehind) refused .nil (fun _ _ => .cons)
    (fun _ => .stop) kind wire fetched h

/-- The bytes settle what is fetched. -/
theorem Fetches.unique {wire : List UInt8} {fetched found : Fetched}
    (h : Fetches opening policy kind wire fetched)
    (hfound : Fetches opening policy kind wire found) : fetched = found := by
  refine Fetches.induction (motive := fun kind wire fetched =>
    ∀ found, Fetches opening policy kind wire found → fetched = found) ?leaf ?row ?behind ?refused
    h found hfound
  case leaf =>
    intro kind leaf wire fetched hopen hfetches found hfound
    cases hfound with
    | leaf hopen' hfetches' =>
        obtain rfl : leaf = _ := by simpa [hopen] using hopen'
        exact hfetches.unique hfetches'
    | _ => simp_all
  case row =>
    intro kind kinds error wire fetched hopen hrow found hfound
    cases hfound with
    | row hopen' hrow' =>
        obtain ⟨rfl, rfl⟩ : kinds = _ ∧ error = _ := by simpa [hopen] using hopen'
        rw [hrow.unique hrow']
    | _ => simp_all
  case behind =>
    intro kind behind kinds wire fetched w hopen hbehind hrow found hfound
    generalize hwire : wordImage w ++ wire = whole at hfound
    cases hfound with
    | behind hopen' hbehind' hrow' =>
        obtain rfl : behind = _ := by simpa [hopen] using hopen'
        obtain ⟨rfl, rfl⟩ := wordImage_append_inj hwire
        obtain rfl := Except.ok.inj (hbehind.symm.trans hbehind')
        rw [hrow.unique hrow']
    | refused _ hopen' herror =>
        obtain rfl : behind = _ := by simpa [hopen] using hopen'
        obtain ⟨rfl, -⟩ := wordImage_append_inj hwire
        cases hbehind.symm.trans herror
    | _ => simp_all
  case refused =>
    intro kind behind error w wire hopen herror found hfound
    generalize hwire : wordImage w ++ wire = whole at hfound
    cases hfound with
    | behind hopen' hbehind _ =>
        obtain rfl : behind = _ := by simpa [hopen] using hopen'
        obtain ⟨rfl, -⟩ := wordImage_append_inj hwire
        cases hbehind.symm.trans herror
    | refused _ hopen' herror' =>
        obtain rfl : behind = _ := by simpa [hopen] using hopen'
        obtain ⟨rfl, rfl⟩ := wordImage_append_inj hwire
        obtain rfl := Except.error.inj (herror.symm.trans herror')
        rfl
    | _ => simp_all

end Opening

end Xdr
