/-!
# JSON texts

A reader for JSON texts. `Json.parse?` accepts a text exactly if it is one JSON value between
blanks. Strings with a lone surrogate escape are part of the grammar and have no text, and of a
number only the value of a plain natural literal is kept.
-/

namespace Xdr

/-- A JSON value. -/
inductive Json where
  | null
  | bool (value : Bool)
  /-- A number, with its value if the literal is a natural number without fraction and exponent. -/
  | number (natural : Option Nat)
  /-- A string, with its text if it has one. -/
  | string (text : Option String)
  | array (items : List Json)
  | object (members : List (Option String × Json))

namespace Json

/-- The characters that may stand between the parts of a text. -/
def isBlank (c : Char) : Bool :=
  c = ' ' || c = '\t' || c = '\n' || c = '\r'

/-- The text behind the blanks. -/
def skipBlank (chars : List Char) : List Char :=
  chars.dropWhile isBlank

/-- The value of a hexadecimal digit. -/
def hexDigit? (c : Char) : Option Nat :=
  if c.isDigit then some (c.toNat - '0'.toNat)
  else if 'a' ≤ c ∧ c ≤ 'f' then some (c.toNat - 'a'.toNat + 10)
  else if 'A' ≤ c ∧ c ≤ 'F' then some (c.toNat - 'A'.toNat + 10)
  else none

/-- The value of four hexadecimal digits. -/
def hexUnit? (a b c d : Char) : Option Nat := do
  let a ← hexDigit? a
  let b ← hexDigit? b
  let c ← hexDigit? c
  let d ← hexDigit? d
  pure (((a * 16 + b) * 16 + c) * 16 + d)

/-- The character that a one-letter escape stands for. -/
def escaped? : Char → Option Char
  | '"' => some '"'
  | '\\' => some '\\'
  | '/' => some '/'
  | 'b' => some '\x08'
  | 'f' => some '\x0c'
  | 'n' => some '\n'
  | 'r' => some '\r'
  | 't' => some '\t'
  | _ => none

/-- The code units of a string up to its closing quote, and the text behind it. Characters stand for
their code points and control characters are not allowed. -/
def stringBody? : List Char → Option (List Nat × List Char)
  | [] => none
  | '"' :: rest => some ([], rest)
  | '\\' :: 'u' :: a :: b :: c :: d :: rest => do
      let unit ← hexUnit? a b c d
      let (units, rest) ← stringBody? rest
      pure (unit :: units, rest)
  | '\\' :: c :: rest => do
      let c ← escaped? c
      let (units, rest) ← stringBody? rest
      pure (c.toNat :: units, rest)
  | c :: rest =>
      if c.toNat < 0x20 then none
      else do
        let (units, rest) ← stringBody? rest
        pure (c.toNat :: units, rest)

/-- The characters of code units, where two surrogates make up one character. -/
def charsOfUnits? : List Nat → Option (List Char)
  | [] => some []
  | [unit] => if unit.isValidChar then some [Char.ofNat unit] else none
  | unit :: next :: rest =>
      -- a unit that is no character is half of a pair, or else stands alone
      if unit.isValidChar then (charsOfUnits? (next :: rest)).map (Char.ofNat unit :: ·)
      else if unit < 0xDC00 ∧ 0xDC00 ≤ next ∧ next < 0xE000 then
        (charsOfUnits? rest).map
          (Char.ofNat (0x10000 + (unit - 0xD800) * 0x400 + (next - 0xDC00)) :: ·)
      else none

/-- A string behind its opening quote, and the text behind it. -/
def string? (chars : List Char) : Option (Option String × List Char) := do
  let (units, rest) ← stringBody? chars
  pure ((charsOfUnits? units).map String.ofList, rest)

/-- One or more digits, and the text behind them. -/
def digits? (chars : List Char) : Option (List Char × List Char) :=
  match chars.span Char.isDigit with
  | ([], _) => none
  | (digits, rest) => some (digits, rest)

/-- The text behind a fraction, and whether there was one. -/
def fraction? : List Char → Option (Bool × List Char)
  | '.' :: rest => (digits? rest).map fun (_, rest) => (true, rest)
  | rest => some (false, rest)

/-- The text behind an exponent, and whether there was one. -/
def exponent? : List Char → Option (Bool × List Char)
  | c :: rest =>
      if c = 'e' ∨ c = 'E' then
        let unsigned := match rest with
          | '+' :: rest => rest
          | '-' :: rest => rest
          | rest => rest
        (digits? unsigned).map fun (_, rest) => (true, rest)
      else some (false, c :: rest)
  | [] => some (false, [])

/-- The value of decimal digits. -/
def naturalOf (digits : List Char) : Nat :=
  digits.foldl (fun total c => total * 10 + (c.toNat - '0'.toNat)) 0

/-- A number without its sign, and the text behind it. A leading zero stands alone. -/
def unsigned? (chars : List Char) : Option (Option Nat × List Char) := do
  let (digits, rest) ← digits? chars
  if digits.head? = some '0' ∧ digits.length ≠ 1 then none
  else
    let (fractional, rest) ← fraction? rest
    let (scaled, rest) ← exponent? rest
    pure (if fractional || scaled then none else some (naturalOf digits), rest)

mutual
/-- A value after blanks, and the text behind it. The fuel bounds the number of calls inside one
another. -/
def value? : (fuel : Nat) → List Char → Option (Json × List Char)
  | 0, _ => none
  | fuel + 1, chars =>
      match skipBlank chars with
      | 'n' :: 'u' :: 'l' :: 'l' :: rest => some (.null, rest)
      | 't' :: 'r' :: 'u' :: 'e' :: rest => some (.bool true, rest)
      | 'f' :: 'a' :: 'l' :: 's' :: 'e' :: rest => some (.bool false, rest)
      | '"' :: rest => (string? rest).map fun (text, rest) => (.string text, rest)
      | '[' :: rest =>
          match skipBlank rest with
          | ']' :: rest => some (.array [], rest)
          | rest => (items? fuel rest).map fun (items, rest) => (.array items, rest)
      | '\x7b' :: rest =>
          match skipBlank rest with
          | '\x7d' :: rest => some (.object [], rest)
          | rest => (members? fuel rest).map fun (members, rest) => (.object members, rest)
      | '-' :: rest => (unsigned? rest).map fun (_, rest) => (.number none, rest)
      | rest => (unsigned? rest).map fun (natural, rest) => (.number natural, rest)

/-- One or more values up to the end of an array, and the text behind it. -/
def items? : (fuel : Nat) → List Char → Option (List Json × List Char)
  | 0, _ => none
  | fuel + 1, chars => do
      let (item, rest) ← value? fuel chars
      match skipBlank rest with
      | ',' :: rest =>
          let (items, rest) ← items? fuel rest
          pure (item :: items, rest)
      | ']' :: rest => pure ([item], rest)
      | _ => none

/-- One or more members up to the end of an object, and the text behind it. -/
def members? : (fuel : Nat) → List Char → Option (List (Option String × Json) × List Char)
  | 0, _ => none
  | fuel + 1, chars =>
      match skipBlank chars with
      | '"' :: rest => do
          let (key, rest) ← string? rest
          match skipBlank rest with
          | ':' :: rest =>
              let (value, rest) ← value? fuel rest
              match skipBlank rest with
              | ',' :: rest =>
                  let (members, rest) ← members? fuel rest
                  pure ((key, value) :: members, rest)
              | '\x7d' :: rest => pure ([(key, value)], rest)
              | _ => none
          | _ => none
      | _ => none
end

/-- The value that a text spells. No text has more values inside one another or side by side than
characters, and each takes at most two calls. -/
def parse? (text : String) : Option Json := do
  let (value, rest) ← value? (2 * text.length + 2) text.toList
  if (skipBlank rest).isEmpty then some value else none

end Json

end Xdr
