import PuppetC.Number

/-!
# The numbers at the start of a text

`strtod` on any text: it skips blanks, takes the longest beginning that is a decimal or
hexadecimal numeral, an infinity or a NaN, and answers what follows. The sign of zero and the
payload of a NaN are left out.

## Main definitions

* `Double`: the values of `double`.
* `strtodPrefix`: `strtod`, with what `endptr` points to.
-/

namespace PuppetC

/-- A `double`. -/
inductive Double where
  | finite (q : ℚ)
  | infinite (negative : Bool)
  | nan
  deriving DecidableEq

/-- The double nearest to a number, which is infinite from `2 ^ 1024` on. -/
def Double.round (q : ℚ) : Double :=
  let d := toDouble q
  if 2 ^ 1024 ≤ d then .infinite false else if d ≤ -2 ^ 1024 then .infinite true else .finite d

/-- `isspace` in the C locale. -/
def isSpaceChar (c : Char) : Bool := c = ' ' || ('\t' ≤ c && c ≤ '\r')

/-- A text that starts with a word, in upper or lower case, without it. -/
def dropWord? (word text : List Char) : Option (List Char) :=
  if (text.take word.length).map lowerChar = word then some (text.drop word.length) else none

/-- The value of a hexadecimal digit. -/
def hexDigitValue (c : Char) : ℕ :=
  if c.isDigit then c.toNat - 48 else (lowerChar c).toNat - 87

/-- A hexadecimal digit. -/
def isHexDigit (c : Char) : Bool := c.isDigit || ('a' ≤ lowerChar c && lowerChar c ≤ 'f')

/-- Digits, and the digits after a point. -/
def digitsAround (isDigit : Char → Bool) (text : List Char) : List Char × List Char × List Char :=
  let int := text.takeWhile isDigit
  match text.dropWhile isDigit with
  | '.' :: rest => (int, rest.takeWhile isDigit, rest.dropWhile isDigit)
  | rest => (int, [], rest)

/-- An exponent after a letter: a sign and at least one digit. Without them nothing is taken. -/
def exponentAfter (letter : Char) (text : List Char) : ℤ × List Char :=
  match text with
  | c :: rest =>
    if lowerChar c = letter then
      let (sign, digits) : ℤ × List Char :=
        match rest with
        | '-' :: rest => (-1, rest)
        | '+' :: rest => (1, rest)
        | rest => (1, rest)
      if (digits.head?.map Char.isDigit).getD false then
        (sign * Nat.ofDigitChars 10 (digits.takeWhile Char.isDigit) 0,
          digits.dropWhile Char.isDigit)
      else (0, text)
    else (0, text)
  | [] => (0, [])

/-- A decimal numeral without sign. -/
def decimalPrefix (text : List Char) : Option (ℚ × List Char) :=
  let (int, frac, rest) := digitsAround Char.isDigit text
  if int = [] ∧ frac = [] then none
  else
    let (exponent, rest) := exponentAfter 'e' rest
    some (Nat.ofDigitChars 10 (int ++ frac) 0 * tenPow (exponent - frac.length), rest)

/-- A hexadecimal numeral without sign and after its `0x`. -/
def hexPrefix (text : List Char) : Option (ℚ × List Char) :=
  let (int, frac, rest) := digitsAround isHexDigit text
  if int = [] ∧ frac = [] then none
  else
    let (exponent, rest) := exponentAfter 'p' rest
    let digits := (int ++ frac).foldl (fun n c ↦ 16 * n + hexDigitValue c) 0
    some (digits * 2 ^ (exponent - 4 * frac.length), rest)

/-- What may follow the name of a NaN: letters, digits and underscores in parentheses. -/
def dropNanPayload (text : List Char) : List Char :=
  match text with
  | '(' :: rest =>
    match rest.dropWhile fun c ↦ c.isAlphanum || c = '_' with
    | ')' :: rest => rest
    | _ => text
  | _ => text

/-- A number without sign. -/
def unsignedPrefix (negative : Bool) (text : List Char) : Option (Double × List Char) :=
  let signed (q : ℚ) : Double := Double.round (if negative then -q else q)
  match dropWord? "infinity".toList text, dropWord? "inf".toList text,
      dropWord? "nan".toList text, (dropWord? "0x".toList text).bind hexPrefix with
  | some rest, _, _, _ => some (.infinite negative, rest)
  | _, some rest, _, _ => some (.infinite negative, rest)
  | _, _, some rest, _ => some (.nan, dropNanPayload rest)
  | _, _, _, some (q, rest) => some (signed q, rest)
  | _, _, _, _ => (decimalPrefix text).map fun p ↦ (signed p.1, p.2)

/-- `strtod`: the number and what follows it, or nothing if no number is there. -/
def strtodPrefix (text : List Char) : Option (Double × List Char) :=
  match text.dropWhile isSpaceChar with
  | '-' :: rest => unsignedPrefix true rest
  | '+' :: rest => unsignedPrefix false rest
  | rest => unsignedPrefix false rest

example : strtodPrefix " -0x1F.".toList = some (.finite (-31), []) := by decide +kernel

example : strtodPrefix "1e5x".toList = some (.finite 100000, ['x']) := by decide +kernel

end PuppetC
