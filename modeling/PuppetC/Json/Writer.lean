import PuppetC.Number

/-!
# JSON values and their text

The values of the common JSON library (`puppet_json.c`) and the text it writes for them. As
elsewhere a byte is a character below 256; texts are lists of characters here, since both the
writer and the reader go through them byte by byte.

## Main definitions

* `JsonOf`, `Json`: `json_value_t`, over any kind of numbers and over doubles.
* `escapeChar`, `appendString`: `json_buffer_append_escaped`, `json_buffer_append_string`.
* `appendDouble`: `json_buffer_append_double`.
* `Json.toBuffer`, `Json.toText`: `json_value_to_buffer`, `json_value_to_string`.
-/

namespace PuppetC

/-- A text as the JSON library sees it. -/
abbrev Bytes : Type := List Char

instance : LawfulBEq Bytes := inferInstanceAs (LawfulBEq (List Char))

/-- JSON values over any kind of numbers. -/
inductive JsonOf (N : Type) where
  | null
  | bool (b : Bool)
  | number (n : N)
  | string (s : Bytes)
  | array (elements : List (JsonOf N))
  | object (members : List (Bytes × JsonOf N))

/-- `json_value_t`. A `double` is the rational number it denotes. -/
abbrev Json : Type := JsonOf ℚ

/-! ### The buffer -/

/-- `printf("%04x", n)`, for a number below `16 ^ 4`. -/
def formatHex4 (n : ℕ) : Bytes :=
  [n / 4096 % 16, n / 256 % 16, n / 16 % 16, n % 16].map Nat.digitChar

/-- One round of `json_buffer_append_escaped`. -/
def escapeChar (c : Char) : Bytes :=
  if c = '\x22' then ['\x5c', '\x22']
  else if c = '\x5c' then ['\x5c', '\x5c']
  else if c = '\n' then ['\x5c', 'n']
  else if c = '\r' then ['\x5c', 'r']
  else if c = '\t' then ['\x5c', 't']
  else if c = '\x08' then ['\x5c', 'b']
  else if c = '\x0c' then ['\x5c', 'f']
  else if c.toNat < 0x20 then ['\x5c', 'u'] ++ formatHex4 c.toNat
  else [c]

/-- `json_buffer_append_string`. -/
def appendString (s : Bytes) : Bytes := '\x22' :: (s.flatMap escapeChar ++ ['\x22'])

/-- `json_buffer_append_double`. -/
def appendDouble (q : ℚ) : Bytes :=
  if q = truncate q ∧ |q| < 2 ^ 63 then formatLong (truncate q) else formatDigits 15 q

/-- `json_buffer_indent`. -/
def indentation (level : ℕ) : Bytes := List.replicate (level * 2) ' '

namespace Json

/-! ### Values -/

mutual

/-- `json_value_to_buffer`. -/
def toBuffer (indent : ℕ) : Json → Bytes
  | .null => ['n', 'u', 'l', 'l']
  | .bool true => ['t', 'r', 'u', 'e']
  | .bool false => ['f', 'a', 'l', 's', 'e']
  | .number q => appendDouble q
  | .string s => appendString s
  | .array elements =>
    if elements.isEmpty then ['[', ']']
    else ['[', '\n'] ++ elementsToBuffer (indent + 1) true elements ++
      '\n' :: indentation indent ++ [']']
  | .object members =>
    if members.isEmpty then ['\x7b', '\x7d']
    else ['\x7b', '\n'] ++ membersToBuffer (indent + 1) true members ++
      '\n' :: indentation indent ++ ['\x7d']

/-- The loop over the elements of an array. -/
def elementsToBuffer (indent : ℕ) (first : Bool) : List Json → Bytes
  | [] => []
  | v :: vs =>
    (if first then [] else [',', '\n']) ++ indentation indent ++ toBuffer indent v ++
      elementsToBuffer indent false vs

/-- The loop over the members of an object. -/
def membersToBuffer (indent : ℕ) (first : Bool) : List (Bytes × Json) → Bytes
  | [] => []
  | (k, v) :: ms =>
    (if first then [] else [',', '\n']) ++ indentation indent ++ appendString k ++ [':', ' '] ++
      toBuffer indent v ++ membersToBuffer indent false ms

end

/-- `json_value_to_string`. -/
def toText (v : Json) : Bytes := v.toBuffer 0

end Json

end PuppetC
