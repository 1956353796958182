import PuppetC.Json.Writer

/-!
# Reading JSON

The tokenizer and the parser of the common JSON library. The position in the input is the input
that is left. Lines and columns, which only the report of an error shows, are left out; an error
is the message that is set last.

## Main definitions

* `Token`, `nextToken`: `json_token_t`, `json_parser_next_token`.
* `readString`, `readNumber`: `json_parser_read_string`, `json_parser_read_number`.
* `objectSet`, `JsonOf.get?`: `json_object_set`, `json_object_get`.
* `parseToken`, `parseMembers`, `parseElements`: the parser.
* `jsonParse`: `json_parse`.
-/

namespace PuppetC

/-! ### Strings -/

/-- A C string in a buffer: what is before its first NUL. -/
def cString (buf : Bytes) : Bytes := buf.takeWhile (· ≠ '\x00')

/-- The value of a hexadecimal digit. -/
def hexDigit? (c : Char) : Option ℕ :=
  if '0' ≤ c ∧ c ≤ '9' then some (c.toNat - 48)
  else if 'a' ≤ c ∧ c ≤ 'f' then some (c.toNat - 87)
  else if 'A' ≤ c ∧ c ≤ 'F' then some (c.toNat - 55)
  else none

/-- `strtoul(s, NULL, 16)`, on a text that starts with neither blanks nor a sign. -/
def strtoul16 (acc : ℕ) : Bytes → ℕ
  | [] => acc
  | c :: cs =>
    match hexDigit? c with
    | some d => strtoul16 (16 * acc + d) cs
    | none => acc

/-- A code point in UTF-8. -/
def encodeUtf8 (n : ℕ) : Bytes :=
  if n ≤ 0x7f then [Char.ofNat n]
  else if n ≤ 0x7ff then [Char.ofNat (0xc0 + n / 64), Char.ofNat (0x80 + n % 64)]
  else [Char.ofNat (0xe0 + n / 4096), Char.ofNat (0x80 + n / 64 % 64), Char.ofNat (0x80 + n % 64)]

/-- The byte that an escape stands for. -/
def unescape (c : Char) : Char :=
  if c = 'b' then '\x08'
  else if c = 'f' then '\x0c'
  else if c = 'n' then '\n'
  else if c = 'r' then '\r'
  else if c = 't' then '\t'
  else c

/-- `json_parser_read_string`, after the opening quote. The four characters that are taken for
the digits of `\u` are those from the `u` on. -/
def readString (buf : Bytes) : Bytes → Except String (Bytes × Bytes)
  | [] => .error "Unterminated string"
  | '\x22' :: r => .ok (cString buf, r)
  | ['\x5c'] => .error "Unterminated escape sequence"
  | '\x5c' :: 'u' :: a :: b :: c :: _ :: r =>
    readString (buf ++ encodeUtf8 (strtoul16 0 ['u', a, b, c])) r
  | '\x5c' :: 'u' :: r => readString buf r
  | '\x5c' :: e :: r => readString (buf ++ [unescape e]) r
  | c :: r => readString (buf ++ [c]) r

/-! ### Numbers -/

/-- The sign of a number and what follows. -/
def readSign : Bytes → Bytes × Bytes
  | '-' :: t => (['-'], t)
  | t => ([], t)

/-- The point and the digits of a fraction and what follows. -/
def readFraction : Bytes → Bytes × Bytes
  | '.' :: t => ('.' :: t.takeWhile Char.isDigit, t.dropWhile Char.isDigit)
  | t => ([], t)

/-- The sign and the digits of an exponent and what follows. -/
def readExponentDigits : Bytes → Bytes × Bytes
  | '+' :: t => ('+' :: t.takeWhile Char.isDigit, t.dropWhile Char.isDigit)
  | '-' :: t => ('-' :: t.takeWhile Char.isDigit, t.dropWhile Char.isDigit)
  | t => (t.takeWhile Char.isDigit, t.dropWhile Char.isDigit)

/-- An exponent and what follows. -/
def readExponent : Bytes → Bytes × Bytes
  | 'e' :: t => ('e' :: (readExponentDigits t).1, (readExponentDigits t).2)
  | 'E' :: t => ('E' :: (readExponentDigits t).1, (readExponentDigits t).2)
  | t => ([], t)

/-- `json_parser_read_number`: the text of a number and what follows. -/
def readNumber (t : Bytes) : Bytes × Bytes :=
  let (sign, t) := readSign t
  let int := t.takeWhile Char.isDigit
  let (frac, t) := readFraction (t.dropWhile Char.isDigit)
  let (exponent, t) := readExponent t
  (sign ++ int ++ frac ++ exponent, t)

/-! ### Tokens -/

/-- `json_token_t`. -/
inductive Token where
  | objectStart
  | objectEnd
  | arrayStart
  | arrayEnd
  | string (value : Bytes)
  | number (value : ℚ)
  | boolean (b : Bool)
  | null
  | colon
  | comma
  | eof
  deriving DecidableEq

/-- The blanks of JSON. -/
def isBlank (c : Char) : Bool := c = ' ' || c = '\t' || c = '\r' || c = '\n'

/-- `json_parser_read_keyword`, with the token it stands for. -/
def readKeyword (keyword : Bytes) (token : Token) (t : Bytes) : Except String (Token × Bytes) :=
  if keyword.isPrefixOf t then .ok (token, t.drop keyword.length)
  else .error "Unexpected character"

/-- `json_parser_next_token`. -/
def nextToken (input : Bytes) : Except String (Token × Bytes) :=
  match input.dropWhile isBlank with
  | [] => .ok (.eof, [])
  | c :: r =>
    if c = '\x7b' then .ok (.objectStart, r)
    else if c = '\x7d' then .ok (.objectEnd, r)
    else if c = '[' then .ok (.arrayStart, r)
    else if c = ']' then .ok (.arrayEnd, r)
    else if c = ':' then .ok (.colon, r)
    else if c = ',' then .ok (.comma, r)
    else if c = '\x22' then (readString [] r).map fun (s, r) ↦ (.string s, r)
    else if c = 't' then readKeyword ['t', 'r', 'u', 'e'] (.boolean true) (c :: r)
    else if c = 'f' then readKeyword ['f', 'a', 'l', 's', 'e'] (.boolean false) (c :: r)
    else if c = 'n' then readKeyword ['n', 'u', 'l', 'l'] .null (c :: r)
    else if c.isDigit || c = '-' then
      let (text, r) := readNumber (c :: r)
      .ok (.number (strtod text), r)
    else .error "Unexpected character"

/-! ### The parser -/

/-- `json_object_set`. -/
def objectSet {N : Type} (k : Bytes) (v : JsonOf N) :
    List (Bytes × JsonOf N) → List (Bytes × JsonOf N)
  | [] => [(k, v)]
  | (k', v') :: ms => if k' = k then (k', v) :: ms else (k', v') :: objectSet k v ms

/-- `json_object_get`. -/
def JsonOf.get? {N : Type} (k : Bytes) : JsonOf N → Option (JsonOf N)
  | .object ms => (ms.find? fun m ↦ m.1 = k).map Prod.snd
  | _ => none

/-- `JSON_MAX_DEPTH`. -/
def jsonMaxDepth : ℕ := 200

/-- The error of a replaced message. -/
def orError {α : Type} (message : String) (x : Except String α) : Except String α :=
  x.mapError fun _ ↦ message

mutual

/-- The value that starts with a token, inside `depth` containers: the cases of
`json_parse_value` and of the loop of `json_parse_array_body`, which have messages of their own
for other tokens. Every call reads a token, so the length of the input is fuel enough. -/
def parseToken (unexpected : String) :
    ℕ → ℕ → Token → Bytes → Except String (Json × Bytes)
  | _, _, .null, r => .ok (.null, r)
  | _, _, .boolean b, r => .ok (.bool b, r)
  | _, _, .number n, r => .ok (.number n, r)
  | _, _, .string s, r => .ok (.string s, r)
  | fuel + 1, depth, .objectStart, r =>
    if jsonMaxDepth ≤ depth then .error "Maximum JSON nesting depth exceeded"
    else do
      let (t, r) ← nextToken r
      if t = .objectEnd then return (.object [], r)
      parseMembers fuel (depth + 1) [] t r
  | fuel + 1, depth, .arrayStart, r =>
    if jsonMaxDepth ≤ depth then .error "Maximum JSON nesting depth exceeded"
    else do
      let (t, r) ← nextToken r
      if t = .arrayEnd then return (.array [], r)
      parseElements fuel (depth + 1) [] t r
  | _, _, _, _ => .error unexpected

/-- The loop of `json_parse_object_body`, at a token, with the members so far. -/
def parseMembers : ℕ → ℕ → List (Bytes × Json) → Token → Bytes → Except String (Json × Bytes)
  | fuel + 1, depth, members, .string key, r => do
    let (t, r) ← orError "Expected ':' after key" (nextToken r)
    unless t = .colon do throw "Expected ':' after key"
    let (t, r) ← nextToken r
    let (v, r) ← parseToken "Unexpected token" fuel depth t r
    let members := objectSet key v members
    let (t, r) ← nextToken r
    if t = .objectEnd then return (.object members, r)
    unless t = .comma do throw "Expected ',' or '\x7d' in object"
    let (t, r) ← nextToken r
    parseMembers fuel depth members t r
  | _, _, _, _, _ => .error "Expected string key"

/-- The loop of `json_parse_array_body`, at a token, with the elements so far. -/
def parseElements : ℕ → ℕ → List Json → Token → Bytes → Except String (Json × Bytes)
  | fuel + 1, depth, elements, t, r => do
    let (v, r) ← parseToken "Unexpected token in array" fuel depth t r
    let elements := elements ++ [v]
    let (t, r) ← nextToken r
    if t = .arrayEnd then return (.array elements, r)
    unless t = .comma do throw "Expected ',' or ']' in array"
    let (t, r) ← nextToken r
    parseElements fuel depth elements t r
  | 0, _, _, _, _ => .error "Unexpected token in array"

end

/-- `json_parse`: what follows the value is not looked at. -/
def jsonParse (input : Bytes) : Except String Json := do
  let (t, r) ← nextToken input
  let (v, _) ← parseToken "Unexpected token" (2 * (input.length + 1)) 0 t r
  return v

end PuppetC
