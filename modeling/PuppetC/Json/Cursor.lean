import PuppetC.Json.Extent
import PuppetC.Support.Stateful

/-!
# The state of the JSON parser

The parser as it works on its record: the position in the input, the line and the column, the
message of the last error and the depth of the containers that it is in. A function that reads
returns its value or fails, and leaves the record either way.

The loops are given a number of rounds and fail with an outcome of their own where it is used up;
it never is. The record also keeps the positions at which the parser has been, which no function
reads.

## Main definitions

* `JsonParser`: `json_parser_t`.
* `JsonParser.nextToken`, `JsonParser.readString`, `JsonParser.readNumber`: the tokenizer.
* `JsonParser.nested`: `json_parse_object_internal` and `json_parse_array_internal`.
* `JsonParser.parseSwitch`, `JsonParser.parseMembers`, `JsonParser.parseElements`: the parser.
* `JsonParser.parseValue`: `json_parse_value`.
* `runJsonParser`: `json_parse`.
-/

namespace PuppetC

/-- How a function of the parser ends that does not return its value: with `false` or `NULL`, or
without having ended in the rounds it was given. -/
inductive ParserStop where
  | failed
  | exhausted
  deriving DecidableEq

/-- `json_parser_t`, with the positions that the parser has moved to. The current token is what
reading a token returns. -/
structure JsonParser where
  input : Bytes
  pos : ℕ
  line : ℕ
  column : ℕ
  errorMessage : Option String
  depth : ℕ
  visited : List ℕ

/-- A function on the record of a parser. -/
abbrev JsonParserM (α : Type) : Type := Stateful JsonParser ParserStop α

namespace JsonParser

/-- `json_parser_create`. The input is a C string. -/
def create (input : Bytes) : JsonParser where
  input := cString input
  pos := 0
  line := 1
  column := 1
  errorMessage := none
  depth := 0
  visited := [0]

/-- The `length` of the record. -/
def length (s : JsonParser) : ℕ := s.input.length

/-- The input from the position on. -/
def rest (s : JsonParser) : Bytes := s.input.drop s.pos

/-- The character at the position, where the position is before the end. -/
def peek (s : JsonParser) : Option Char := s.input[s.pos]?

/-- `parser->pos += k`. -/
def move (k : ℕ) (s : JsonParser) : JsonParser :=
  { s with pos := s.pos + k, visited := (s.pos + k) :: s.visited }

/-- `parser->column += k`. -/
def addColumn (k : ℕ) (s : JsonParser) : JsonParser := { s with column := s.column + k }

/-- `parser->pos += k` and `parser->column += k`. -/
def bump (k : ℕ) (s : JsonParser) : JsonParser := (s.move k).addColumn k

/-- `json_parser_set_error`. -/
def setError (message : String) (s : JsonParser) : JsonParser :=
  { s with errorMessage := some message }

/-- An error is set and `false` or `NULL` returned. -/
def fail {α : Type} (message : String) : JsonParserM α := do
  modify (setError message)
  throw .failed

/-! ### The tokenizer -/

/-- One round of `json_parser_skip_whitespace`. -/
def skipBlank (s : JsonParser) (c : Char) : JsonParser :=
  if c = '\n' then { s.move 1 with line := s.line + 1, column := 1 } else s.bump 1

/-- `json_parser_skip_whitespace`: a round for each blank at the position. -/
def skipWhitespace (s : JsonParser) : JsonParser :=
  (s.rest.takeWhile isBlank).foldl skipBlank s

/-- The escape of a string, after the backslash. -/
def readEscape (buf : Bytes) : JsonParserM Bytes := do
  let s ← get
  match s.peek with
  | none => fail "Unterminated escape sequence"
  | some escaped =>
    if escaped = 'u' then
      if s.pos + 4 < s.length then do
        let hex := s.rest.take 4
        modify (bump 4)
        modify (bump 1)
        return buf ++ encodeUtf8 (strtoul16 0 hex)
      else do
        modify (bump 1)
        return buf
    else do
      modify (bump 1)
      return buf ++ [unescape escaped]

/-- The loop of `json_parser_read_string`. -/
def readStringLoop : ℕ → Bytes → JsonParserM Bytes
  | 0, _ => throw .exhausted
  | fuel + 1, buf => do
    let s ← get
    match s.peek with
    | none => fail "Unterminated string"
    | some c =>
      if c = '\x22' then do
        modify (bump 1)
        return cString buf
      else if c = '\x5c' then do
        modify (bump 1)
        let buf ← readEscape buf
        readStringLoop fuel buf
      else do
        modify (bump 1)
        readStringLoop fuel (buf ++ [c])

/-- `json_parser_read_string`, at the opening quote. -/
def readString : JsonParserM Token := do
  modify (bump 1)
  let s ← get
  let value ← readStringLoop (s.rest.length + 1) []
  return .string value

/-- The loops over digits of `json_parser_read_number`. -/
def skipDigits (s : JsonParser) : JsonParser :=
  (s.rest.takeWhile Char.isDigit).foldl (fun s _ ↦ s.move 1) s

/-- One character is skipped if it is one of some. -/
def skipOne (p : Char → Bool) (s : JsonParser) : JsonParser :=
  if s.peek.any p then s.move 1 else s

/-- The decimal part of a number. -/
def skipFraction (s : JsonParser) : JsonParser :=
  if s.peek.any (· = '.') then (s.move 1).skipDigits else s

/-- The exponent of a number. -/
def skipExponent (s : JsonParser) : JsonParser :=
  if s.peek.any fun c ↦ c = 'e' || c = 'E' then
    ((s.move 1).skipOne fun c ↦ c = '+' || c = '-').skipDigits
  else s

/-- `json_parser_read_number`. -/
def readNumber (s : JsonParser) : Token × JsonParser :=
  let start := s.pos
  let s := (s.skipOne (· = '-')).skipDigits.skipFraction.skipExponent
  let len := s.pos - start
  (.number (strtod ((s.input.drop start).take len)), s.addColumn len)

/-- A keyword at the position and its token. -/
def readKeyword (keyword : Bytes) (token : Token) : JsonParserM Token := do
  let s ← get
  if s.pos + keyword.length ≤ s.length ∧ s.rest.take keyword.length = keyword then do
    modify (bump keyword.length)
    return token
  else fail "Unexpected character"

/-- The token that a character at the position is by itself. -/
def punctuation (c : Char) : Option Token :=
  if c = '\x7b' then some .objectStart
  else if c = '\x7d' then some .objectEnd
  else if c = '[' then some .arrayStart
  else if c = ']' then some .arrayEnd
  else if c = ':' then some .colon
  else if c = ',' then some .comma
  else none

/-- `json_parser_next_token`. -/
def nextToken : JsonParserM Token := do
  modify skipWhitespace
  let s ← get
  match s.peek with
  | none => return .eof
  | some c =>
    match punctuation c with
    | some token => do
      modify (bump 1)
      return token
    | none =>
      if c = '\x22' then readString
      else if c = 't' then readKeyword ['t', 'r', 'u', 'e'] (.boolean true)
      else if c = 'f' then readKeyword ['f', 'a', 'l', 's', 'e'] (.boolean false)
      else if c = 'n' then readKeyword ['n', 'u', 'l', 'l'] .null
      else if c.isDigit || c = '-' then do
        set s.readNumber.2
        return s.readNumber.1
      else fail "Unexpected character"

/-! ### The parser -/

/-- `json_parse_object_internal` and `json_parse_array_internal`, around the bodies of these. -/
def nested (body : JsonParserM Json) : JsonParserM Json := do
  let s ← get
  if jsonMaxDepth ≤ s.depth then fail "Maximum JSON nesting depth exceeded"
  else do
    set { s with depth := s.depth + 1 }
    body.andFinally fun s ↦ { s with depth := s.depth - 1 }

/-- `json_parse_object_body`, around its loop. -/
def parseObjectBody (loop : Token → JsonParserM Json) : JsonParserM Json := do
  let t ← nextToken
  if t = .objectEnd then return .object [] else loop t

/-- `json_parse_array_body`, around its loop. -/
def parseArrayBody (loop : Token → JsonParserM Json) : JsonParserM Json := do
  let t ← nextToken
  if t = .arrayEnd then return .array [] else loop t

/-- The colon after a key. A failing token has the same message as another token. -/
def expectColon : JsonParserM Unit := do
  let t ← nextToken.onError fun _ s ↦ s.setError "Expected ':' after key"
  if t = .colon then return () else fail "Expected ':' after key"

/-- What follows a value in a container: its end, or a comma before the next token. -/
def continueWith {α : Type} (closing : Token) (message : String) (result : α)
    (loop : Token → JsonParserM α) : JsonParserM α := do
  let t ← nextToken
  if t = closing then return result
  else if t = .comma then do
    let t ← nextToken
    loop t
  else fail message

mutual

/-- The value that starts with a token: the cases of `json_parse_value` and of the loop of
`json_parse_array_body`, which have messages of their own for other tokens. -/
def parseSwitch (unexpected : String) : ℕ → Token → JsonParserM Json
  | _, .null => return .null
  | _, .boolean b => return .bool b
  | _, .number n => return .number n
  | _, .string v => return .string v
  | fuel + 1, .objectStart => nested (parseObjectBody (parseMembers fuel []))
  | fuel + 1, .arrayStart => nested (parseArrayBody (parseElements fuel []))
  | 0, .objectStart => throw .exhausted
  | 0, .arrayStart => throw .exhausted
  | _, _ => fail unexpected

/-- The loop of `json_parse_object_body`, at a token, with the members so far. -/
def parseMembers : ℕ → List (Bytes × Json) → Token → JsonParserM Json
  | fuel + 1, members, .string key => do
    expectColon
    let t ← nextToken
    let value ← parseSwitch "Unexpected token" fuel t
    let members := objectSet key value members
    continueWith .objectEnd "Expected ',' or '\x7d' in object" (.object members)
      (parseMembers fuel members)
  | 0, _, .string _ => throw .exhausted
  | _, _, _ => fail "Expected string key"

/-- The loop of `json_parse_array_body`, at a token, with the elements so far. -/
def parseElements : ℕ → List Json → Token → JsonParserM Json
  | fuel + 1, elements, t => do
    let element ← parseSwitch "Unexpected token in array" fuel t
    let elements := elements ++ [element]
    continueWith .arrayEnd "Expected ',' or ']' in array" (.array elements)
      (parseElements fuel elements)
  | 0, _, _ => throw .exhausted

end

/-- `json_parse_value`. -/
def parseValue (fuel : ℕ) : JsonParserM Json := do
  let t ← nextToken
  parseSwitch "Unexpected token" fuel t

end JsonParser

/-- `json_parse`: what comes of a text, and the record that is left of the parser. -/
def runJsonParser (input : Bytes) : Except ParserStop Json × JsonParser :=
  (JsonParser.parseValue (2 * ((JsonParser.create input).length + 1))).outcome
    (JsonParser.create input)

end PuppetC
