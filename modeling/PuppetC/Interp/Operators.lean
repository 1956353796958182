import PuppetC.Interp.Syntax

/-!
# Operators

The operators of the language on values (`puppet_eval_binop`, `puppet_eval_unop`). Both operands
are evaluated before an operator is applied, so operators are functions of values. Regular
expressions enter as `regexec pattern text`, which is false when the pattern does not compile.

## Main definitions

* `Diagnostic`: a message of a compile.
* `valuesEqual`: `puppet_values_equal`.
* `evalBinop`, `evalUnop`: the value of an operation and the messages it prints.
-/

namespace PuppetC

/-- Kinds of messages: `puppet_error_at` and `puppet_warning_at`, the uncounted `puppet_warn`
and lines on `stderr`, and the levels of the logging functions. -/
inductive Severity where
  | error | warning | note
  | info | notice | debug | logWarning | logError | critical
  deriving DecidableEq

/-- A message of a compile. -/
structure Diagnostic where
  severity : Severity
  text : String
  deriving DecidableEq

/-! ### Equality -/

mutual

/-- `puppet_values_equal`: hashes are compared entry by entry, regular expressions and deferred
calls are never equal. -/
def valuesEqual : Value → Value → Bool
  | .undef, .undef => true
  | .bool b, .bool b' => b == b'
  | .number n, .number n' => n == n'
  | .string s, .string s' => s == s'
  | .array xs, .array ys => valuesEqualList xs ys
  | .hash es, .hash fs => valuesEqualEntries es fs && es.length == fs.length
  | _, _ => false

/-- Arrays are equal when their items are. -/
def valuesEqualList : List Value → List Value → Bool
  | [], [] => true
  | x :: xs, y :: ys => valuesEqual x y && valuesEqualList xs ys
  | _, _ => false

/-- Every entry on the left has an equal one on the right. -/
def valuesEqualEntries : List (String × Value) → List (String × Value) → Bool
  | [], _ => true
  | (k, v) :: es, fs =>
    match hashGet fs k with
    | some w => valuesEqual v w && valuesEqualEntries es fs
    | none => false

end

/-! ### Numbers and texts -/

/-- The number at the start of a text, in decimal, as `atof` reads it. -/
def atof (s : String) : ℚ :=
  let cs := s.toList.dropWhile (fun c ↦ c = ' ' || ('\t' ≤ c && c ≤ '\r'))
  let (negative, cs) := match cs with
    | '-' :: cs => (true, cs)
    | '+' :: cs => (false, cs)
    | cs => (false, cs)
  let digit (c : Char) : Bool := '0' ≤ c && c ≤ '9'
  let value (ds : List Char) : ℕ := ds.foldl (fun n c ↦ 10 * n + (c.toNat - '0'.toNat)) 0
  let whole := cs.takeWhile digit
  let (frac, rest) := match cs.dropWhile digit with
    | '.' :: rest => (rest.takeWhile digit, rest.dropWhile digit)
    | rest => ([], rest)
  let mantissa : ℚ := value (whole ++ frac) / 10 ^ frac.length
  let exponent : ℤ := match rest with
    | e :: '-' :: ds => if e = 'e' ∨ e = 'E' then -value (ds.takeWhile digit) else 0
    | e :: '+' :: ds => if e = 'e' ∨ e = 'E' then value (ds.takeWhile digit) else 0
    | e :: ds => if e = 'e' ∨ e = 'E' then value (ds.takeWhile digit) else 0
    | [] => 0
  if whole = [] ∧ frac = [] then 0
  else if negative then -(mantissa * tenPow exponent) else mantissa * tenPow exponent

/-- `strstr(s, t) != NULL`. -/
def containsText (s t : String) : Bool := s.toList.tails.any (t.toList.isPrefixOf ·)

/-- The number of a value's type in `puppet_value_type_t`. -/
def Value.typeCode : Value → ℕ
  | .undef => 0
  | .bool _ => 1
  | .string _ => 2
  | .number _ => 3
  | .array _ => 4
  | .hash _ => 5
  | .regexp _ => 6
  | .deferred .. => 8

/-- The number of an operator in `puppet_binop_t`. -/
def BinOp.code : BinOp → ℕ
  | .add => 0 | .sub => 1 | .mul => 2 | .div => 3 | .mod => 4
  | .eq => 5 | .ne => 6 | .lt => 7 | .le => 8 | .gt => 9 | .ge => 10
  | .and => 11 | .or => 12 | .match => 13 | .notMatch => 14 | .in => 15
  | .lshift => 16 | .rshift => 17

/-! ### Operators -/

/-- The message for operands that an operator does not accept. -/
def unsupportedBinop (op : BinOp) (left right : Value) : Diagnostic :=
  ⟨.note, "Unsupported binary operation: op=" ++ toString op.code ++ " left_type=" ++
    toString left.typeCode ++ " right_type=" ++ toString right.typeCode⟩

/-- `+`. -/
def evalAdd : Value → Value → Option Value
  | .number x, .number y => some (.number (x + y))
  | .undef, v@(.hash _) | .undef, v@(.array _) => some v.copy
  | v@(.hash _), .undef | v@(.array _), .undef => some v.copy
  | .hash es, .hash fs =>
    some (.hash (setEntries (setEntries [] (Value.copyEntries es)) (Value.copyEntries fs)))
  | .array xs, .array ys => some (.array (Value.copyList xs ++ Value.copyList ys))
  | .string s, .string t => some (.string (s ++ t))
  | _, _ => none

/-- Does `-` take an item of an array away? -/
def removedBy (removed : List Value) (item : Value) : Bool :=
  match item with
  | .string _ | .number _ | .bool _ => removed.contains item
  | _ => false

/-- `-`; two strings are the parts of a bare word with a hyphen. -/
def evalSub : Value → Value → Option Value
  | .number x, .number y => some (.number (x - y))
  | .hash es, .string k =>
    some (.hash (setEntries [] (Value.copyEntries (es.filter fun e ↦ e.1 ≠ k))))
  | .string s, .string t => some (.string (s ++ "-" ++ t))
  | .array xs, .array ys =>
    some (.array (Value.copyList (xs.filter fun x ↦ !removedBy ys x)))
  | _, _ => none

/-- The comparisons: undef compares false, a string with a number as a number. -/
def evalCompare (numbers : ℚ → ℚ → Bool) (strings : String → String → Bool) :
    Value → Value → Option Value
  | .undef, _ => some (.bool false)
  | _, .undef => some (.bool false)
  | .number x, .number y => some (.bool (numbers x y))
  | .string s, .string t => some (.bool (strings s t))
  | .string s, .number y => some (.bool (numbers (atof s) y))
  | .number x, .string t => some (.bool (numbers x (atof t)))
  | _, _ => none

/-- `in`. -/
def evalIn : Value → Value → Option Value
  | _, .undef => some (.bool false)
  | .string s, .array ys => some (.bool (ys.contains (.string s)))
  | .number x, .array ys => some (.bool (ys.contains (.number x)))
  | _, .array _ => some (.bool false)
  | .string s, .hash fs => some (.bool (hashGet fs s).isSome)
  | .string s, .string t => some (.bool (containsText t s))
  | _, _ => none

/-- `=~`: a text `Type[...]` on the right is compared with the name of a type. -/
def evalMatch (regexec : String → String → Bool) : Value → Value → Bool
  | .string s, .string t =>
    if startsWith t "Type[" && t.toList.getLast? = some ']' then
      s == String.ofList (t.toList.drop 5).dropLast
    else regexec t s
  | .string s, .regexp p => regexec p s
  | _, _ => false

/-- `puppet_eval_binop`. -/
def evalBinop (regexec : String → String → Bool) (op : BinOp) (left right : Value) :
    Value × List Diagnostic :=
  let supported (v : Option Value) (notes : List Diagnostic) : Value × List Diagnostic :=
    match v with
    | some v => (v, [])
    | none => (.undef, notes ++ [unsupportedBinop op left right])
  match op with
  | .add => supported (evalAdd left right) []
  | .sub => supported (evalSub left right) []
  | .mul =>
    match left, right with
    | .number x, .number y => (.number (x * y), [])
    | _, _ => supported none []
  | .div =>
    match left, right with
    | .number x, .number y =>
      if y ≠ 0 then (.number (x / y), [])
      else supported none [⟨.note, "Warning: division by zero"⟩]
    | _, _ => supported none []
  | .mod =>
    match left, right with
    | .number x, .number y =>
      if truncate y ≠ 0 then (.number ((truncate x).tmod (truncate y)), [])
      else supported none [⟨.note, "Warning: modulo by zero"⟩]
    | _, _ => supported none []
  | .eq => (.bool (valuesEqual left right), [])
  | .ne => (.bool (!valuesEqual left right), [])
  | .lt => supported (evalCompare (· < ·) (· < ·) left right) []
  | .gt => supported (evalCompare (· > ·) (· > ·) left right) []
  | .le => supported (evalCompare (· ≤ ·) (fun s t ↦ !decide (t < s)) left right) []
  | .ge => supported (evalCompare (· ≥ ·) (fun s t ↦ !decide (s < t)) left right) []
  | .and => (.bool (left.isTruthy && right.isTruthy), [])
  | .or => (.bool (left.isTruthy || right.isTruthy), [])
  | .in => supported (evalIn left right) []
  | .match => (.bool (evalMatch regexec left right), [])
  | .notMatch => (.bool (!evalMatch regexec left right), [])
  | .lshift | .rshift => supported none []

/-- `puppet_eval_unop`. -/
def evalUnop (op : UnOp) (operand : Value) : Value × List Diagnostic :=
  match op, operand with
  | .not, v => (.bool (!v.isTruthy), [])
  | .minus, .number x => (.number (-x), [])
  | .plus, .number x => (.number x, [])
  | _, _ => (.undef, [⟨.note, "Unsupported unary operation"⟩])

end PuppetC
