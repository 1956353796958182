import PuppetC.Erb.NativeEngine
import PuppetC.Support.TextPieces

/-!
# What Ruby renders

The ERB of Ruby with trim mode `-`, on the templates that the native engine knows: text, comments,
and tags with one term. A term is given as it is written, so that what Ruby does not read as the
term is no way to write it. The environment has strings, booleans and integers.

## Main definitions

* `Scalar`, `ScalarEnv`: the values and the environments.
* `RubyTerm`, `RubyTerm.text`, `RubyTerm.IsTerm`: terms and how they are written.
* `Ruby.literal`, `RubyTerm.value`: the text of a literal and the value of a term.
* `erbClose`, `erbText`: where a tag ends, and what is left of the text between tags.
* `Renders`, `ErbRenders`: what a template is rendered to.
-/

namespace PuppetC.NativeErb

/-! ### Values -/

/-- A string, a boolean or an integer. -/
inductive Scalar where
  | string (s : String)
  | boolean (b : Bool)
  | integer (n : ℤ) (fits : -2 ^ 63 ≤ n ∧ n < 2 ^ 63)

/-- The value of the interpreter. -/
def Scalar.value : Scalar → Value
  | .string s => .string s
  | .boolean b => .bool b
  | .integer n _ => .number n

/-- `to_s`. -/
def Scalar.text : Scalar → List Char
  | .string s => s.toList
  | .boolean b => if b then "true".toList else "false".toList
  | .integer n _ => formatLong n

/-- An environment whose variables and facts are scalars. In the table of the legacy facts that
were removed there are no names with colons and no names of hashes. -/
structure ScalarEnv where
  lookupChain : String → Option Scalar
  facts : String → Option Scalar
  isRemoved : String → Bool
  plain_of_isRemoved : ∀ name, isRemoved name = true →
    name.toList.contains ':' = false ∧ hashNames.contains name = false

namespace ScalarEnv

/-- What the native engine sees of it. -/
def lookups (env : ScalarEnv) : Lookups where
  lookupChain name := (env.lookupChain name).map Scalar.value
  facts name := (env.facts name).map Scalar.value
  isRemoved := env.isRemoved

/-- A variable, or else a fact. -/
def value? (env : ScalarEnv) (name : String) : Option Scalar :=
  (env.lookupChain name).or (env.facts name)

end ScalarEnv

/-- A value of Ruby; none is `nil`. -/
abbrev RubyValue : Type := Option Scalar

/-- `to_s`. -/
def RubyValue.text : RubyValue → List Char
  | none => []
  | some v => v.text

/-- What is left open of Ruby: what a bare word stands for, if it does not raise, and the escapes
for code points and control characters. -/
structure Ruby where
  bareWord : String → Option RubyValue
  rareEscape : EscapeReader

/-! ### Terms -/

/-- A term as it is written. The gaps are white space, `double` is the kind of the quotes, and a
`body` stands between quotes. -/
inductive RubyTerm where
  | literal (double : Bool) (body : List Char)
  | instanceVariable (name : List Char)
  | bareWord (name : List Char)
  | scopeIndex (gap₁ gap₂ : List Char) (double : Bool) (body gap₃ : List Char)
  | lookupvar (gap₁ gap₂ : List Char) (double : Bool) (body gap₃ : List Char)
  | index (target : RubyTerm) (gap₁ gap₂ : List Char) (key : RubyTerm) (gap₃ : List Char)

/-- A quote. -/
def quoteChar (double : Bool) : Char := if double then '"' else '\''

/-- A quoted text. -/
def quoted (double : Bool) (body : List Char) : List Char :=
  quoteChar double :: (body ++ [quoteChar double])

/-- The characters of a term. -/
def RubyTerm.text : RubyTerm → List Char
  | .literal double body => quoted double body
  | .instanceVariable name => '@' :: name
  | .bareWord name => name
  | .scopeIndex gap₁ gap₂ double body gap₃ =>
    "scope".toList ++ (gap₁ ++ '[' :: (gap₂ ++ (quoted double body ++ (gap₃ ++ [']']))))
  | .lookupvar gap₁ gap₂ double body gap₃ =>
    "scope".toList ++
      (gap₁ ++ (".lookupvar(".toList ++ (gap₂ ++ (quoted double body ++ (gap₃ ++ [')'])))))
  | .index target gap₁ gap₂ key gap₃ =>
    target.text ++ (gap₁ ++ '[' :: (gap₂ ++ (key.text ++ (gap₃ ++ [']']))))

/-- The body of a literal without interpolation: a quote has a backslash in front of it. Ruby reads
a CR LF as a newline, which is left out. -/
def isBody (double : Bool) : List Char → Bool
  | [] => true
  | [c] => c ≠ '\\' && c ≠ quoteChar double
  | c :: d :: cs =>
    if c = '\\' then isBody double cs
    else c ≠ quoteChar double && !(c = '\r' && d = '\n') &&
      !(double && c = '#' && (d = '\x7b' || d = '@' || d = '$')) && isBody double (d :: cs)

/-- An identifier. -/
def isIdent (name : List Char) : Bool := name.head?.any isIdentStart && name.all isIdentChar

/-- White space. -/
def isGap (gap : List Char) : Bool := gap.all isSpace

/-- White space in a line. -/
def isLineGap (gap : List Char) : Bool := isGap gap && !gap.contains '\n'

/-- The target of an index, of an index of an index and so on, is a bare word. -/
def RubyTerm.isBare : RubyTerm → Bool
  | .bareWord _ => true
  | .index target .. => target.isBare
  | _ => false

/-- What Ruby reads as the term. In front of a bracket there is no line break, and behind a bare
word, which may be a method, nothing at all. -/
def RubyTerm.IsTerm : RubyTerm → Prop
  | .literal double body => isBody double body
  | .instanceVariable name => isIdent name
  | .bareWord name =>
    isIdent name ∧ String.ofList name ∉ "scope" :: reservedWords
  | .scopeIndex gap₁ gap₂ double body gap₃ =>
    isLineGap gap₁ ∧ isGap gap₂ ∧ isBody double body ∧ isGap gap₃
  | .lookupvar gap₁ gap₂ double body gap₃ =>
    isGap gap₁ ∧ isGap gap₂ ∧ isBody double body ∧ isGap gap₃
  | .index target gap₁ gap₂ key gap₃ =>
    target.IsTerm ∧ key.IsTerm ∧ isLineGap gap₁ ∧ (target.isBare → gap₁ = []) ∧
      isGap gap₂ ∧ isGap gap₃

/-- The term is what stands in a tag. -/
def RubyTerm.Fills (t : RubyTerm) (inner : List Char) : Prop :=
  t.IsTerm ∧ ∃ gap₁ gap₂, isGap gap₁ ∧ isGap gap₂ ∧ inner = gap₁ ++ (t.text ++ gap₂)

/-! ### Values of terms -/

/-- The escapes between single quotes. -/
def singleEscape : EscapeReader
  | [] => none
  | c :: _ => if c = '\\' ∨ c = '\'' then some ([c], 1) else none

/-- The number that digits denote. -/
def digitsValue (base : ℕ) (digit : Char → ℕ) (ds : List Char) : ℕ :=
  ds.foldl (fun n d ↦ n * base + digit d) 0

/-- The value of a hexadecimal digit. -/
def hexDigit (c : Char) : ℕ :=
  if c.isDigit then c.toNat - '0'.toNat else 10 + (c.toLower.toNat - 'a'.toNat)

/-- An octal digit. -/
def isOctal (c : Char) : Bool := '0' ≤ c && c ≤ '7'

/-- A hexadecimal digit. -/
def isHex (c : Char) : Bool := c.isDigit || ('a' ≤ c && c ≤ 'f') || ('A' ≤ c && c ≤ 'F')

/-- The escapes of one character between double quotes. -/
def letterEscape (c : Char) : List Char :=
  if c = '\n' then []
  else if c = 'a' then ['\x07']
  else if c = 'b' then ['\x08']
  else if c = 'e' then ['\x1b']
  else if c = 'f' then ['\x0c']
  else if c = 'n' then ['\n']
  else if c = 'r' then ['\r']
  else if c = 's' then [' ']
  else if c = 't' then ['\t']
  else if c = 'v' then ['\x0b']
  else [c]

/-- The escapes between double quotes. -/
def Ruby.doubleEscape (R : Ruby) : EscapeReader
  | [] => none
  | c :: cs =>
    if isOctal c then
      let digits := c :: (cs.takeWhile isOctal).take 2
      some ([Char.ofNat (digitsValue 8 hexDigit digits % 256)], digits.length)
    else if c = 'x' ∧ cs.head?.any isHex then
      let digits := (cs.takeWhile isHex).take 2
      some ([Char.ofNat (digitsValue 16 hexDigit digits)], 1 + digits.length)
    else if c ∈ ['x', 'u', 'c', 'C', 'M', '\r'] then R.rareEscape (c :: cs)
    else some (letterEscape c, 1)

/-- The text of a literal. -/
def Ruby.literal (R : Ruby) (double : Bool) (body : List Char) : String :=
  String.ofList (decodeText (if double then R.doubleEscape else singleEscape) body)

/-- The character of a string at an index, which may count from the end. -/
def charAt (cs : List Char) (n : ℤ) : RubyValue :=
  let i := if n < 0 then cs.length + n else n
  if i < 0 then none else (cs[i.toNat]?).map fun c ↦ .string (String.ofList [c])

/-- A bit of an integer. -/
def bitAt (m n : ℤ) : Scalar :=
  if n < 0 ∨ (m >>> n.toNat) % 2 = 0 then .integer 0 (by decide) else .integer 1 (by decide)

/-- `v[w]`, unless it raises. -/
def rubyIndex : RubyValue → RubyValue → Option RubyValue
  | some (.string s), some (.string key) =>
    some (if s.toList.tails.any key.toList.isPrefixOf then some (.string key) else none)
  | some (.string s), some (.integer n _) => some (charAt s.toList n)
  | some (.integer m _), some (.integer n _) => some (some (bitAt m n))
  | _, _ => none

/-- `PuppetScope#[]`. -/
def ScalarEnv.scopeIndex (env : ScalarEnv) (name : String) : Option RubyValue :=
  match env.value? name with
  | some v => some (some v)
  | none =>
    if isQualified (bareName name) ∨ env.isRemoved (bareName name) then none else some none

/-- The value of a term, unless it raises. -/
def RubyTerm.value (R : Ruby) (env : ScalarEnv) : RubyTerm → Option RubyValue
  | .literal double body => some (some (.string (R.literal double body)))
  | .instanceVariable name => some (env.value? (String.ofList name))
  | .bareWord name => R.bareWord (String.ofList name)
  | .scopeIndex _ _ double body _ => env.scopeIndex (R.literal double body)
  | .lookupvar _ _ double body _ => some (env.value? (R.literal double body))
  | .index target _ _ key _ =>
    match target.value R env, key.value R env with
    | some v, some w => rubyIndex v w
    | _, _ => none

/-! ### Templates -/

/-- The inside of a tag: `%%>` does not close it and stands for `%>`. -/
def erbClose : List Char → Option (List Char × Bool × List Char)
  | [] => none
  | c :: cs =>
    match cs with
    | d :: e :: rest =>
      if c = '%' ∧ d = '%' ∧ e = '>' then
        (erbClose rest).map fun r ↦ ('%' :: '>' :: r.1, r.2)
      else if c = '%' ∧ d = '>' then some ([], false, e :: rest)
      else if c = '-' ∧ d = '%' ∧ e = '>' then some ([], true, rest)
      else (erbClose (d :: e :: rest)).map fun r ↦ (c :: r.1, r.2)
    | [d] => if c = '%' ∧ d = '>' then some ([], false, []) else none
    | [] => none

/-- A text without the newline at its start. -/
def dropNewline : List Char → List Char
  | '\n' :: cs => cs
  | '\r' :: '\n' :: cs => cs
  | cs => cs

/-- A text in front of a tag ends in the blanks that start a line; `first` if the text starts the
template. -/
def isLineStart (first : Bool) (t : List Char) : Bool :=
  match (t.rdropWhile isBlank).getLast? with
  | none => first
  | some c => c = '\n'

/-- The next piece is a tag that starts with `<%-`. -/
def startsDropPrev : List Token → Bool
  | .tag t :: _ => t.dropPrev
  | _ => false

/-- What is left of a text: `before` if it follows a `-%>`, `after` if a `<%-` follows it. -/
def erbText (first before after : Bool) (t : List Char) : List Char :=
  let kept := if before then dropNewline t else t
  if after && isLineStart first t then kept.rdropWhile isBlank else kept

/-- What the pieces of a template are rendered to; `first` at the start of the template, and
`before` behind a `-%>`. -/
inductive Renders (R : Ruby) (env : ScalarEnv) : Bool → Bool → List Token → List Char → Prop
  | nil (first before : Bool) : Renders R env first before [] []
  | text {first before : Bool} {t : List Char} {rest : List Token} {out : List Char}
      (h : Renders R env false false rest out) :
      Renders R env first before (.text t :: rest)
        (erbText first before (startsDropPrev rest) t ++ out)
  | comment {first before : Bool} {tag : Tag} {rest : List Token} {out : List Char}
      (hcomment : tag.isComment = true) (h : Renders R env false tag.dropNext rest out) :
      Renders R env first before (.tag tag :: rest) out
  | puts {first before : Bool} {tag : Tag} {rest : List Token} {out : List Char} {t : RubyTerm}
      {v : RubyValue} (hputs : tag.isComment = false) (hfills : t.Fills tag.inner)
      (hvalue : t.value R env = some v) (h : Renders R env false tag.dropNext rest out) :
      Renders R env first before (.tag tag :: rest) (v.text ++ out)

/-- What a template is rendered to. -/
def ErbRenders (R : Ruby) (env : ScalarEnv) (content out : List Char) : Prop :=
  ∃ tokens, cutTokens erbClose (content.length + 1) content = some tokens ∧
    Renders R env true false tokens out

end PuppetC.NativeErb
