import PuppetC.Number
import PuppetC.Value
import Mathlib.Data.List.DropRight

/-!
# The native ERB engine

`puppet_erb_native.c`: templates of text, `<%= term %>` and comments are rendered without Ruby. A
template is parsed into nodes, which are cached under the name of the template, and the nodes are
rendered in turn. Whatever the parser does not know makes the engine give up, and so does a lookup
that Ruby would refuse; then the template is left to Ruby.

## Main definitions

* `parseTerm`, `parseExpression`: the terms of a tag.
* `Token`, `cutTokens`, `buildAst`: the text and the tags of a template, and `build_ast`.
* `evalExpr`, `renderValue`: the value of a term, and its text.
* `renderNodes`, `nativeRender`: `puppet_erb_native_render`, with its cache.
-/

namespace PuppetC.NativeErb

/-! ### Terms -/

/-- `expr_node_t`. -/
inductive ErbExpr where
  | literal (text : String)
  | variable (name : String)
  /-- `scope.lookupvar('x')`, or the strict `scope['x']`. -/
  | scopeLookup (name : String) (strict : Bool)
  | index (target index : ErbExpr)
  deriving DecidableEq

/-- `isspace`. -/
def isSpace (c : Char) : Bool :=
  c = ' ' || c = '\t' || c = '\n' || c = '\x0b' || c = '\x0c' || c = '\r'

/-- `skip_ws`. -/
def skipWs (cs : List Char) : List Char := cs.dropWhile isSpace

/-- `consume`. -/
def consume (c : Char) (cs : List Char) : Option (List Char) :=
  match skipWs cs with
  | [] => none
  | d :: ds => if d = c then some ds else none

/-- The first character of an identifier. -/
def isIdentStart (c : Char) : Bool := c.isAlpha || c = '_'

/-- The other characters of an identifier. -/
def isIdentChar (c : Char) : Bool := c.isAlphanum || c = '_'

/-- `parse_ident`. -/
def parseIdent (cs : List Char) : Option (List Char × List Char) :=
  match skipWs cs with
  | [] => none
  | c :: cs =>
    if isIdentStart c then
      some ((c :: cs).takeWhile isIdentChar, (c :: cs).dropWhile isIdentChar)
    else none

/-- The text up to the closing quote, and what follows it. An interpolation is refused. -/
def scanLiteral (quote : Char) : List Char → Option (List Char × List Char)
  | [] => none
  | [c] => if c = quote then some ([], []) else none
  | c :: d :: cs =>
    if c = quote then some ([], d :: cs)
    else if c = '\\' then
      (scanLiteral quote cs).map fun r ↦ (c :: d :: r.1, r.2)
    else if quote = '"' ∧ c = '#' ∧ d = '\x7b' then none
    else (scanLiteral quote (d :: cs)).map fun r ↦ (c :: r.1, r.2)

/-- What `parse_string_literal` makes of the character behind a backslash. -/
def unescape (c : Char) : Char :=
  if c = 'n' then '\n' else if c = 't' then '\t' else if c = 'r' then '\r' else c

/-- The text of a literal: `parse_string_literal` reads both kinds of quotes alike. -/
def decodeLiteral : List Char → List Char
  | [] => []
  | [c] => [c]
  | c :: d :: cs =>
    if c = '\\' then unescape d :: decodeLiteral cs else c :: decodeLiteral (d :: cs)

/-- `parse_string_literal`. -/
def parseStringLiteral (cs : List Char) : Option (String × List Char) :=
  match skipWs cs with
  | [] => none
  | c :: cs =>
    if c = '\'' ∨ c = '"' then
      (scanLiteral c cs).map fun r ↦ (String.ofList (decodeLiteral r.1), r.2)
    else none

/-- `parse_indexes`, with `term` for the parser of an index. -/
def parseIndexes (term : List Char → Option (ErbExpr × List Char)) :
    ℕ → ErbExpr → List Char → Option (ErbExpr × List Char)
  | 0, _, _ => none
  | fuel + 1, base, cs =>
    match consume '[' cs with
    | none => some (base, skipWs cs)
    | some cs =>
      match term cs with
      | none => none
      | some (index, cs) =>
        match consume ']' cs with
        | none => none
        | some cs => parseIndexes term fuel (.index base index) cs

/-- The words that `parse_term` does not take for a variable. -/
def reservedWords : List String :=
  ["if", "do", "end", "true", "false", "nil", "unless", "case", "while", "for", "begin"]

/-- A bare identifier, which stands for a variable unless it is followed by `(` or `.`. -/
def parseBareWord (cs : List Char) : Option (ErbExpr × List Char) :=
  match parseIdent cs with
  | none => none
  | some (name, rest) =>
    if String.ofList name ∈ reservedWords then none
    else if (skipWs rest).head? = some '(' ∨ (skipWs rest).head? = some '.' then none
    else some (.variable (String.ofList name), skipWs rest)

/-- A quoted key that a bracket or parenthesis closes. -/
def parseKey (close : Char) (cs : List Char) : Option (String × List Char) :=
  match parseStringLiteral cs with
  | none => none
  | some (key, cs) => (consume close cs).map fun cs ↦ (key, cs)

/-- What may follow `scope`, if it is a word of its own. -/
def afterScope (cs : List Char) : Option (List Char) :=
  if "scope".toList.isPrefixOf cs ∧ ¬ ((cs.drop 5).head?.any Char.isAlphanum) then
    some (skipWs (cs.drop 5))
  else none

/-- The terms of `parse_term` without their indexes, behind white space. -/
def parsePrimary (cs : List Char) : Option (ErbExpr × List Char) :=
  match cs with
  | [] => none
  | c :: cs' =>
    if c = '\'' ∨ c = '"' then
      (parseStringLiteral cs).map fun r ↦ (.literal r.1, r.2)
    else if c = '@' then
      (parseIdent cs').map fun r ↦ (.variable (String.ofList r.1), r.2)
    else
      match afterScope cs with
      | none => parseBareWord cs
      | some rest =>
        if rest.head? = some '[' then
          (parseKey ']' rest.tail).map fun r ↦ (.scopeLookup r.1 true, r.2)
        else if ".lookupvar(".toList.isPrefixOf rest then
          (parseKey ')' (rest.drop 11)).map fun r ↦ (.scopeLookup r.1 false, r.2)
        else parseBareWord cs

/-- `parse_term`. Each index is shorter than the term, which bounds the nesting. -/
def parseTerm : ℕ → List Char → Option (ErbExpr × List Char)
  | 0, _ => none
  | fuel + 1, cs =>
    match parsePrimary (skipWs cs) with
    | none => none
    | some (base, rest) => parseIndexes (parseTerm fuel) (fuel + 1) base rest

/-- `parse_expression`. -/
def parseExpression (cs : List Char) : Option ErbExpr :=
  match parseTerm (cs.length + 1) cs with
  | none => none
  | some (e, rest) => if skipWs rest = [] then some e else none

/-! ### Text and tags -/

/-- A tag: the markers at its ends, and what stands between them. -/
structure Tag where
  dropPrev : Bool
  isComment : Bool
  inner : List Char
  dropNext : Bool
  deriving DecidableEq

/-- A piece of a template. -/
inductive Token where
  | text (t : List Char)
  | tag (t : Tag)
  deriving DecidableEq

/-- The text in front of the next `<%`, and what follows it. -/
def cutOpen : List Char → List Char × Option (List Char)
  | [] => ([], none)
  | [c] => ([c], none)
  | c :: d :: cs =>
    if c = '<' ∧ d = '%' then ([], some cs)
    else
      match cutOpen (d :: cs) with
      | (text, rest) => (c :: text, rest)

/-- The inside of a tag up to the next `%>` or `-%>`, whether it was the latter, and what follows
it. -/
def cutClose : List Char → Option (List Char × Bool × List Char)
  | [] => none
  | c :: cs =>
    if "%>".toList.isPrefixOf (c :: cs) then some ([], false, cs.drop 1)
    else if "-%>".toList.isPrefixOf (c :: cs) then some ([], true, cs.drop 2)
    else (cutClose cs).map fun r ↦ (c :: r.1, r.2)

/-- A tag behind its `<%`, closed as `close` says; a statement is refused. -/
def cutTag (close : List Char → Option (List Char × Bool × List Char)) (cs : List Char) :
    Option (Tag × List Char) :=
  let dropPrev := cs.head? == some '-'
  let cs := if dropPrev then cs.tail else cs
  if cs.head? = some '=' ∨ cs.head? = some '#' then
    (close cs.tail).map fun r ↦ (⟨dropPrev, cs.head? == some '#', r.1, r.2.1⟩, r.2.2)
  else none

/-- The pieces of a template. -/
def cutTokens (close : List Char → Option (List Char × Bool × List Char)) :
    ℕ → List Char → Option (List Token)
  | 0, _ => none
  | fuel + 1, cs =>
    let (text, rest) := cutOpen cs
    let front := if text = [] then [] else [.text text]
    match rest with
    | none => some front
    | some cs =>
      match cutTag close cs with
      | none => none
      | some (tag, cs) => (cutTokens close fuel cs).map fun tokens ↦ front ++ .tag tag :: tokens

/-- `ast_node_t`. -/
inductive Node where
  | text (t : List Char)
  | puts (e : ErbExpr) (dropPrev dropNext : Bool)
  | comment (dropPrev dropNext : Bool)
  deriving DecidableEq

/-- The node for a piece. -/
def Token.node : Token → Option Node
  | .text t => some (.text t)
  | .tag t =>
    if t.isComment then some (.comment t.dropPrev t.dropNext)
    else (parseExpression t.inner).map fun e ↦ .puts e t.dropPrev t.dropNext

/-- `build_ast`. Each round of its loop takes at least the two characters of `<%`. -/
def buildAst (content : List Char) : Option (List Node) :=
  (cutTokens cutClose (content.length + 1) content).bind fun tokens ↦ tokens.mapM Token.node

/-! ### Values -/

/-- What the engine asks of the environment: the variables of the scopes that are searched, the
facts, and the names of the legacy facts that were removed. -/
structure Lookups where
  lookupChain : String → Option Value
  facts : String → Option Value
  isRemoved : String → Bool

/-- A variable, or else a fact. -/
def Lookups.value? (L : Lookups) (name : String) : Option Value :=
  (L.lookupChain name).or (L.facts name)

/-- A name without leading `::`. -/
def bareName (name : String) : String :=
  if "::".toList.isPrefixOf name.toList then String.ofList (name.toList.drop 2) else name

/-- The names that are no legacy facts. -/
def hashNames : List String := ["facts", "trusted", "server_facts", "environment"]

/-- A scope lookup that is left to Ruby: of a legacy fact that was removed. -/
def Lookups.refuses (L : Lookups) (name : String) : Bool :=
  !(bareName name).toList.contains ':' && !hashNames.contains (bareName name) &&
    L.isRemoved (bareName name)

/-- The name has a `::` in it. -/
def isQualified (name : String) : Bool :=
  (name.toList.tails).any fun cs ↦ "::".toList.isPrefixOf cs

/-- The item of an array at the index that `(size_t)` gives. -/
def itemAt (items : List Value) (n : ℚ) : Option Value :=
  if -1 < n then items[(n.num.tdiv n.den).toNat]? else none

/-- `eval_expr`: none if the render is given up, and no value for an undefined variable. -/
def evalExpr (L : Lookups) : ErbExpr → Option (Option Value)
  | .literal text => some (some (.string text))
  | .variable name => some (L.value? name)
  | .scopeLookup name strict =>
    if L.refuses name then none
    else
      match L.value? name with
      | some v => some (some v)
      | none => if strict ∧ isQualified (bareName name) then none else some none
  | .index target index =>
    match evalExpr L target, evalExpr L index with
    | none, _ => none
    | _, none => none
    | some (some (.hash entries)), some (some (.string key)) => some (hashGet entries key)
    | some (some (.array items)), some (some (.number n)) => some (itemAt items n)
    | some _, some _ => some none

/-- A number as `render_value` prints it. -/
def renderNumber (n : ℚ) : List Char :=
  if n.den = 1 ∧ -2 ^ 63 ≤ n.num ∧ n.num < 2 ^ 63 then formatLong n.num else (formatG n).toList

/-- `render_value`. -/
def renderValue : Option Value → Option (List Char)
  | none | some .undef => some []
  | some (.string s) => some s.toList
  | some (.bool b) => some (if b then "true".toList else "false".toList)
  | some (.number n) => some (renderNumber n)
  | _ => none

/-! ### Rendering -/

/-- A blank or a tab. -/
def isBlank (c : Char) : Bool := c = ' ' || c = '\t'

/-- `skip_drop_next_at`. -/
def skipDropNext (t : List Char) : List Char :=
  match t.dropWhile isBlank with
  | '\r' :: '\n' :: rest => rest
  | '\n' :: rest => rest
  | '\r' :: rest => rest
  | _ => t

/-- `apply_drop_prev_to_buffer`. -/
def dropPrevBlanks (drop : Bool) (buffer : List Char) : List Char :=
  if drop then buffer.rdropWhile isBlank else buffer

/-- The loop of `puppet_erb_native_render`, with the text so far and `pending_drop_next`. -/
def renderNodes (L : Lookups) : List Char → Bool → List Node → Option (List Char)
  | buffer, _, [] => some buffer
  | buffer, pending, .text t :: nodes =>
    renderNodes L (buffer ++ if pending then skipDropNext t else t) false nodes
  | buffer, pending, .puts e dropPrev dropNext :: nodes =>
    match (evalExpr L e).bind renderValue with
    | none => none
    | some text =>
      renderNodes L (dropPrevBlanks dropPrev buffer ++ text) (pending || dropNext) nodes
  | buffer, pending, .comment dropPrev dropNext :: nodes =>
    renderNodes L (dropPrevBlanks dropPrev buffer) (pending || dropNext) nodes

/-- The cache: the nodes of the templates that were parsed, none for one that is not supported. -/
abbrev Cache := List (String × Option (List Node))

/-- The nodes of a template, and the cache behind the call. A template without a name is not
cached. -/
def cachedAst (cache : Cache) (content : List Char) (name : Option String) :
    Option (List Node) × Cache :=
  match name with
  | none => (buildAst content, cache)
  | some name =>
    match cache.lookup name with
    | some ast => (ast, cache)
    | none => (buildAst content, (name, buildAst content) :: cache)

/-- `puppet_erb_native_render`, with the cache behind the call. -/
def nativeRender (L : Lookups) (cache : Cache) (content : List Char) (name : Option String) :
    Option (List Char) × Cache :=
  ((cachedAst cache content name).1.bind (renderNodes L [] false), (cachedAst cache content name).2)

end PuppetC.NativeErb
