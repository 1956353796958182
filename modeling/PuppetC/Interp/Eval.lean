import PuppetC.Interp.Functions

/-!
# Evaluation of expressions

One round of `puppet_eval_expr`: subexpressions are evaluated by calls. The depth counter of
truthiness checks is raised while the operands of `and`, `or` and `!` are evaluated.

## Main definitions

* `selectorMatches`, `indexValue`, `resourceRefValue`: the values of selectors, accesses and
  references.
* `evalExprBody`: `puppet_eval_expr`.
-/

namespace PuppetC

/-- The copy of a literal. -/
def literalValue : Value → Value
  | .deferred .. => .undef
  | v => v.copy

/-- Is the right operand of a match the name of a type, rather than a reference to a resource?
A literal string as title makes it a reference. -/
def typeOperand : Expr → Option (String × Option Expr)
  | .resourceRef _ (some (.value (.string _))) => none
  | .resourceRef type title => some (type, title)
  | _ => none

/-- Does a case of a selector match? -/
def selectorMatches (regexec : String → String → Bool) : Value → Value → Bool
  | .string s, .regexp p => regexec p s
  | .string s, .string t => s == t
  | .number x, .number y => x == y
  | .bool a, .bool b => a == b
  | _, _ => false

/-- The value of an access to a hash or an array. -/
def indexValue : Value → Value → Value
  | .hash entries, .string key => ((hashGet entries key).map Value.copy).getD .undef
  | .array items, .number x =>
    let i := truncate x
    let i := if i < 0 then items.length + i else i
    if i < 0 then .undef else ((items[i.toNat]?).map Value.copy).getD .undef
  | _, _ => Value.undef

/-- The text, or the list of texts, of a reference. -/
def resourceRefValue (type : String) : Value → Value
  | .array titles => .array (titles.map fun t ↦ .string (resourceId type t.toText))
  | title => .string (resourceId type title.toText)

/-- Is a key among those written as literal strings? -/
def isLiteralKey (key : String) : List Expr → Bool
  | [] => false
  | .value (.string s) :: es => s == key || isLiteralKey key es
  | _ :: es => isLiteralKey key es

/-- The entries of a hash literal, after those of the keys `before`. -/
def evalEntries (before : List Expr) (acc : List (String × Value)) :
    List (Expr × Expr) → Quiet Value
  | [] => return .hash acc
  | (keyExpr, valueExpr) :: rest => do
    let key ← evalExpr keyExpr
    let value ← evalExpr valueExpr
    match key with
    | .string k => do
      let factless ← read .factless
      let isValue := match keyExpr with
        | .value _ => true
        | _ => false
      if (hashGet acc k).isSome && !factless && !(isValue && isLiteralKey k before) then
        emit .error ("The key '" ++ k ++ "' is declared more than once")
      evalEntries (before ++ [keyExpr]) (hashSet acc k value.copy) rest
    | _ => evalEntries (before ++ [keyExpr]) acc rest

/-- The parts of an interpolated string, as one text. -/
def evalParts : List (Option String × Option Expr) → Quiet String
  | [] => return ""
  | (text, e) :: parts => do
    let value ← match e with
      | some e => Value.toText <$> evalExpr e
      | none => pure ""
    let rest ← evalParts parts
    return text.getD "" ++ value ++ rest

section World

variable (w : World)

/-- The cases of a selector, in order; the first match ends it. -/
def evalCases (control : Value) : List (Expr × Expr) → Quiet (Option Value)
  | [] => return none
  | (matchExpr, valueExpr) :: rest => do
    let m ← evalExpr matchExpr
    if selectorMatches w.regexec control m then return some (← evalExpr valueExpr)
    else evalCases control rest

/-- An operator on values, with its messages. -/
def applyBinop (op : BinOp) (left right : Value) : Quiet Value := do
  let (v, messages) := evalBinop w.regexec op left right
  messages.forM fun d ↦ perform (.emit d)
  return v

/-- The binary operators. -/
def evalBinopExpr (op : BinOp) (left right : Expr) : Comp Value := do
  match op, typeOperand right with
  | .match, some (type, title) => do
    let v ← evalExpr left
    return .bool (← (w.valueMatchesType v type title : Quiet Bool))
  | .notMatch, some (type, title) => do
    let v ← evalExpr left
    return .bool !(← (w.valueMatchesType v type title : Quiet Bool))
  | _, _ => do
    let operands : Quiet (Value × Value) := do
      let l ← evalExpr left
      let r ← evalExpr right
      return (l, r)
    let (l, r) ← withTruthIf (op = .and ∨ op = .or) operands
    applyBinop w op l r

/-- The unary operators. -/
def evalUnopExpr (op : UnOp) (operand : Expr) : Comp Value := do
  let v ← withTruthIf (op = .not) (evalExpr operand)
  let (v, messages) := evalUnop op v
  (messages.forM fun d ↦ perform (.emit d) : Quiet Unit)
  return v

/-- An access. An `undef` that came out of another access is an error. -/
def evalIndex (object key : Expr) : Quiet Value := do
  let obj ← evalExpr object
  let k ← evalExpr key
  let chained := match object with
    | .index .. => true
    | _ => false
  if obj = .undef && chained then
    unless ← read .factless do
      emit .error "Operator '[]' is not applicable to an Undef Value"
    return .undef
  return indexValue obj k

/-- `puppet_eval_expr`. -/
def evalExprBody : Expr → Comp Value
  | .value v => return literalValue v
  | .variable name => evalVariable name
  | .binop op left right => evalBinopExpr w op left right
  | .unop op operand => evalUnopExpr op operand
  | .funcall name args lambda => evalFuncall w name args lambda
  | .interpolated parts trailing => do
    let text ← evalParts parts
    return .string (text ++ trailing)
  | .block body => execBlock body
  | .conditional condition thenExpr elseExpr => do
    let c ← evalExpr condition
    if c.isTruthy then evalExpr thenExpr else evalExpr elseExpr
  | .selector control cases default => do
    let c ← evalExpr control
    match ← evalCases w c cases, default with
    | some v, _ => return v
    | none, some e => evalExpr e
    | none, none => return .undef
  | .index object key => evalIndex object key
  | .resourceRef type title => do
    let t ← evalOptional title
    return resourceRefValue type t
  | .hash entries => evalEntries [] [] entries
  | .array items => do
    let vs ← evalAll items
    return .array (Value.copyList vs)
  | .dot .. => do
    emit .note "Unimplemented expression type: 6"
    return .undef
  | .lambda _ => do
    emit .note "Unimplemented expression type: 9"
    return .undef

end World

end PuppetC
