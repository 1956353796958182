import PuppetC.Interp.Syntax

/-!
# The walk of the lint

`lint_stmt` and `lint_expr` walk over a program that has been parsed, once, before it is executed.
They pass over the statements of a chain, the filter of a collector, the names of `include`,
`require`, `contain` and `tag`, the title of a reference, and the defaults of the parameters of a
lambda.

A place of an expression in a statement is the way down to it in the tree. The walk comes to a
place if it takes every step of the way.

## Main definitions

* `Expr.Place`, `Lambda.Place`, `Stmt.Place`: the places of an expression.
* `Expr.Place.linted`, `Lambda.Place.linted`, `Stmt.Place.linted`: does the walk come there?
-/

namespace PuppetC

mutual

/-- The places of an expression in an expression. -/
inductive Expr.Place : Expr → Expr → Type
  | here (e : Expr) : Expr.Place e e
  | binopLeft {op : BinOp} {l r e : Expr} (p : Expr.Place l e) : Expr.Place (.binop op l r) e
  | binopRight {op : BinOp} {l r e : Expr} (p : Expr.Place r e) : Expr.Place (.binop op l r) e
  | unop {op : UnOp} {o e : Expr} (p : Expr.Place o e) : Expr.Place (.unop op o) e
  | funcallArg {name : String} {args : List Expr} {l : Option (Lambda Expr Stmt)} {a e : Expr}
      (h : a ∈ args) (p : Expr.Place a e) : Expr.Place (.funcall name args l) e
  | funcallLambda {name : String} {args : List Expr} {l : Lambda Expr Stmt} {e : Expr}
      (p : Lambda.Place l e) : Expr.Place (.funcall name args (some l)) e
  | indexObject {object key e : Expr} (p : Expr.Place object e) : Expr.Place (.index object key) e
  | indexKey {object key e : Expr} (p : Expr.Place key e) : Expr.Place (.index object key) e
  | dotObject {object e : Expr} {field : String} (p : Expr.Place object e) :
      Expr.Place (.dot object field) e
  | condition {c t f e : Expr} (p : Expr.Place c e) : Expr.Place (.conditional c t f) e
  | thenExpr {c t f e : Expr} (p : Expr.Place t e) : Expr.Place (.conditional c t f) e
  | elseExpr {c t f e : Expr} (p : Expr.Place f e) : Expr.Place (.conditional c t f) e
  | selectorControl {c e : Expr} {cases : List (Expr × Expr)} {d : Option Expr}
      (p : Expr.Place c e) : Expr.Place (.selector c cases d) e
  | selectorMatch {c k v e : Expr} {cases : List (Expr × Expr)} {d : Option Expr}
      (h : (k, v) ∈ cases) (p : Expr.Place k e) : Expr.Place (.selector c cases d) e
  | selectorValue {c k v e : Expr} {cases : List (Expr × Expr)} {d : Option Expr}
      (h : (k, v) ∈ cases) (p : Expr.Place v e) : Expr.Place (.selector c cases d) e
  | selectorDefault {c d e : Expr} {cases : List (Expr × Expr)} (p : Expr.Place d e) :
      Expr.Place (.selector c cases (some d)) e
  | lambda {l : Lambda Expr Stmt} {e : Expr} (p : Lambda.Place l e) : Expr.Place (.lambda l) e
  | referenceTitle {type : String} {t e : Expr} (p : Expr.Place t e) :
      Expr.Place (.resourceRef type (some t)) e
  | interpolated {parts : List (Option String × Option Expr)} {trailing : String}
      {text : Option String} {i e : Expr} (h : (text, some i) ∈ parts) (p : Expr.Place i e) :
      Expr.Place (.interpolated parts trailing) e
  | hashKey {entries : List (Expr × Expr)} {k v e : Expr} (h : (k, v) ∈ entries)
      (p : Expr.Place k e) : Expr.Place (.hash entries) e
  | hashValue {entries : List (Expr × Expr)} {k v e : Expr} (h : (k, v) ∈ entries)
      (p : Expr.Place v e) : Expr.Place (.hash entries) e
  | arrayItem {items : List Expr} {i e : Expr} (h : i ∈ items) (p : Expr.Place i e) :
      Expr.Place (.array items) e
  | block {body : List Stmt} {s : Stmt} {e : Expr} (h : s ∈ body) (p : Stmt.Place s e) :
      Expr.Place (.block body) e

/-- The places of an expression in a lambda. -/
inductive Lambda.Place : Lambda Expr Stmt → Expr → Type
  | default {l : Lambda Expr Stmt} {param : Param Expr} {d e : Expr} (h : param ∈ l.params)
      (hd : param.default = some d) (p : Expr.Place d e) : Lambda.Place l e
  | body {l : Lambda Expr Stmt} {body : List Stmt} {s : Stmt} {e : Expr} (h : l.body = some body)
      (hs : s ∈ body) (p : Stmt.Place s e) : Lambda.Place l e
  | exprBody {l : Lambda Expr Stmt} {b e : Expr} (h : l.exprBody = some b) (p : Expr.Place b e) :
      Lambda.Place l e

/-- The places of an expression in a statement. -/
inductive Stmt.Place : Stmt → Expr → Type
  | resourceTitle {decl : ResourceDecl Expr} {inst : ResourceInstance Expr} {t e : Expr}
      (h : inst ∈ decl.instances) (ht : inst.title = some t) (p : Expr.Place t e) :
      Stmt.Place (.resource decl) e
  | resourceAttribute {decl : ResourceDecl Expr} {inst : ResourceInstance Expr}
      {a : Attribute Expr} {e : Expr} (h : inst ∈ decl.instances) (ha : a ∈ inst.attributes)
      (p : Expr.Place a.value e) : Stmt.Place (.resource decl) e
  | defaultAttribute {type : String} {attributes : List (Attribute Expr)} {a : Attribute Expr}
      {e : Expr} (h : a ∈ attributes) (p : Expr.Place a.value e) :
      Stmt.Place (.resourceDefault type attributes) e
  | overrideReference {attributes : List (Attribute Expr)} {r e : Expr} (p : Expr.Place r e) :
      Stmt.Place (.resourceOverride (some r) attributes) e
  | overrideAttribute {r : Option Expr} {attributes : List (Attribute Expr)} {a : Attribute Expr}
      {e : Expr} (h : a ∈ attributes) (p : Expr.Place a.value e) :
      Stmt.Place (.resourceOverride r attributes) e
  | collectorFilter {style : ResourceStyle} {type : String} {f e : Expr} (p : Expr.Place f e) :
      Stmt.Place (.collector style type (some f)) e
  | classDefault {c : ClassStmt} {param : Param Expr} {d e : Expr} (h : param ∈ c.params)
      (hd : param.default = some d) (p : Expr.Place d e) : Stmt.Place (.classDef c) e
  | classBody {c : ClassStmt} {s : Stmt} {e : Expr} (h : s ∈ c.body) (p : Stmt.Place s e) :
      Stmt.Place (.classDef c) e
  | defineDefault {d : DefineStmt} {param : Param Expr} {v e : Expr} (h : param ∈ d.params)
      (hd : param.default = some v) (p : Expr.Place v e) : Stmt.Place (.define d) e
  | defineBody {d : DefineStmt} {s : Stmt} {e : Expr} (h : s ∈ d.body) (p : Stmt.Place s e) :
      Stmt.Place (.define d) e
  | functionDefault {f : FunctionStmt} {param : Param Expr} {d e : Expr} (h : param ∈ f.params)
      (hd : param.default = some d) (p : Expr.Place d e) : Stmt.Place (.functionDef f) e
  | functionBody {f : FunctionStmt} {s : Stmt} {e : Expr} (h : s ∈ f.body) (p : Stmt.Place s e) :
      Stmt.Place (.functionDef f) e
  | nodeBody {n : NodeStmt} {s : Stmt} {e : Expr} (h : s ∈ n.body) (p : Stmt.Place s e) :
      Stmt.Place (.node n) e
  | ifCondition {branches : List (Expr × List Stmt)} {elseBody : Option (List Stmt)}
      {c e : Expr} {body : List Stmt} (h : (c, body) ∈ branches) (p : Expr.Place c e) :
      Stmt.Place (.if branches elseBody) e
  | ifBody {branches : List (Expr × List Stmt)} {elseBody : Option (List Stmt)} {c e : Expr}
      {body : List Stmt} {s : Stmt} (h : (c, body) ∈ branches) (hs : s ∈ body)
      (p : Stmt.Place s e) : Stmt.Place (.if branches elseBody) e
  | ifElse {branches : List (Expr × List Stmt)} {body : List Stmt} {s : Stmt} {e : Expr}
      (h : s ∈ body) (p : Stmt.Place s e) : Stmt.Place (.if branches (some body)) e
  | unlessCondition {c e : Expr} {body : List Stmt} {elseBody : Option (List Stmt)}
      (p : Expr.Place c e) : Stmt.Place (.unless c body elseBody) e
  | unlessBody {c e : Expr} {body : List Stmt} {elseBody : Option (List Stmt)} {s : Stmt}
      (h : s ∈ body) (p : Stmt.Place s e) : Stmt.Place (.unless c body elseBody) e
  | unlessElse {c e : Expr} {body elseBody : List Stmt} {s : Stmt} (h : s ∈ elseBody)
      (p : Stmt.Place s e) : Stmt.Place (.unless c body (some elseBody)) e
  | caseControl {c e : Expr} {whens : List (Option Expr × List Stmt)} {d : Option (List Stmt)}
      (p : Expr.Place c e) : Stmt.Place (.case c whens d) e
  | caseTest {c t e : Expr} {whens : List (Option Expr × List Stmt)} {d : Option (List Stmt)}
      {body : List Stmt} (h : (some t, body) ∈ whens) (p : Expr.Place t e) :
      Stmt.Place (.case c whens d) e
  | caseBody {c e : Expr} {whens : List (Option Expr × List Stmt)} {d : Option (List Stmt)}
      {t : Option Expr} {body : List Stmt} {s : Stmt} (h : (t, body) ∈ whens) (hs : s ∈ body)
      (p : Stmt.Place s e) : Stmt.Place (.case c whens d) e
  | caseDefault {c e : Expr} {whens : List (Option Expr × List Stmt)} {body : List Stmt}
      {s : Stmt} (h : s ∈ body) (p : Stmt.Place s e) : Stmt.Place (.case c whens (some body)) e
  | assignment {var : String} {v e : Expr} (p : Expr.Place v e) : Stmt.Place (.assignment var v) e
  | append {var : String} {v e : Expr} (p : Expr.Place v e) : Stmt.Place (.append var v) e
  | functionCall {c e : Expr} (p : Expr.Place c e) : Stmt.Place (.functionCall c) e
  | expression {x e : Expr} (p : Expr.Place x e) : Stmt.Place (.expression x) e
  | chainLeft {l r : Stmt} {type : ChainType} {e : Expr} (p : Stmt.Place l e) :
      Stmt.Place (.chain l r type) e
  | chainRight {l r : Stmt} {type : ChainType} {e : Expr} (p : Stmt.Place r e) :
      Stmt.Place (.chain l r type) e
  | classArgument {className : String} {arguments : List (Attribute Expr)} {a : Attribute Expr}
      {e : Expr} (h : a ∈ arguments) (p : Expr.Place a.value e) :
      Stmt.Place (.classInstance className arguments) e
  | includeName {names : List Expr} {n e : Expr} (h : n ∈ names) (p : Expr.Place n e) :
      Stmt.Place (.include names) e
  | requireName {names : List Expr} {n e : Expr} (h : n ∈ names) (p : Expr.Place n e) :
      Stmt.Place (.require names) e
  | containName {names : List Expr} {n e : Expr} (h : n ∈ names) (p : Expr.Place n e) :
      Stmt.Place (.contain names) e
  | tagName {names : List Expr} {n e : Expr} (h : n ∈ names) (p : Expr.Place n e) :
      Stmt.Place (.tag names) e

end

mutual

/-- Does `lint_expr` come to a place? It does not look into the title of a reference. -/
def Expr.Place.linted {x e : Expr} : Expr.Place x e → Bool
  | .here _ => true
  | .binopLeft p | .binopRight p | .unop p | .funcallArg _ p | .indexObject p | .indexKey p
  | .dotObject p | .condition p | .thenExpr p | .elseExpr p | .selectorControl p
  | .selectorMatch _ p | .selectorValue _ p | .selectorDefault p | .interpolated _ p
  | .hashKey _ p | .hashValue _ p | .arrayItem _ p => p.linted
  | .funcallLambda p | .lambda p => p.linted
  | .block _ p => p.linted
  | .referenceTitle _ => false

/-- Does `lint_expr` come to a place in a lambda? It does not look at the parameters. -/
def Lambda.Place.linted {l : Lambda Expr Stmt} {e : Expr} : Lambda.Place l e → Bool
  | .default .. => false
  | .body _ _ p => p.linted
  | .exprBody _ p => p.linted

/-- Does `lint_stmt` come to a place? Some kinds of statements it does not look into. -/
def Stmt.Place.linted {s : Stmt} {e : Expr} : Stmt.Place s e → Bool
  | .resourceTitle _ _ p | .resourceAttribute _ _ p | .defaultAttribute _ p
  | .overrideReference p | .overrideAttribute _ p | .classDefault _ _ p | .defineDefault _ _ p
  | .functionDefault _ _ p | .ifCondition _ p | .unlessCondition p | .caseControl p
  | .caseTest _ p | .assignment p | .append p | .functionCall p | .expression p
  | .classArgument _ p => p.linted
  | .classBody _ p | .defineBody _ p | .functionBody _ p | .nodeBody _ p | .ifBody _ _ p
  | .ifElse _ p | .unlessBody _ p | .unlessElse _ p | .caseBody _ _ p | .caseDefault _ p =>
    p.linted
  | .chainLeft _ | .chainRight _ | .collectorFilter _ | .includeName .. | .requireName ..
  | .containName .. | .tagName .. => false

end

end PuppetC
