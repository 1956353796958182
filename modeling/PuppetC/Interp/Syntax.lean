import PuppetC.Value
import PuppetC.Node.Selection

/-!
# Syntax of the Puppet language

The expressions and statements the parser builds (`puppet_ast.h`). Source positions are left
out. A missing (`NULL`) expression whose only use is to be evaluated is the literal `undef`,
which is what `puppet_eval_expr` makes of it; a missing name or title is `none`.

## Main definitions

* `Expr`, `Stmt`: `puppet_expr_t` and `puppet_stmt_t`.
* `ClassStmt`, `DefineStmt`, `FunctionStmt`, `NodeStmt`: the definitions an environment
  registers.
-/

namespace PuppetC

/-- `puppet_binop_t`. -/
inductive BinOp where
  | add | sub | mul | div | mod
  | eq | ne | lt | le | gt | ge
  | and | or
  | match | notMatch | in
  | lshift | rshift
  deriving DecidableEq

/-- `puppet_unop_t`. -/
inductive UnOp where
  | not | minus | plus | splat
  deriving DecidableEq

/-- `puppet_resource_style_t`. -/
inductive ResourceStyle where
  | normal | virtual | exported
  deriving DecidableEq

/-- The arrow of a chain: `->` or `~>`. -/
inductive ChainType where
  | notify | before
  deriving DecidableEq

/-- `puppet_param_t`: a parameter with its default and the text of its type. -/
structure Param (E : Type) where
  name : String
  default : Option E
  typeStr : Option String

/-- `puppet_attribute_t`; a splat (`* => hash`) has no name. -/
structure Attribute (E : Type) where
  name : Option String
  value : E

/-- `puppet_resource_instance_t`. -/
structure ResourceInstance (E : Type) where
  title : Option E
  attributes : List (Attribute E)

/-- `puppet_resource_decl_t`. -/
structure ResourceDecl (E : Type) where
  style : ResourceStyle
  type : String
  instances : List (ResourceInstance E)

/-- `puppet_lambda_t`: its body is one expression or a list of statements, or missing. -/
structure Lambda (E S : Type) where
  params : List (Param E)
  body : Option (List S)
  exprBody : Option E

/-- A class definition. -/
structure ClassDef (E S : Type) where
  name : String
  params : List (Param E)
  inherits : Option String
  body : List S

/-- The definition of a resource type. -/
structure DefineDef (E S : Type) where
  name : String
  params : List (Param E)
  body : List S

/-- The definition of a function. -/
structure FunctionDef (E S : Type) where
  name : String
  params : List (Param E)
  body : List S

mutual

/-- `puppet_expr_t`. An interpolated string is a list of literal texts, each followed by an
expression or nothing, and a last text. -/
inductive Expr : Type where
  | value (v : Value)
  | variable (name : String)
  | binop (op : BinOp) (left right : Expr)
  | unop (op : UnOp) (operand : Expr)
  | funcall (name : String) (args : List Expr) (lambda : Option (Lambda Expr Stmt))
  | index (object key : Expr)
  | dot (object : Expr) (field : String)
  | conditional (condition thenExpr elseExpr : Expr)
  | selector (control : Expr) (cases : List (Expr × Expr)) (default : Option Expr)
  | lambda (l : Lambda Expr Stmt)
  | resourceRef (type : String) (title : Option Expr)
  | interpolated (parts : List (Option String × Option Expr)) (trailing : String)
  | hash (entries : List (Expr × Expr))
  | array (items : List Expr)
  | block (body : List Stmt)

/-- `puppet_stmt_t`. -/
inductive Stmt : Type where
  | resource (decl : ResourceDecl Expr)
  | resourceDefault (type : String) (attributes : List (Attribute Expr))
  | resourceOverride (reference : Option Expr) (attributes : List (Attribute Expr))
  | collector (style : ResourceStyle) (type : String) (filter : Option Expr)
  | classDef (c : ClassDef Expr Stmt)
  | define (d : DefineDef Expr Stmt)
  | node (n : NodeDef (List Stmt))
  | if (branches : List (Expr × List Stmt)) (elseBody : Option (List Stmt))
  | unless (condition : Expr) (body : List Stmt) (elseBody : Option (List Stmt))
  | case (control : Expr) (whens : List (Option Expr × List Stmt))
      (defaultBody : Option (List Stmt))
  | assignment (var : String) (value : Expr)
  | append (var : String) (value : Expr)
  | functionCall (e : Expr)
  | chain (left right : Stmt) (type : ChainType)
  | classInstance (className : String) (arguments : List (Attribute Expr))
  | include (names : List Expr)
  | require (names : List Expr)
  | contain (names : List Expr)
  | tag (names : List Expr)
  | import (pattern : String)
  | expression (e : Expr)
  | typeAlias (name typeStr : String)
  | functionDef (f : FunctionDef Expr Stmt)

end

/-- A class definition of the language. -/
abbrev ClassStmt : Type := ClassDef Expr Stmt

/-- A defined type of the language. -/
abbrev DefineStmt : Type := DefineDef Expr Stmt

/-- A function defined in the language. -/
abbrev FunctionStmt : Type := FunctionDef Expr Stmt

/-- A node definition of the language. -/
abbrev NodeStmt : Type := NodeDef (List Stmt)

/-- The expression of a statement whose value a block returns when it comes last. -/
def Stmt.lastValue? : Stmt → Option Expr
  | .expression e => some e
  | .functionCall e => some e
  | _ => none

end PuppetC
