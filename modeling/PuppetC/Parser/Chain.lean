import PuppetC.Interp.Syntax

/-!
# The conversion of chains

How the parser turns a statement with arrows into nested chains (`convert_statement` in
`puppet_ts_parser.c`). A statement is the list of its children in the syntax tree; what is inside
a resource declaration or an access is already converted.

## Main definitions

* `Arrow`, `AccessElement`, `ChainNode`: the children of a statement with arrows.
* `convertChain`: the nested chain of a statement.
* `ChainOperand`, `ResourceChain`: the chains of resources of the language.
-/

namespace PuppetC

/-- The arrows `->`, `~>`, `<-` and `<~`. -/
inductive Arrow where
  | before | notify | beforeReversed | notifyReversed
  deriving DecidableEq

namespace Arrow

/-- The kind of chain that an arrow makes. -/
def chainType : Arrow → ChainType
  | .notify | .notifyReversed => .notify
  | .before | .beforeReversed => .before

/-- Does the arrow point to the left? -/
def isReverse : Arrow → Bool
  | .beforeReversed | .notifyReversed => true
  | .before | .notify => false

end Arrow

/-- An `access_element`: a variable followed by accesses, or one node. -/
inductive AccessElement where
  | keyed (name : String) (key : Expr) (keys : List Expr)
  | plain (e : Expr)

/-- The conversion of the first child of an `access_element`. -/
def AccessElement.firstChild : AccessElement → Expr
  | .keyed name _ _ => .variable name
  | .plain e => e

/-- The children of a statement with arrows. -/
inductive ChainNode where
  | type (name : String)
  | access (elements : List AccessElement)
  | resourceType (decl : ResourceDecl Expr)
  | chainingArrow (arrow : Arrow)

/-! ### Operands -/

/-- What is known of an operand while its children are read. -/
structure ChainPart where
  resType : Option String
  titleExpr : Option Expr
  curStmt : Option Stmt

/-- One child of an operand. -/
def ChainPart.read (p : ChainPart) : ChainNode → ChainPart
  | .type name => { p with resType := some name }
  | .access (element :: _) => { p with titleExpr := some element.firstChild }
  | .access [] => p
  | .resourceType decl => { p with curStmt := some (.resource decl) }
  | .chainingArrow _ => p

/-- The statement of an operand. -/
def convertPart (nodes : List ChainNode) : Option Stmt :=
  let p := nodes.foldl ChainPart.read ⟨none, none, none⟩
  match p.curStmt, p.resType, p.titleExpr with
  | some s, _, _ => some s
  | none, some type, some title => some (.expression (.resourceRef type (some title)))
  | none, _, _ => none

/-! ### Chains -/

/-- The children before the first arrow, and those after each arrow. Only so many arrows are
noted; the others stay among the children of the last operand. -/
def splitArrows : ℕ → List ChainNode → List ChainNode × List (Arrow × List ChainNode)
  | n + 1, .chainingArrow arrow :: nodes =>
    let (part, parts) := splitArrows n nodes
    ([], (arrow, part) :: parts)
  | n, node :: nodes =>
    let (part, parts) := splitArrows n nodes
    (node :: part, parts)
  | _, [] => ([], [])

/-- The two sides of an arrow, with what is on its left so far. -/
def linkStmts (arrow : Arrow) (left cur : Stmt) : Stmt :=
  if arrow.isReverse then .chain cur left arrow.chainType else .chain left cur arrow.chainType

/-- Add an operand to the chain so far and the operand before it. -/
def linkPart (chain prev : Option Stmt) (part : Arrow × List ChainNode) :
    Option Stmt × Option Stmt :=
  match convertPart part.2, prev with
  | some cur, some before => (some (linkStmts part.1 (chain.getD before) cur), some cur)
  | _, _ => (chain, prev)

/-- Add operands one after the other. -/
def linkParts (chain prev : Option Stmt) : List (Arrow × List ChainNode) → Option Stmt
  | [] => chain
  | part :: parts =>
    let (chain, prev) := linkPart chain prev part
    linkParts chain prev parts

/-- The nested chain of a statement with arrows. At most 16 arrows are noted. -/
def convertChain (nodes : List ChainNode) : Option Stmt :=
  let (part, parts) := splitArrows 16 nodes
  linkParts none (convertPart part) parts

/-! ### Chains of resources -/

/-- An operand of a chain: a reference with its titles, or a declaration. -/
inductive ChainOperand where
  | reference (type : String) (element : AccessElement) (elements : List AccessElement)
  | declaration (decl : ResourceDecl Expr)

namespace ChainOperand

/-- The children of an operand. -/
def nodes : ChainOperand → List ChainNode
  | reference type element elements => [.type type, .access (element :: elements)]
  | declaration decl => [.resourceType decl]

/-- The statement that an operand is converted to. -/
def stmt : ChainOperand → Stmt
  | reference type element _ => .expression (.resourceRef type (some element.firstChild))
  | declaration decl => .resource decl

theorem convertPart_nodes (o : ChainOperand) : convertPart o.nodes = some o.stmt := by
  cases o <;> rfl

end ChainOperand

/-- The children of arrows and operands. -/
def linkNodes : List (Arrow × ChainOperand) → List ChainNode
  | [] => []
  | (arrow, o) :: links => .chainingArrow arrow :: (o.nodes ++ linkNodes links)

/-- A chain of at least two operands. -/
structure ResourceChain where
  first : ChainOperand
  second : Arrow × ChainOperand
  rest : List (Arrow × ChainOperand)

namespace ResourceChain

variable (c : ResourceChain)

/-- The arrows, each with the operand on its right. -/
def links : List (Arrow × ChainOperand) := c.second :: c.rest

/-- The operands of a chain. -/
def operands : List ChainOperand := c.first :: c.links.map Prod.snd

/-- The children of the statement of a chain. -/
def nodes : List ChainNode := c.first.nodes ++ linkNodes c.links

end ResourceChain

/-! ### The nested chain of a chain of resources -/

theorem splitArrows_nodes (n : ℕ) (o : ChainOperand) (nodes : List ChainNode) :
    splitArrows n (o.nodes ++ nodes) =
      (o.nodes ++ (splitArrows n nodes).1, (splitArrows n nodes).2) := by
  cases o <;> cases n <;> rfl

theorem splitArrows_linkNodes {n : ℕ} {links : List (Arrow × ChainOperand)}
    (hlen : links.length ≤ n) :
    splitArrows n (linkNodes links) = ([], links.map fun l ↦ (l.1, l.2.nodes)) := by
  induction links generalizing n with
  | nil => cases n <;> rfl
  | cons l links ih =>
    obtain ⟨n, rfl⟩ : ∃ m, n = m + 1 := ⟨n - 1, by rw [List.length_cons] at hlen; omega⟩
    rw [linkNodes, splitArrows, splitArrows_nodes, ih (by simpa using hlen)]
    simp

theorem length_splitArrows_le (n : ℕ) (nodes : List ChainNode) :
    (splitArrows n nodes).2.length ≤ n := by
  induction nodes generalizing n with
  | nil => cases n <;> simp [splitArrows]
  | cons node nodes ih =>
    cases n with
    | zero => cases node <;> simpa [splitArrows] using ih 0
    | succ n =>
      cases node with
      | chainingArrow arrow => simpa [splitArrows] using ih n
      | _ => exact ih (n + 1)

/-- The nested chain of a tree and the links that follow it. -/
def linkOperands (tree : Stmt) : List (Arrow × ChainOperand) → Stmt
  | [] => tree
  | (arrow, o) :: links => linkOperands (linkStmts arrow tree o.stmt) links

theorem linkParts_map (chain : Option Stmt) (before : Stmt)
    (links : List (Arrow × ChainOperand)) (hne : chain = none → links ≠ []) :
    linkParts chain (some before) (links.map fun l ↦ (l.1, l.2.nodes)) =
      some (linkOperands (chain.getD before) links) := by
  induction links generalizing chain before with
  | nil =>
    cases chain with
    | none => exact absurd rfl (hne rfl)
    | some tree => rfl
  | cons l links ih =>
    simp only [List.map_cons, linkParts, linkPart, ChainOperand.convertPart_nodes]
    exact ih _ _ nofun

/-- With at most 16 arrows all operands are noted. -/
theorem ResourceChain.convertChain_nodes {c : ResourceChain} (hlen : c.links.length ≤ 16) :
    convertChain c.nodes = some (linkOperands c.first.stmt c.links) := by
  rw [convertChain, nodes, splitArrows_nodes, splitArrows_linkNodes hlen, List.append_nil]
  dsimp only
  rw [ChainOperand.convertPart_nodes]
  exact linkParts_map none _ _ fun _ ↦ List.cons_ne_nil _ _

end PuppetC
