import PuppetC.Parser.Access

/-!
# The conversion of binary expressions

How the parser reads the children of a binary node (`convert_binary` in `puppet_ts_parser.c`). The
operands, their accesses and the operator are one row of siblings, with parentheses, brackets and
comments among them, and a scan from left to right puts them together.

## Main definitions

* `BinaryChild`: the children of a binary node; a node that is neither a type nor an access is
  already converted.
* `BinaryTree`: what the scan builds, in which a right operand may be missing.
* `BinaryState`, `convertBinary`: the variables of the scan and `convert_binary`.
* `OperandSource`: an operand as it is written, with accesses, selectors and block comments, and
  its lowering.
* `OperandSource.LeftFits`, `OperandSource.RightFits`: the operands that are kept.

## Main results

* `getBinop_token`: no operator is replaced by another.
* `convertBinary_eq_iff`: when a binary node is converted to its operator applied to both operands.
-/

namespace PuppetC

/-! ### Operators -/

/-- The token of an operator. -/
def BinOp.token : BinOp → String
  | .add => "+"
  | .sub => "-"
  | .mul => "*"
  | .div => "/"
  | .mod => "%"
  | .eq => "=="
  | .ne => "!="
  | .lt => "<"
  | .le => "<="
  | .gt => ">"
  | .ge => ">="
  | .and => "and"
  | .or => "or"
  | .match => "=~"
  | .notMatch => "!~"
  | .in => "in"
  | .lshift => "<<"
  | .rshift => ">>"

/-- `get_binop`. -/
def getBinop (type : String) : BinOp :=
  if type = "+" then .add
  else if type = "-" then .sub
  else if type = "*" then .mul
  else if type = "/" then .div
  else if type = "%" then .mod
  else if type = "==" then .eq
  else if type = "!=" then .ne
  else if type = "<" then .lt
  else if type = "<=" then .le
  else if type = ">" then .gt
  else if type = ">=" then .ge
  else if type = "and" then .and
  else if type = "or" then .or
  else if type = "=~" then .match
  else if type = "!~" then .notMatch
  else if type = "in" then .in
  else if type = "<<" then .lshift
  else if type = ">>" then .rshift
  else .add

/-- No operator is replaced by another. -/
theorem getBinop_token (op : BinOp) : getBinop op.token = op := by
  cases op <;> decide

/-- `is_comparison_op`. -/
def BinOp.isComparison : BinOp → Bool
  | .eq | .ne | .lt | .le | .gt | .ge | .match | .notMatch => true
  | _ => false

/-- `is_logical_op`. -/
def BinOp.isLogical : BinOp → Bool
  | .and | .or => true
  | _ => false

/-! ### The scan -/

/-- A child of a binary node. -/
inductive BinaryChild where
  | comment
  | blockComment (text : String)
  | token (type : String)
  | type (name : String)
  | access (access : Access)
  | selector (cases : List (Expr × Expr)) (default : Option Expr)
  | operand (e : Expr)

/-- The tokens that are skipped. -/
def isPunctuation (type : String) : Bool :=
  ["(", ")", "\x7b", "\x7d", "[", "]", ",", ";", ":", "=>"].contains type

/-- What the scan builds: converted nodes put together. The right operand of a binary expression
may be taken away, and a selector has no control yet. -/
inductive BinaryTree where
  | leaf (e : Expr)
  | binop (op : BinOp) (left right : BinaryTree)
  | noRight (op : BinOp) (left : BinaryTree)
  | index (object : BinaryTree) (access : Access)
  | selector (cases : List (Expr × Expr)) (default : Option Expr)
  | empty

namespace BinaryTree

/-- The expression of a tree in which nothing is missing. -/
def toExpr? : BinaryTree → Option Expr
  | leaf e => some e
  | binop op left right =>
    match left.toExpr?, right.toExpr? with
    | some l, some r => some (.binop op l r)
    | _, _ => none
  | noRight _ _ => none
  | index object access => object.toExpr?.map fun e ↦ buildIndexExpr e access
  | selector _ _ => none
  | empty => none

/-- `build_index_expr` on a tree. -/
def indexed : BinaryTree → Access → BinaryTree
  | leaf e, a => leaf (buildIndexExpr e a)
  | t, a => index t a

theorem toExpr?_indexed (t : BinaryTree) (a : Access) :
    (t.indexed a).toExpr? = t.toExpr?.map fun e ↦ buildIndexExpr e a := by
  cases t <;> rfl

theorem toExpr?_foldl_indexed (t : BinaryTree) (as : List Access) :
    (as.foldl indexed t).toExpr? = t.toExpr?.map fun e ↦ PuppetC.indexed e as := by
  induction as generalizing t with
  | nil => exact Option.map_id'.symm
  | cons a as ih =>
    rw [List.foldl_cons, ih, toExpr?_indexed, Option.map_map]
    rfl

theorem exists_of_toExpr?_binop {op : BinOp} {l r : BinaryTree} {e : Expr}
    (h : (binop op l r).toExpr? = some e) :
    ∃ x y, l.toExpr? = some x ∧ r.toExpr? = some y ∧ e = .binop op x y := by
  rw [BinaryTree.toExpr?] at h
  split at h
  · rename_i x y hx hy
    exact ⟨x, y, hx, hy, (Option.some.inj h).symm⟩
  · cases h

/-- The parts of a logical expression that has a right operand. -/
def logical? : BinaryTree → Option (BinOp × BinaryTree × BinaryTree)
  | leaf (.binop op l r) => if op.isLogical then some (op, leaf l, leaf r) else none
  | binop op l r => if op.isLogical then some (op, l, r) else none
  | _ => none

end BinaryTree

/-- The variables of `convert_binary`. -/
structure BinaryState where
  result : Option BinaryTree
  pendingOperand : Option BinaryTree
  accessAccumulator : Option BinaryTree
  pendingTypeRef : Option String
  pendingOp : BinOp
  haveOp : Bool

namespace BinaryState

/-- The variables before the first child. -/
def start : BinaryState := ⟨none, none, none, none, .add, false⟩

/-- An `access` of a type: the reference becomes an operand, unless both operands are there. -/
def completeTypeRef (s : BinaryState) (type : String) (a : Access) : BinaryState :=
  let ref := BinaryTree.leaf (.resourceRef type (some a.element.firstChild))
  let s := { s with pendingTypeRef := none }
  match s.haveOp, s.pendingOperand, s.result with
  | true, none, _ => { s with pendingOperand := some ref }
  | _, _, none => { s with result := some ref }
  | _, _, _ => s

/-- An `access` node. -/
def readAccess (s : BinaryState) (a : Access) : BinaryState :=
  match s.pendingTypeRef, s.pendingOperand, s.accessAccumulator, s.result, s.haveOp with
  | some type, _, _, _, _ => s.completeTypeRef type a
  | none, some p, _, _, _ => { s with pendingOperand := some (p.indexed a) }
  | none, none, some x, _, _ => { s with accessAccumulator := some (x.indexed a) }
  | none, none, none, some r, false =>
    match r.logical? with
    | some (op, left, right) =>
      { s with accessAccumulator := some (right.indexed a), result := some (.noRight op left) }
    | none => { s with result := some (r.indexed a) }
  | none, none, none, _, _ => s

/-- Another named node: a new operand. -/
def readOperand (s : BinaryState) (t : BinaryTree) : BinaryState :=
  match s.result, s.haveOp, s.pendingOperand with
  | none, _, _ => { s with result := some t }
  | some _, true, none => { s with pendingOperand := some t }
  | some r, true, some p =>
    { s with result := some (.binop s.pendingOp r p), pendingOperand := some t, haveOp := false }
  | some _, false, _ => s

/-- An operator token. -/
def readOperator (s : BinaryState) (op : BinOp) : BinaryState :=
  if s.accessAccumulator.isSome ∧ op.isComparison then
    { s with pendingOperand := none, pendingOp := op, haveOp := true }
  else
    match s.result, s.pendingOperand with
    | some r, some p =>
      { s with result := some (.binop s.pendingOp r p), pendingOperand := none, pendingOp := op,
               haveOp := true }
    | _, _ => { s with pendingOp := op, haveOp := true }

/-- One child of a binary node. -/
def read (s : BinaryState) : BinaryChild → BinaryState
  | .comment => s
  | .blockComment text => s.readOperand (.leaf (.value (.string text)))
  | .token type => if isPunctuation type then s else s.readOperator (getBinop type)
  | .type name => { s with pendingTypeRef := some name }
  | .access a => s.readAccess a
  | .selector cases default => s.readOperand (.selector cases default)
  | .operand e => s.readOperand (.leaf e)

/-- A comparison with what accesses were gathered for. -/
def finishComparison (s : BinaryState) (comparison : BinaryTree) : BinaryTree :=
  match s.result with
  | some (.noRight op left) =>
    if op.isLogical then .binop op left comparison else .binop .and (.noRight op left) comparison
  | some r => .binop .and r comparison
  | none => comparison

/-- What is built after the last child. -/
def finish (s : BinaryState) : BinaryTree :=
  match s.accessAccumulator, s.haveOp, s.pendingOperand with
  | some x, true, some p => s.finishComparison (.binop s.pendingOp x p)
  | _, _, _ =>
    let pending := match s.pendingTypeRef, s.haveOp, s.pendingOperand with
      | some type, true, none => some (BinaryTree.leaf (.resourceRef type none))
      | _, _, pending => pending
    match s.result, pending, s.haveOp with
    | some r, some p, true => .binop s.pendingOp r p
    | some r, _, _ => r
    | none, _, _ => .empty

end BinaryState

/-- `convert_binary`. -/
def convertBinary (children : List BinaryChild) : Option Expr :=
  (children.foldl BinaryState.read .start).finish.toExpr?

/-! ### Operands as they are written -/

/-- The conversion of a node that is not a type: it is no reference without a title. -/
abbrev OperandExpr : Type := { e : Expr // ∀ type, e ≠ .resourceRef type none }

/-- What an operand starts with. -/
inductive OperandHead where
  | type (name : String)
  | node (e : OperandExpr)

/-- The child of a binary node that an operand starts with. -/
def OperandHead.child : OperandHead → BinaryChild
  | type name => .type name
  | node e => .operand e.1

/-- What follows the start of an operand. -/
inductive OperandSuffix where
  | access (a : Access)
  | selector (cases : List (Expr × Expr)) (default : Option Expr)
  | blockComment (text : String)

namespace OperandSuffix

/-- The child of a binary node. -/
def child : OperandSuffix → BinaryChild
  | access a => .access a
  | selector cases default => .selector cases default
  | blockComment text => .blockComment text

/-- An access. -/
def access? : OperandSuffix → Option Access
  | access a => some a
  | _ => none

/-- The full lowering of an expression and what follows it. -/
def apply (e : Expr) : OperandSuffix → Expr
  | access a => buildIndexExpr e a
  | selector cases default => .selector e cases default
  | blockComment _ => e

/-- Is this a comment? -/
def IsComment : OperandSuffix → Prop
  | blockComment _ => True
  | _ => False

/-- Is this a selector? -/
def IsSelector : OperandSuffix → Prop
  | selector _ _ => True
  | _ => False

end OperandSuffix

/-- The accesses in what follows an operand. -/
def accessesIn (after : List OperandSuffix) : List Access := after.filterMap OperandSuffix.access?

/-- The full lowering of a type and what follows it: with an access it is a reference. -/
def typeLowering (name : String) : List OperandSuffix → Expr
  | [] => .resourceRef name none
  | .blockComment _ :: rest => typeLowering name rest
  | .access a :: rest => rest.foldl OperandSuffix.apply (.resourceRef name (some a.element.expr))
  | .selector cases default :: rest =>
    rest.foldl OperandSuffix.apply (.selector (.resourceRef name none) cases default)

/-- An operand: the block comments before it, its start, and what follows. -/
structure OperandSource where
  before : List String
  head : OperandHead
  after : List OperandSuffix

namespace OperandSource

/-- The children of a binary node that make up an operand. -/
def children (o : OperandSource) : List BinaryChild :=
  o.before.map .blockComment ++ o.head.child :: o.after.map OperandSuffix.child

/-- The full lowering of an operand. -/
def lowering (o : OperandSource) : Expr :=
  match o.head with
  | .node e => o.after.foldl OperandSuffix.apply e.1
  | .type name => typeLowering name o.after

end OperandSource

/-- The text of a block comment as the parser converts it. -/
def commentExpr (text : String) : Expr := .value (.string text)

/-- There is no selector, and no access follows a block comment. -/
def KeptSuffixes : List OperandSuffix → Prop
  | [] => True
  | .access _ :: rest => KeptSuffixes rest
  | .blockComment _ :: rest => ∀ suffix ∈ rest, suffix.IsComment
  | .selector _ _ :: _ => False

namespace OperandSource

/-- A left operand that is kept: a node without selectors, with no block comment before it that
reads differently, which is not a logical expression with accesses; or a type with an access right
after it, whose first element is one node, and without selectors. -/
def LeftFits : OperandSource → Prop
  | ⟨before, .node e, after⟩ =>
    (∀ text, before.head? = some text → e.1 = commentExpr text) ∧
      (∀ suffix ∈ after, ¬suffix.IsSelector) ∧
      ((BinaryTree.leaf e.1).logical? = none ∨ accessesIn after = [])
  | ⟨[], .type _, .access a :: rest⟩ =>
    (∃ e, a.element = .plain e) ∧ ∀ suffix ∈ rest, ¬suffix.IsSelector
  | ⟨_, .type _, _⟩ => False

/-- A right operand that is kept: no selector follows, no access follows a block comment, and a
block comment before it reads as the operand does. -/
def RightFits : OperandSource → Prop
  | ⟨[], .node _, after⟩ => KeptSuffixes after
  | ⟨text :: _, .node e, after⟩ => e.1 = commentExpr text ∧ ∀ suffix ∈ after, suffix.IsComment
  | ⟨[], .type _, []⟩ => True
  | ⟨[], .type _, .access a :: rest⟩ => (∃ e, a.element = .plain e) ∧ KeptSuffixes rest
  | ⟨_, .type _, _⟩ => False

end OperandSource

/-! ### Lowerings -/

theorem le_indexDepth_foldl_apply (e : Expr) (after : List OperandSuffix) :
    e.indexDepth ≤ (after.foldl OperandSuffix.apply e).indexDepth := by
  induction after generalizing e with
  | nil => exact le_rfl
  | cons suffix rest ih =>
    refine le_trans ?_ (ih (suffix.apply e))
    cases suffix with
    | access a => exact (indexDepth_indexExpr e _).ge.trans' (Nat.le_succ _)
    | selector cases default => exact Nat.le_succ _
    | blockComment text => exact le_rfl

theorem indexRoot_foldl_apply {e : Expr} (h : ∀ name, e ≠ .variable name)
    (after : List OperandSuffix) :
    (after.foldl OperandSuffix.apply e).indexRoot = e.indexRoot := by
  induction after generalizing e with
  | nil => rfl
  | cons suffix rest ih =>
    cases suffix with
    | access a =>
      refine (ih (indexExpr_ne_variable e a.element.expr)).trans ?_
      rw [indexExpr_eq_index h, Expr.indexRoot]
    | selector cases default => exact ih fun _ h ↦ by cases h
    | blockComment text => exact ih h

theorem eq_foldl_apply_iff {e e' : Expr} (hdepth : e.indexDepth ≤ e'.indexDepth)
    (after : List OperandSuffix) :
    e = after.foldl OperandSuffix.apply e' ↔ e = e' ∧ ∀ suffix ∈ after, suffix.IsComment := by
  induction after with
  | nil => exact (and_iff_left (by nofun)).symm
  | cons suffix rest ih =>
    rw [List.forall_mem_cons]
    cases suffix with
    | blockComment text => exact ih.trans (and_congr_right' (and_iff_right trivial).symm)
    | access a =>
      refine iff_of_false (fun h ↦ ?_) fun h ↦ h.2.1
      have hle := le_indexDepth_foldl_apply (buildIndexExpr e' a) rest
      rw [show rest.foldl OperandSuffix.apply (buildIndexExpr e' a) = e from h.symm, buildIndexExpr,
        indexDepth_indexExpr] at hle
      omega
    | selector cases default =>
      refine iff_of_false (fun h ↦ ?_) fun h ↦ h.2.1
      have hle := le_indexDepth_foldl_apply (.selector e' cases default) rest
      rw [show rest.foldl OperandSuffix.apply (.selector e' cases default) = e from h.symm,
        Expr.indexDepth] at hle
      omega

/-- The accesses up to the first block comment or selector. -/
def leadingAccesses : List OperandSuffix → List Access
  | .access a :: rest => a :: leadingAccesses rest
  | _ => []

theorem indexed_leadingAccesses_iff {e e' : Expr} (hdepth : e.indexDepth ≤ e'.indexDepth)
    (after : List OperandSuffix) :
    indexed e (leadingAccesses after) = after.foldl OperandSuffix.apply e' ↔
      e = e' ∧ KeptSuffixes after := by
  induction after generalizing e e' with
  | nil => exact (and_iff_left trivial).symm
  | cons suffix rest ih =>
    cases suffix with
    | access a =>
      have hdepth' : (buildIndexExpr e a).indexDepth ≤ (buildIndexExpr e' a).indexDepth := by
        rw [buildIndexExpr, buildIndexExpr, indexDepth_indexExpr, indexDepth_indexExpr]
        exact Nat.succ_le_succ hdepth
      exact (ih hdepth').trans (and_congr_left' (indexExpr_injective a.element.expr).eq_iff)
    | blockComment text => exact eq_foldl_apply_iff hdepth rest
    | selector cases default =>
      refine iff_of_false (fun h ↦ ?_) fun h ↦ h.2
      have hle := le_indexDepth_foldl_apply (.selector e' cases default) rest
      rw [show rest.foldl OperandSuffix.apply (.selector e' cases default) = e from h.symm,
        Expr.indexDepth] at hle
      omega

theorem indexed_accessesIn_iff {e e' : Expr} (hdepth : e.indexDepth ≤ e'.indexDepth)
    (after : List OperandSuffix) :
    indexed e (accessesIn after) = after.foldl OperandSuffix.apply e' ↔
      e = e' ∧ ∀ suffix ∈ after, ¬suffix.IsSelector := by
  induction after generalizing e e' with
  | nil => exact (and_iff_left (by nofun)).symm
  | cons suffix rest ih =>
    rw [List.forall_mem_cons]
    cases suffix with
    | access a =>
      have hdepth' : (buildIndexExpr e a).indexDepth ≤ (buildIndexExpr e' a).indexDepth := by
        rw [buildIndexExpr, buildIndexExpr, indexDepth_indexExpr, indexDepth_indexExpr]
        exact Nat.succ_le_succ hdepth
      refine (ih hdepth').trans (and_congr (indexExpr_injective a.element.expr).eq_iff ?_)
      exact (and_iff_right id).symm
    | blockComment text => exact (ih hdepth).trans (and_congr_right' (and_iff_right id).symm)
    | selector cases default =>
      refine (ih (hdepth.trans (Nat.le_succ _))).trans (iff_of_false ?_ fun h ↦ h.2.1 trivial)
      rintro ⟨rfl, -⟩
      exact absurd hdepth (Nat.not_succ_le_self _)

theorem indexRoot_typeLowering (name : String) (after : List OperandSuffix) :
    ∃ title, (typeLowering name after).indexRoot = .resourceRef name title := by
  induction after with
  | nil => exact ⟨none, rfl⟩
  | cons suffix rest ih =>
    cases suffix with
    | access a => exact ⟨_, indexRoot_foldl_apply (by nofun) rest⟩
    | blockComment text => exact ih
    | selector cases default => exact ⟨none, indexRoot_foldl_apply (by nofun) rest⟩

theorem indexed_comment_ne_typeLowering (text : String) (as : List Access) (name : String)
    (after : List OperandSuffix) : indexed (commentExpr text) as ≠ typeLowering name after := by
  intro h
  obtain ⟨title, hroot⟩ := indexRoot_typeLowering name after
  rw [← h, indexRoot_indexed (by nofun)] at hroot
  cases hroot

/-! ### The scan of the right operand -/

namespace BinaryState

/-- Both operands are there, and nothing more is taken. -/
structure Closed (s : BinaryState) (tree : BinaryTree) : Prop where
  result : s.result = some tree
  pending : s.pendingOperand.isSome = true
  accumulator : s.accessAccumulator = none
  haveOp : s.haveOp = false

theorem Closed.step {s : BinaryState} {tree : BinaryTree} (h : s.Closed tree) {child : BinaryChild}
    (hchild : ∀ type, child ≠ .token type) : (s.read child).Closed tree := by
  obtain ⟨result, pending, acc, ref, op, haveOp⟩ := s
  obtain ⟨rfl, hpending, rfl, rfl⟩ := h
  obtain ⟨p, rfl⟩ := Option.isSome_iff_exists.1 hpending
  cases child with
  | comment => exact ⟨rfl, rfl, rfl, rfl⟩
  | blockComment text => exact ⟨rfl, rfl, rfl, rfl⟩
  | token type => exact absurd rfl (hchild type)
  | type name => exact ⟨rfl, rfl, rfl, rfl⟩
  | selector cases default => exact ⟨rfl, rfl, rfl, rfl⟩
  | operand e => exact ⟨rfl, rfl, rfl, rfl⟩
  | access a => cases ref <;> exact ⟨rfl, rfl, rfl, rfl⟩

theorem Closed.run {s : BinaryState} {tree : BinaryTree} (h : s.Closed tree)
    {children : List BinaryChild} (hchildren : ∀ child ∈ children, ∀ type, child ≠ .token type) :
    (children.foldl read s).Closed tree := by
  induction children generalizing s with
  | nil => exact h
  | cons child children ih =>
    rw [List.forall_mem_cons] at hchildren
    exact ih (h.step hchildren.1) hchildren.2

theorem Closed.finish {s : BinaryState} {tree : BinaryTree} (h : s.Closed tree) :
    s.finish = tree := by
  obtain ⟨result, pending, acc, ref, op, haveOp⟩ := s
  obtain ⟨rfl, hpending, rfl, rfl⟩ := h
  obtain ⟨p, rfl⟩ := Option.isSome_iff_exists.1 hpending
  cases ref <;> rfl

theorem ne_token_of_mem_suffixes (after : List OperandSuffix) :
    ∀ child ∈ after.map OperandSuffix.child, ∀ type, child ≠ .token type := by
  intro child hchild type
  obtain ⟨suffix, -, rfl⟩ := List.mem_map.1 hchild
  cases suffix <;> nofun

theorem ne_token_of_mem_comments {before : List String} :
    ∀ child ∈ before.map BinaryChild.blockComment, ∀ type, child ≠ .token type := by
  intro child hchild type
  obtain ⟨text, -, rfl⟩ := List.mem_map.1 hchild
  nofun

theorem ne_token_of_mem_operand {o : OperandSource} :
    ∀ child ∈ o.children, ∀ type, child ≠ .token type := by
  intro child hchild type
  rw [OperandSource.children, List.mem_append, List.mem_cons] at hchild
  rcases hchild with h | rfl | h
  · exact ne_token_of_mem_comments child h type
  · cases o.head <;> nofun
  · exact ne_token_of_mem_suffixes o.after child h type

/-- A left operand and an operator were read, and a part of the right operand, perhaps, with an
open type. -/
def withRight (tree : BinaryTree) (op : BinOp) (right : Option BinaryTree) (ref : Option String) :
    BinaryState :=
  ⟨some tree, right, none, ref, op, true⟩

variable (tree : BinaryTree) (op : BinOp)

theorem closed_readOperand (p t : BinaryTree) (ref : Option String) :
    ((withRight tree op (some p) ref).readOperand t).Closed (.binop op tree p) :=
  ⟨rfl, rfl, rfl, rfl⟩

/-- Accesses are added to the right operand up to the first block comment or selector. -/
theorem finish_suffixes (p : BinaryTree) (after : List OperandSuffix) :
    ((after.map OperandSuffix.child).foldl read (withRight tree op (some p) none)).finish =
      .binop op tree ((leadingAccesses after).foldl BinaryTree.indexed p) := by
  induction after generalizing p with
  | nil => rfl
  | cons suffix rest ih =>
    have hclosed := fun t ↦ (closed_readOperand tree op p t none).run
      (ne_token_of_mem_suffixes rest)
    cases suffix with
    | access a => exact ih (p.indexed a)
    | selector cases default => exact (hclosed (.selector cases default)).finish
    | blockComment text => exact (hclosed (.leaf (commentExpr text))).finish

/-- A type after a right operand takes one access away. -/
theorem finish_suffixes_of_type (p : BinaryTree) (name : String) (after : List OperandSuffix) :
    ∃ as : List Access, ((after.map OperandSuffix.child).foldl read
      (withRight tree op (some p) (some name))).finish =
        .binop op tree (as.foldl BinaryTree.indexed p) := by
  cases after with
  | nil => exact ⟨[], rfl⟩
  | cons suffix rest =>
    have hclosed := fun t ↦ (closed_readOperand tree op p t (some name)).run
      (ne_token_of_mem_suffixes rest)
    cases suffix with
    | access a => exact ⟨_, finish_suffixes tree op p rest⟩
    | selector cases default => exact ⟨[], (hclosed (.selector cases default)).finish⟩
    | blockComment text => exact ⟨[], (hclosed (.leaf (commentExpr text))).finish⟩

/-- What is made of a block comment or a selector is no type. -/
theorem toExpr?_foldl_indexed_ne {t : BinaryTree}
    (h : t.toExpr? = none ∨ ∃ text, t = .leaf (commentExpr text)) (as : List Access) (name : String)
    (after : List OperandSuffix) :
    (as.foldl BinaryTree.indexed t).toExpr? ≠ some (typeLowering name after) := by
  rw [BinaryTree.toExpr?_foldl_indexed]
  rcases h with h | ⟨text, rfl⟩
  · rw [h]
    nofun
  · exact fun h ↦ indexed_comment_ne_typeLowering text as name after (Option.some.inj h)

/-- A right operand that a block comment was taken for. -/
theorem finish_commented (text : String) (e : BinaryTree) {children : List BinaryChild}
    (hchildren : ∀ child ∈ children, ∀ type, child ≠ .token type) :
    (children.foldl read ((withRight tree op (some (.leaf (commentExpr text))) none).readOperand e)
      ).finish = .binop op tree (.leaf (commentExpr text)) :=
  ((closed_readOperand tree op (.leaf (commentExpr text)) e none).run hchildren).finish

/-- The right operand: what the scan makes of it, and when this is its lowering. -/
theorem finish_right (o : OperandSource) :
    ∃ right : BinaryTree, (o.children.foldl read (withRight tree op none none)).finish =
      .binop op tree right ∧ (right.toExpr? = some o.lowering ↔ o.RightFits) := by
  obtain ⟨before, head, after⟩ := o
  cases before with
  | nil =>
    cases head with
    | node e =>
      refine ⟨_, finish_suffixes tree op (.leaf e.1) after, ?_⟩
      rw [BinaryTree.toExpr?_foldl_indexed]
      refine Option.some_inj.trans ((indexed_leadingAccesses_iff le_rfl after).trans ?_)
      exact and_iff_right rfl
    | type name =>
      cases after with
      | nil => exact ⟨_, rfl, iff_of_true rfl trivial⟩
      | cons suffix rest =>
        cases suffix with
        | access a =>
          let ref := BinaryTree.leaf (.resourceRef name (some a.element.firstChild))
          refine ⟨_, finish_suffixes tree op ref rest, ?_⟩
          have hdepth : (Expr.resourceRef name (some a.element.firstChild)).indexDepth ≤
              (Expr.resourceRef name (some a.element.expr)).indexDepth := le_rfl
          rw [BinaryTree.toExpr?_foldl_indexed]
          refine Option.some_inj.trans ((indexed_leadingAccesses_iff hdepth rest).trans ?_)
          rw [Expr.resourceRef.injEq, Option.some_inj, and_iff_right rfl]
          exact and_congr_left' (AccessElement.firstChild_eq_expr_iff a.element)
        | selector cases default =>
          obtain ⟨as, has⟩ := finish_suffixes_of_type tree op (.selector cases default) name rest
          exact ⟨_, has, iff_of_false (toExpr?_foldl_indexed_ne (.inl rfl) as name _) nofun⟩
        | blockComment text =>
          obtain ⟨as, has⟩ := finish_suffixes_of_type tree op (.leaf (commentExpr text)) name rest
          exact ⟨_, has, iff_of_false (toExpr?_foldl_indexed_ne (.inr ⟨text, rfl⟩) as name _) nofun⟩
  | cons text texts =>
    cases head with
    | node e =>
      refine ⟨.leaf (commentExpr text), ?_, ?_⟩
      · cases texts with
        | nil =>
          exact finish_commented tree op text (.leaf e.1) (ne_token_of_mem_suffixes after)
        | cons text' texts =>
          exact finish_commented tree op text (.leaf (commentExpr text'))
            (ne_token_of_mem_operand (o := ⟨texts, .node e, after⟩))
      · refine Option.some_inj.trans ((eq_foldl_apply_iff (Nat.zero_le _) after).trans ?_)
        exact and_congr_left' eq_comm
    | type name =>
      have hne := toExpr?_foldl_indexed_ne (.inr ⟨text, rfl⟩)
      cases texts with
      | nil =>
        obtain ⟨as, has⟩ := finish_suffixes_of_type tree op (.leaf (commentExpr text)) name after
        exact ⟨_, has, iff_of_false (hne as name after) nofun⟩
      | cons text' texts =>
        refine ⟨.leaf (commentExpr text), ?_, iff_of_false (hne [] name after) nofun⟩
        exact finish_commented tree op text (.leaf (commentExpr text'))
          (ne_token_of_mem_operand (o := ⟨texts, .type name, after⟩))

end BinaryState

/-! ### The scan of the left operand -/

theorem logical_indexExpr (object key : Expr) :
    (BinaryTree.leaf (indexExpr object key)).logical? = none := by
  unfold indexExpr
  split
  · split_ifs <;> rfl
  · rfl

theorem exists_of_logical {e : Expr} {parts : BinOp × BinaryTree × BinaryTree}
    (h : (BinaryTree.leaf e).logical? = some parts) :
    ∃ op l r, e = .binop op l r ∧ op.isLogical = true ∧ parts = (op, .leaf l, .leaf r) := by
  unfold BinaryTree.logical? at h
  split at h
  · split_ifs at h with hop
    obtain rfl := Option.some.inj h
    rename_i op l r heq
    exact ⟨op, l, r, BinaryTree.leaf.inj heq, hop, rfl⟩
  · rename_i heq
    cases heq
  · cases h

theorem logical_indexed (t : BinaryTree) (a : Access) : (t.indexed a).logical? = none := by
  cases t with
  | leaf e => exact logical_indexExpr e a.element.expr
  | _ => rfl

namespace BinaryState

/-- A left operand was read. -/
def settled (t : BinaryTree) : BinaryState := ⟨some t, none, none, none, .add, false⟩

/-- A logical expression was read, with accesses that were taken for those of its right operand. -/
def gathering (op : BinOp) (left access : Expr) : BinaryState :=
  ⟨some (.noRight op (.leaf left)), none, some (.leaf access), none, .add, false⟩

/-- A type was read, after or before something else, perhaps. -/
def openType (t : Option BinaryTree) (name : String) : BinaryState :=
  ⟨t, none, none, some name, .add, false⟩

theorem foldl_comments_settled (t : BinaryTree) (before : List String) :
    (before.map BinaryChild.blockComment).foldl read (settled t) = settled t := by
  induction before with
  | nil => rfl
  | cons text before ih => exact ih

theorem foldl_suffixes_settled {t : BinaryTree} {after : List OperandSuffix}
    (h : t.logical? = none ∨ accessesIn after = []) :
    (after.map OperandSuffix.child).foldl read (settled t) =
      settled ((accessesIn after).foldl BinaryTree.indexed t) := by
  induction after generalizing t with
  | nil => rfl
  | cons suffix rest ih =>
    cases suffix with
    | blockComment text => exact ih h
    | selector cases default => exact ih h
    | access a =>
      have hlogical := h.resolve_right (by simp [accessesIn, OperandSuffix.access?])
      have hread : (settled t).read (.access a) = settled (t.indexed a) := by
        simp only [read, readAccess, settled, hlogical]
      rw [List.map_cons, List.foldl_cons, OperandSuffix.child, hread]
      exact ih (.inl (logical_indexed t a))

theorem foldl_suffixes_gathering (op : BinOp) (left access : Expr) (after : List OperandSuffix) :
    ∃ access', (after.map OperandSuffix.child).foldl read (gathering op left access) =
      gathering op left access' := by
  induction after generalizing access with
  | nil => exact ⟨access, rfl⟩
  | cons suffix rest ih =>
    cases suffix with
    | blockComment text => exact ih access
    | selector cases default => exact ih access
    | access a => exact ih (buildIndexExpr access a)

theorem foldl_suffixes_logical {op : BinOp} (left right : Expr) (hop : op.isLogical = true)
    {after : List OperandSuffix} (h : accessesIn after ≠ []) :
    ∃ access, (after.map OperandSuffix.child).foldl read (settled (.leaf (.binop op left right))) =
      gathering op left access := by
  induction after with
  | nil => exact absurd rfl h
  | cons suffix rest ih =>
    cases suffix with
    | blockComment text => exact ih h
    | selector cases default => exact ih h
    | access a =>
      have hread : (settled (.leaf (.binop op left right))).read (.access a) =
          gathering op left (buildIndexExpr right a) := by
        simp only [read, readAccess, settled, BinaryTree.logical?, hop, if_true]
        rfl
      rw [List.map_cons, List.foldl_cons, OperandSuffix.child, hread]
      exact foldl_suffixes_gathering op left _ rest

/-- The first access closes a type. -/
theorem foldl_suffixes_openType (t : BinaryTree) (name : String) (h : t.logical? = none)
    (after : List OperandSuffix) :
    (after.map OperandSuffix.child).foldl read (openType (some t) name) =
        openType (some t) name ∨
      ∃ as : List Access, (after.map OperandSuffix.child).foldl read (openType (some t) name) =
        settled (as.foldl BinaryTree.indexed t) := by
  induction after with
  | nil => exact .inl rfl
  | cons suffix rest ih =>
    cases suffix with
    | blockComment text => exact ih
    | selector cases default => exact ih
    | access a => exact .inr ⟨_, foldl_suffixes_settled (.inl h)⟩

/-- What the scan makes of the left operand. -/
inductive LeftOutcome (o : OperandSource) : BinaryState → Prop where
  | settled (t : BinaryTree) (h : t.toExpr? = some o.lowering ↔ o.LeftFits) :
    LeftOutcome o (settled t)
  | gathering (op : BinOp) (left right access : Expr) (hop : op.isLogical = true)
      (hroot : o.lowering.indexRoot = .binop op left right) (h : ¬o.LeftFits) :
      LeftOutcome o (gathering op left access)
  | openType (t : Option BinaryTree) (name : String)
      (ht : ∀ x, t = some x → x.toExpr? ≠ some o.lowering)
      (hlowering : t = none → o.lowering = .resourceRef name none) (h : ¬o.LeftFits) :
      LeftOutcome o (openType t name)

/-- A left operand for which a block comment or a selector is taken. -/
theorem leftOutcome_openType {o : OperandSource} {name : String} (hhead : o.head = .type name)
    (hfits : ¬o.LeftFits) {t : BinaryTree}
    (ht : t.toExpr? = none ∨ ∃ text, t = .leaf (commentExpr text)) (hlogical : t.logical? = none)
    (after : List OperandSuffix) :
    LeftOutcome o ((after.map OperandSuffix.child).foldl read (openType (some t) name)) := by
  have hne : ∀ as : List Access, (as.foldl BinaryTree.indexed t).toExpr? ≠ some o.lowering := by
    intro as
    rw [OperandSource.lowering, hhead]
    exact toExpr?_foldl_indexed_ne ht as name o.after
  rcases foldl_suffixes_openType t name hlogical after with hrun | ⟨as, hrun⟩
  · rw [hrun]
    refine .openType (some t) name ?_ nofun hfits
    rintro x ⟨⟩
    exact hne []
  · rw [hrun]
    exact .settled _ (iff_of_false (hne as) hfits)

/-- The left operand: what the scan makes of it, and when this is its lowering. -/
theorem leftOutcome (o : OperandSource) : LeftOutcome o (o.children.foldl read start) := by
  obtain ⟨before, head, after⟩ := o
  cases before with
  | nil =>
    cases head with
    | node e =>
      change LeftOutcome _ ((after.map OperandSuffix.child).foldl read (settled (.leaf e.1)))
      by_cases h : (BinaryTree.leaf e.1).logical? = none ∨ accessesIn after = []
      · rw [foldl_suffixes_settled h]
        refine .settled _ ?_
        rw [BinaryTree.toExpr?_foldl_indexed]
        refine Option.some_inj.trans ((indexed_accessesIn_iff le_rfl after).trans ?_)
        constructor
        · exact fun hfits ↦ ⟨fun text htext ↦ (by cases htext), hfits.2, h⟩
        · exact fun hfits ↦ ⟨rfl, hfits.2.1⟩
      · obtain ⟨hlogical, hafter⟩ := not_or.1 h
        obtain ⟨parts, hparts⟩ := Option.ne_none_iff_exists'.1 hlogical
        obtain ⟨op, left, right, he, hop, -⟩ := exists_of_logical hparts
        rw [he]
        obtain ⟨access, hrun⟩ := foldl_suffixes_logical left right hop hafter
        rw [hrun]
        refine .gathering op left right access hop ?_ fun hfits ↦ h hfits.2.2
        change (after.foldl OperandSuffix.apply e.1).indexRoot = _
        rw [he, indexRoot_foldl_apply (by nofun)]
        rfl
    | type name =>
      cases after with
      | nil => exact .openType none name nofun (fun _ ↦ rfl) id
      | cons suffix rest =>
        cases suffix with
        | access a =>
          have hrun : ((OperandSuffix.access a :: rest).map OperandSuffix.child).foldl read
              (openType none name) =
                settled ((accessesIn rest).foldl BinaryTree.indexed
                  (.leaf (.resourceRef name (some a.element.firstChild)))) :=
            foldl_suffixes_settled (.inl rfl)
          change LeftOutcome _ (((OperandSuffix.access a :: rest).map _).foldl read
            (openType none name))
          rw [hrun]
          refine .settled _ ?_
          have hdepth : (Expr.resourceRef name (some a.element.firstChild)).indexDepth ≤
              (Expr.resourceRef name (some a.element.expr)).indexDepth := le_rfl
          rw [BinaryTree.toExpr?_foldl_indexed]
          refine Option.some_inj.trans ((indexed_accessesIn_iff hdepth rest).trans ?_)
          rw [Expr.resourceRef.injEq, Option.some_inj, and_iff_right rfl]
          exact and_congr_left' (AccessElement.firstChild_eq_expr_iff a.element)
        | selector cases default =>
          exact leftOutcome_openType (t := .selector cases default) rfl id (.inl rfl) rfl rest
        | blockComment text =>
          exact leftOutcome_openType (t := .leaf (commentExpr text)) rfl id (.inr ⟨text, rfl⟩) rfl
            rest
  | cons text texts =>
    have hbefore := foldl_comments_settled (.leaf (commentExpr text)) texts
    have hchildren : (OperandSource.mk (text :: texts) head after).children.foldl read start =
        (after.map OperandSuffix.child).foldl read
          ((settled (.leaf (commentExpr text))).read head.child) := by
      rw [OperandSource.children, List.foldl_append, List.foldl_cons]
      exact congrArg (fun s ↦ (after.map OperandSuffix.child).foldl read (read s head.child))
        hbefore
    rw [hchildren]
    cases head with
    | node e =>
      change LeftOutcome _ ((after.map OperandSuffix.child).foldl read
        (settled (.leaf (commentExpr text))))
      rw [foldl_suffixes_settled (.inl rfl)]
      refine .settled _ ?_
      rw [BinaryTree.toExpr?_foldl_indexed]
      refine Option.some_inj.trans ((indexed_accessesIn_iff (Nat.zero_le _) after).trans ?_)
      constructor
      · rintro ⟨he, hafter⟩
        exact ⟨fun text' htext ↦ Option.some.inj htext ▸ he.symm, hafter, .inl (he ▸ rfl)⟩
      · exact fun hfits ↦ ⟨(hfits.1 text rfl).symm, hfits.2.1⟩
    | type name =>
      exact leftOutcome_openType (t := .leaf (commentExpr text)) rfl id (.inr ⟨text, rfl⟩) rfl after

/-! ### Left operands that are lost -/

/-- Accesses were gathered for the right operand of a logical expression, which is not there. -/
structure Gathered (s : BinaryState) (op : BinOp) (left : Expr) : Prop where
  accumulator : s.accessAccumulator.isSome = true
  result : ∃ t, s.result = some t ∧
    (t = .noRight op (.leaf left) ∨ t.toExpr? = none ∧ ∀ op' l, t ≠ .noRight op' l)

theorem Gathered.step {s : BinaryState} {op : BinOp} {left : Expr} (h : s.Gathered op left)
    (child : BinaryChild) : (s.read child).Gathered op left := by
  obtain ⟨result, pending, acc, ref, op', haveOp⟩ := s
  obtain ⟨hacc, t, rfl, ht⟩ := h
  obtain ⟨x, rfl⟩ := Option.isSome_iff_exists.1 hacc
  have hsame : ∀ pending x ref op' haveOp,
      (BinaryState.mk (some t) pending (some x) ref op' haveOp).Gathered op left :=
    fun _ _ _ _ _ ↦ ⟨rfl, t, rfl, ht⟩
  have hbinop : ∀ p pending ref op' op'' haveOp,
      (BinaryState.mk (some (.binop op' t p)) pending (some x) ref op'' haveOp).Gathered op
        left := by
    refine fun p _ _ op' _ _ ↦ ⟨rfl, .binop op' t p, rfl, .inr ⟨?_, nofun⟩⟩
    have hmissing : t.toExpr? = none := by
      rcases ht with rfl | ht
      · rfl
      · exact ht.1
    rw [BinaryTree.toExpr?, hmissing]
  have hoperand : ∀ e,
      (readOperand ⟨some t, pending, some x, ref, op', haveOp⟩ e).Gathered op left := by
    intro e
    cases haveOp <;> cases pending <;> first | exact hsame _ _ _ _ _ | exact hbinop _ _ _ _ _ _
  cases child with
  | comment => exact hsame _ _ _ _ _
  | blockComment text => exact hoperand _
  | selector cases default => exact hoperand _
  | operand e => exact hoperand _
  | type name => exact hsame _ _ _ _ _
  | access a =>
    cases ref with
    | some type => cases haveOp <;> cases pending <;> exact hsame _ _ _ _ _
    | none => cases pending <;> exact hsame _ _ _ _ _
  | token type =>
    dsimp only [read, readOperator]
    split_ifs
    · exact hsame _ _ _ _ _
    · exact hsame _ _ _ _ _
    · cases pending with
      | none => exact hsame _ _ _ _ _
      | some p => exact hbinop _ _ _ _ _ _

/-- A left operand for which accesses were gathered loses its right side. -/
theorem Gathered.finish {s : BinaryState} {op : BinOp} {left : Expr} (h : s.Gathered op left)
    (hop : op.isLogical = true) {e : Expr} (he : s.finish.toExpr? = some e) :
    ∃ right, e = .binop op left right := by
  obtain ⟨result, pending, acc, ref, op', haveOp⟩ := s
  obtain ⟨hacc, t, rfl, ht⟩ := h
  obtain ⟨x, rfl⟩ := Option.isSome_iff_exists.1 hacc
  have hmissing : t.toExpr? = none := by
    rcases ht with rfl | ht
    · rfl
    · exact ht.1
  have hresult : t.toExpr? ≠ some e := by
    rw [hmissing]
    nofun
  have hbinop : ∀ op' p, (BinaryTree.binop op' t p).toExpr? ≠ some e := by
    intro op' p hp
    obtain ⟨l, r, hl, -, -⟩ := BinaryTree.exists_of_toExpr?_binop hp
    rw [hmissing] at hl
    cases hl
  cases haveOp with
  | false => cases ref <;> cases pending <;> exact absurd he hresult
  | true =>
    cases pending with
    | none =>
      cases ref with
      | none => exact absurd he hresult
      | some type => exact absurd he (hbinop _ _)
    | some p =>
      rcases ht with rfl | ⟨-, hne⟩
      · have hfinish : (BinaryState.mk (some (.noRight op (.leaf left))) (some p) (some x) ref op'
            true).finish = .binop op (.leaf left) (.binop op' x p) := if_pos hop
        rw [hfinish] at he
        obtain ⟨l, r, hl, -, rfl⟩ := BinaryTree.exists_of_toExpr?_binop he
        exact ⟨r, congrArg (Expr.binop op · r) (Option.some.inj hl).symm⟩
      · have hfinish : (BinaryState.mk (some t) (some p) (some x) ref op' true).finish =
            .binop .and t (.binop op' x p) := by
          cases t with
          | noRight op'' l => exact absurd rfl (hne op'' l)
          | _ => rfl
        rw [hfinish] at he
        exact absurd he (hbinop _ _)

/-- What does not read as this left operand. -/
abbrev OtherTree (left : Expr) : Type := { t : BinaryTree // t.toExpr? ≠ some left }

/-- This is a type without a title. -/
def IsBareType (e : Expr) : Prop := ∃ type, e = .resourceRef type none

/-- An operator was read after a type. If nothing else was read before it, the right operand is
taken for the left one. -/
inductive OpenRight (left : Expr) : BinaryState → Prop where
  | type (t : Option (OtherTree left)) (h : t = none → IsBareType left) (name : String)
      (op : BinOp) :
    OpenRight left ⟨t.map (·.1), none, none, some name, op, true⟩
  | pending (t : Option (OtherTree left)) (h : t = none → IsBareType left) (p : BinaryTree)
      (ref : Option String) (op : BinOp) :
    OpenRight left ⟨t.map (·.1), some p, none, ref, op, true⟩
  | closed (op' : BinOp) (t : OtherTree left) (p p' : BinaryTree) (ref : Option String)
      (op : BinOp) :
    OpenRight left ⟨some (.binop op' t.1 p), some p', none, ref, op, false⟩

/-- A child of an operand. -/
def IsOfOperand : BinaryChild → Prop
  | .token _ => False
  | .operand e => ¬IsBareType e
  | _ => True

theorem isOfOperand_of_mem {o : OperandSource} : ∀ child ∈ o.children, IsOfOperand child := by
  intro child hchild
  rw [OperandSource.children, List.mem_append, List.mem_cons] at hchild
  rcases hchild with h | rfl | h
  · obtain ⟨text, -, rfl⟩ := List.mem_map.1 h
    trivial
  · cases o.head with
    | type name => trivial
    | node e => exact not_exists.2 e.2
  · obtain ⟨suffix, -, rfl⟩ := List.mem_map.1 h
    cases suffix <;> trivial

variable {left : Expr}

theorem toExpr?_leaf_ne {e : Expr} (he : ¬IsBareType e) (hleft : IsBareType left) :
    (BinaryTree.leaf e).toExpr? ≠ some left := by
  intro h
  exact he (Option.some.inj h ▸ hleft)

theorem OpenRight.readOperand {s : BinaryState} (h : s.OpenRight left) {x : BinaryTree}
    (hx : IsBareType left → x.toExpr? ≠ some left) : (s.readOperand x).OpenRight left := by
  cases h with
  | type t h name op =>
    cases t with
    | none => exact .type (some ⟨x, hx (h rfl)⟩) nofun name op
    | some t => exact .pending (some t) nofun x (some name) op
  | pending t h p ref op =>
    cases t with
    | none => exact .pending (some ⟨x, hx (h rfl)⟩) nofun p ref op
    | some t => exact .closed op t p x ref op
  | closed op' t p p' ref op => exact .closed op' t p p' ref op

theorem OpenRight.readAccess {s : BinaryState} (h : s.OpenRight left) (a : Access) :
    (s.readAccess a).OpenRight left := by
  cases h with
  | type t h name op => exact .pending t h _ none op
  | pending t h p ref op =>
    cases ref with
    | none => exact .pending t h (p.indexed a) none op
    | some type =>
      cases t with
      | none =>
        have htitle : ¬IsBareType (.resourceRef type (some a.element.firstChild)) := by
          rintro ⟨type, ⟨⟩⟩
        exact .pending (some ⟨_, toExpr?_leaf_ne htitle (h rfl)⟩) nofun p none op
      | some t => exact .pending (some t) nofun p none op
  | closed op' t p p' ref op =>
    cases ref with
    | none => exact .closed op' t p (p'.indexed a) none op
    | some type => exact .closed op' t p p' none op

theorem OpenRight.step {s : BinaryState} (h : s.OpenRight left) {child : BinaryChild}
    (hchild : IsOfOperand child) : (s.read child).OpenRight left := by
  cases child with
  | comment => exact h
  | blockComment text =>
    have hcomment : ¬IsBareType (commentExpr text) := by
      rintro ⟨type, ⟨⟩⟩
    exact h.readOperand (toExpr?_leaf_ne hcomment)
  | selector cases default => exact h.readOperand fun _ ↦ nofun
  | operand e => exact h.readOperand (toExpr?_leaf_ne hchild)
  | token type => exact hchild.elim
  | access a => exact h.readAccess a
  | type name =>
    cases h with
    | type t h name' op => exact .type t h name op
    | pending t h p ref op => exact .pending t h p (some name) op
    | closed op' t p p' ref op => exact .closed op' t p p' (some name) op

/-- The left side of what is built after a type and an operator is not the left operand. -/
theorem OpenRight.finish {s : BinaryState} (h : s.OpenRight left) (op : BinOp) (right : Expr) :
    s.finish.toExpr? ≠ some (.binop op left right) := by
  have hbinop : ∀ (op' : BinOp) (t : OtherTree left) (p : BinaryTree),
      (BinaryTree.binop op' t.1 p).toExpr? ≠ some (.binop op left right) := by
    intro op' t p hp
    obtain ⟨l, r, hl, -, hbinop⟩ := BinaryTree.exists_of_toExpr?_binop hp
    obtain ⟨-, rfl, -⟩ := Expr.binop.inj hbinop
    exact t.2 hl
  cases h with
  | type t h name op' =>
    cases t with
    | none => nofun
    | some t => exact hbinop op' t _
  | pending t h p ref op' =>
    cases t with
    | none => cases ref <;> nofun
    | some t => cases ref <;> exact hbinop op' t p
  | closed op' t p p' ref op'' => cases ref <;> exact hbinop op' t p

end BinaryState

/-! ### The conversion -/

theorem isPunctuation_token (op : BinOp) : isPunctuation op.token = false := by
  cases op <;> decide

/-- Comments and punctuation are skipped. -/
def BinaryChild.isSignificant : BinaryChild → Bool
  | .comment => false
  | .token name => !isPunctuation name
  | .blockComment _ | .type _ | .access _ | .selector _ _ | .operand _ => true

theorem foldl_read_filter (children : List BinaryChild) (s : BinaryState) :
    (children.filter BinaryChild.isSignificant).foldl BinaryState.read s =
      children.foldl BinaryState.read s := by
  induction children generalizing s with
  | nil => rfl
  | cons child children ih =>
    cases h : child.isSignificant with
    | true =>
      rw [List.filter_cons_of_pos h]
      exact ih (s.read child)
    | false =>
      rw [List.filter_cons_of_neg (ne_true_of_eq_false h), ih, List.foldl_cons]
      congr 1
      cases child with
      | comment => rfl
      | token type =>
        rw [BinaryChild.isSignificant, Bool.not_eq_false'] at h
        exact (if_pos h).symm
      | _ => cases h

/-- A binary node is converted to its operator applied to the full lowering of both operands just
when both operands fit. -/
theorem convertBinary_eq_iff (children : List BinaryChild) (left right : OperandSource) (op : BinOp)
    (hchildren : children.filter BinaryChild.isSignificant =
      left.children ++ .token op.token :: right.children) :
    convertBinary children = some (.binop op left.lowering right.lowering) ↔
      left.LeftFits ∧ right.RightFits := by
  rw [convertBinary, ← foldl_read_filter, hchildren, List.foldl_append, List.foldl_cons]
  have hoperator : ∀ s : BinaryState, s.read (.token op.token) = s.readOperator op := by
    intro s
    rw [BinaryState.read, isPunctuation_token, getBinop_token]
    rfl
  rw [hoperator]
  generalize hs : left.children.foldl BinaryState.read .start = s
  have houtcome := BinaryState.leftOutcome left
  rw [hs] at houtcome
  cases houtcome with
  | settled t ht =>
    obtain ⟨r, hfinish, hr⟩ := BinaryState.finish_right t op right
    change (right.children.foldl BinaryState.read (BinaryState.withRight t op none none)
      ).finish.toExpr? = _ ↔ _
    rw [hfinish, ← ht, ← hr]
    constructor
    · intro h
      obtain ⟨x, y, hx, hy, hbinop⟩ := BinaryTree.exists_of_toExpr?_binop h
      obtain ⟨-, rfl, rfl⟩ := Expr.binop.inj hbinop
      exact ⟨hx, hy⟩
    · rintro ⟨hx, hy⟩
      rw [BinaryTree.toExpr?, hx, hy]
  | gathering op' l r access hop hroot hfits =>
    refine iff_of_false (fun h ↦ ?_) fun h ↦ hfits h.1
    have hstart : (BinaryState.gathering op' l access).Gathered op' l :=
      ⟨rfl, _, rfl, .inl rfl⟩
    have hrun := List.foldlRecOn (motive := fun s ↦ s.Gathered op' l) right.children
      BinaryState.read (hoperator _ ▸ hstart.step (.token op.token))
        fun s hs child _ ↦ hs.step child
    obtain ⟨right', he⟩ := hrun.finish hop h
    obtain ⟨-, rfl, -⟩ := Expr.binop.inj he
    have hsize := left.lowering.sizeOf_indexRoot_le
    rw [hroot, Expr.binop.sizeOf_spec] at hsize
    omega
  | openType t name ht hlowering hfits =>
    refine iff_of_false ?_ fun h ↦ hfits h.1
    have hstart : ((BinaryState.openType t name).readOperator op).OpenRight left.lowering := by
      cases t with
      | none => exact .type none (fun _ ↦ ⟨name, hlowering rfl⟩) name op
      | some t => exact .type (some ⟨t, ht t rfl⟩) nofun name op
    have hrun := List.foldlRecOn (motive := fun s ↦ s.OpenRight left.lowering) right.children
      BinaryState.read hstart
        fun s hs child hchild ↦ hs.step (BinaryState.isOfOperand_of_mem child hchild)
    exact hrun.finish op right.lowering

theorem convertBinary_eq_iff_sum :
    [BinaryChild.operand (.variable "a"), .comment, .token "+", .token "(", .type "File",
        .access ⟨.plain (.variable "b"), []⟩, .token ")"].filter BinaryChild.isSignificant =
      (OperandSource.mk [] (.node ⟨.variable "a", nofun⟩) []).children ++
        .token BinOp.add.token :: (OperandSource.mk [] (.type "File")
          [.access ⟨.plain (.variable "b"), []⟩]).children ∧
    (convertBinary [.operand (.variable "a"), .comment, .token "+", .token "(", .type "File",
        .access ⟨.plain (.variable "b"), []⟩, .token ")"] =
      some (.binop .add (OperandSource.mk [] (.node ⟨.variable "a", nofun⟩) []).lowering
        (OperandSource.mk [] (.type "File") [.access ⟨.plain (.variable "b"), []⟩]).lowering) ↔
      (OperandSource.mk [] (.node ⟨.variable "a", nofun⟩) []).LeftFits ∧
        (OperandSource.mk [] (.type "File") [.access ⟨.plain (.variable "b"), []⟩]).RightFits) :=
  ⟨rfl, convertBinary_eq_iff _ _ _ _ rfl⟩

/-- The operands of `Integer == $x` change sides. -/
theorem convertBinary_bareType :
    [BinaryChild.type "Integer", .token "==", .operand (.variable "x")].filter
        BinaryChild.isSignificant =
      (OperandSource.mk [] (.type "Integer") []).children ++
        .token BinOp.eq.token :: (OperandSource.mk [] (.node ⟨.variable "x", nofun⟩) []).children ∧
    convertBinary [.type "Integer", .token "==", .operand (.variable "x")] =
      some (.binop .eq (.variable "x") (.resourceRef "Integer" none)) ∧
    convertBinary [.type "Integer", .token "==", .operand (.variable "x")] ≠
      some (.binop .eq (OperandSource.mk [] (.type "Integer") []).lowering
        (OperandSource.mk [] (.node ⟨.variable "x", nofun⟩) []).lowering) := by
  refine ⟨rfl, rfl, ?_⟩
  change some (Expr.binop .eq (.variable "x") (.resourceRef "Integer" none)) ≠
    some (.binop .eq (.resourceRef "Integer" none) (.variable "x"))
  nofun

end PuppetC
