import PuppetC.Parser.Binary
import PuppetC.Support.TextPieces

/-!
# The conversion of case statements

How the parser reads the children of a case node (`convert_case` in `puppet_ts_parser.c`). The
control expression and the match expressions of an option are rows of siblings in the syntax tree,
with comments among them: the control is looked for by the kind of its nodes, and each node of an
option makes a match of its own.

## Main definitions

* `RowNode`, `OptionChild`, `CaseChild`: the children of case nodes and of their options.
* `CaseTree`, `convertCase`: what `convert_case` builds, and `convert_case`.
* `CaseRow`, `CaseSource`: a case statement as it is written, and its lowering.
* `CaseRow.ControlFits`, `CaseRow.MatchFits`: the expressions that are kept.

## Main results

* `convertCase_eq_iff`: when a case node is converted to the statement that was written.
-/

namespace PuppetC

/-! ### Case nodes and their conversion -/

/-- What an expression of a row starts with. A node that is told from others by its kind only is
already converted. -/
inductive RowHead where
  | type (name : String)
  | variable (name : String)
  | binary (e : Expr)
  | default
  | node (e : Expr)

/-- A named node of a row. -/
inductive RowNode where
  | head (h : RowHead)
  | access (a : Access)
  | selector (cases : List (Expr × Expr)) (default : Option Expr)
  | comment (text : String)

/-- A named child of an option of a case statement. -/
inductive OptionChild where
  | row (n : RowNode)
  | block (body : List Stmt)

/-- A named child of a case statement. -/
inductive CaseChild where
  | row (n : RowNode)
  | option (children : List OptionChild)

/-- The test of a match; a selector has no control. -/
inductive CaseTest where
  | default
  | expr (e : Expr)
  | selector (cases : List (Expr × Expr)) (default : Option Expr)

/-- What `convert_case` builds. The control may be missing. -/
structure CaseTree where
  control : Option Expr
  whens : List (CaseTest × List Stmt)

/-- The test that the conversion of one node makes. -/
def RowNode.test : RowNode → CaseTest
  | .head (.type name) => .expr (.value (.string name))
  | .head (.variable name) => .expr (.variable name)
  | .head (.binary e) => .expr e
  | .head .default => .default
  | .head (.node e) => .expr e
  | .access a => .expr a.element.firstChild
  | .selector cases default => .selector cases default
  | .comment text => .expr (.value (.string text))

/-- The first pass over the children: a variable and the accesses after it, up to the options. -/
def findControl (control : Option Expr) : List CaseChild → Option Expr
  | [] => control
  | .option _ :: _ => control
  | .row (.head (.variable name)) :: rest => findControl (control.or (some (.variable name))) rest
  | .row (.access a) :: rest => findControl (control.map fun e ↦ buildIndexExpr e a) rest
  | .row _ :: rest => findControl control rest

/-- The block of an option: its first one. -/
def optionBody : List OptionChild → List Stmt
  | [] => []
  | .block body :: _ => body
  | .row _ :: rest => optionBody rest

/-- A node of an option that is a match expression. -/
def OptionChild.row? : OptionChild → Option RowNode
  | row n => some n
  | block _ => none

/-- The matches of an option: one for each child that is no block. -/
def convertOption (children : List OptionChild) : List (CaseTest × List Stmt) :=
  (children.filterMap OptionChild.row?).map fun n ↦ (n.test, optionBody children)

/-- The second pass over the children: a binary expression is the control if there is none, and
options are converted. -/
def CaseTree.read (t : CaseTree) : CaseChild → CaseTree
  | .row (.head (.binary e)) => { t with control := t.control.or (some e) }
  | .row _ => t
  | .option children => { t with whens := t.whens ++ convertOption children }

/-- `convert_case`. -/
def convertCase (children : List CaseChild) : CaseTree :=
  children.foldl CaseTree.read ⟨findControl none children, []⟩

/-! ### Case statements as they are written -/

/-- What follows the start of an expression of a row, with comments of both kinds. -/
def OperandSuffix.rowNode : OperandSuffix → RowNode
  | access a => .access a
  | selector cases default => .selector cases default
  | blockComment text => .comment text

/-- An expression of a row: the comments before it, its start, and what follows. -/
structure CaseRow where
  before : List String
  head : RowHead
  after : List OperandSuffix

/-- The full lowering of a type and what follows it: with an access it is a reference. -/
def matchedTypeLowering (name : String) : List OperandSuffix → Expr
  | [] => .value (.string name)
  | .blockComment _ :: rest => matchedTypeLowering name rest
  | .access a :: rest => rest.foldl OperandSuffix.apply (.resourceRef name (some a.element.expr))
  | .selector cases default :: rest =>
    rest.foldl OperandSuffix.apply (.selector (.value (.string name)) cases default)

namespace CaseRow

/-- The nodes of an expression. -/
def nodes (r : CaseRow) : List RowNode :=
  r.before.map .comment ++ .head r.head :: r.after.map OperandSuffix.rowNode

/-- The full lowering of an expression. -/
def lowering (r : CaseRow) : Expr :=
  match r.head with
  | .type name => matchedTypeLowering name r.after
  | .variable name => r.after.foldl OperandSuffix.apply (.variable name)
  | .binary e => r.after.foldl OperandSuffix.apply e
  | .default => r.after.foldl OperandSuffix.apply (.value (.string "default"))
  | .node e => r.after.foldl OperandSuffix.apply e

/-- The test of a match expression; `default` has none. -/
def test (r : CaseRow) : CaseTest :=
  match r.head with
  | .default => .default
  | _ => .expr r.lowering

/-- A control that is kept: a variable without selectors, or a binary expression that nothing is
applied to. -/
def ControlFits (r : CaseRow) : Prop :=
  match r.head with
  | .variable _ => ∀ suffix ∈ r.after, ¬suffix.IsSelector
  | .binary _ => ∀ suffix ∈ r.after, suffix.IsComment
  | .type _ | .node _ | .default => False

/-- A match expression that is kept: one node, without comments. -/
def MatchFits (r : CaseRow) : Prop := r.before = [] ∧ r.after = []

end CaseRow

/-- An option of a case statement: the expressions it lists and its block. -/
structure CaseOption where
  listed : List CaseRow
  body : List Stmt

/-- The children of an option. -/
def CaseOption.children (o : CaseOption) : List OptionChild :=
  (o.listed.flatMap CaseRow.nodes).map .row ++ [.block o.body]

/-- A case statement: its control and its options. -/
structure CaseSource where
  control : CaseRow
  options : List CaseOption

namespace CaseSource

/-- The children of a case statement, but for comments between options. -/
def children (c : CaseSource) : List CaseChild :=
  c.control.nodes.map .row ++ c.options.map fun o ↦ .option o.children

/-- The case statement that was written: one match for each expression that is listed. -/
def tree (c : CaseSource) : CaseTree where
  control := some c.control.lowering
  whens := c.options.flatMap fun o ↦ o.listed.map fun r ↦ (r.test, o.body)

/-- The control and all expressions that are listed are kept. -/
def Fits (c : CaseSource) : Prop :=
  c.control.ControlFits ∧ ∀ o ∈ c.options, ∀ r ∈ o.listed, r.MatchFits

end CaseSource

/-! ### The options -/

theorem optionBody_children (o : CaseOption) : optionBody o.children = o.body := by
  rw [CaseOption.children]
  induction o.listed.flatMap CaseRow.nodes with
  | nil => rfl
  | cons n ns ih => exact ih

theorem convertOption_children (o : CaseOption) :
    convertOption o.children =
      o.listed.flatMap fun r ↦ r.nodes.map fun n ↦ (n.test, o.body) := by
  have hrows : o.children.filterMap OptionChild.row? = o.listed.flatMap CaseRow.nodes := by
    rw [CaseOption.children, List.filterMap_append, List.filterMap_map]
    exact (List.append_nil _).trans List.filterMap_some
  rw [convertOption, hrows, optionBody_children, List.map_flatMap]

theorem one_le_length_nodes (r : CaseRow) : 1 ≤ r.nodes.length := by
  rw [CaseRow.nodes, List.length_append, List.length_cons]
  omega

theorem test_eq_iff (r : CaseRow) (body : List Stmt) :
    [(r.test, body)] = r.nodes.map (fun n ↦ (n.test, body)) ↔ r.MatchFits := by
  constructor
  · intro h
    have hlength := congrArg List.length h
    simp only [CaseRow.nodes, List.length_map, List.length_append, List.length_cons,
      List.length_nil] at hlength
    exact ⟨List.length_eq_zero_iff.1 (by omega), List.length_eq_zero_iff.1 (by omega)⟩
  · obtain ⟨before, head, after⟩ := r
    rintro ⟨rfl, rfl⟩
    cases head <;> rfl

/-- The matches are those that were written just when every expression that is listed is one
node. -/
theorem whens_eq_iff (options : List CaseOption) :
    (options.flatMap fun o ↦ convertOption o.children) =
        (options.flatMap fun o ↦ o.listed.map fun r ↦ (r.test, o.body)) ↔
      ∀ o ∈ options, ∀ r ∈ o.listed, r.MatchFits := by
  have hlisted : ∀ o : CaseOption, (o.listed.map fun r ↦ (r.test, o.body)) =
      o.listed.flatMap fun r ↦ [(r.test, o.body)] :=
    fun o ↦ List.map_eq_flatMap
  have hle : ∀ (o : CaseOption), ∀ r ∈ o.listed,
      [(r.test, o.body)].length ≤ (r.nodes.map fun n ↦ (n.test, o.body)).length := by
    intro o r _
    rw [List.length_map]
    exact one_le_length_nodes r
  simp only [convertOption_children, hlisted]
  rw [eq_comm, flatMap_eq_iff fun o _ ↦ length_flatMap_le (hle o)]
  refine forall₂_congr fun o _ ↦ ?_
  rw [flatMap_eq_iff (hle o)]
  exact forall₂_congr fun r _ ↦ test_eq_iff r o.body

/-! ### The control -/

/-- What is not a comment. -/
def CaseChild.isSignificant : CaseChild → Bool
  | .row (.comment _) => false
  | .row (.head _) | .row (.access _) | .row (.selector _ _) | .option _ => true

theorem findControl_filter (control : Option Expr) (children : List CaseChild) :
    findControl control (children.filter CaseChild.isSignificant) =
      findControl control children := by
  induction children generalizing control with
  | nil => rfl
  | cons child children ih =>
    cases child with
    | option cs => rfl
    | row n =>
      cases n with
      | head h => cases h <;> exact ih _
      | access a => exact ih _
      | selector cases default => exact ih control
      | comment text => exact ih control

theorem CaseTree.foldl_read_filter (t : CaseTree) (children : List CaseChild) :
    (children.filter CaseChild.isSignificant).foldl CaseTree.read t =
      children.foldl CaseTree.read t := by
  induction children generalizing t with
  | nil => rfl
  | cons child children ih =>
    cases child with
    | option cs => exact ih _
    | row n => cases n <;> exact ih _

/-- Comments between options contribute nothing. -/
theorem convertCase_filter (children : List CaseChild) :
    convertCase (children.filter CaseChild.isSignificant) = convertCase children := by
  rw [convertCase, convertCase, findControl_filter, CaseTree.foldl_read_filter]

/-- What is found of a control. -/
def CaseRow.converted (r : CaseRow) : Option Expr :=
  match r.head with
  | .variable name => some (indexed (.variable name) (accessesIn r.after))
  | .binary e => some e
  | .type _ | .default | .node _ => none

theorem findControl_options (control : Option Expr) (options : List CaseOption) :
    findControl control (options.map fun o ↦ .option o.children) = control := by
  cases options <;> rfl

theorem findControl_suffixes (control : Option Expr) (after : List OperandSuffix)
    (options : List CaseOption) :
    findControl control (after.map (fun suffix ↦ .row suffix.rowNode) ++
        options.map fun o ↦ .option o.children) =
      control.map fun e ↦ indexed e (accessesIn after) := by
  induction after generalizing control with
  | nil => exact (findControl_options control options).trans Option.map_id'.symm
  | cons suffix after ih =>
    cases suffix with
    | access a => exact (ih _).trans (Option.map_map ..)
    | selector cases default => exact ih control
    | blockComment text => exact ih control

theorem findControl_comments (control : Option Expr) (before : List String)
    (rest : List CaseChild) :
    findControl control (before.map (fun text ↦ .row (.comment text)) ++ rest) =
      findControl control rest := by
  induction before with
  | nil => rfl
  | cons text before ih => exact ih

/-- Of the nodes of the control only the first one is read again. -/
theorem foldl_read_nodes (t : CaseTree) (r : CaseRow) :
    (r.nodes.map CaseChild.row).foldl CaseTree.read t = t.read (.row (.head r.head)) := by
  have hafter : ∀ (t : CaseTree) (suffix : OperandSuffix),
      t.read (.row suffix.rowNode) = t := by
    intro t suffix
    cases suffix <;> rfl
  have hbefore : ∀ (t : CaseTree) (text : String), t.read (.row (.comment text)) = t :=
    fun _ _ ↦ rfl
  rw [CaseRow.nodes, List.map_append, List.map_cons, List.foldl_append, List.foldl_cons,
    List.foldl_map, List.foldl_map, List.foldl_map, List.foldl_map,
    List.foldl_fixed' (hafter _), List.foldl_fixed' (hbefore t)]

theorem foldl_read_options (t : CaseTree) (options : List CaseOption) :
    (options.map fun o ↦ CaseChild.option o.children).foldl CaseTree.read t =
      { t with whens := t.whens ++ options.flatMap fun o ↦ convertOption o.children } := by
  induction options generalizing t with
  | nil => rw [List.flatMap_nil, List.append_nil]; rfl
  | cons o options ih =>
    rw [List.map_cons, List.foldl_cons, ih, List.flatMap_cons, ← List.append_assoc]
    rfl

/-- What is made of a case statement. -/
theorem convertCase_children (c : CaseSource) :
    convertCase c.children =
      ⟨c.control.converted, c.options.flatMap fun o ↦ convertOption o.children⟩ := by
  obtain ⟨⟨before, head, after⟩, options⟩ := c
  have hfind : findControl none (CaseSource.mk ⟨before, head, after⟩ options).children =
      match head with
      | .variable name => some (indexed (.variable name) (accessesIn after))
      | _ => none := by
    rw [CaseSource.children, CaseRow.nodes, List.map_append, List.map_map, List.map_cons,
      List.map_map, List.append_assoc]
    refine (findControl_comments none before _).trans ?_
    cases head <;> exact findControl_suffixes _ after options
  rw [convertCase, hfind, CaseSource.children, List.foldl_append, foldl_read_nodes,
    foldl_read_options]
  cases head <;> rfl

/-- The control is the one that was written just when it fits. -/
theorem converted_eq_iff (r : CaseRow) :
    r.converted = some r.lowering ↔ r.ControlFits := by
  obtain ⟨before, head, after⟩ := r
  match head with
  | .variable name =>
    refine Option.some_inj.trans ((indexed_accessesIn_iff le_rfl after).trans ?_)
    exact and_iff_right rfl
  | .binary e =>
    refine Option.some_inj.trans ((eq_foldl_apply_iff le_rfl after).trans ?_)
    exact and_iff_right rfl
  | .type _ | .default | .node _ => exact iff_of_false nofun id

/-! ### The conversion -/

/-- A case node is converted to the statement that was written just when its control is a variable
with accesses or a binary expression, and every match expression is one node without comments. -/
theorem convertCase_eq_iff (children : List CaseChild) (c : CaseSource)
    (hchildren : children.filter CaseChild.isSignificant =
      c.children.filter CaseChild.isSignificant) :
    convertCase children = c.tree ↔ c.Fits := by
  rw [← convertCase_filter, hchildren, convertCase_filter, convertCase_children, CaseSource.tree,
    CaseTree.mk.injEq, converted_eq_iff, whens_eq_iff]
  rfl

theorem convertCase_eq_iff_variable :
    [CaseChild.row (.head (.variable "x")), .row (.comment "# c"),
        .option [.row (.head .default), .block []]].filter CaseChild.isSignificant =
      (CaseSource.mk ⟨[], .variable "x", []⟩ [⟨[⟨[], .default, []⟩], []⟩]).children.filter
        CaseChild.isSignificant ∧
    (convertCase [.row (.head (.variable "x")), .row (.comment "# c"),
        .option [.row (.head .default), .block []]] =
      (CaseSource.mk ⟨[], .variable "x", []⟩ [⟨[⟨[], .default, []⟩], []⟩]).tree ↔
      (CaseSource.mk ⟨[], .variable "x", []⟩ [⟨[⟨[], .default, []⟩], []⟩]).Fits) :=
  ⟨rfl, convertCase_eq_iff _ _ rfl⟩

/-- `case 'x' { default: {} }` has no control. -/
theorem convertCase_literal :
    [CaseChild.row (.head (.node (.value (.string "x")))),
        .option [.row (.head .default), .block []]] =
      (CaseSource.mk ⟨[], .node (.value (.string "x")), []⟩
        [⟨[⟨[], .default, []⟩], []⟩]).children ∧
    (convertCase [.row (.head (.node (.value (.string "x")))),
        .option [.row (.head .default), .block []]]).control = none ∧
    convertCase [.row (.head (.node (.value (.string "x")))),
        .option [.row (.head .default), .block []]] ≠
      (CaseSource.mk ⟨[], .node (.value (.string "x")), []⟩ [⟨[⟨[], .default, []⟩], []⟩]).tree := by
  refine ⟨rfl, rfl, fun h ↦ ?_⟩
  cases congrArg CaseTree.control h

end PuppetC
