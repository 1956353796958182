import PuppetC.Interp.Exec

/-!
# The structure of the interpreter

Everything that a function of the interpreter does to the frame it undoes before it returns, in
the reverse order, and a scope that it creates for itself it destroys; classes, defined types,
functions and nodes are all of this shape, whichever way through them is taken. The shape is a
property of programs, proved here once for every function, so that what depends only on it is
proved by induction on it.

## Main definitions

* `Undoes`: an operation on the frame and one that takes it back.
* `Structured`, `NodeStructured`: programs of this shape, without and with operations on nodes.

## Main results

* `structured_evalExprBody`, `structured_execStmtBody`, `structured_includeClassFromDefBody`,
  `structured_loaderIncludeClassBody`: the functions of the interpreter are structured.
* `nodeStructured_execNodeStmt`: node statements are, with their operations on nodes.
-/

namespace PuppetC

/-- Undoing a change of the frame after no other change gives back the frame. -/
def Undoes {β γ : Type} (enter : FrameOp β) (leave : β → FrameOp γ) : Prop :=
  ∀ f : Frame, ((leave (enter.apply f).1).apply (enter.apply f).2).2 = f

/-- Programs in which everything is undone that is done to the frame, and every scope destroyed
that is created for a call. -/
inductive Structured : {α : Type} → Comp α → Prop where
  | pure {α : Type} (a : α) : Structured (pure a : Comp α)
  | quiet {α : Type} (q : Quiet α) : Structured (liftM q : Comp α)
  | bind {α β : Type} {p : Comp α} {f : α → Comp β} (hp : Structured p)
      (hf : ∀ a, Structured (f a)) : Structured (p >>= f)
  | bracket {α β γ : Type} {enter : FrameOp β} {leave : β → FrameOp γ} {p : Comp α}
      (h : Undoes enter leave) (hp : Structured p) : Structured (bracket enter leave p)
  | inNewScope {α : Type} {parent : ScopeParent} {name : String} {p : ScopeId → Comp α}
      (hp : ∀ id, Structured (p id)) : Structured (inNewScope parent name p)

/-- Programs of this shape that besides perform operations on nodes. -/
inductive NodeStructured : {α : Type} → Comp α → Prop where
  | structured {α : Type} {p : Comp α} (hp : Structured p) : NodeStructured p
  | node {α : Type} (o : NodeOp α) : NodeStructured (onNode o)
  | bind {α β : Type} {p : Comp α} {f : α → Comp β} (hp : NodeStructured p)
      (hf : ∀ a, NodeStructured (f a)) : NodeStructured (p >>= f)
  | inNewScope {α : Type} {parent : ScopeParent} {name : String} {p : ScopeId → Comp α}
      (hp : ∀ id, NodeStructured (p id)) : NodeStructured (inNewScope parent name p)

namespace Structured

variable {α : Type} {p : Comp α}

theorem ite {c : Prop} [Decidable c] {q : Comp α} (hp : Structured p) (hq : Structured q) :
    Structured (if c then p else q) := by
  split_ifs
  exacts [hp, hq]

theorem forM {β : Type} {f : β → Comp Unit} (hf : ∀ b, Structured (f b)) :
    (bs : List β) → Structured (bs.forM f)
  | [] => .pure ()
  | b :: bs => .bind (hf b) fun _ ↦ forM hf bs

theorem inScope (id : ScopeId) (hp : Structured p) : Structured (inScope id p) :=
  .bracket (fun _ ↦ rfl) hp

theorem withClassScope (id : ScopeId) (hp : Structured p) : Structured (withClassScope id p) :=
  .bracket (fun _ ↦ rfl) hp

theorem withCallerModule (className : String) (hp : Structured p) :
    Structured (withCallerModule className p) :=
  .bracket (fun _ ↦ rfl) hp

theorem withReexecuting (on : Bool) (hp : Structured p) : Structured (withReexecuting on p) :=
  .bracket (fun _ ↦ rfl) hp

theorem withCurrentScope (id : ScopeId) (hp : Structured p) :
    Structured (withCurrentScope id p) :=
  .bracket (fun _ ↦ rfl) hp

theorem withCall (hp : Structured p) : Structured (withCall p) := .bracket (fun _ ↦ rfl) hp

theorem withTruth (hp : Structured p) : Structured (withTruth p) :=
  .bracket (fun f ↦ by simp [FrameOp.apply]) hp

theorem withTruthIf (on : Bool) (hp : Structured p) : Structured (withTruthIf on p) :=
  .ite (.withTruth hp) hp

end Structured

namespace NodeStructured

variable {α : Type} {p : Comp α}

theorem pure (a : α) : NodeStructured (pure a : Comp α) := .structured (.pure a)

theorem quiet (q : Quiet α) : NodeStructured (liftM q : Comp α) := .structured (.quiet q)

theorem ite {c : Prop} [Decidable c] {q : Comp α} (hp : NodeStructured p)
    (hq : NodeStructured q) : NodeStructured (if c then p else q) := by
  split_ifs
  exacts [hp, hq]

theorem forM {β : Type} {f : β → Comp Unit} (hf : ∀ b, NodeStructured (f b)) :
    (bs : List β) → NodeStructured (bs.forM f)
  | [] => .pure ()
  | b :: bs => .bind (hf b) fun _ ↦ forM hf bs

end NodeStructured

section World

variable (w : World)

/-! ### Expressions -/

theorem structured_evalBinopExpr (op : BinOp) (left right : Expr) :
    Structured (evalBinopExpr w op left right) := by
  unfold evalBinopExpr
  split
  · exact .bind (.quiet _) fun _ ↦ .bind (.quiet _) fun _ ↦ .pure _
  · exact .bind (.quiet _) fun _ ↦ .bind (.quiet _) fun _ ↦ .pure _
  · exact .bind (.withTruthIf _ (.quiet _)) fun _ ↦ .quiet _

theorem structured_evalUnopExpr (op : UnOp) (operand : Expr) :
    Structured (evalUnopExpr op operand) :=
  .bind (.withTruthIf _ (.quiet _)) fun _ ↦ .bind (.quiet _) fun _ ↦ .pure _

theorem structured_runDefine (d : DefineStmt) (type title : String)
    (given : String → Option Value) (params : List (String × Value)) :
    Structured (runDefine d type title given params) :=
  .inNewScope fun _ ↦ .bind (.quiet _) fun _ ↦ .bind (.quiet _) fun _ ↦ .bind (.quiet _) fun _ ↦
    .bind (.quiet _) fun _ ↦ .quiet _

theorem structured_createOne (d : Option DefineStmt) (type title : String)
    (given : String → Option Value) (defineParams params : List (String × Value))
    (duplicate : Quiet Unit) :
    Structured (createOne d type title given defineParams params duplicate) := by
  refine .bind (.quiet _) fun _ ↦ .ite (.quiet _) <| .bind (.quiet _) fun _ ↦ ?_
  cases d with
  | some d => exact structured_runDefine ..
  | none => exact .quiet _

theorem structured_funcCreateResources (args : List Expr) :
    Structured (funcCreateResources w args) := by
  unfold funcCreateResources
  split
  · refine .bind (.quiet _) fun typeVal ↦ .bind (.quiet _) fun hashVal ↦ ?_
    refine .bind (.quiet _) fun defaultsVal ↦ ?_
    split
    · exact .bind (.quiet _) fun _ ↦ .bind (.forM (fun _ ↦ structured_createOne ..) _) fun _ ↦
        .pure _
    · exact .bind (.quiet _) fun _ ↦ .pure _
    · exact .bind (.quiet _) fun _ ↦ .pure _
  · exact .bind (.quiet _) fun _ ↦ .pure _

theorem structured_funcEnsureResource (args : List Expr) :
    Structured (funcEnsureResource w args) := by
  unfold funcEnsureResource
  split
  · refine .bind (.quiet _) fun typeVal ↦ .bind (.quiet _) fun titleVal ↦ ?_
    refine .bind (.quiet _) fun paramsVal ↦ ?_
    split
    · exact .bind (.quiet _) fun _ ↦ .bind (.forM (fun _ ↦ structured_createOne ..) _) fun _ ↦
        .pure _
    · exact .bind (.quiet _) fun _ ↦ .pure _
    · exact .bind (.quiet _) fun _ ↦ .pure _
  · exact .bind (.quiet _) fun _ ↦ .pure _

theorem structured_callUserFunction (f : FunctionStmt) (args : List Expr) :
    Structured (callUserFunction w f args) := by
  unfold callUserFunction
  refine .bind (.quiet _) fun depth ↦ .ite ?_ (.ite ?_ ?_)
  · exact .bind (.quiet _) fun _ ↦ .pure _
  · exact .bind (.quiet _) fun _ ↦ .pure _
  · exact .bind (.quiet _) fun _ ↦ .inNewScope fun _ ↦ .withCall <| .bind (.quiet _) fun _ ↦
      .quiet _

theorem structured_evalFuncall (name : String) (args : List Expr)
    (lambda : Option (Lambda Expr Stmt)) : Structured (evalFuncall w name args lambda) := by
  unfold evalFuncall
  cases builtin w name args lambda with
  | some p => exact .quiet p
  | none =>
    refine .ite (structured_funcCreateResources w args) <|
      .ite (structured_funcEnsureResource w args) ?_
    refine .bind (.quiet _) fun f ↦ ?_
    cases f with
    | some f => exact structured_callUserFunction w f args
    | none => exact .ite (.pure _) <| .bind (.quiet _) fun _ ↦ .pure _

theorem structured_evalExprBody (e : Expr) : Structured (evalExprBody w e) := by
  unfold evalExprBody
  split
  case h_1 => exact .pure _
  case h_2 => exact .quiet _
  case h_3 => exact structured_evalBinopExpr ..
  case h_4 => exact structured_evalUnopExpr ..
  case h_5 => exact structured_evalFuncall ..
  case h_6 => exact .bind (.quiet _) fun _ ↦ .pure _
  case h_7 => exact .quiet _
  case h_8 => exact .bind (.quiet _) fun _ ↦ .ite (.quiet _) (.quiet _)
  case h_9 =>
    refine .bind (.quiet _) fun _ ↦ .bind (.quiet _) fun _ ↦ ?_
    split
    exacts [.pure _, .quiet _, .pure _]
  case h_10 => exact .quiet _
  case h_11 => exact .bind (.quiet _) fun _ ↦ .pure _
  case h_12 => exact .quiet _
  case h_13 => exact .bind (.quiet _) fun _ ↦ .pure _
  case h_14 => exact .bind (.quiet _) fun _ ↦ .pure _
  case h_15 => exact .bind (.quiet _) fun _ ↦ .pure _

/-! ### Classes -/

theorem structured_inClass (scope : ScopeId) {p : Comp Unit} (hp : Structured p) :
    Structured (inClass scope p) :=
  .inScope scope (.withClassScope scope hp)

theorem structured_includeClassFromDefBody (c : ClassStmt) :
    Structured (includeClassFromDefBody w c) := by
  unfold includeClassFromDefBody
  refine .bind (.quiet _) fun _ ↦ .ite (.pure _) ?_
  refine .bind (.quiet _) fun _ ↦ .bind (.quiet _) fun _ ↦ structured_inClass _ ?_
  refine .bind (.quiet _) fun _ ↦ .bind (.quiet _) fun _ ↦
    .bind (.withCallerModule _ ?_) fun _ ↦ .quiet _
  exact .bind (.quiet _) fun _ ↦ .quiet _

theorem structured_loaderIncludeClassBody (name : String) :
    Structured (loaderIncludeClassBody w name) := by
  unfold loaderIncludeClassBody
  refine .bind (.quiet _) fun _ ↦ ?_
  refine .ite (.pure _) ?_
  refine .bind (.quiet _) fun c ↦ ?_
  cases c with
  | none => exact .bind (.quiet _) fun _ ↦ .pure _
  | some c =>
    refine .bind (.quiet _) fun _ ↦ .bind (.quiet _) fun _ ↦
      .bind (structured_inClass _ ?_) fun _ ↦ .pure _
    exact .bind (.quiet _) fun _ ↦ .bind (.withCallerModule _ (.quiet _)) fun _ ↦ .quiet _

theorem structured_reexecClass (c : ClassStmt) (className : String)
    (attrs : List (Attribute Expr)) (scope : ScopeId) :
    Structured (reexecClass c className attrs scope) :=
  .bind (.quiet _) fun _ ↦ .bind (.quiet _) fun _ ↦ structured_inClass _ <|
    .withReexecuting _ <| .withCallerModule _ (.quiet _)

theorem structured_instantiateClass (c : ClassStmt) (className : String)
    (attrs : List (Attribute Expr)) : Structured (instantiateClass w c className attrs) := by
  refine .bind (.quiet _) fun _ ↦ .bind (.quiet _) fun _ ↦ .bind (.quiet _) fun _ ↦
    .bind (.quiet _) fun _ ↦ structured_inClass _ ?_
  exact .bind (.quiet _) fun _ ↦ .bind (.quiet _) fun _ ↦
    .bind (.withCallerModule _ (.quiet _)) fun _ ↦ .quiet _

theorem structured_declareClass (inst : ResourceInstance Expr) :
    Structured (declareClass w inst) := by
  unfold declareClass
  split
  · exact .pure _
  · refine .bind (.quiet _) fun titleVal ↦ ?_
    refine .bind (.quiet _) fun declared ↦ ?_
    split
    · exact .bind (.quiet _) fun _ ↦ .bind (.quiet _) fun _ ↦ .quiet _
    refine .bind (.quiet _) fun _ ↦ .bind (.quiet _) fun scope ↦ ?_
    cases scope with
    | some scope => 
      refine .ite (.pure _) ?_
      refine .bind (.quiet _) fun _ ↦ .ite (.pure _) ?_
      refine .bind (.quiet _) fun _ ↦ .bind (.quiet _) fun c ↦ ?_
      cases c with
      | none => exact .pure _
      | some c => exact structured_reexecClass ..
    | none => 
      refine .bind (.quiet _) fun c ↦ ?_
      cases c with
      | none => exact .quiet _
      | some c => exact structured_instantiateClass ..

theorem structured_execClassInstance (className : String) (args : List (Attribute Expr)) :
    Structured (execClassInstance w className args) := by
  refine .bind (.quiet _) fun c ↦ ?_
  cases c with
  | none => exact .quiet _
  | some c =>
    refine .inNewScope fun scope ↦ .withClassScope _ ?_
    exact .bind (.quiet _) fun _ ↦ .bind (.quiet _) fun _ ↦ .bind (.quiet _) fun _ ↦ .quiet _

/-! ### Resources -/

theorem structured_execResource (decl : ResourceDecl Expr) :
    Structured (execResource w decl) := by
  unfold execResource
  refine .ite (.forM (structured_declareClass w) _) ?_
  cases decl.style with
  | virtual => exact .quiet _
  | exported => exact .quiet _
  | normal =>
    refine .bind (.quiet _) fun d ↦ ?_
    cases d with
    | some d => exact .quiet _
    | none => exact .quiet _

theorem structured_runDeferred (i : ℕ) (d : DeferredDefine) : Structured (runDeferred w i d) :=
  .withReexecuting _ <| .withCurrentScope _ <| .inNewScope fun _ ↦ .bind (.quiet _) fun _ ↦
    .bind (.quiet _) fun _ ↦ .bind (.quiet _) fun _ ↦ .quiet _

theorem structured_runCollected (d : DefineStmt) (vres : VirtualResource) :
    Structured (runCollected d vres) :=
  .inNewScope fun _ ↦ .bind (.quiet _) fun _ ↦ .bind (.quiet _) fun _ ↦ .quiet _

theorem structured_collectOne (typePrefix : String) (filter : Option Expr) (key : String) :
    Structured (collectOne w typePrefix filter key) := by
  unfold collectOne
  refine .ite (.bind (.quiet _) fun found ↦ ?_) (.pure _)
  cases found with
  | none => exact .pure _
  | some vres =>
    refine .ite (.pure _) <| .bind (.quiet _) fun _ ↦ .ite ?_ (.pure _)
    refine .bind (.quiet _) fun _ ↦ .ite (.quiet _) <| .bind (.quiet _) fun _ ↦
      .bind (.bind (.quiet _) fun d ↦ ?_) fun _ ↦ .quiet _
    cases d with
    | some d => exact structured_runCollected d vres
    | none => exact .quiet _

theorem structured_collectBuckets (typePrefix : String) (filter : Option Expr) :
    (buckets : List ℕ) → Structured (collectBuckets w typePrefix filter buckets)
  | [] => .pure _
  | _ :: buckets => .bind (.quiet _) fun _ ↦
      .bind (.forM (structured_collectOne w typePrefix filter) _) fun _ ↦
        structured_collectBuckets typePrefix filter buckets

theorem structured_execCollector (style : ResourceStyle) (type : String)
    (filter : Option Expr) : Structured (execCollector w style type filter) :=
  .bind (.quiet _) fun _ ↦
    .ite (.bind (.quiet _) fun _ ↦ .quiet _) (structured_collectBuckets w ..)

/-! ### Statements -/

theorem structured_execBranches (elseBody : Option (List Stmt)) :
    (branches : List (Expr × List Stmt)) → Structured (execBranches elseBody branches)
  | [] => by
    cases elseBody with
    | none => exact .pure _
    | some body => exact .quiet _
  | (condition, body) :: rest =>
    .bind (.withTruth (.quiet _)) fun _ ↦
      .ite (.quiet _) (structured_execBranches elseBody rest)

theorem structured_execUnless (condition : Expr) (body : List Stmt)
    (elseBody : Option (List Stmt)) : Structured (execUnless condition body elseBody) := by
  refine .bind (.withTruth (.quiet _)) fun c ↦ ?_
  split
  exacts [.quiet _, .quiet _, .pure _]

/-- A statement that is not a node statement is structured. -/
theorem structured_execStmtBody {s : Stmt} (hs : ∀ n, s ≠ .node n) :
    Structured (execStmtBody w s) := by
  unfold execStmtBody
  split
  case h_7 => exact structured_execClassInstance ..
  case h_8 n => exact absurd rfl (hs n)
  case h_12 => exact .bind (.quiet _) fun _ ↦ .pure _
  case h_13 => exact .bind (.quiet _) fun _ ↦ .pure _
  case h_14 => exact structured_execResource ..
  case h_15 => exact structured_execBranches ..
  case h_16 => exact structured_execUnless ..
  case h_18 => exact structured_execCollector ..
  case h_19 => exact .pure _
  all_goals exact .quiet _

/-! ### Node statements -/

theorem nodeStructured_noteNode (n : NodeStmt) : NodeStructured (noteNode n) := by
  have hrest : NodeStructured (do
      if ← read .deferNodeExecution then onNode (.registerNodeDef n)
      else if (← read .executeAllNodes) && isRegexName n.name then onNode .skipRegexNode) :=
    .bind (.quiet _) fun _ ↦ .ite (.node _) <| .bind (.quiet _) fun _ ↦ .ite (.node _) (.pure _)
  exact .ite (.bind (.node _) fun _ ↦ hrest) hrest

theorem nodeStructured_startNode (name : String) : NodeStructured (startNode w name) := by
  have hfacts (certname : String) : NodeStructured (do
      let parallel ← read .parallelNodes
      if w.factsDb.isSome && !parallel then
        let _ ← onNode (.setFactsNode certname)) :=
    .bind (.quiet _) fun _ ↦ .ite (.bind (.node _) fun _ ↦ .pure _) (.pure _)
  refine .bind (.quiet _) fun allNodes ↦ .bind (.quiet _) fun nodeName ↦
    .bind (.quiet _) fun current ↦ ?_
  cases allNodes with
  | true => exact .bind (.quiet _) fun _ ↦ .bind (.node _) fun _ ↦ .bind (.node _) fun _ ↦ hfacts _
  | false => exact .bind (.node _) fun _ ↦ hfacts _

theorem nodeStructured_finishNode (name : String) : NodeStructured (finishNode w name) := by
  refine .bind (.quiet _) fun _ ↦ .bind (.quiet _) fun allNodes ↦ .bind (.quiet _) fun failed ↦ ?_
  cases failed with
  | false => exact .node _
  | true =>
    cases allNodes with
    | false => exact .bind (.node _) fun _ ↦ .node _
    | true =>
      exact .bind (.node _) fun _ ↦ .bind (.quiet _) fun _ ↦ .bind (.node _) fun _ ↦ .node _

theorem nodeStructured_execNodeStmt (n : NodeStmt) : NodeStructured (execNodeStmt w n) :=
  .bind (nodeStructured_noteNode n) fun _ ↦ .bind (.quiet _) fun _ ↦ .ite
    (.bind (nodeStructured_startNode w n.name) fun _ ↦ .bind (.inNewScope fun _ ↦ .quiet _)
      fun _ ↦ nodeStructured_finishNode w n.name) (.pure _)

theorem nodeStructured_execStmtBody (s : Stmt) : NodeStructured (execStmtBody w s) := by
  by_cases hs : ∀ n, s ≠ .node n
  · exact .structured (structured_execStmtBody w hs)
  · obtain ⟨n, rfl⟩ : ∃ n, s = .node n := by simpa using hs
    exact nodeStructured_execNodeStmt w n

end World

end PuppetC
