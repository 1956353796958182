import PuppetC.Interp.Resources

/-!
# Execution of statements

One round of `puppet_exec_stmt`, of the statement list with its queue of defined types, and of
the node statement; the bodies of all procedures, and their meaning in a world.

## Main definitions

* `execNodeStmt`: `puppet_exec_node`.
* `execStmtBody`, `execStmtListBody`: `puppet_exec_stmt`, `puppet_exec_stmt_list`.
* `procedureBody`: the body of each procedure.
* `World.handler`: the meaning of operations and procedures at a depth of calls.
-/

namespace PuppetC

section World

variable (w : World)

/-! ### Variables and definitions -/

/-- `puppet_exec_assignment`. -/
def execAssignment (var : String) (value : Expr) : Quiet Unit := do
  let v ← evalExpr value
  perform (.setVar var v)

/-- The value of a variable after `$var += value`, unless it is neither an array nor a hash. -/
def appendValue : Option Value → Value → Option Value
  | none, v@(.array _) | some .undef, v@(.array _) => some v
  | none, v | some .undef, v => some (.array [v.copy])
  | some (.array xs), .array ys => some (.array (Value.copyList xs ++ Value.copyList ys))
  | some (.array xs), v => some (.array (Value.copyList xs ++ [v.copy]))
  | some (.hash es), .hash fs =>
    some (.hash (setEntries (setEntries [] (Value.copyEntries es)) (Value.copyEntries fs)))
  | some _, _ => none

/-- An append statement. -/
def execAppend (var : String) (value : Expr) : Quiet Unit := do
  let v ← evalExpr value
  match appendValue (← perform (.getVar var)) v with
  | some v => perform (.setVar var v)
  | none => emit .note ("Cannot append to non-array/non-hash variable '" ++ var ++ "'")

/-- Register a defined type, under the name of the class around it. -/
def execDefine (d : DefineStmt) : Quiet Unit := do
  match ← perform .classScopeName with
  | some className => perform (.setDefineType (className ++ "::" ++ d.name) d)
  | none => perform (.setDefineType d.name d)

/-! ### Conditions -/

/-- The branches of an `if`, in order. -/
def execBranches (elseBody : Option (List Stmt)) : List (Expr × List Stmt) → Comp Unit
  | [] =>
    match elseBody with
    | some body => execStmtList body
    | none => return ()
  | (condition, body) :: rest => do
    let c ← withTruth (evalExpr condition)
    if c.isTruthy then execStmtList body else execBranches elseBody rest

/-- An `unless` statement. -/
def execUnless (condition : Expr) (body : List Stmt) (elseBody : Option (List Stmt)) :
    Comp Unit := do
  let c ← withTruth (evalExpr condition)
  match c.isTruthy, elseBody with
  | false, _ => execStmtList body
  | true, some body => execStmtList body
  | true, none => return ()

/-- Does an option of a case statement match? Strings are compared without case. -/
def caseMatches (regexec : String → String → Bool) : Value → Value → Bool
  | .undef, .undef => true
  | .bool a, .bool b => a == b
  | .number x, .number y => x == y
  | .string s, .string t => lowerText s == lowerText t
  | .string s, .regexp p => regexec p s
  | _, _ => false

/-- The options of a case statement, in order; the last option without a test is the default. -/
def execWhens (control : Value) (default : Option (List Stmt)) :
    List (Option Expr × List Stmt) → Quiet Unit
  | [] =>
    match default with
    | some body => execStmtList body
    | none => return ()
  | (none, body) :: rest => execWhens control (some body) rest
  | (some test, body) :: rest => do
    let t ← evalExpr test
    if caseMatches w.regexec control t then execStmtList body
    else execWhens control default rest

/-- A case statement. -/
def execCase (control : Expr) (whens : List (Option Expr × List Stmt))
    (defaultBody : Option (List Stmt)) : Quiet Unit := do
  let c ← evalExpr control
  execWhens w c defaultBody whens

/-! ### Node statements -/

/-- The checks at the end of a node, on a catalog under construction. -/
def validateNode : Quiet Unit := do
  if ← read .building then
    match ← read .catalog with
    | some c => (w.validateCatalog c).forM fun d ↦ perform (.emit d)
    | none => return ()

/-- The start of a node block: its announcement, counters, tables and facts. -/
def startNode (name : String) : Comp Unit := do
  let allNodes ← read .executeAllNodes
  let nodeName ← read .nodeName
  let current ← read .currentNodeCertname
  let certname := current.getD (nodeName.getD name)
  if allNodes then emit .note ("--- Node: " ++ name ++ " ---")
  onNode (.startNode .statement name certname)
  if allNodes then onNode (.clearNodeTables false)
  let parallel ← read .parallelNodes
  if w.factsDb.isSome && !parallel then
    let _ ← onNode (.setFactsNode certname)

/-- The end of a node block: its checks and its failure. -/
def finishNode (name : String) : Comp Unit := do
  validateNode w
  let allNodes ← read .executeAllNodes
  if ← read .currentNodeFailed then
    onNode (.failNode .statement name)
    if allNodes then
      emit .note ("--- Node: " ++ name ++ " FAILED ---")
      onNode .setStopOnError
  onNode .endNode

/-- Note a node statement: the default node, a node whose name is a regular expression. -/
def noteNode (n : NodeStmt) : Comp Unit := do
  if n.name = "default" then onNode (.setDefaultNode n)
  if ← read .deferNodeExecution then onNode (.registerNodeDef n)
  else if (← read .executeAllNodes) && isRegexName n.name then onNode .skipRegexNode

/-- Is the block of a node statement to be executed? -/
def executesNode (n : NodeStmt) : Quiet Bool := do
  let deferring ← read .deferNodeExecution
  let stopped ← read .stopOnError
  let allNodes ← read .executeAllNodes
  let nodeName ← read .nodeName
  return !deferring && !stopped && shouldExecute w.regexec allNodes nodeName n.name

/-- `puppet_exec_node`. -/
def execNodeStmt (n : NodeStmt) : Comp Unit := do
  noteNode n
  if ← executesNode w n then
    startNode w n.name
    inNewScope .current n.name fun _ ↦ (execStmtList n.body : Comp Unit)
    finishNode w n.name

/-! ### Procedures -/

/-- `puppet_exec_stmt`. -/
def execStmtBody : Stmt → Comp Unit
  | .assignment var value => execAssignment var value
  | .append var value => execAppend var value
  | .classDef c => perform (.registerClassDef c)
  | .define d => execDefine d
  | .functionDef f => perform (.setUserFunction f.name f)
  | .typeAlias name typeStr => perform (.setTypeAlias name typeStr)
  | .classInstance className arguments => execClassInstance w className arguments
  | .node n => execNodeStmt w n
  | .include names => execInclude w names
  | .require names => execRequireLike w "require" names
  | .contain names => execRequireLike w "contain" names
  | .functionCall e | .expression e => do
    let _ ← evalExpr e
    return ()
  | .resource decl => execResource w decl
  | .if branches elseBody => execBranches elseBody branches
  | .unless condition body elseBody => execUnless condition body elseBody
  | .case control whens defaultBody => execCase w control whens defaultBody
  | .collector style type filter => execCollector w style type filter
  | .resourceDefault _ _ => return ()
  | .resourceOverride reference attrs => execOverride reference attrs
  | .chain left right type => execChain left right type
  | .tag _ => emit .note "Unimplemented statement type: 18"
  | .import _ => emit .note "Unimplemented statement type: 19"

/-- Run the queued instances from `cursor` on, and those that they queue. -/
def flushDeferredBody (cursor : ℕ) : Comp Unit := do
  let count ← read .deferredCount
  if cursor < count then
    (List.range' cursor (count - cursor)).forM (execDeferredDefine w)
    flushDeferred count

/-- `puppet_exec_stmt_list`. -/
def execStmtListBody (ss : List Stmt) : Comp Unit := do
  let saved ← read .deferredCount
  onOwn .startList
  execEach ss
  flushDeferred saved
  onOwn .endList
  onOwn (.truncateDeferred saved)

/-- The body of each function. -/
def callBody : (β : Type) → Call β → Comp β
  | _, .evalExpr e => evalExprBody w e
  | _, .execStmt s => execStmtBody w s
  | _, .execStmtList ss => execStmtListBody ss
  | _, .includeClassFromDef c => includeClassFromDefBody w c
  | _, .loaderIncludeClass name => loaderIncludeClassBody w name
  | _, .lookupChain name => variableLookupChain w name
  | _, .providerLookup provider key => providerLookupBody w provider key
  | _, .matchesFilter filter vres => matchesFilterBody filter vres

/-- The body of each procedure. -/
def procedureBody : (β : Type) → Procedure β → Comp β
  | _, .call c => callBody w _ c
  | _, .flush (.flushDeferred cursor) => flushDeferredBody w cursor

/-- The meaning of operations and procedures, with calls nested `fuel` deep at most. -/
def World.handler (fuel : ℕ) : Handler (Calls Procedure EnvOp) Env Halt :=
  Calls.handler (procedureBody w) (EnvOp.handle w.factsDb) .outOfFuel fuel

/-- `puppet_eval_expr`, in an environment. -/
def World.evalExpr (fuel : ℕ) (e : Expr) : Env → Except Halt (Value × Env) :=
  (PuppetC.evalExpr e : Comp Value).run (w.handler fuel)

/-- `puppet_exec_stmt`, in an environment. -/
def World.execStmt (fuel : ℕ) (s : Stmt) : Env → Except Halt (Unit × Env) :=
  (PuppetC.execStmt s : Comp Unit).run (w.handler fuel)

/-- `puppet_exec_stmt_list`, in an environment. -/
def World.execStmtList (fuel : ℕ) (ss : List Stmt) : Env → Except Halt (Unit × Env) :=
  (PuppetC.execStmtList ss : Comp Unit).run (w.handler fuel)

end World

end PuppetC
