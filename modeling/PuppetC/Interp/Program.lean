import PuppetC.Interp.Structure

/-!
# Programs and nodes

A program is executed for one node, or for every node of the facts database. In the second case
its top-level statements are executed once without facts, which registers the node definitions,
and then the definition that matches is executed for each certname, after the top-level
assignments have been executed once more in the scope of the node. The nodes are compiled one
after the other in one environment, or each in a copy of the environment as it was after the
first pass.

## Main definitions

* `execNodeForCertname`: `puppet_exec_node_for_certname`.
* `execProgram`: `puppet_exec_program`, outside parallel mode.
* `Env.cloneForNode`: `puppet_env_clone_for_node`.

## Main results

* `nodeStructured_execProgram`: a program is structured.
-/

namespace PuppetC

section World

variable (w : World)

/-! ### One node -/

/-- The top-level assignments among statements. -/
def assignments : List Stmt → List Stmt
  | [] => []
  | s@(.assignment ..) :: ss => s :: assignments ss
  | _ :: ss => assignments ss

/-- The start of a node of the facts database. -/
def startCertname (certname : String) : Comp Unit := do
  emit .note ("--- Node: " ++ certname ++ " ---")
  onNode (.startNode .certname certname certname)
  onNode (.clearNodeTables true)
  let parallel ← read .parallelNodes
  if w.factsDb.isSome && !parallel then
    unless ← onNode (.setFactsNode certname) do
      emit .note ("No facts found for node " ++ certname)

/-- The end of a node of the facts database. -/
def finishCertname (certname : String) : Comp Unit := do
  validateNode w
  if ← read .currentNodeFailed then
    onNode (.failNode .certname certname)
    emit .note ("--- Node: " ++ certname ++ " FAILED ---")
    onNode .setStopOnError
  onNode .endNode

/-- The block of a node in its scope, which is `env->node_scope` for that time, after the
top-level assignments. -/
def execNodeBody (topLevel : List Stmt) (n : NodeStmt) (certname : String) : Comp Unit :=
  inNewScope .current certname fun scope ↦ do
    let saved ← onNode (.setNodeScope scope)
    execEach (assignments topLevel)
    execStmtList n.body
    let _ ← onNode (.setNodeScope saved)

/-- `puppet_exec_node_for_certname`. -/
def execNodeForCertname (topLevel : List Stmt) (n : NodeStmt) (certname : String) :
    Comp Unit := do
  unless ← read .stopOnError do
    startCertname w certname
    execNodeBody topLevel n certname
    finishCertname w certname

/-! ### Programs -/

/-- The certnames of the facts database. -/
def World.certnames : List String :=
  match w.factsDb with
  | none => []
  | some db => db.nodes.map (·.certname)

/-- Execute the top-level statements. If the nodes of the facts database follow, the node
definitions are only registered. -/
def execTopLevel (topLevel : List Stmt) : Comp Unit := do
  onNode .resetNodes
  let allNodes ← read .executeAllNodes
  let iterate := allNodes && !w.certnames.isEmpty
  if iterate then onNode (.setDeferNodeExecution true)
  execStmtList topLevel
  if iterate then onNode (.setDeferNodeExecution false)

/-- One round of the loop over the nodes of the facts database. -/
def execCertname (topLevel : List Stmt) (certname : String) : Comp Unit := do
  match findMatchingNode w.regexec (← read .nodeDefinitions) certname with
  | some n => execNodeForCertname w topLevel n certname
  | none => emit .note ("No matching node block found for '" ++ certname ++ "'")

/-- The default node, where a node was asked for and no definition matches it. -/
def execFallback : Comp Unit := do
  let nodeName ← read .nodeName
  let matched ← read .nodeMatched
  match nodeName, matched, ← read .defaultNode with
  | some name, false, some n => do
    onNode (.setNodeName none)
    onNode (.setCurrentNodeCertname name)
    execNodeStmt w n
    onNode (.setNodeName (some name))
  | _, _, _ => return ()

/-- `puppet_exec_program`, where nodes are not compiled in parallel. -/
def execProgram (topLevel : List Stmt) : Comp Unit := do
  execTopLevel w topLevel
  if (← read .executeAllNodes) && !w.certnames.isEmpty then
    w.certnames.forM (execCertname w topLevel)
  else execFallback w

/-! ### Copies of the environment -/

/-- A table with its entries entered anew, in the order of its traversal, as `f` copies them. -/
def Table.rebuild {β γ : Type} {count : ℕ} (f : β → γ) (t : Hash count β) : Hash count γ :=
  t.entries.foldl (fun t' e ↦ t'.set e.1 (f e.2)) Table.empty

/-- `puppet_env_clone_for_node`. The memory of scopes, the caches of Hiera and of the loader and
the current node of the facts database are those of the process. -/
def Env.cloneForNode (source : Env) (certname : String) : Env :=
  { Env.create with
    globalScope := { Env.create.globalScope with
      vars := Table.rebuild Value.copy source.globalScope.vars }
    scopes := source.scopes
    classDefinitions := source.classDefinitions
    nodeDefinitions := source.nodeDefinitions
    defineTypes := source.defineTypes
    userFunctions := Table.rebuild id source.userFunctions
    typeAliases := Table.rebuild id source.typeAliases
    marks := fun t ↦
      match t with
      | .policyWarned => source.marks .policyWarned
      | _ => []
    nodeName := some certname
    defaultNode := source.defaultNode
    currentNodeCertname := some certname
    parallelNodes := true
    factsCurrentNode := source.factsCurrentNode
    hieraCaches := source.hieraCaches
    parsedManifests := source.parsedManifests
    loadedClasses := source.loadedClasses }

/-! ### Structure -/

theorem nodeStructured_startCertname (certname : String) :
    NodeStructured (startCertname w certname) :=
  .bind (.quiet _) fun _ ↦ .bind (.node _) fun _ ↦ .bind (.node _) fun _ ↦
    .bind (.quiet _) fun _ ↦ .ite (.bind (.node _) fun _ ↦ .ite (.pure _) (.quiet _)) (.pure _)

theorem nodeStructured_finishCertname (certname : String) :
    NodeStructured (finishCertname w certname) :=
  .bind (.quiet _) fun _ ↦ .bind (.quiet _) fun _ ↦ .ite
    (.bind (.node _) fun _ ↦ .bind (.quiet _) fun _ ↦ .bind (.node _) fun _ ↦ .node _) (.node _)

theorem nodeStructured_execNodeBody (topLevel : List Stmt) (n : NodeStmt) (certname : String) :
    NodeStructured (execNodeBody topLevel n certname) :=
  .inNewScope fun _ ↦ .bind (.node _) fun _ ↦ .bind (.quiet _) fun _ ↦ .bind (.quiet _) fun _ ↦
    .bind (.node _) fun _ ↦ .pure _

theorem nodeStructured_execNodeForCertname (topLevel : List Stmt) (n : NodeStmt)
    (certname : String) : NodeStructured (execNodeForCertname w topLevel n certname) :=
  .bind (.quiet _) fun _ ↦ .ite (.pure _) <| .bind (nodeStructured_startCertname w certname)
    fun _ ↦ .bind (nodeStructured_execNodeBody topLevel n certname) fun _ ↦
      nodeStructured_finishCertname w certname

theorem nodeStructured_execTopLevel (topLevel : List Stmt) :
    NodeStructured (execTopLevel w topLevel) := by
  refine .bind (.node _) fun _ ↦ .bind (.quiet _) fun allNodes ↦ ?_
  cases h : allNodes && !w.certnames.isEmpty with
  | false => simpa only [h] using .bind (.quiet _) fun _ ↦ .pure _
  | true =>
    simpa only [h] using .bind (.node _) fun _ ↦ .bind (.quiet _) fun _ ↦ .node _

theorem nodeStructured_execFallback : NodeStructured (execFallback w) := by
  refine .bind (.quiet _) fun _ ↦ .bind (.quiet _) fun _ ↦ .bind (.quiet _) fun _ ↦ ?_
  split
  · exact .bind (.node _) fun _ ↦ .bind (.node _) fun _ ↦
      .bind (nodeStructured_execNodeStmt w _) fun _ ↦ .node _
  · exact .pure _

/-- A program is structured. -/
theorem nodeStructured_execProgram (topLevel : List Stmt) :
    NodeStructured (execProgram w topLevel) := by
  refine .bind (nodeStructured_execTopLevel w topLevel) fun _ ↦ .bind (.quiet _) fun _ ↦
    .ite (.forM (fun certname ↦ .bind (.quiet _) fun defs ↦ ?_) _) (nodeStructured_execFallback w)
  cases findMatchingNode w.regexec defs certname with
  | some n => exact nodeStructured_execNodeForCertname w topLevel n certname
  | none => exact .quiet _

end World

end PuppetC
