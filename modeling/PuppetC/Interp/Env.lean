import PuppetC.Facts
import PuppetC.Hiera.Lookup
import PuppetC.Interp.Catalog
import PuppetC.Interp.Operators
import PuppetC.Support.Program

/-!
# The environment of a compile

The state an evaluation works on (`puppet_env_t`), as a record, and the primitive operations on
it. The functions of the interpreter are programs over these operations.

A scope is an object in memory, so it has an identity. The global scope and the `node` scope
that is made together with the environment belong to the environment; the others are cells of a
heap, and reading or writing a cell after its scope was destroyed is undefined behaviour.

Operations are of four kinds. Frame operations change what a call is bound to restore: the
current scope and the scope stack, the class scope, the calling module and the depth counters.
Own operations create and give up what belongs to one call: its scope, its part of the queue of
defined types. Node operations start and end the compile of a node and keep the accounts of it.
Quiet operations leave all of this alone.

## Main definitions

* `ScopeId`, `Scope`, `Frame`, `NodeState`, `Env`: the record.
* `Env.lookupScopes`, `Env.lookupQualified`: the reads of scopes that a variable lookup makes.
* `Call`: the functions that the recursion of the interpreter goes through.
* `QuietOp`, `FrameOp`, `OwnOp`, `NodeOp`, `EnvOp`: the operations.
* `Quiet`, `Comp`: programs over them.
* `bracket`, `inNewScope`: programs between a change of the frame and its undoing.
-/

namespace PuppetC

/-! ### Scopes -/

/-- Which scope object: the global scope, the `node` scope made with the environment, or a cell
of the heap. -/
inductive ScopeId where
  | global
  | node
  | cell (n : ℕ)
  deriving DecidableEq

/-- `puppet_scope_t`. -/
structure Scope where
  name : String
  parent : Option ScopeId
  vars : Hash 16 Value

/-- A cell of the heap: a scope, whether it still exists, and whether the call that creates it
destroys it. -/
structure ScopeCell where
  scope : Scope
  live : Bool
  temporary : Bool

/-- Where a new scope hangs: the current scope, `env->node_scope` or a given one. -/
inductive ScopeParent where
  | current
  | nodeScope
  | scope (id : ScopeId)
  deriving DecidableEq

/-! ### Resources waiting for their turn -/

/-- `puppet_virtual_resource_t`. -/
structure VirtualResource where
  type : String
  title : String
  attrs : List (String × Value)
  realized : Bool
  deriving DecidableEq

/-- An instance of a defined type as its declaration queues it. -/
structure QueuedDefine where
  defineStmt : DefineStmt
  inst : ResourceInstance Expr
  typeName : String
  title : String
  resourceId : String

/-- What is recorded of a queued instance: its number, counted over the compile, the scope of its
declaration, whether it was declared in a place from where it can be run (`Env.wellPlaced`), and
whether its body has been started. -/
structure DeferredMark where
  ticket : ℕ
  callerScope : ScopeId
  placed : Bool
  started : Bool
  deriving DecidableEq

/-- `puppet_deferred_define_t`. -/
structure DeferredDefine extends QueuedDefine, DeferredMark where
  overrideAttrs : Hash 8 Value
  classReexecuting : Bool

/-- What happens to the instances of defined types: one is queued, or its body is about to run,
with its caller's scope still there or not. -/
inductive DeferredEvent where
  | queued (ticket : ℕ) (placed : Bool)
  | executed (ticket : ℕ) (placed callerLive : Bool)
  deriving DecidableEq

/-! ### The record -/

/-- The fields that a call restores before it returns. The stack has its top first. -/
structure Frame where
  currentScope : ScopeId
  scopeStack : List ScopeId
  classScope : Option ScopeId
  callerModuleName : Option String
  classReexecuting : Bool
  funcCallDepth : ℕ
  inTruthinessCheck : ℤ
  deriving DecidableEq

/-- The two ways in which the block of a node is executed: for a node of the facts database
(`puppet_exec_node_for_certname`), and as a statement (`puppet_exec_node`). -/
inductive NodeRun where
  | certname
  | statement
  deriving DecidableEq

/-- What happens to nodes: the execution of a block is started, or found to have failed. -/
inductive NodeEvent where
  | started (run : NodeRun) (name : String)
  | failed (run : NodeRun) (name : String)
  deriving DecidableEq

/-- The fields that only the execution of nodes changes. The last one records it, and is read by
no function of the interpreter. -/
structure NodeState where
  nodeScope : ScopeId
  nodeName : Option String
  executeAllNodes : Bool
  nodeMatched : Bool
  defaultNode : Option NodeStmt
  nodeDefinitions : List NodeStmt
  deferNodeExecution : Bool
  nodesProcessed : ℕ
  nodesFailed : ℕ
  nodesSkippedRegex : ℕ
  currentNodeCertname : Option String
  stopOnError : Bool
  parallelNodes : Bool
  nodeEvents : List NodeEvent

/-- The tables of names that only ever hold a mark. -/
inductive MarkTable where
  | resourceCatalog
  | classResourceDecls
  | classesBeingReexecuted
  | modulesP8Checked
  | pendingRealizes
  | policyWarned
  deriving DecidableEq

/-- Resources that are declared but not in the catalog. -/
inductive StoredTable where
  | virtualResources
  | exportedResources
  deriving DecidableEq

/-- `puppet_env_t`, with the process-wide state a compile writes: the caches of Hiera and of the
loader, the current node of the facts database, the resources exported to PuppetDB. The fields from
`tickets` on record what happens in the compile and are read by no function of the interpreter. -/
structure Env extends Frame, NodeState where
  globalScope : Scope
  ownNodeScope : Scope
  scopes : List ScopeCell
  classDefinitions : List ClassStmt
  defineTypes : Hash 64 DefineStmt
  userFunctions : Hash 64 FunctionStmt
  typeAliases : Hash 64 String
  classScopes : Hash 32 ScopeId
  marks : MarkTable → List String
  stored : StoredTable → Hash 64 VirtualResource
  currentTags : Option (List Value)
  compilationFailed : Bool
  failureMessage : Option String
  inHieraInterpolation : Bool
  catalog : Option Catalog
  buildCatalog : Bool
  puppetdb : Bool
  exports : List (String × VirtualResource)
  errorsCount : ℕ
  warningsCount : ℕ
  currentNodeFailed : Bool
  factsCurrentNode : Option String
  hieraCaches : ℕ → Hash 16 Value
  parsedManifests : List String
  loadedClasses : List (String × ClassStmt)
  deferredDefines : List DeferredDefine
  diagnostics : List Diagnostic
  tickets : ℕ
  events : List DeferredEvent
  listStarts : List ℕ
  reads : List (String × Option Value)

namespace Env

/-- The scope object with an identity, unless it was destroyed. -/
def scope (env : Env) : ScopeId → Option Scope
  | .global => some env.globalScope
  | .node => some env.ownNodeScope
  | .cell n =>
    match env.scopes[n]? with
    | some c => if c.live then some c.scope else none
    | none => none

/-- Replace a scope object. -/
def putScope (env : Env) (id : ScopeId) (s : Scope) : Env :=
  match id with
  | .global => { env with globalScope := s }
  | .node => { env with ownNodeScope := s }
  | .cell n => { env with scopes := env.scopes.modify n fun c ↦ { c with scope := s } }

/-- More than the length of any chain of parents without a cycle. -/
def maxDepth (env : Env) : ℕ := env.scopes.length + 3

/-! ### Reads of scopes

The reads are `none` where they touch a destroyed scope. -/

/-- `puppet_scope_get_var`, through `depth` scopes at most. -/
def scopeGetVar (env : Env) (name : String) (recursive : Bool) :
    ℕ → ScopeId → Option (Option Value)
  | 0, _ => none
  | depth + 1, id =>
    match env.scope id with
    | none => none
    | some s =>
      match s.vars.get name with
      | some v => some (some v)
      | none =>
        match recursive, s.parent with
        | true, some parent => scopeGetVar env name recursive depth parent
        | _, _ => some none

/-- `puppet_scope_get_var`. -/
def getVar (env : Env) (id : ScopeId) (name : String) (recursive : Bool) :
    Option (Option Value) :=
  env.scopeGetVar name recursive env.maxDepth id

/-- Steps 1 to 4 of `puppet_variable_lookup_chain`: the current scope with its parents, the
class scope, the node scope and the global scope. -/
def lookupScopes (env : Env) (name : String) (topLevelOnly : Bool) : Option (Option Value) :=
  let orElse (found : Option (Option Value)) (next : Option (Option Value)) :=
    match found with
    | some none => next
    | _ => found
  let skip : Option (Option Value) := some none
  let inClass :=
    match env.classScope with
    | some id => if id = env.currentScope then skip else env.getVar id name false
    | none => skip
  let inNode :=
    if env.nodeScope = env.currentScope then skip else env.getVar env.nodeScope name false
  let inGlobal :=
    if ScopeId.global = env.currentScope && !topLevelOnly then skip
    else env.getVar .global name false
  if topLevelOnly then inGlobal
  else orElse (env.getVar env.currentScope name true) (orElse inClass (orElse inNode inGlobal))

/-- The nearest scope of a name, from `id` on through `depth` scopes at most. -/
def findScope (env : Env) (name : String) : ℕ → Option ScopeId → Option (Option ScopeId)
  | _, none => some none
  | 0, some _ => none
  | depth + 1, some id =>
    match env.scope id with
    | none => none
    | some s => if s.name = name then some (some id) else findScope env name depth s.parent

/-- A qualified variable in the scope that `class_scopes` holds for its class. -/
def lookupIncluded (env : Env) (className varName : String) : Option (Option (Option Value)) :=
  match env.classScopes.get className with
  | some id => (env.getVar id varName true).map some
  | none => some none

/-- A qualified variable in a class that is included, or in the first scope of its name, or in
the class scope if that has its name; the answer is `some none` where there is no such scope. -/
def lookupQualified (env : Env) (className varName : String) :
    Option (Option (Option Value)) :=
  match env.classScopes.get className with
  | some id => (env.getVar id varName true).map some
  | none =>
    match env.findScope className env.maxDepth (some env.currentScope) with
    | none => none
    | some (some id) => (env.getVar id varName true).map some
    | some none =>
      match env.classScope with
      | none => some none
      | some id =>
        match env.scope id with
        | none => none
        | some s =>
          if s.name = className then (env.getVar id varName true).map some else some none

/-- The name of the class scope. -/
def classScopeName (env : Env) : Option (Option String) :=
  match env.classScope with
  | none => some none
  | some id => (env.scope id).map fun s ↦ some s.name

/-- Environments with the same scopes. -/
structure SameScopes (env env' : Env) : Prop where
  frame : env'.toFrame = env.toFrame
  nodeScope : env'.nodeScope = env.nodeScope
  globalScope : env'.globalScope = env.globalScope
  ownNodeScope : env'.ownNodeScope = env.ownNodeScope
  scopes : env'.scopes = env.scopes
  classScopes : env'.classScopes = env.classScopes

namespace SameScopes

variable {env env' : Env} (h : env.SameScopes env')

include h

theorem scope (id : ScopeId) : env'.scope id = env.scope id := by
  cases id with
  | global => exact congrArg some h.globalScope
  | node => exact congrArg some h.ownNodeScope
  | cell n => simp only [Env.scope, h.scopes]

theorem scopeGetVar (name : String) (recursive : Bool) (depth : ℕ) (id : ScopeId) :
    env'.scopeGetVar name recursive depth id = env.scopeGetVar name recursive depth id := by
  induction depth generalizing id with
  | zero => rfl
  | succ depth ih => simp only [Env.scopeGetVar, h.scope, ih]

theorem findScope (name : String) (depth : ℕ) (id : Option ScopeId) :
    env'.findScope name depth id = env.findScope name depth id := by
  induction depth generalizing id with
  | zero => cases id <;> rfl
  | succ depth ih =>
    cases id with
    | none => rfl
    | some id => simp only [Env.findScope, h.scope, ih]

theorem getVar (id : ScopeId) (name : String) (recursive : Bool) :
    env'.getVar id name recursive = env.getVar id name recursive := by
  simp only [Env.getVar, Env.maxDepth, h.scopes, h.scopeGetVar]

theorem currentScope : env'.currentScope = env.currentScope :=
  congrArg Frame.currentScope h.frame

theorem classScope : env'.classScope = env.classScope :=
  congrArg Frame.classScope h.frame

/-- A variable is looked up in the scopes. -/
theorem lookupScopes (name : String) (topLevelOnly : Bool) :
    env'.lookupScopes name topLevelOnly = env.lookupScopes name topLevelOnly := by
  simp only [Env.lookupScopes, h.getVar, h.currentScope, h.classScope, h.nodeScope]

theorem lookupIncluded (className varName : String) :
    env'.lookupIncluded className varName = env.lookupIncluded className varName := by
  simp only [Env.lookupIncluded, h.getVar, h.classScopes]

theorem lookupQualified (className varName : String) :
    env'.lookupQualified className varName = env.lookupQualified className varName := by
  simp only [Env.lookupQualified, h.getVar, h.classScopes, h.findScope, h.currentScope,
    h.classScope, h.scope, Env.maxDepth, h.scopes]

theorem classScopeName : env'.classScopeName = env.classScopeName := by
  simp only [Env.classScopeName, h.classScope, h.scope]

end SameScopes

/-! ### Counters and messages -/

/-- `puppet_env_increment_error`. -/
def incrementError (env : Env) : Env :=
  { env with errorsCount := env.errorsCount + 1, currentNodeFailed := true }

/-- `puppet_env_increment_warning`. -/
def incrementWarning (env : Env) : Env := { env with warningsCount := env.warningsCount + 1 }

/-- Print a message and count it: `puppet_error_at`, `puppet_warning_at`, `puppet_log_loc`. -/
def emit (env : Env) (d : Diagnostic) : Env :=
  let env := { env with diagnostics := env.diagnostics ++ [d] }
  match d.severity with
  | .error | .logError | .critical => env.incrementError
  | .warning | .logWarning => env.incrementWarning
  | .note | .info | .notice | .debug => env

/-! ### Registries -/

/-- `puppet_find_class_def`. -/
def findClassDef (env : Env) (name : String) : Option ClassStmt :=
  env.classDefinitions.find? fun c ↦ stripTop c.name == stripTop name

/-- Put a key into a table of marks. -/
def mark (env : Env) (t : MarkTable) (key : String) : Env :=
  { env with
      marks := fun t' ↦
        if t' = t then (if (env.marks t).contains key then env.marks t else key :: env.marks t)
        else env.marks t' }

/-- `puppet_hash_set` on a table of stored resources. -/
def setStored (env : Env) (t : StoredTable) (key : String) (r : VirtualResource) : Env :=
  { env with
      stored := fun t' ↦ if t' = t then (env.stored t).set key r else env.stored t' }

/-- Is the scope a scope that still exists? -/
def isLive (env : Env) (id : ScopeId) : Bool := (env.scope id).isSome

/-- Does a scope last longer than a statement list that started when there were `start` cells?
Scopes that no call destroys do, and those that were there before the list. -/
def outlasts (env : Env) (start : ℕ) : ScopeId → Bool
  | .global | .node => true
  | .cell n =>
    match env.scopes[n]? with
    | some c => c.live && (!c.temporary || n < start)
    | none => false

/-- Does a scope last longer than the innermost statement list? -/
def lasts (env : Env) (id : ScopeId) : Bool :=
  match env.listStarts with
  | [] => false
  | start :: _ => env.outlasts start id

/-- Is a statement list being executed, and does the current scope last longer? -/
def wellPlaced (env : Env) : Bool := env.lasts env.currentScope

end Env

/-! ### Operations -/

/-- Why a run stops before it returns. -/
inductive Halt where
  | outOfFuel
  | undefinedBehaviour
  deriving DecidableEq

/-- Calls of the functions that the interpreter's recursion goes through. -/
inductive Call : Type → Type where
  | evalExpr (e : Expr) : Call Value
  | execStmt (s : Stmt) : Call Unit
  | execStmtList (ss : List Stmt) : Call Unit
  | includeClassFromDef (c : ClassStmt) : Call Unit
  | loaderIncludeClass (name : String) : Call Bool
  | lookupChain (name : String) : Call (Option Value)
  | providerLookup (provider : ℕ) (key : String) : Call (Option Value)
  | matchesFilter (filter : Expr) (vres : VirtualResource) : Call Bool

/-- The loop of a statement list over its queue, which nothing else calls. -/
inductive Flush : Type → Type where
  | flushDeferred (cursor : ℕ) : Flush Unit

/-- The procedures of the interpreter. -/
inductive Procedure (β : Type) : Type where
  | call (c : Call β)
  | flush (f : Flush β)

/-- Fields that programs read. `factless` is the test for the pre-pass over the top-level
statements, `building` the test for a catalog under construction. -/
inductive EnvField : Type → Type where
  | callerModuleName : EnvField (Option String)
  | classReexecuting : EnvField Bool
  | funcCallDepth : EnvField ℕ
  | inTruthinessCheck : EnvField Bool
  | factless : EnvField Bool
  | deferNodeExecution : EnvField Bool
  | executeAllNodes : EnvField Bool
  | nodeName : EnvField (Option String)
  | currentNodeCertname : EnvField (Option String)
  | currentNodeFailed : EnvField Bool
  | stopOnError : EnvField Bool
  | parallelNodes : EnvField Bool
  | inHieraInterpolation : EnvField Bool
  | currentTags : EnvField (Option (List Value))
  | building : EnvField Bool
  | buildCatalog : EnvField Bool
  | catalog : EnvField (Option Catalog)
  | puppetdb : EnvField Bool
  | exports : EnvField (List (String × VirtualResource))
  | classScopeNames : EnvField (List String)
  | deferredCount : EnvField ℕ
  | nodeDefinitions : EnvField (List NodeStmt)
  | nodeMatched : EnvField Bool
  | defaultNode : EnvField (Option NodeStmt)

/-- Operations on the environment that leave the frame alone. -/
inductive EnvPrim : Type → Type where
  | nodeFacts : EnvPrim (Option NodeFacts)
  | emit (d : Diagnostic) : EnvPrim Unit
  | incrementError : EnvPrim Unit
  | incrementWarning : EnvPrim Unit
  | setFailure (message : String) : EnvPrim Unit
  | createClassScope (parent : ScopeParent) (className : String) : EnvPrim ScopeId
  | lookupScopes (name : String) (topLevelOnly : Bool) : EnvPrim (Option Value)
  | lookupQualified (className varName : String) : EnvPrim (Option (Option Value))
  | lookupIncluded (className varName : String) : EnvPrim (Option (Option Value))
  | getVar (name : String) : EnvPrim (Option Value)
  | setVar (name : String) (value : Value) : EnvPrim Unit
  | setVarIn (id : ScopeId) (name : String) (value : Value) : EnvPrim Unit
  | classScopeName : EnvPrim (Option String)
  | recordRead (name : String) (value : Option Value) : EnvPrim Unit
  | registerClassDef (c : ClassStmt) : EnvPrim Unit
  | findClassDef (name : String) : EnvPrim (Option ClassStmt)
  | getDefineType (name : String) : EnvPrim (Option DefineStmt)
  | setDefineType (name : String) (d : DefineStmt) : EnvPrim Unit
  | getUserFunction (name : String) : EnvPrim (Option FunctionStmt)
  | setUserFunction (name : String) (f : FunctionStmt) : EnvPrim Unit
  | getTypeAlias (name : String) : EnvPrim (Option String)
  | setTypeAlias (name typeStr : String) : EnvPrim Unit
  | getClassScope (name : String) : EnvPrim (Option ScopeId)
  | isMarked (t : MarkTable) (key : String) : EnvPrim Bool
  | mark (t : MarkTable) (key : String) : EnvPrim Unit
  | getStored (t : StoredTable) (key : String) : EnvPrim (Option VirtualResource)
  | setStored (t : StoredTable) (key : String) (r : VirtualResource) : EnvPrim Unit
  | storedBucket (t : StoredTable) (bucket : ℕ) : EnvPrim (List String)
  | recordExport (certname : String) (r : VirtualResource) : EnvPrim Unit
  | initTags : EnvPrim Unit
  | addTag (tag : Value) : EnvPrim Unit
  | setHieraInterpolation (on : Bool) : EnvPrim Bool
  | hieraRead (provider : ℕ) (key : String) : EnvPrim (Option Value)
  | hieraWrite (provider : ℕ) (key : String) (value : Value) : EnvPrim Unit
  | isParsed (path : String) : EnvPrim Bool
  | recordParsed (path : String) : EnvPrim Unit
  | getLoadedClass (name : String) : EnvPrim (Option ClassStmt)
  | recordLoadedClass (name : String) (c : ClassStmt) : EnvPrim Unit
  | addResource (type title : String) (params : List (String × Value)) : EnvPrim Bool
  | changeCatalog (f : Catalog → Catalog) : EnvPrim Unit
  | queueDeferred (d : QueuedDefine) : EnvPrim Unit
  | getDeferred (i : ℕ) : EnvPrim DeferredDefine
  | findDeferred (resourceId : String) : EnvPrim (Option ℕ)
  | overrideDeferred (i : ℕ) (name : String) (value : Value) : EnvPrim Unit
  | undefined : EnvPrim Unit

/-- Quiet operations: reads of fields, and operations that leave the frame alone. -/
inductive QuietOp (β : Type) : Type where
  | read (f : EnvField β)
  | prim (o : EnvPrim β)

/-- Operations on the frame. Those that set a field answer its old value. -/
inductive FrameOp : Type → Type where
  | pushScope (id : ScopeId) : FrameOp Unit
  | popScope : FrameOp ScopeId
  | setCurrentScope (id : ScopeId) : FrameOp ScopeId
  | setClassScope (id : Option ScopeId) : FrameOp (Option ScopeId)
  | setCallerModuleName (name : Option String) : FrameOp (Option String)
  | setClassReexecuting (on : Bool) : FrameOp Bool
  | enterCall : FrameOp Unit
  | leaveCall : FrameOp Unit
  | enterTruth : FrameOp Unit
  | leaveTruth : FrameOp Unit

/-- Operations on what a call creates for itself and gives up before it returns: a scope, the
part of the queue that belongs to a statement list. -/
inductive OwnOp : Type → Type where
  | createScope (parent : ScopeParent) (name : String) : OwnOp ScopeId
  | destroyScope (id : ScopeId) : OwnOp Unit
  | startList : OwnOp Unit
  | endList : OwnOp Unit
  | startDeferred (i : ℕ) : OwnOp DeferredDefine
  | truncateDeferred (count : ℕ) : OwnOp Unit

/-- Operations that belong to the execution of nodes. `setNodeScope` answers the old scope, and
`setFactsNode` whether the facts database has the node. -/
inductive NodeOp : Type → Type where
  | setNodeScope (id : ScopeId) : NodeOp ScopeId
  | setDefaultNode (n : NodeStmt) : NodeOp Unit
  | registerNodeDef (n : NodeStmt) : NodeOp Unit
  | skipRegexNode : NodeOp Unit
  | resetNodes : NodeOp Unit
  | setDeferNodeExecution (on : Bool) : NodeOp Unit
  | setNodeName (name : Option String) : NodeOp Unit
  | setCurrentNodeCertname (certname : String) : NodeOp Unit
  | startNode (run : NodeRun) (name certname : String) : NodeOp Unit
  | clearNodeTables (modulesToo : Bool) : NodeOp Unit
  | setFactsNode (certname : String) : NodeOp Bool
  | failNode (run : NodeRun) (name : String) : NodeOp Unit
  | setStopOnError : NodeOp Unit
  | endNode : NodeOp Unit

/-- The operations of the interpreter. -/
inductive EnvOp (β : Type) : Type where
  | quiet (o : QuietOp β)
  | frame (o : FrameOp β)
  | own (o : OwnOp β)
  | node (o : NodeOp β)

/-! ### Programs -/

/-- Programs whose own operations leave the frame alone. -/
abbrev Quiet : Type → Type 1 := Prog (Calls Call QuietOp)

/-- Programs of the interpreter. -/
abbrev Comp : Type → Type 1 := Prog (Calls Procedure EnvOp)

/-- A quiet operation or call as one of the interpreter. -/
def liftOp : (β : Type) → Calls Call QuietOp β → Calls Procedure EnvOp β
  | _, .call c => .call (.call c)
  | _, .prim o => .prim (.quiet o)

instance : MonadLift Quiet Comp := ⟨Prog.translate liftOp⟩

/-- Read a field. -/
def read {β : Type} (f : EnvField β) : Quiet β := Prog.perform (.prim (.read f))

/-- Perform an operation. -/
def perform {β : Type} (o : EnvPrim β) : Quiet β := Prog.perform (.prim (.prim o))

/-- Perform an operation on the frame. -/
def onFrame {β : Type} (o : FrameOp β) : Comp β := Prog.perform (.prim (.frame o))

/-- Perform an operation on what the call owns. -/
def onOwn {β : Type} (o : OwnOp β) : Comp β := Prog.perform (.prim (.own o))

/-- Perform an operation that belongs to the execution of nodes. -/
def onNode {β : Type} (o : NodeOp β) : Comp β := Prog.perform (.prim (.node o))

/-- Run the queued instances from `cursor` on. -/
def flushDeferred (cursor : ℕ) : Comp Unit :=
  Prog.perform (.call (.flush (.flushDeferred cursor)))

/-- Call a function of the interpreter. -/
def call {β : Type} (c : Call β) : Quiet β := Prog.perform (.call c)

/-- `puppet_eval_expr`, as a call. -/
def evalExpr (e : Expr) : Quiet Value := call (.evalExpr e)

/-- `puppet_exec_stmt`, as a call. -/
def execStmt (s : Stmt) : Quiet Unit := call (.execStmt s)

/-- `puppet_exec_stmt_list`, as a call. -/
def execStmtList (ss : List Stmt) : Quiet Unit := call (.execStmtList ss)

/-- Print a message of a kind. -/
def emit (severity : Severity) (text : String) : Quiet Unit := perform (.emit ⟨severity, text⟩)

/-- `puppet_error_at` followed by `puppet_env_increment_error`: the error is counted twice. -/
def errorCounted (text : String) : Quiet Unit := do
  emit .error text
  perform .incrementError

/-- The statements of a body, one by one. -/
def execEach (ss : List Stmt) : Quiet Unit := ss.forM execStmt

/-! ### Frames

The source saves a field of the frame, changes it, runs something and puts the field back. -/

/-- Change the frame, run a program, and undo the change. -/
def bracket {α β γ : Type} (enter : FrameOp β) (leave : β → FrameOp γ) (p : Comp α) :
    Comp α := do
  let b ← onFrame enter
  let a ← p
  let _ ← onFrame (leave b)
  return a

/-- Between `puppet_scope_push` and `puppet_scope_pop`. -/
def inScope {α : Type} (id : ScopeId) : Comp α → Comp α :=
  bracket (.pushScope id) fun _ ↦ .popScope

/-- With another class scope. -/
def withClassScope {α : Type} (id : ScopeId) : Comp α → Comp α :=
  bracket (.setClassScope (some id)) .setClassScope

/-- With the module of a class as the calling module. -/
def withCallerModule {α : Type} (className : String) : Comp α → Comp α :=
  bracket (.setCallerModuleName (some (moduleOf className))) .setCallerModuleName

/-- With another value of `class_reexecuting`. -/
def withReexecuting {α : Type} (on : Bool) : Comp α → Comp α :=
  bracket (.setClassReexecuting on) .setClassReexecuting

/-- With another current scope. -/
def withCurrentScope {α : Type} (id : ScopeId) : Comp α → Comp α :=
  bracket (.setCurrentScope id) .setCurrentScope

/-- One call deeper. -/
def withCall {α : Type} : Comp α → Comp α := bracket .enterCall fun _ ↦ .leaveCall

/-- In a context where a value is only checked for truth. -/
def withTruth {α : Type} : Comp α → Comp α := bracket .enterTruth fun _ ↦ .leaveTruth

/-- The same, if `on` holds. -/
def withTruthIf {α : Type} (on : Bool) (p : Comp α) : Comp α := if on then withTruth p else p

/-- In a new scope, which is destroyed at the end. -/
def inNewScope {α : Type} (parent : ScopeParent) (name : String) (p : ScopeId → Comp α) :
    Comp α := do
  let scope ← onOwn (.createScope parent name)
  onFrame (.pushScope scope)
  let a ← p scope
  let popped ← onFrame .popScope
  onOwn (.destroyScope popped)
  return a

end PuppetC
