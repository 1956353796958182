import PuppetC.Interp.Env

/-!
# The world of a compile and the meaning of its operations

A compile runs against files, facts, Hiera data, modules and functions that it never changes.
They are collected in `World`; the parts of the program that this model does not open up, such
as the functions of the standard library, are quiet programs there, about which nothing is
assumed.

## Main definitions

* `Loader`, `World`: what a compile reads.
* `Env.create`: the environment at the start.
* `FrameOp.apply`, `EnvField.get`, `EnvPrim.handle`, `OwnOp.handle`, `NodeOp.handle`: the
  meaning of the operations.
* `EnvOp.handle`: the meaning of all operations, in a world.

## Main results

* `QuietOp.handle_toFrame`: quiet operations leave the frame alone.
-/

namespace PuppetC

/-- `puppet_loader_t`, with the files it finds. -/
structure Loader where
  modulesPath : String
  manifestsPath : Option String
  fileExists : String → Bool
  parseFile : String → Option (List Stmt)
  lintLegacyFacts : List Stmt → List Diagnostic
  puppet8Incompatible : String → Option (Option String)
  hasCustomFunction : String → Bool

/-- An entry of the resource policy: the types and titles it is about, and its message. -/
structure PolicyEntry where
  matchesType : String → Bool
  matchesTitle : String → Bool
  reason : Option String
  levelError : Bool

/-- A resource that PuppetDB answers a query with. -/
structure ExportedResource where
  type : String
  title : String
  certname : Option String
  parameters : List (String × Value)

/-- What a compile reads and never changes. What PuppetDB answers depends on what the compile
exported before. -/
structure World : Type 1 where
  regexec : String → String → Bool
  loader : Option Loader
  rubyTypes : List String
  factsDb : Option FactsDb
  providers : List HieraConfig
  hieraFiles : String → Option Value
  moduleHieraPaths : String → Option (List String)
  moduleHieraFiles : String → Option Value
  policy : List PolicyEntry
  puppetdbQuery : List (String × VirtualResource) → String → List ExportedResource
  puppetdbStore : VirtualResource → Bool
  validateCatalog : Catalog → List Diagnostic
  valueMatchesType : Value → String → Option Expr → Quiet Bool
  valueMatchesTypeStr : Value → String → Quiet Bool
  stdlib : String → List Expr → Option (Lambda Expr Stmt) → Quiet Value

/-- A world without files, facts and data. -/
def World.bare : World where
  regexec _ _ := false
  loader := none
  rubyTypes := []
  factsDb := none
  providers := []
  hieraFiles _ := none
  moduleHieraPaths _ := none
  moduleHieraFiles _ := none
  policy := []
  puppetdbQuery _ _ := []
  puppetdbStore _ := false
  validateCatalog _ := []
  valueMatchesType _ _ _ := return true
  valueMatchesTypeStr _ _ := return true
  stdlib _ _ _ := return Value.undef

/-- `puppet_env_create`. -/
def Env.create : Env where
  currentScope := .global
  scopeStack := []
  classScope := none
  callerModuleName := none
  classReexecuting := false
  funcCallDepth := 0
  inTruthinessCheck := 0
  globalScope := ⟨"global", none, Table.empty⟩
  ownNodeScope := ⟨"node", some .global, Table.empty⟩
  scopes := []
  nodeScope := .node
  nodeName := none
  executeAllNodes := false
  nodeMatched := false
  defaultNode := none
  nodeDefinitions := []
  deferNodeExecution := false
  nodeEvents := []
  classDefinitions := []
  defineTypes := Table.empty
  userFunctions := Table.empty
  typeAliases := Table.empty
  classScopes := Table.empty
  marks _ := []
  stored _ := Table.empty
  currentTags := none
  compilationFailed := false
  failureMessage := none
  inHieraInterpolation := false
  catalog := none
  buildCatalog := false
  puppetdb := false
  exports := []
  nodesProcessed := 0
  nodesFailed := 0
  nodesSkippedRegex := 0
  errorsCount := 0
  warningsCount := 0
  currentNodeCertname := none
  currentNodeFailed := false
  stopOnError := false
  parallelNodes := false
  factsCurrentNode := none
  hieraCaches _ := Table.empty
  parsedManifests := []
  loadedClasses := []
  deferredDefines := []
  diagnostics := []
  tickets := 0
  events := []
  listStarts := []
  reads := []

/-! ### Frame operations -/

/-- The meaning of an operation on the frame. -/
def FrameOp.apply {β : Type} : FrameOp β → Frame → β × Frame
  | .pushScope id, f =>
    ((), { f with scopeStack := f.currentScope :: f.scopeStack, currentScope := id })
  | .popScope, f =>
    match f.scopeStack with
    | [] => (f.currentScope, f)
    | id :: stack => (f.currentScope, { f with scopeStack := stack, currentScope := id })
  | .setCurrentScope id, f => (f.currentScope, { f with currentScope := id })
  | .setClassScope id, f => (f.classScope, { f with classScope := id })
  | .setCallerModuleName name, f => (f.callerModuleName, { f with callerModuleName := name })
  | .setClassReexecuting on, f => (f.classReexecuting, { f with classReexecuting := on })
  | .enterCall, f => ((), { f with funcCallDepth := f.funcCallDepth + 1 })
  | .leaveCall, f => ((), { f with funcCallDepth := f.funcCallDepth - 1 })
  | .enterTruth, f => ((), { f with inTruthinessCheck := f.inTruthinessCheck + 1 })
  | .leaveTruth, f => ((), { f with inTruthinessCheck := f.inTruthinessCheck - 1 })

/-! ### Quiet operations -/

/-- The value of a field. -/
def EnvField.get {β : Type} : EnvField β → Env → β
  | .callerModuleName, env => env.callerModuleName
  | .classReexecuting, env => env.classReexecuting
  | .funcCallDepth, env => env.funcCallDepth
  | .inTruthinessCheck, env => env.inTruthinessCheck ≠ 0
  | .factless, env => env.executeAllNodes && env.currentNodeCertname.isNone
  | .deferNodeExecution, env => env.deferNodeExecution
  | .executeAllNodes, env => env.executeAllNodes
  | .nodeName, env => env.nodeName
  | .currentNodeCertname, env => env.currentNodeCertname
  | .currentNodeFailed, env => env.currentNodeFailed
  | .stopOnError, env => env.stopOnError
  | .parallelNodes, env => env.parallelNodes
  | .inHieraInterpolation, env => env.inHieraInterpolation
  | .currentTags, env => env.currentTags
  | .building, env => env.buildCatalog && env.catalog.isSome
  | .buildCatalog, env => env.buildCatalog
  | .catalog, env => env.catalog
  | .puppetdb, env => env.puppetdb
  | .exports, env => env.exports
  | .classScopeNames, env => env.classScopes.keys
  | .deferredCount, env => env.deferredDefines.length
  | .nodeDefinitions, env => env.nodeDefinitions
  | .nodeMatched, env => env.nodeMatched
  | .defaultNode, env => env.defaultNode

/-- A read that may touch a destroyed scope. -/
def orUndefined {α : Type} (env : Env) : Option α → Except Halt (α × Env)
  | some a => .ok (a, env)
  | none => .error .undefinedBehaviour

/-- Write a variable of a scope. -/
def Env.setVarIn (env : Env) (id : ScopeId) (name : String) (value : Value) : Option Env :=
  (env.scope id).map fun s ↦ env.putScope id { s with vars := s.vars.set name value }

/-- The scope a new scope hangs under. -/
def Env.parentId (env : Env) : ScopeParent → ScopeId
  | .current => env.currentScope
  | .nodeScope => env.nodeScope
  | .scope id => id

/-- `puppet_scope_create`. -/
def Env.createScope (env : Env) (parent : ScopeParent) (name : String) (temporary : Bool) :
    ScopeId × Env :=
  (.cell env.scopes.length,
    { env with
        scopes := env.scopes ++
          [⟨⟨name, some (env.parentId parent), Table.empty⟩, true, temporary⟩] })

/-- A new scope for a class, under its name in `class_scopes`. -/
def Env.createClassScope (env : Env) (parent : ScopeParent) (className : String) :
    ScopeId × Env :=
  let (id, env') := env.createScope parent className false
  (id, { env' with classScopes := env.classScopes.set className id })

/-- `puppet_scope_destroy`. -/
def Env.destroyScope (env : Env) (id : ScopeId) : Option Env :=
  match id with
  | .cell n =>
    if env.isLive id then
      some { env with scopes := env.scopes.modify n fun c ↦ { c with live := false } }
    else none
  | .global | .node => none

/-- Queue an instance of a defined type, with a snapshot of the current scope. -/
def Env.queueDeferred (env : Env) (d : QueuedDefine) : Env :=
  { env with
      deferredDefines := env.deferredDefines ++
        [{ d with
            overrideAttrs := Table.empty
            classReexecuting := env.classReexecuting
            callerScope := env.currentScope
            ticket := env.tickets
            placed := env.wellPlaced
            started := false }]
      tickets := env.tickets + 1
      events := env.events ++ [.queued env.tickets env.wellPlaced] }

/-- The body of the `i`-th queued instance is about to run. -/
def Env.startDeferred (env : Env) (i : ℕ) : Option (DeferredDefine × Env) :=
  (env.deferredDefines[i]?).map fun d ↦
    (d, { env with
      deferredDefines := env.deferredDefines.modify i fun d ↦ { d with started := true }
      events := env.events ++ [.executed d.ticket d.placed (env.isLive d.callerScope)] })

/-- The tables that are cleared when a node starts; `modules_p8_checked` is among them in
`puppet_exec_node_for_certname` only. -/
def Env.clearNodeTables (env : Env) (modulesToo : Bool) : Env :=
  { env with
      classScopes := Table.empty
      marks := fun t ↦
        match t with
        | .classesBeingReexecuted | .policyWarned => env.marks t
        | .modulesP8Checked => if modulesToo then [] else env.marks t
        | .resourceCatalog | .classResourceDecls | .pendingRealizes => []
      stored := fun t ↦
        match t with
        | .virtualResources => Table.empty
        | .exportedResources => env.stored .exportedResources }

/-- The meaning of an operation that leaves the frame alone. -/
def EnvPrim.handle {β : Type} (factsDb : Option FactsDb) :
    EnvPrim β → Env → Except Halt (β × Env)
  | .nodeFacts, env =>
    .ok (factsDb.bind (·.resolveNode env.currentNodeCertname env.factsCurrentNode), env)
  | .emit d, env => .ok ((), env.emit d)
  | .incrementError, env => .ok ((), env.incrementError)
  | .incrementWarning, env => .ok ((), env.incrementWarning)
  | .setFailure message, env =>
    .ok ((), { env with compilationFailed := true, failureMessage := some message })
  | .createClassScope parent className, env => .ok (env.createClassScope parent className)
  | .lookupScopes name topLevelOnly, env => orUndefined env (env.lookupScopes name topLevelOnly)
  | .lookupQualified className varName, env =>
    orUndefined env (env.lookupQualified className varName)
  | .lookupIncluded className varName, env =>
    orUndefined env (env.lookupIncluded className varName)
  | .getVar name, env => orUndefined env (env.getVar env.currentScope name true)
  | .setVar name value, env =>
    match env.setVarIn env.currentScope name value with
    | some env' => .ok ((), env')
    | none => .error .undefinedBehaviour
  | .setVarIn id name value, env =>
    match env.setVarIn id name value with
    | some env' => .ok ((), env')
    | none => .error .undefinedBehaviour
  | .classScopeName, env => orUndefined env env.classScopeName
  | .recordRead name value, env => .ok ((), { env with reads := env.reads ++ [(name, value)] })
  | .registerClassDef c, env =>
    .ok ((), { env with classDefinitions := env.classDefinitions ++ [c] })
  | .findClassDef name, env => .ok (env.findClassDef name, env)
  | .getDefineType name, env => .ok (env.defineTypes.get name, env)
  | .setDefineType name d, env =>
    .ok ((), { env with defineTypes := env.defineTypes.set name d })
  | .getUserFunction name, env => .ok (env.userFunctions.get name, env)
  | .setUserFunction name f, env =>
    .ok ((), { env with userFunctions := env.userFunctions.set name f })
  | .getTypeAlias name, env => .ok (env.typeAliases.get name, env)
  | .setTypeAlias name typeStr, env =>
    .ok ((), { env with typeAliases := env.typeAliases.set name typeStr })
  | .getClassScope name, env => .ok (env.classScopes.get name, env)
  | .isMarked t key, env => .ok ((env.marks t).contains key, env)
  | .mark t key, env => .ok ((), env.mark t key)
  | .getStored t key, env => .ok ((env.stored t).get key, env)
  | .setStored t key r, env => .ok ((), env.setStored t key r)
  | .storedBucket t bucket, env =>
    .ok ((env.stored t).keys.filter fun key ↦ bucketOf 64 key = bucket, env)
  | .recordExport certname r, env =>
    .ok ((), { env with exports := env.exports ++ [(certname, r)] })
  | .initTags, env => .ok ((), { env with currentTags := some (env.currentTags.getD []) })
  | .addTag tag, env =>
    .ok ((), { env with currentTags := some (env.currentTags.getD [] ++ [tag]) })
  | .setHieraInterpolation on, env =>
    .ok (env.inHieraInterpolation, { env with inHieraInterpolation := on })
  | .hieraRead provider key, env => .ok ((env.hieraCaches provider).get key, env)
  | .hieraWrite provider key value, env =>
    .ok ((), { env with
      hieraCaches := fun p ↦
        if p = provider then (env.hieraCaches p).set key value else env.hieraCaches p })
  | .isParsed path, env => .ok (env.parsedManifests.contains path, env)
  | .recordParsed path, env =>
    .ok ((), { env with parsedManifests := env.parsedManifests ++ [path] })
  | .getLoadedClass name, env => .ok (env.loadedClasses.lookup name, env)
  | .recordLoadedClass name c, env =>
    .ok ((), { env with loadedClasses := env.loadedClasses ++ [(name, c)] })
  | .addResource type title params, env =>
    match env.catalog.bind (·.addResource type title params) with
    | some c => .ok (true, { env with catalog := some c })
    | none => .ok (false, env)
  | .changeCatalog f, env => .ok ((), { env with catalog := env.catalog.map f })
  | .queueDeferred d, env => .ok ((), env.queueDeferred d)
  | .getDeferred i, env => orUndefined env env.deferredDefines[i]?
  | .findDeferred resourceId, env =>
    .ok (env.deferredDefines.findIdx? (·.resourceId == resourceId), env)
  | .overrideDeferred i name value, env =>
    .ok ((), { env with
      deferredDefines := env.deferredDefines.modify i fun d ↦
        { d with overrideAttrs := d.overrideAttrs.set name value } })
  | .undefined, _ => .error .undefinedBehaviour

/-- The meaning of a quiet operation. -/
def QuietOp.handle {β : Type} (factsDb : Option FactsDb) :
    QuietOp β → Env → Except Halt (β × Env)
  | .read f, env => .ok (f.get env, env)
  | .prim o, env => o.handle factsDb env

/-! ### The other operations -/

/-- The meaning of an operation on what a call owns. -/
def OwnOp.handle {β : Type} : OwnOp β → Env → Except Halt (β × Env)
  | .createScope parent name, env => .ok (env.createScope parent name true)
  | .destroyScope id, env =>
    match env.destroyScope id with
    | some env' => .ok ((), env')
    | none => .error .undefinedBehaviour
  | .startList, env =>
    .ok ((), { env with listStarts := env.scopes.length :: env.listStarts })
  | .endList, env => .ok ((), { env with listStarts := env.listStarts.tail })
  | .startDeferred i, env =>
    match env.startDeferred i with
    | some r => .ok r
    | none => .error .undefinedBehaviour
  | .truncateDeferred count, env =>
    .ok ((), { env with deferredDefines := env.deferredDefines.take count })

/-- The meaning of an operation on the frame, in an environment. -/
def FrameOp.handle {β : Type} (o : FrameOp β) (env : Env) : β × Env :=
  ((o.apply env.toFrame).1, { env with toFrame := (o.apply env.toFrame).2 })

/-- The meaning of an operation that belongs to the execution of nodes. -/
def NodeOp.handle {β : Type} (factsDb : Option FactsDb) : NodeOp β → Env → β × Env
  | .setNodeScope id, env => (env.nodeScope, { env with nodeScope := id })
  | .setDefaultNode n, env => ((), { env with defaultNode := some n })
  | .registerNodeDef n, env =>
    ((), { env with nodeDefinitions := env.nodeDefinitions ++ [n] })
  | .skipRegexNode, env => ((), { env with nodesSkippedRegex := env.nodesSkippedRegex + 1 })
  | .resetNodes, env =>
    ((), { env with nodeMatched := false, defaultNode := none, nodeDefinitions := [] })
  | .setDeferNodeExecution on, env => ((), { env with deferNodeExecution := on })
  | .setNodeName name, env => ((), { env with nodeName := name })
  | .setCurrentNodeCertname certname, env =>
    ((), { env with currentNodeCertname := some certname })
  | .startNode run name certname, env =>
    ((), { env with
      nodeMatched := true
      nodesProcessed := env.nodesProcessed + 1
      currentNodeCertname := some certname
      currentNodeFailed := false
      nodeEvents := env.nodeEvents ++ [.started run name] })
  | .clearNodeTables modulesToo, env => ((), env.clearNodeTables modulesToo)
  | .setFactsNode certname, env =>
    match factsDb.bind (·.find certname) with
    | some _ => (true, { env with factsCurrentNode := some certname })
    | none => (false, env)
  | .failNode run name, env =>
    ((), { env with
      nodesFailed := env.nodesFailed + 1
      nodeEvents := env.nodeEvents ++ [.failed run name] })
  | .setStopOnError, env => ((), { env with stopOnError := true })
  | .endNode, env => ((), { env with currentNodeCertname := none })

/-- The meaning of the operations of the interpreter. -/
def EnvOp.handle (factsDb : Option FactsDb) : Handler EnvOp Env Halt
  | _, .quiet o, env => o.handle factsDb env
  | _, .frame o, env => .ok (o.handle env)
  | _, .own o, env => o.handle env
  | _, .node o, env => .ok (o.handle factsDb env)

/-! ### Quiet operations and the frame -/

@[simp] theorem Env.emit_toFrame (env : Env) (d : Diagnostic) :
    (env.emit d).toFrame = env.toFrame := by
  unfold Env.emit
  cases d.severity <;> rfl

@[simp] theorem Env.putScope_toFrame (env : Env) (id : ScopeId) (s : Scope) :
    (env.putScope id s).toFrame = env.toFrame := by
  cases id <;> rfl

theorem Env.setVarIn_toFrame {env env' : Env} {id : ScopeId} {name : String} {value : Value}
    (h : env.setVarIn id name value = some env') : env'.toFrame = env.toFrame := by
  obtain ⟨s, -, rfl⟩ := Option.map_eq_some_iff.1 h
  exact env.putScope_toFrame id _

/-- Reads that may touch a destroyed scope change nothing. -/
theorem eq_of_orUndefined {α : Type} {env env' : Env} {x : Option α} {a : α}
    (h : orUndefined env x = .ok (a, env')) : env' = env := by
  cases x with
  | none => cases h
  | some b => cases h; rfl

theorem EnvPrim.handle_toFrame {β : Type} {factsDb : Option FactsDb} (o : EnvPrim β)
    {env env' : Env} {b : β} (h : o.handle factsDb env = .ok (b, env')) :
    env'.toFrame = env.toFrame := by
  cases o
  case emit d => cases h; exact env.emit_toFrame d
  case lookupScopes | lookupQualified | lookupIncluded | getVar | classScopeName | getDeferred =>
    rw [eq_of_orUndefined h]
  case setVar name value =>
    simp only [handle] at h
    split at h
    · next hset => cases h; exact Env.setVarIn_toFrame hset
    · cases h
  case setVarIn id name value =>
    simp only [handle] at h
    split at h
    · next hset => cases h; exact Env.setVarIn_toFrame hset
    · cases h
  case addResource => simp only [handle] at h; split at h <;> cases h <;> rfl
  case undefined => cases h
  all_goals cases h; rfl

/-- Quiet operations leave the frame alone. -/
theorem QuietOp.handle_toFrame {β : Type} {factsDb : Option FactsDb} (o : QuietOp β)
    {env env' : Env} {b : β} (h : o.handle factsDb env = .ok (b, env')) :
    env'.toFrame = env.toFrame := by
  cases o with
  | read f => cases h; rfl
  | prim o => exact o.handle_toFrame h

theorem Env.destroyScope_toFrame {env env' : Env} {id : ScopeId}
    (h : env.destroyScope id = some env') : env'.toFrame = env.toFrame := by
  cases id with
  | global => cases h
  | node => cases h
  | cell n =>
    unfold Env.destroyScope at h
    split_ifs at h
    cases h
    rfl

theorem NodeOp.handle_toFrame {β : Type} (factsDb : Option FactsDb) (o : NodeOp β) (env : Env) :
    (o.handle factsDb env).2.toFrame = env.toFrame := by
  cases o
  case setFactsNode certname =>
    simp only [handle]
    cases factsDb.bind (·.find certname) <;> rfl
  all_goals rfl

theorem OwnOp.handle_toFrame {β : Type} (o : OwnOp β) {env env' : Env} {b : β}
    (h : o.handle env = .ok (b, env')) : env'.toFrame = env.toFrame := by
  cases o
  case destroyScope id =>
    cases hd : env.destroyScope id with
    | none => simp [handle, hd] at h
    | some env₁ =>
      simp only [handle, hd] at h
      cases h
      exact Env.destroyScope_toFrame hd
  case startDeferred i =>
    cases hd : env.startDeferred i with
    | none => simp [handle, hd] at h
    | some r =>
      obtain ⟨d, -, rfl⟩ := Option.map_eq_some_iff.1 hd
      simp only [handle, hd] at h
      cases h
      rfl
  all_goals cases h; rfl

end PuppetC
