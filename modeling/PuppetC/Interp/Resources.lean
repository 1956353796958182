import PuppetC.Interp.Classes

/-!
# Resources

Resources of built-in types go to the catalog when they are declared. An instance of a defined
type is queued, and its body runs at the end of the statement list around the declaration.
Virtual and exported resources are stored until a collector or `realize` takes them up.

## Main definitions

* `declareVirtual`, `declareExported`, `declareNormal`: declarations by style.
* `queueInstances`: declarations of a defined type.
* `execResource`: the resource statement.
* `execDeferredDefine`: `puppet_exec_deferred_define`.
* `execCollector`, `matchesFilterBody`: `puppet_exec_collector`, `collector_matches_filter`.
* `execOverride`, `execChain`: overrides and chains.
-/

namespace PuppetC

/-- The titles a title stands for: an array is expanded. -/
def titleTexts : Value → List String
  | .array vs => vs.map Value.toText
  | v => [v.toText]

/-- The values of the named attributes. -/
def evalNamedAttributes : List (Attribute Expr) → Quiet (List (String × Value))
  | [] => return []
  | a :: as =>
    match a.name with
    | none => evalNamedAttributes as
    | some name => do
      let v ← evalExpr a.value
      let rest ← evalNamedAttributes as
      return (name, v) :: rest

/-- The values of the attributes; a splat of a hash stands for its entries. -/
def evalAttributes : List (Attribute Expr) → Quiet (List (String × Value))
  | [] => return []
  | a :: as => do
    let v ← evalExpr a.value
    let rest ← evalAttributes as
    match a.name, v with
    | some name, v => return (name, v.copy) :: rest
    | none, .hash es => return Value.copyEntries es ++ rest
    | none, _ => return rest

/-! ### Virtual and exported resources -/

/-- A declaration `@type { ... }`. -/
def declareVirtual (type : String) (inst : ResourceInstance Expr) : Quiet Unit := do
  match inst.title with
  | none => return ()
  | some title => do
    let titleVal ← evalExpr title
    let id := resourceId type titleVal.toText
    unless (← perform (.getStored .virtualResources id)).isSome do
      let attrs ← evalNamedAttributes inst.attributes
      let vres : VirtualResource := ⟨type, titleVal.toText, attrs, false⟩
      perform (.setStored .virtualResources id vres)
      if ← perform (.isMarked .pendingRealizes id) then
        perform (.mark .resourceCatalog id)
        catalogAdd vres.type vres.title (Value.copyEntries attrs)
        perform (.setStored .virtualResources id { vres with realized := true })

section World

variable (w : World)

/-- A declaration `@@type { ... }`. -/
def declareExported (type : String) (inst : ResourceInstance Expr) : Quiet Unit := do
  match inst.title with
  | none => return ()
  | some title => do
    let titleVal ← evalExpr title
    let id := resourceId type titleVal.toText
    let attrs ← evalNamedAttributes inst.attributes
    let vres : VirtualResource := ⟨type, titleVal.toText, attrs, false⟩
    perform (.setStored .exportedResources id vres)
    let puppetdb ← read .puppetdb
    match ← read .catalog with
    | none => return ()
    | some catalog =>
      if puppetdb then
        if w.puppetdbStore vres then perform (.recordExport catalog.certname vres)
        else emit .note ("Failed to export " ++ id ++ " to PuppetDB")

/-! ### Policy and known types -/

/-- `puppet_policy_check_resource`: one message for a resource in a run. -/
def policyCheckResource (type title : String) : Quiet Unit := do
  match w.policy.find? fun e ↦ e.matchesType type && e.matchesTitle title with
  | none => return ()
  | some entry => do
    let key := bufferCopy 640 (resourceId type title)
    unless ← perform (.isMarked .policyWarned key) do
      perform (.mark .policyWarned key)
      let reason := entry.reason.getD "deprecated by tree policy"
      let what := "Policy (.puppetc-policy.json): resource " ++ type ++ "['" ++ title ++ "'] is "
      if entry.levelError then emit .error (what ++ "disallowed: " ++ reason)
      else emit .warning (what ++ "deprecated: " ++ reason)

/-- `puppet_builtin_types`. -/
def builtinTypes : List String :=
  ["augeas", "class", "component", "computer", "cron", "exec", "file", "filebucket",
   "file_line", "group", "host", "k5login", "macauthorization", "mailalias", "maillist", "mcx",
   "mount", "nagios_command", "nagios_contact", "nagios_contactgroup", "nagios_host",
   "nagios_hostdependency", "nagios_hostescalation", "nagios_hostextinfo", "nagios_hostgroup",
   "nagios_service", "nagios_servicedependency", "nagios_serviceescalation",
   "nagios_serviceextinfo", "nagios_servicegroup", "nagios_timeperiod", "node", "notify",
   "package", "resources", "router", "schedule", "scheduled_task", "selboolean", "selmodule",
   "service", "ssh_authorized_key", "sshkey", "stage", "tidy", "user", "vlan", "yumrepo", "zfs",
   "zone", "zpool"]

/-- `puppet_type_is_known`. -/
def typeIsKnown (typeLower : String) : Quiet Bool := do
  let d ← perform (.getDefineType typeLower)
  return typeLower ≠ "" &&
    (builtinTypes.contains typeLower || d.isSome || w.rubyTypes.contains typeLower)

/-! ### Defined types -/

/-- The defined type of a declaration: under its name, or under that of the class around it, or
from its file. -/
def resolveDefine (type : String) : Quiet (Option DefineStmt) := do
  match ← perform (.getDefineType type) with
  | some d => return some d
  | none =>
    if hasChar type ':' then
      match w.loader with
      | none => return none
      | some _ =>
        match ← autoloadDefine w type with
        | some d => return some d
        | none => do
          errorCounted ("Unknown resource type: '" ++ type ++ "'")
          return none
    else
      match ← perform .classScopeName with
      | some className => perform (.getDefineType (className ++ "::" ++ type))
      | none => return none

/-- Claim a resource identifier: a second declaration is an error, except while a class is
executed once more. -/
def claimResource (id : String) (hint : Quiet Unit) : Quiet Bool := do
  let existing ← perform (.isMarked .resourceCatalog id)
  let reexecuting ← read .classReexecuting
  if existing && !reexecuting then
    emit .error ("Duplicate declaration - " ++ id ++ " is already declared")
    hint
    perform .incrementError
    return false
  else
    perform (.mark .resourceCatalog id)
    return true

/-- Queue an instance of a defined type for each title. -/
def queueInstances (d : DefineStmt) (type : String) (inst : ResourceInstance Expr) :
    Quiet Unit := do
  match inst.title with
  | none => return ()
  | some title => do
    let titleVal ← evalExpr title
    (titleTexts titleVal).forM fun t ↦ do
      let id := resourceId type t
      if ← claimResource id (return ()) then
        policyCheckResource w type t
        perform (.queueDeferred ⟨d, inst, type, t, id⟩)

/-- Set `$name`, `$title` and `$module_name` of an instance of a defined type. -/
def setDefineNames (scope : ScopeId) (type title : String) : Quiet Unit := do
  perform (.setVarIn scope "name" (.string title))
  perform (.setVarIn scope "title" (.string title))
  perform (.setVarIn scope "module_name" (.string (moduleOf type)))

/-- The value an override gives to a queued instance, at the moment. -/
def deferredOverride (i : ℕ) (name : String) : Quiet (Option Value) := do
  let d ← perform (.getDeferred i)
  return d.overrideAttrs.get name

/-- The value of a parameter of a queued instance: an override, an attribute or the default. -/
def deferredParam (i : ℕ) (attrs : List (Attribute Expr)) (p : Param Expr) :
    Quiet (Option Value) := do
  let given ← match ← deferredOverride i p.name, findAttribute attrs p.name with
    | some v, _ => pure (some v.copy)
    | none, some e => some <$> evalExpr e
    | none, none => pure none
  match given, p.default with
  | some .undef, some d | none, some d => some <$> evalExpr d
  | given, _ => return given

/-- Set the parameters of a queued instance. -/
def bindDeferred (i : ℕ) (d : DeferredDefine) (scope : ScopeId) (p : Param Expr) :
    Quiet Unit := do
  match ← deferredParam i d.inst.attributes p with
  | none => return ()
  | some v => do
    checkParamType w ("Defined type " ++ d.typeName ++ "['" ++ d.title ++ "']: parameter $" ++
      p.name) p v
    perform (.setVarIn scope p.name v)

/-- The parameters of an instance in the catalog: its attributes, overridden or evaluated. -/
def deferredAttributes (i : ℕ) : List (Attribute Expr) → Quiet (List (String × Value))
  | [] => return []
  | a :: as =>
    match a.name with
    | none => deferredAttributes i as
    | some name => do
      let v ← match ← deferredOverride i name with
        | some v => pure v.copy
        | none => evalExpr a.value
      let rest ← deferredAttributes i as
      return (name, v.copy) :: rest

/-- Add an instance of a defined type to a catalog under construction. -/
def catalogDeferred (i : ℕ) (d : DeferredDefine) : Quiet Unit := do
  if ← read .building then
    let params ← deferredAttributes i d.inst.attributes
    let now ← perform (.getDeferred i)
    let more := now.overrideAttrs.entries.filter fun e ↦
      !d.inst.attributes.any fun a ↦ a.name == some e.1
    let params := params ++ Value.copyEntries more
    let added ← perform (.addResource d.typeName d.title params)
    if !added && (← read .classReexecuting) then
      perform (.changeCatalog (·.updateResource d.typeName d.title params))
    applyCurrentTags d.typeName d.title

/-- The body of a queued instance, in a scope under that of its caller. -/
def runDeferred (i : ℕ) (d : DeferredDefine) : Comp Unit :=
  withReexecuting d.classReexecuting <| withCurrentScope d.callerScope <|
    inNewScope .current d.typeName fun scope ↦ do
      setDefineNames scope d.typeName d.title
      (d.defineStmt.params.forM (bindDeferred w i d scope) : Quiet Unit)
      execStmtList d.defineStmt.body
      catalogDeferred i d

/-- `puppet_exec_deferred_define`, of the `i`-th entry of the queue. -/
def execDeferredDefine (i : ℕ) : Comp Unit := do
  let d ← onOwn (.startDeferred i)
  runDeferred w i d

/-! ### Resources of other types -/

/-- Declare a resource for each title. -/
def declareNormal (type : String) (inst : ResourceInstance Expr) : Quiet Unit := do
  match inst.title with
  | none => return ()
  | some title => do
    let titleVal ← evalExpr title
    (titleTexts titleVal).forM fun t ↦ do
      let hint := emit .note "       Resource titles must be unique within their type"
      if ← claimResource (resourceId type t) hint then
        policyCheckResource w type t
        let params ← evalAttributes inst.attributes
        if ← read .building then
          let added ← perform (.addResource type t params)
          if !added && (← read .classReexecuting) then
            perform (.changeCatalog (·.updateResource type t params))
          applyCurrentTags type t

/-- The resource statement, for a type that is no defined type. A defined type that an
unqualified name finds in a module is registered, and the statement executed again. -/
def declareOther (decl : ResourceDecl Expr) : Quiet Unit := do
  let declareAll := decl.instances.forM (declareNormal w decl.type)
  if hasChar decl.type ':' then declareAll
  else if ← typeIsKnown w (lowerText decl.type) then declareAll
  else
    match ← autoloadDefine w decl.type with
    | some _ => execStmt (.resource decl)
    | none => errorCounted ("Unknown resource type: '" ++ decl.type ++ "'")

/-- The resource statement. -/
def execResource (decl : ResourceDecl Expr) : Comp Unit := do
  if decl.type = "class" then decl.instances.forM (declareClass w)
  else
    match decl.style with
    | .virtual => (decl.instances.forM (declareVirtual decl.type) : Quiet Unit)
    | .exported => (decl.instances.forM (declareExported w decl.type) : Quiet Unit)
    | .normal =>
      match ← resolveDefine w decl.type with
      | some d => (decl.instances.forM (queueInstances w d decl.type) : Quiet Unit)
      | none => declareOther w decl

/-! ### Collectors -/

/-- The number of an expression's type in `puppet_expr_type_t`. -/
def Expr.typeCode : Expr → ℕ
  | .value _ => 0
  | .variable _ => 1
  | .binop .. => 2
  | .unop .. => 3
  | .funcall .. => 4
  | .index .. => 5
  | .dot .. => 6
  | .conditional .. => 7
  | .selector .. => 8
  | .lambda _ => 9
  | .resourceRef .. => 10
  | .interpolated .. => 11
  | .hash _ => 12
  | .array _ => 13
  | .block _ => 14

/-- Does an attribute have a value, or hold it in an array? -/
def attributeEquals (actual expected : Value) : Bool :=
  match actual with
  | .array items => items.any (valuesEqual · expected)
  | v => valuesEqual v expected

/-- `collector_matches_filter`. -/
def matchesFilterBody (filter : Expr) (vres : VirtualResource) : Quiet Bool := do
  match filter with
  | .binop .and left right => do
    if ← call (.matchesFilter left vres) then call (.matchesFilter right vres) else return false
  | .binop .or left right => do
    if ← call (.matchesFilter left vres) then return true else call (.matchesFilter right vres)
  | .binop op left right =>
    if op = .eq ∨ op = .ne then
      let name := match left with
        | .variable name | .value (.string name) => some name
        | _ => none
      match name with
      | none => do
        emit .note "Collector filter: left side must be attribute name"
        return false
      | some name => do
        let expected ← evalExpr right
        match vres.attrs.lookup name with
        | some actual => return attributeEquals actual expected == (op == .eq)
        | none => return op == .ne
    else return false
  | e => do
    emit .note ("Collector filter: unsupported expression type " ++ toString e.typeCode)
    return false

/-- Realize a virtual resource of a defined type: its body runs statement by statement. -/
def runCollected (d : DefineStmt) (vres : VirtualResource) : Comp Unit :=
  inNewScope .current vres.type fun scope ↦ do
    setDefineNames scope vres.type vres.title
    bindGiven scope (fun name ↦ (vres.attrs.lookup name).map Value.copy) d.params
    execEach d.body

/-- Does a virtual resource match the filter of a collector? -/
def collects (filter : Option Expr) (vres : VirtualResource) : Quiet Bool :=
  match filter with
  | none => return true
  | some f => call (.matchesFilter f vres)

/-- Declare a virtual resource that a collector realizes. -/
def realizeCollected (vres : VirtualResource) : Comp Unit := do
  match ← findDefineAnywhere w vres.type with
  | some d => runCollected d vres
  | none => catalogAdd vres.type vres.title (Value.copyEntries vres.attrs)

/-- Mark a virtual resource as realized. -/
def setRealized (key : String) : Quiet Unit := do
  match ← perform (.getStored .virtualResources key) with
  | none => return ()
  | some now => perform (.setStored .virtualResources key { now with realized := true })

/-- Look at one virtual resource, and realize it if it matches. -/
def collectOne (typePrefix : String) (filter : Option Expr) (key : String) : Comp Unit := do
  if startsWith key typePrefix then
    match ← perform (.getStored .virtualResources key) with
    | none => return ()
    | some vres =>
      if vres.realized then return ()
      if ← collects filter vres then
        let id := resourceId vres.type vres.title
        if ← perform (.isMarked .resourceCatalog id) then
          emit .note ("Collector: Resource " ++ id ++ " already declared")
        else
          perform (.mark .resourceCatalog id)
          realizeCollected w vres
          setRealized key

/-- Collect one resource that another node exported. -/
def collectExported (r : ExportedResource) : Quiet Unit := do
  let catalog ← read .catalog
  let own := match r.certname, catalog with
    | some certname, some c => c.certname == certname
    | _, _ => false
  let id := resourceId r.type r.title
  if own then return ()
  unless ← perform (.isMarked .resourceCatalog id) do
    perform (.mark .resourceCatalog id)
    if ← read .building then
      if ← perform (.addResource r.type r.title r.parameters) then
        perform (.changeCatalog (·.exportResource r.type r.title))
        applyCurrentTags r.type r.title

/-- The buckets of the table of virtual resources, from `bucket` on. Resources that a realized
one declares are seen if their bucket comes later. -/
def collectBuckets (typePrefix : String) (filter : Option Expr) : List ℕ → Comp Unit
  | [] => return ()
  | bucket :: buckets => do
    let keys ← perform (.storedBucket .virtualResources bucket)
    keys.forM (collectOne w typePrefix filter)
    collectBuckets typePrefix filter buckets

/-- `puppet_exec_collector`. -/
def execCollector (style : ResourceStyle) (type : String) (filter : Option Expr) : Comp Unit := do
  if style = .exported && (← read .puppetdb) then
    let exports ← read .exports
    ((w.puppetdbQuery exports type).forM collectExported : Quiet Unit)
  else collectBuckets w (lowerText type ++ "[") filter (List.range 64)

/-! ### Overrides and chains -/

/-- Evaluate the attributes of an override, and hand each to `change`. -/
def overrideWith (change : String → Value → Quiet Unit) (attrs : List (Attribute Expr)) :
    Quiet Unit :=
  attrs.forM fun a ↦
    match a.name with
    | none => perform .undefined
    | some name => do
      let v ← evalExpr a.value
      change name v

/-- Change an attribute of a stored resource. -/
def overrideStored (t : StoredTable) (id name : String) (v : Value) : Quiet Unit := do
  match ← perform (.getStored t id) with
  | none => return ()
  | some vres =>
    perform (.setStored t id { vres with attrs := Catalog.overrideParam name v.copy vres.attrs })

/-- The table that holds a resource which is not in the catalog. -/
def storedIn (id : String) : Quiet (Option StoredTable) := do
  if (← perform (.getStored .virtualResources id)).isSome then return some .virtualResources
  if (← perform (.getStored .exportedResources id)).isSome then return some .exportedResources
  return none

/-- A resource override. -/
def execOverride (reference : Option Expr) (attrs : List (Attribute Expr)) : Quiet Unit := do
  match reference with
  | none => errorCounted "Resource override: missing reference"
  | some (.resourceRef refType title) => do
    let type := lowerText refType
    let titleVal ← evalOptional title
    let id := resourceId type titleVal.toText
    let existing ← perform (.isMarked .resourceCatalog id)
    let table ← if existing then pure none else storedIn id
    let queued ← perform (.findDeferred id)
    if !existing && table.isNone && queued.isNone then
      errorCounted ("Resource override: " ++ id ++ " has not been declared")
    else
      match queued with
      | some i => overrideWith (fun name v ↦ perform (.overrideDeferred i name v)) attrs
      | none => pure ()
      match table with
      | some t => overrideWith (overrideStored t id) attrs
      | none => pure ()
      if existing && (← read .building) then
        let catalog ← read .catalog
        if (catalog.bind (·.findResource type titleVal.toText)).isSome then
          overrideWith (fun name v ↦
            perform (.changeCatalog (·.overrideResource type titleVal.toText name v.copy))) attrs
  | some _ => errorCounted "Resource override: invalid reference type"

/-- The last statement of a chain. -/
def chainEnd : Stmt → Stmt
  | .chain _ right _ => chainEnd right
  | s => s

/-- The title of one end of a chain, if it is a string. -/
def chainTitle (title : Option Expr) : Quiet (Option String) := do
  match title with
  | none => return none
  | some e =>
    match ← evalExpr e with
    | .string s => return some s
    | _ => return none

/-- The resource at one end of a chain: a reference, or the first of a declaration. -/
def chainRef : Stmt → Quiet (Option (String × String))
  | .expression (.resourceRef type title) => do
    return (← chainTitle title).map fun t ↦ (type, t)
  | .resource decl =>
    match decl.instances with
    | [] => return none
    | inst :: _ => do return (← chainTitle inst.title).map fun t ↦ (decl.type, t)
  | _ => return none

/-- A chain: both sides are executed, and an edge is added. -/
def execChain (left right : Stmt) (type : ChainType) : Quiet Unit := do
  execStmt left
  execStmt right
  if (← read .catalog).isSome then
    let source ← chainRef (chainEnd left)
    let target ← chainRef right
    match source, target with
    | some (sourceType, sourceTitle), some (targetType, targetTitle) =>
      let relationship := match type with
        | .notify => Relationship.notify
        | .before => Relationship.before
      perform (.changeCatalog
        (·.addEdge ⟨sourceType, sourceTitle, targetType, targetTitle, relationship⟩))
    | _, _ => emit .note "Could not extract resource references from chain"

end World

end PuppetC
