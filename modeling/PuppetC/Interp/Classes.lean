import PuppetC.Interp.Eval

/-!
# Classes

A class is executed once per node: its parameters are looked up and its body runs in a scope
that `class_scopes` keeps. `include` and its kin reach a class by name, the resource-style
declaration gives it parameters, and executes the body of an included class once more if there
are any.

## Main definitions

* `includeClassFromDefBody`: `puppet_include_class_from_def`.
* `loaderIncludeClassBody`: `puppet_loader_include_class`.
* `execInclude`, `execRequireLike`: the statements `include`, `require` and `contain`.
* `declareClass`: `class { name: ... }`, the first time and after an `include`.
* `execClassInstance`: `puppet_exec_class_instance`.
-/

namespace PuppetC

section World

variable (w : World)

/-! ### Inclusion -/

/-- The scope of the parent of a class, which is included if need be. -/
def parentScope (c : ClassStmt) (className : String) : Quiet (Option ScopeId) := do
  match c.inherits with
  | none => return none
  | some parentName =>
    let lookupName := stripTop parentName
    match ← findOrLoadClass w lookupName with
    | none => do
      emit .note ("Parent class '" ++ parentName ++ "' not found for class '" ++ className ++ "'")
      return none
    | some parent =>
      match ← perform (.getClassScope lookupName) with
      | some id => return some id
      | none => do
        call (.includeClassFromDef parent)
        perform (.getClassScope lookupName)

/-- A class scope hangs under the scope of the parent class, or else under the node scope. -/
def classScopeParent : Option ScopeId → ScopeParent
  | some id => .scope id
  | none => .nodeScope

/-- The value of a class parameter that is not given. -/
def defaultParam (className : String) (p : Param Expr) : Quiet Value := do
  match ← aplLookup w className p.name, p.default with
  | some v, _ => return v
  | none, some e => evalExpr e
  | none, none => return Value.undef

/-- Set the parameters of a class; those that are given are not looked up. -/
def bindClassParams (className : String) (scope : ScopeId) :
    List (Param Expr × Option Value) → Quiet Unit
  | [] => return ()
  | (p, given) :: ps => do
    let v ← match given with
      | some v => pure v
      | none => defaultParam w className p
    perform (.setVarIn scope p.name v)
    bindClassParams className scope ps

/-- Add a class to a catalog under construction. -/
def catalogAddClass (className : String) : Quiet Unit := do
  if ← read .building then perform (.changeCatalog (·.addClass className))

/-- `$title` and `$name` of a class. -/
def setClassTitle (scope : ScopeId) (className : String) : Quiet Unit := do
  perform (.setVarIn scope "title" (.string className))
  perform (.setVarIn scope "name" (.string className))

/-- Run a part of a class in its scope. -/
def inClass (scope : ScopeId) (p : Comp Unit) : Comp Unit := inScope scope (withClassScope scope p)

/-- `puppet_include_class_from_def`. -/
def includeClassFromDefBody (c : ClassStmt) : Comp Unit := do
  let className := stripTop c.name
  unless (← perform (.getClassScope className)).isSome do
    let parent ← parentScope w c className
    let scope ← perform (.createClassScope (classScopeParent parent) className)
    inClass scope do
      setClassTitle scope className
      bindClassParams w className scope (c.params.map fun p ↦ (p, none))
      withCallerModule className do
        perform (.setVarIn scope "module_name" (.string (moduleOf className)))
        execStmtList c.body
      catalogAddClass className

/-- The scope of the parent of a class, as the loader finds it. -/
def loaderParentScope (c : ClassStmt) : Quiet (Option ScopeId) := do
  match c.inherits with
  | none => return none
  | some parentName =>
    let lookupName := stripTop parentName
    match ← findOrLoadClass w lookupName with
    | none => return none
    | some _ =>
      match ← perform (.getClassScope lookupName) with
      | some id => return some id
      | none => do
        let _ ← call (.loaderIncludeClass lookupName)
        perform (.getClassScope lookupName)

/-- `puppet_loader_include_class`; it sets neither `$title`, `$name` nor `$module_name`. -/
def loaderIncludeClassBody (name : String) : Comp Bool := do
  let className := stripTop name
  if (← perform (.getClassScope className)).isSome then return true
  match ← findOrLoadClass w className with
  | none => do
    emit .note ("Error: Cannot include class '" ++ name ++ "'")
    return false
  | some c => do
    let parent ← loaderParentScope w c
    let scope ← perform (.createClassScope (classScopeParent parent) className)
    inClass scope do
      bindClassParams w className scope (c.params.map fun p ↦ (p, none))
      withCallerModule className (execStmtList c.body)
      catalogAddClass className
    return true

/-! ### Statements that include -/

/-- Report a module that does not go with Puppet 8, once for a node. -/
def checkModule (className : String) : Quiet Unit := do
  match w.loader with
  | none => return ()
  | some loader =>
    let moduleName := String.ofList (className.toList.takeWhile (· ≠ ':'))
    if moduleName = "" ∨ 256 ≤ moduleName.length then return ()
    unless ← perform (.isMarked .modulesP8Checked moduleName) do
      perform (.mark .modulesP8Checked moduleName)
      match loader.puppet8Incompatible moduleName with
      | none => return ()
      | some requirement =>
        emit .error ("Module '" ++ moduleName ++ "' requires puppet " ++
          requirement.getD "(unknown)" ++ ", incompatible with the Puppet 8 target")

/-- Include a class by its name, with a message if it is in no file. -/
def includeByName (className : String) (missing : Quiet Unit) : Quiet Unit := do
  match ← perform (.findClassDef className) with
  | some c => call (.includeClassFromDef c)
  | none =>
    match w.loader with
    | some _ => do unless ← call (.loaderIncludeClass className) do missing
    | none => errorCounted ("Class '" ++ className ++ "' not found")

/-- `puppet_exec_include`. -/
def execInclude (names : List Expr) : Quiet Unit :=
  names.forM fun e ↦ do
    match ← evalExpr e with
    | .string name =>
      let className := stripTop name
      checkModule w className
      includeByName w className (errorCounted ("Failed to include class '" ++ className ++ "'"))
    | _ => return ()

/-- `puppet_exec_require` and `puppet_exec_contain`: names that are no literal strings are
passed over. -/
def execRequireLike (verb : String) (names : List Expr) : Quiet Unit :=
  names.forM fun e ↦
    match e with
    | .value (.string className) =>
      includeByName w className do
        emit .warning ("Failed to " ++ verb ++ " class '" ++ className ++ "'")
        perform .incrementWarning
    | _ => return ()

/-! ### Declarations -/

/-- `puppet_class_metaparams`. -/
def classMetaparams : List String :=
  ["alias", "audit", "before", "consume", "export", "loglevel", "noop", "notify", "require",
   "schedule", "stage", "subscribe", "tag"]

/-- `puppet_validate_class_args`. -/
def validateClassArgs (c : ClassStmt) (attrs : List (Attribute Expr)) (className : String) :
    Quiet Unit :=
  attrs.forM fun a ↦
    match a.name with
    | none => return ()
    | some name => do
      unless c.params.any (·.name == name) || classMetaparams.contains name do
        errorCounted ("Class '" ++ className ++ "' has no parameter named '" ++ name ++ "'")

/-- The attribute of a name. -/
def findAttribute (attrs : List (Attribute Expr)) (name : String) : Option Expr :=
  (attrs.find? (·.name == some name)).map (·.value)

/-- What a mismatch of a class parameter is reported about. -/
def classParam (className : String) (p : Param Expr) : String :=
  "Class '" ++ className ++ "' parameter $" ++ p.name ++ ":"

/-- The parameters with the values of the attributes, in the scope of the declaration. A value
`undef` gives way to a default. -/
def evalClassParams (className : String) (attrs : List (Attribute Expr)) :
    List (Param Expr) → Quiet (List (Param Expr × Option Value))
  | [] => return []
  | p :: ps => do
    let given ← match findAttribute attrs p.name with
      | none => pure none
      | some e => do
        let v ← evalExpr e
        if v = .undef && p.default.isSome then pure none
        else
          checkParamType w (classParam className p) p v
          pure (some v)
    let rest ← evalClassParams className attrs ps
    return (p, given) :: rest

/-- Set the attributes of a declaration in a scope. -/
def setAttributes (scope : ScopeId) (attrs : List (Attribute Expr)) : Quiet Unit :=
  attrs.forM fun a ↦
    match a.name with
    | none => return ()
    | some name => do
      let v ← evalExpr a.value
      perform (.setVarIn scope name v)

/-- The body of an included class once more, with new parameters, statement by statement. -/
def reexecClass (c : ClassStmt) (className : String) (attrs : List (Attribute Expr))
    (scope : ScopeId) : Comp Unit := do
  validateClassArgs c attrs className
  setAttributes scope attrs
  inClass scope (withReexecuting true (withCallerModule className (execEach c.body)))

/-- A class that is not included yet, with the attributes of its declaration. -/
def instantiateClass (c : ClassStmt) (className : String) (attrs : List (Attribute Expr)) :
    Comp Unit := do
  let parent ← parentScope w c className
  validateClassArgs c attrs className
  let params ← evalClassParams w className attrs c.params
  let scope ← perform (.createClassScope (classScopeParent parent) className)
  inClass scope do
    setClassTitle scope className
    bindClassParams w className scope params
    withCallerModule className (execStmtList c.body)
    catalogAddClass className

/-- `class { title: ... }`. -/
def declareClass (inst : ResourceInstance Expr) : Comp Unit := do
  match inst.title with
  | none => return ()
  | some title => do
    let titleVal ← evalExpr title
    let className := stripTop titleVal.toText
    if ← perform (.isMarked .classResourceDecls className) then
      emit .error ("Duplicate declaration - class[" ++ className ++ "] is already declared")
      emit .note "       Use 'include' for idempotent class inclusion"
      perform .incrementError
    else
      perform (.mark .classResourceDecls className)
      match ← perform (.getClassScope className) with
      | some scope =>
        if inst.attributes.isEmpty then return ()
        if ← perform (.isMarked .classesBeingReexecuted className) then return ()
        perform (.mark .classesBeingReexecuted className)
        match ← findOrLoadClass w className with
        | none => return ()
        | some c => reexecClass c className inst.attributes scope
      | none =>
        match ← findOrLoadClass w className with
        | none => errorCounted ("Class '" ++ className ++ "' not found")
        | some c => instantiateClass w c className inst.attributes

/-- The value of a parameter in `puppet_exec_class_instance`. -/
def instanceParam (className : String) (args : List (Attribute Expr)) (p : Param Expr) :
    Quiet Value := do
  let v ← match findAttribute args p.name, p.default with
    | some e, some d => do
      let v ← evalExpr e
      if v = .undef then evalExpr d else pure v
    | some e, none => evalExpr e
    | none, some d => evalExpr d
    | none, none => pure .undef
  checkParamType w (classParam className p) p v
  return v

/-- `puppet_exec_class_instance`. -/
def execClassInstance (className : String) (args : List (Attribute Expr)) : Comp Unit := do
  match ← findOrLoadClass w className with
  | none => errorCounted ("Class '" ++ className ++ "' not found")
  | some c =>
    inNewScope .current className fun scope ↦ withClassScope scope do
      (c.params.forM fun p ↦ do
        let v ← instanceParam w className args p
        perform (.setVarIn scope p.name v) : Quiet Unit)
      validateClassArgs c args className
      execStmtList c.body
      catalogAddClass className

end World

end PuppetC
