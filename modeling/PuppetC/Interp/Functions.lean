import PuppetC.Interp.Lookup

/-!
# Functions

The functions that read or write the environment of a compile, and the call of a function
defined in the language. Arguments reach a function unevaluated. The other functions of the
standard library, the template functions among them, are `World.stdlib`.

Messages that are printed only in verbose mode are left out.

## Main definitions

* `displayText`: `puppet_value_to_display_string`.
* `funcFail`, `funcDefined`, `funcRealize`, `funcTag`, `funcTagged`, `funcLookup`, `funcHiera`,
  `funcGetvar`: the functions of these names.
* `funcEach`, `funcMap`, `funcFilter`, `funcReduce`: iteration with a lambda.
* `funcCreateResources`, `funcEnsureResource`: declaration of resources.
* `callUserFunction`: `puppet_call_user_function`.
* `evalFuncall`: the dispatch on the name.
-/

namespace PuppetC

/-! ### Values in messages -/

/-- `printf("%.2f", x)`. -/
def formatFixed (x : ℚ) : String :=
  let n := (roundEven (|x| * 100)).toNat
  let ds := digitsPadded 3 n
  String.ofList <| (if x < 0 then ['-'] else []) ++ ds.take (ds.length - 2) ++ '.' ::
    ds.drop (ds.length - 2)

/-- The room an array has for its items in the buffer of `puppet_value_to_display_string`. -/
def displayRoom : ℕ := 1014

mutual

/-- `puppet_value_to_display_string`. -/
def displayText : Value → String
  | .undef => "undef"
  | .bool b => if b then "true" else "false"
  | .string s => s
  | .number x => if (truncate x : ℚ) = x then toString (truncate x) else formatFixed x
  | .array [] => "[]"
  | .array (v :: vs) => bufferCopy 1024 (displayItems ("[" ++ displayText v) vs)
  | .hash _ => "{hash with 16 entries}"
  | .regexp _ | .deferred .. => "(unknown)"

/-- The items of an array after the first. -/
def displayItems (buf : String) : List Value → String
  | [] => if displayRoom ≤ buf.length then buf ++ ", ...]" else buf ++ "]"
  | v :: vs =>
    if displayRoom ≤ buf.length then buf ++ ", ...]"
    else displayItems (buf ++ ", " ++ displayText v) vs

end

/-! ### Blocks -/

/-- Evaluate expressions from left to right. -/
def evalAll : List Expr → Quiet (List Value)
  | [] => return []
  | e :: es => do
    let v ← evalExpr e
    let vs ← evalAll es
    return v :: vs

/-- The value of an expression that may be missing. -/
def evalOptional : Option Expr → Quiet Value
  | none => return .undef
  | some e => evalExpr e

/-- The statements of a body, one by one; its value is that of an expression in last place. -/
def execBlock : List Stmt → Quiet Value
  | [] => return .undef
  | [s] =>
    match s.lastValue? with
    | some e => evalExpr e
    | none => do
      execStmt s
      return .undef
  | s :: ss => do
    execStmt s
    execBlock ss

/-! ### Logging -/

/-- `concat_args_to_message`. -/
def concatArgsToMessage (args : List Expr) : Quiet String := do
  let vs ← evalAll args
  return " ".intercalate (vs.map displayText)

/-- A logging function of a level; `info` and `debug` print nothing. -/
def funcLog (level : Severity) (args : List Expr) : Quiet Value := do
  let message ← concatArgsToMessage args
  unless level = .info ∨ level = .debug do emit level message
  return Value.undef

/-- `puppet_func_fail`. -/
def funcFail (args : List Expr) : Quiet Value := do
  let message ← concatArgsToMessage args
  emit .critical message
  perform .incrementError
  perform (.setFailure message)
  return Value.undef

/-! ### The catalog -/

/-- `puppet_apply_current_tags`. -/
def applyCurrentTags (type title : String) : Quiet Unit := do
  match ← read .currentTags with
  | none => return ()
  | some tags =>
    let texts := tags.filterMap fun t ↦ match t with
      | .string s => some s
      | _ => none
    perform (.changeCatalog (·.addResourceTags type title texts))

/-- Add a resource to a catalog under construction, with the current tags. -/
def catalogAdd (type title : String) (params : List (String × Value)) : Quiet Unit := do
  if ← read .building then
    let _ ← perform (.addResource type title params)
    applyCurrentTags type title

/-! ### Resources in functions -/

section World

variable (w : World)

/-- The title of a reference without the quotes around it. -/
def unquoteTitle (title : List Char) : List Char :=
  match title with
  | c :: cs => if (c = '\'' ∨ c = '"') ∧ cs ≠ [] then cs.dropLast else title
  | [] => []

/-- Is the class among those the loader has loaded? -/
def isClassLoaded (name : String) : Quiet Bool := do
  match w.loader with
  | none => return false
  | some _ => return (← perform (.getLoadedClass name)).isSome

/-- `puppet_func_defined`. -/
def funcDefined (args : List Expr) : Quiet Value := do
  match args with
  | [arg] =>
    match ← evalExpr arg with
    | .string name => do
      if ← isClassLoaded w name then return .bool true
      if (← perform (.findClassDef name)).isSome then return .bool true
      if ← perform (.isMarked .resourceCatalog name) then return .bool true
      let cs := name.toList
      if cs.contains '[' && cs.getLast? = some ']' then
        let type := String.ofList (cs.takeWhile (· ≠ '['))
        let title := String.ofList (unquoteTitle ((cs.dropWhile (· ≠ '[')).drop 1).dropLast)
        if lowerText type = "class" then
          if ← isClassLoaded w title then return .bool true
          return .bool (← perform (.getClassScope title)).isSome
        else
          let key := bufferCopy 640 (resourceId (bufferCopy 128 (lowerText type)) title)
          return .bool (← perform (.isMarked .resourceCatalog key))
      return .bool false
    | _ => return .bool false
  | _ => do
    emit .logError "defined() requires exactly one argument"
    return .bool false

/-- The key under which a reference looks for a virtual resource. -/
def realizeKey (ref : String) : String :=
  let cs := ref.toList
  let typeLower := (cs.takeWhile (· ≠ '[')).map lowerChar
  String.ofList ((typeLower ++ cs.dropWhile (· ≠ '[')).filter (· ≠ '\''))

/-- Realize the resource that one reference names. -/
def realizeOne (arg : Expr) : Quiet Unit := do
  let v ← evalExpr arg
  let ref := match v with
    | .string s => s
    | v => displayText v
  let key := realizeKey ref
  match ← perform (.getStored .virtualResources key) with
  | some vres =>
    unless vres.realized do
      let id := resourceId vres.type vres.title
      if ← perform (.isMarked .resourceCatalog id) then
        emit .logError ("Duplicate declaration - " ++ id ++ " is already declared")
      else
        perform (.mark .resourceCatalog id)
        catalogAdd vres.type vres.title (Value.copyEntries vres.attrs)
        perform (.setStored .virtualResources key { vres with realized := true })
  | none => do
    let count ← read .deferredCount
    if 0 < count then perform (.mark .pendingRealizes key)
    else emit .logWarning ("realize: " ++ ref ++ " is not a virtual resource")

/-- `puppet_func_realize`. -/
def funcRealize (args : List Expr) : Quiet Value := do
  if args.isEmpty then emit .logError "realize() requires at least one argument"
  args.forM realizeOne
  return Value.undef

/-- `puppet_func_tag`. -/
def funcTag (args : List Expr) : Quiet Value := do
  if args.isEmpty then
    emit .logError "tag() requires at least one argument"
    return .undef
  perform .initTags
  args.forM fun arg ↦ do
    match ← evalExpr arg with
    | .string s => perform (.addTag (.string s))
    | _ => emit .logWarning "tag() argument must be a string"
  return Value.undef

/-- `puppet_func_tagged`. -/
def funcTagged (args : List Expr) : Quiet Value := do
  match args with
  | [arg] =>
    match ← evalExpr arg, ← read .currentTags with
    | .string s, some tags => return .bool (tags.contains (.string s))
    | _, _ => return .bool false
  | _ => do
    emit .logError "tagged() requires exactly one argument"
    return .bool false

/-! ### Lookups -/

/-- A key in the data providers, then among the variables. -/
def lookupKey (key : String) (default : Option Value) : Quiet Value := do
  match ← providersLookup w key with
  | some value => return value
  | none =>
    match ← call (.lookupChain key) with
    | some value => return value
    | none => return (default.map Value.copy).getD Value.undef

/-- `puppet_func_lookup`. -/
def funcLookup (args : List Expr) : Quiet Value := do
  match args with
  | [] => do
    emit .logError "lookup() requires at least one argument"
    return .undef
  | arg :: rest =>
    match ← evalExpr arg with
    | .hash options =>
      match hashGet options "key" with
      | some (.string key) => lookupKey w key (hashGet options "default")
      | _ => do
        emit .logError "lookup() options hash must contain 'key' string"
        return .undef
    | .string key =>
      match rest with
      | [] => lookupKey w key none
      | d :: _ => do
        let default ← evalExpr d
        lookupKey w key (some default)
    | _ => do
      emit .logError "lookup() key must be a string"
      return Value.undef

/-- `puppet_func_hiera`. -/
def funcHiera (args : List Expr) : Quiet Value := do
  match args with
  | [] => do
    emit .logError "hiera() requires at least 1 argument (key)"
    return .undef
  | arg :: rest =>
    match ← evalExpr arg with
    | .string key => do
      let default ← match rest with
        | [] => pure none
        | d :: _ => some <$> evalExpr d
      match ← providersLookup w key, default with
      | some value, _ => return value
      | none, some value => return value
      | none, none => do
        emit .logWarning "hiera(): key not found and no default provided"
        return .undef
    | _ => do
      emit .logError "hiera() first argument must be a string key"
      return Value.undef

/-- `puppet_func_getvar`. -/
def funcGetvar (args : List Expr) : Quiet Value := do
  match args with
  | [] => do
    emit .logError "getvar() requires at least 1 argument (variable name)"
    return .undef
  | arg :: _ =>
    match ← evalExpr arg with
    | .string name => return ((← call (.lookupChain name)).map Value.copy).getD .undef
    | _ => do
      emit .logError "getvar() argument must be a string"
      return Value.undef

/-! ### Iteration -/

/-- One round of an iteration: what a lambda with one parameter gets, and what one with two. -/
structure IterItem where
  whole : Value
  first : Value
  second : Value

/-- The rounds of an iteration over an array, from the `i`-th on. -/
def arrayItems : ℕ → List Value → List IterItem
  | _, [] => []
  | i, v :: vs => ⟨v.copy, .number i, v.copy⟩ :: arrayItems (i + 1) vs

/-- The rounds of an iteration over a collection. -/
def iterItems : Value → Option (List IterItem)
  | .array vs => some (arrayItems 0 vs)
  | .hash es =>
    some (es.map fun e ↦ ⟨.array [.string e.1, e.2.copy], .string e.1, e.2.copy⟩)
  | _ => none

/-- Set the parameters of a lambda in the current scope. -/
def bindItem (params : List (Param Expr)) (item : IterItem) : Quiet Unit :=
  match params with
  | [] => return ()
  | [p] => perform (.setVar p.name item.whole)
  | p :: q :: _ => do
    perform (.setVar p.name item.first)
    perform (.setVar q.name item.second)

/-- `exec_lambda_body`. -/
def execLambdaBody (lambda : Lambda Expr Stmt) : Quiet Unit :=
  match lambda.exprBody, lambda.body with
  | some e, _ => do
    let _ ← evalExpr e
    return ()
  | none, some body => execStmtList body
  | none, none => return ()

/-- The last statement of a lambda whose value is wanted. Its first field is taken for an
expression, which it is in some statements, and is missing in others, which are executed. -/
def execLambdaLast (s : Stmt) : Quiet Value :=
  let undefined : Quiet Value := do
    perform .undefined
    return .undef
  let exec : Quiet Value := do
    execStmt s
    return .undef
  match s with
  | .expression e | .functionCall e | .unless e _ _ | .case e _ _
  | .resourceOverride (some e) _ => evalExpr e
  | .resource decl => if decl.style = .normal then exec else undefined
  | .collector style _ _ => if style = .normal then exec else undefined
  | .resourceOverride none _ | .if [] _ | .include [] | .require [] | .contain [] | .tag [] => exec
  | _ => undefined

/-- The statements of a lambda whose value is wanted. -/
def execLambdaStmts : List Stmt → Quiet Value
  | [] => return .undef
  | [s] => execLambdaLast s
  | s :: ss => do
    execStmt s
    execLambdaStmts ss

/-- `exec_lambda_with_result`. -/
def execLambdaWithResult (lambda : Lambda Expr Stmt) : Quiet Value :=
  match lambda.exprBody, lambda.body with
  | some e, _ => evalExpr e
  | none, some body => execLambdaStmts body
  | none, none => return Value.undef

/-- The lambda and the arguments of an iteration, if it has a body and there are enough. -/
def iterArgs (name collectionText : String) (count : ℕ) (args : List Expr)
    (lambda : Option (Lambda Expr Stmt)) : Quiet (Option (Lambda Expr Stmt)) := do
  match lambda with
  | none => do
    emit .logError (name ++ "() requires a lambda block")
    return none
  | some l =>
    if l.body.isNone && l.exprBody.isNone then
      emit .logError (name ++ "() requires a lambda block")
      return none
    else if args.length < count then
      emit .logError (name ++ "() requires " ++ collectionText)
      return none
    else return some l

/-- The message for an iteration over something else than an array or a hash. -/
def notCollection (name : String) : Quiet Value := do
  emit .logError (name ++ "() requires an array or hash")
  return Value.undef

/-- `puppet_func_each`. -/
def funcEach (args : List Expr) (lambda : Option (Lambda Expr Stmt)) : Quiet Value := do
  match ← iterArgs "each" "a collection argument" 1 args lambda, args with
  | some l, arg :: _ => do
    let collection ← evalExpr arg
    if collection = .undef then return .undef
    match iterItems collection with
    | none => notCollection "each"
    | some items => do
      items.forM fun item ↦ do
        bindItem l.params item
        execLambdaBody l
      return collection
  | _, _ => return Value.undef

/-- The values of a lambda over the rounds of an iteration. -/
def mapItems (l : Lambda Expr Stmt) : List IterItem → Quiet (List Value)
  | [] => return []
  | item :: items => do
    bindItem l.params item
    let v ← execLambdaWithResult l
    let vs ← mapItems l items
    return v :: vs

/-- `puppet_func_map`. -/
def funcMap (args : List Expr) (lambda : Option (Lambda Expr Stmt)) : Quiet Value := do
  match ← iterArgs "map" "a collection argument" 1 args lambda, args with
  | some l, arg :: _ => do
    let collection ← evalExpr arg
    if collection = .undef then return .array []
    match iterItems collection with
    | none => notCollection "map"
    | some items => return .array (← mapItems l items)
  | _, _ => return Value.undef

/-- `puppet_func_filter`. -/
def funcFilter (args : List Expr) (lambda : Option (Lambda Expr Stmt)) : Quiet Value := do
  match ← iterArgs "filter" "a collection argument" 1 args lambda, args with
  | some l, arg :: _ => do
    let collection ← evalExpr arg
    if collection = .undef then return .array []
    match iterItems collection with
    | none => notCollection "filter"
    | some items => do
      let conditions ← mapItems l items
      return .array ((items.zip conditions).filterMap fun p ↦
        if p.2.isTruthy then some p.1.whole else none)
  | _, _ => return Value.undef

/-- The rounds of `puppet_func_reduce`. -/
def reduceItems (l : Lambda Expr Stmt) (memo : Value) : List IterItem → Quiet Value
  | [] => return memo
  | item :: items => do
    match l.params with
    | [] => pure ()
    | p :: params => do
      perform (.setVar p.name memo)
      bindItem params item
    let memo ← execLambdaWithResult l
    reduceItems l memo items

/-- `puppet_func_reduce`. -/
def funcReduce (args : List Expr) (lambda : Option (Lambda Expr Stmt)) : Quiet Value := do
  match ← iterArgs "reduce" "a collection and an initial value" 2 args lambda, args with
  | some l, arg :: initial :: _ => do
    let collection ← evalExpr arg
    let memo ← evalExpr initial
    if collection = .undef then return memo
    match iterItems collection with
    | none => notCollection "reduce"
    | some items => reduceItems l memo items
  | _, _ => return Value.undef

/-! ### Defined types in functions -/

/-- Load a defined type from its file, and register it. -/
def autoloadDefine (type : String) : Quiet (Option DefineStmt) := do
  match w.loader with
  | none => return none
  | some loader =>
    match ← loadDefine loader type with
    | none => return none
    | some d => do
      perform (.setDefineType type d)
      return some d

/-- A defined type under the name of one of the classes. -/
def findDefineIn (type : String) : List String → Quiet (Option DefineStmt)
  | [] => return none
  | className :: classNames => do
    match ← perform (.getDefineType (className ++ "::" ++ type)) with
    | some d => return some d
    | none => findDefineIn type classNames

/-- A defined type under its name, or under that of an included class, or from its file. -/
def findDefineAnywhere (type : String) : Quiet (Option DefineStmt) := do
  match ← perform (.getDefineType type) with
  | some d => return some d
  | none =>
    if hasChar type ':' then autoloadDefine w type
    else
      let classNames ← read .classScopeNames
      findDefineIn type classNames

/-- Set the parameters of a defined type, each from `given` or else from its default. -/
def bindGiven (scope : ScopeId) (given : String → Option Value) :
    List (Param Expr) → Quiet Unit
  | [] => return ()
  | p :: ps => do
    match given p.name, p.default with
    | some v, _ => perform (.setVarIn scope p.name v)
    | none, some e => do
      let v ← evalExpr e
      perform (.setVarIn scope p.name v)
    | none, none => pure ()
    bindGiven scope given ps

/-- Declare a resource of a defined type at once: its body runs in a scope of its own. -/
def runDefine (d : DefineStmt) (type title : String) (given : String → Option Value)
    (params : List (String × Value)) : Comp Unit :=
  inNewScope .current type fun scope ↦ do
    perform (.setVarIn scope "name" (.string title))
    perform (.setVarIn scope "title" (.string title))
    bindGiven scope given d.params
    execStmtList d.body
    catalogAdd type title params

/-- Declare a resource, of a defined type or not, if it is not declared yet. -/
def createOne (d : Option DefineStmt) (type title : String) (given : String → Option Value)
    (defineParams params : List (String × Value)) (duplicate : Quiet Unit) : Comp Unit := do
  let id := resourceId type title
  if ← perform (.isMarked .resourceCatalog id) then duplicate
  else
    perform (.mark .resourceCatalog id)
    match d with
    | some d => runDefine d type title given defineParams
    | none => catalogAdd type title params

/-- The entries of a value that is a hash. -/
def Value.entries : Value → List (String × Value)
  | .hash es => es
  | _ => []

/-- Parameters over their defaults. -/
def mergeParams (defaults params : List (String × Value)) : List (String × Value) :=
  params.foldl (fun acc e ↦ Catalog.overrideParam e.1 e.2.copy acc) (Value.copyEntries defaults)

/-- `puppet_func_create_resources`. -/
def funcCreateResources (args : List Expr) : Comp Value := do
  match args with
  | typeArg :: hashArg :: rest => do
    let typeVal ← evalExpr typeArg
    let hashVal ← evalExpr hashArg
    let defaultsVal ← evalOptional rest.head?
    match typeVal, hashVal with
    | .string type, .hash entries => do
      let d ← findDefineAnywhere w type
      entries.forM fun entry ↦
        let params := entry.2.entries
        let given name :=
          ((hashGet params name) <|> hashGet defaultsVal.entries name).map Value.copy
        createOne d type entry.1 given (Value.copyEntries params)
          (mergeParams defaultsVal.entries params)
          (emit .note ("Error: Duplicate declaration - " ++ resourceId type entry.1 ++
            " is already declared"))
      return .undef
    | .string _, _ => do
      emit .logError "create_resources() second argument must be a hash"
      return .undef
    | _, _ => do
      emit .logError "create_resources() first argument must be a string (resource type)"
      return .undef
  | _ => do
    emit .logError "create_resources() requires at least 2 arguments"
    return Value.undef

/-- The titles of `ensure_resource`; an item that is no string stands for no title. -/
def ensureTitles : Value → Option (List String)
  | .string s => some [s]
  | .array vs => some (vs.map fun v ↦ match v with
    | .string s => s
    | _ => "")
  | _ => none

/-- The defined type that `ensure_resource` finds. -/
def findDefineOrLoad (type : String) : Quiet (Option DefineStmt) := do
  match ← perform (.getDefineType type) with
  | some d => return some d
  | none => if hasChar type ':' then autoloadDefine w type else return none

/-- `puppet_func_ensure_resource`. -/
def funcEnsureResource (args : List Expr) : Comp Value := do
  match args with
  | typeArg :: titleArg :: rest => do
    let typeVal ← evalExpr typeArg
    let titleVal ← evalExpr titleArg
    let paramsVal ← evalOptional rest.head?
    match typeVal, ensureTitles titleVal with
    | .string type, some titles => do
      let d ← findDefineOrLoad w type
      let params := Value.copyEntries paramsVal.entries
      (titles.filter (· ≠ "")).forM fun title ↦
        createOne d type title (fun name ↦ (hashGet paramsVal.entries name).map Value.copy)
          params params (return ())
      return .undef
    | .string _, none => do
      emit .logError "ensure_resource() second argument must be a string or array of strings"
      return .undef
    | _, _ => do
      emit .logError "ensure_resource() first argument must be a string (resource type)"
      return .undef
  | _ => do
    emit .logError "ensure_resource() requires at least 2 arguments (type, title)"
    return Value.undef

/-! ### Functions of the language -/

/-- Check a value against the type of a parameter, and report a mismatch. -/
def checkParamType (what : String) (p : Param Expr) (v : Value) : Quiet Unit := do
  match p.typeStr with
  | none => return ()
  | some typeStr => do
    unless ← w.valueMatchesTypeStr v typeStr do
      errorCounted (what ++ " expected " ++ bufferCopy 128 typeStr ++ ", got incompatible value")

/-- What a mismatch of a function's parameter is reported about. -/
def functionParam (fname : String) (p : Param Expr) : String :=
  "Function '" ++ fname ++ "' parameter $" ++ p.name ++ ":"

/-- Set the parameters of a function from its arguments and the defaults. -/
def bindArguments (fname : String) (scope : ScopeId) :
    List (Param Expr) → List Value → Quiet Unit
  | [], _ => return ()
  | p :: ps, v :: vs => do
    checkParamType w (functionParam fname p) p v
    perform (.setVarIn scope p.name v)
    bindArguments fname scope ps vs
  | p :: ps, [] => do
    match p.default with
    | some e => do
      let v ← evalExpr e
      checkParamType w (functionParam fname p) p v
      perform (.setVarIn scope p.name v)
    | none => do
      errorCounted ("Function '" ++ fname ++ "' missing required argument '" ++ p.name ++ "'")
      perform (.setVarIn scope p.name .undef)
    bindArguments fname scope ps []

/-- `PUPPET_MAX_CALL_DEPTH`. -/
def maxCallDepth : ℕ := 256

/-- `puppet_call_user_function`. -/
def callUserFunction (f : FunctionStmt) (args : List Expr) : Comp Value := do
  let depth ← read .funcCallDepth
  if maxCallDepth ≤ depth then
    errorCounted ("Maximum function call depth exceeded calling '" ++ f.name ++ "'")
    return .undef
  else if f.params.length < args.length then
    errorCounted ("Function '" ++ f.name ++ "' takes at most " ++ toString f.params.length ++
      " argument(s), got " ++ toString args.length)
    return .undef
  else
    let argv ← evalAll args
    inNewScope .current f.name fun scope ↦ withCall do
      bindArguments w f.name scope f.params argv
      execBlock f.body

/-! ### Dispatch -/

/-- The functions that `World.stdlib` stands for. -/
def stdlibNames : List String :=
  ["template", "epp", "stdlib::deferrable_epp", "split", "join", "downcase", "upcase", "strip",
   "lstrip", "rstrip", "chomp", "chop", "capitalize", "size", "length", "empty", "keys",
   "values", "has_key", "member", "reverse", "unique", "sort", "flatten", "concat", "delete",
   "delete_at", "first", "last", "range", "merge", "deep_merge", "delete_undef_values",
   "mysql::normalise_and_deepmerge", "prefix", "suffix", "union", "intersection", "difference",
   "zip", "count", "shuffle", "stdlib::shell_escape", "shell_escape", "stdlib::shell_join",
   "shell_join", "stdlib::shell_split", "shell_split", "swapcase", "squeeze", "clamp",
   "any2bool", "bool2num", "num2bool", "is_string", "is_array", "is_hash", "is_numeric",
   "is_integer", "is_float", "is_bool", "is_boolean", "abs", "min", "max", "floor", "ceil",
   "ceiling", "round", "sqrt", "basename", "dirname", "extname", "regsubst", "match", "sha1",
   "md5", "base64", "validate_re", "validate_hash", "validate_string", "validate_array",
   "validate_bool", "versioncmp", "is_domain_name", "is_ip_address", "ensure_packages",
   "stdlib::ensure_packages", "any2array", "str2bool", "bool2str", "type", "type_of",
   "fqdn_rand", "assert_type", "dig", "fact", "pick", "pick_default", "file",
   "inline_template"]

/-- `Sensitive()` passes its argument through. -/
def funcSensitive (args : List Expr) : Quiet Value :=
  match args with
  | [] => return .undef
  | arg :: _ => evalExpr arg

/-- `Deferred()`. -/
def funcDeferred (args : List Expr) : Quiet Value := do
  match args with
  | [] => do
    emit .error "Deferred() requires at least 1 argument (function name)"
    return .undef
  | nameArg :: rest =>
    match ← evalExpr nameArg with
    | .string name =>
      match rest with
      | [] => return .deferred name []
      | arg :: _ =>
        match ← evalExpr arg with
        | .array vs => return .deferred name (Value.copyList vs)
        | _ => return .deferred name []
    | _ => do
      emit .error "Deferred() first argument must be a string"
      return Value.undef

/-- A function that is not built in: one of the language, or one that a module has in Ruby, for
which a text stands in. -/
def callOther (name : String) (args : List Expr) : Comp Value := do
  match ← perform (.getUserFunction name) with
  | some f => callUserFunction w f args
  | none =>
    if (w.loader.map (·.hasCustomFunction name)).getD false then
      return .string (bufferCopy 256 ("<" ++ name ++ "(...)>"))
    else
      errorCounted ("Unknown function: " ++ name)
      return Value.undef

/-- The functions that read or write the environment, by name. -/
def builtin (name : String) (args : List Expr) (lambda : Option (Lambda Expr Stmt)) :
    Option (Quiet Value) :=
  match name with
  | "Sensitive" => some (funcSensitive args)
  | "Deferred" => some (funcDeferred args)
  | "fail" => some (funcFail args)
  | "notice" => some (funcLog .notice args)
  | "info" => some (funcLog .info args)
  | "warning" => some (funcLog .logWarning args)
  | "err" => some (funcLog .logError args)
  | "crit" => some (funcLog .critical args)
  | "debug" => some (funcLog .debug args)
  | "defined" => some (funcDefined w args)
  | "realize" => some (funcRealize args)
  | "tag" => some (funcTag args)
  | "tagged" => some (funcTagged args)
  | "lookup" => some (funcLookup w args)
  | "hiera" => some (funcHiera w args)
  | "getvar" => some (funcGetvar args)
  | "each" => some (funcEach args lambda)
  | "map" => some (funcMap args lambda)
  | "filter" | "select" => some (funcFilter args lambda)
  | "reduce" => some (funcReduce args lambda)
  | _ => if stdlibNames.contains name then some (w.stdlib name args lambda) else none

/-- The dispatch of `puppet_eval_expr` on the name of a function. -/
def evalFuncall (name : String) (args : List Expr) (lambda : Option (Lambda Expr Stmt)) :
    Comp Value :=
  match builtin w name args lambda with
  | some p => p
  | none =>
    if name = "create_resources" then funcCreateResources w args
    else if name = "ensure_resource" ∨ name = "stdlib::ensure_resource" then
      funcEnsureResource w args
    else callOther w name args

end World

end PuppetC
