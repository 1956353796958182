import PuppetC.Interp.World

/-!
# Classes from files, data from Hiera, and the variable lookup chain

The loader finds the file of a class or defined type by its name and parses it once. Data
providers answer a key from the Hiera hierarchy; the parameters of a class are looked up there
and then in the data layer of its module. A variable is looked up in the scopes, the facts and
the data providers; a qualified one in the scope of its class, which is included for that
purpose if need be.

## Main definitions

* `loadClass`, `loadDefine`: `puppet_loader_load_class`, `puppet_loader_load_define`.
* `providersLookup`, `aplLookup`: the data providers and automatic parameter lookup.
* `variableLookupChain`, `evalVariable`: the lookup of a variable.
-/

namespace PuppetC

/-! ### The loader -/

/-- Replace every `::` by `/`. -/
def colonsToSlash : List Char → List Char
  | c :: d :: cs =>
    if c = ':' ∧ d = ':' then '/' :: colonsToSlash cs else c :: colonsToSlash (d :: cs)
  | cs => cs

/-- The file a class or defined type is looked for in, in a buffer of 1024. -/
def Loader.classPath (loader : Loader) (className : String) : String :=
  let name := stripTop className
  match cutNamespace name with
  | none => bufferCopy 1024 (loader.modulesPath ++ "/" ++ name ++ "/manifests/init.pp")
  | some (moduleName, rest) =>
    bufferCopy 1024 (loader.modulesPath ++ "/" ++ moduleName ++ "/manifests/" ++
      String.ofList (colonsToSlash rest.toList) ++ ".pp")

/-- `puppet_loader_resolve_class_path`. -/
def Loader.resolveClassPath (loader : Loader) (className : String) : Option String :=
  if loader.fileExists (loader.classPath className) then some (loader.classPath className)
  else none

/-- Is the file the `site.pp` the compile started from? -/
def Loader.isEntrySite (loader : Loader) (path : String) : Bool :=
  match loader.manifestsPath with
  | some dir => path == bufferCopy 1024 (dir ++ "/site.pp")
  | none => false

/-- `puppet_loader_load_manifest`: a file is parsed, and its facts are linted, once. -/
def loadManifest (loader : Loader) (path : String) : Quiet (Option (List Stmt)) := do
  if ← perform (.isParsed path) then return loader.parseFile path
  match loader.parseFile path with
  | none => do
    emit .note ("Error: Failed to parse '" ++ path ++ "'")
    return none
  | some stmts => do
    perform (.recordParsed path)
    unless loader.isEntrySite path do
      (loader.lintLegacyFacts stmts).forM fun d ↦ perform (.emit d)
    return some stmts

/-- The first class definition among statements. -/
def firstClassDef : List Stmt → Option ClassStmt
  | [] => none
  | .classDef c :: _ => some c
  | _ :: ss => firstClassDef ss

/-- The first defined type among statements. -/
def firstDefine : List Stmt → Option DefineStmt
  | [] => none
  | .define d :: _ => some d
  | _ :: ss => firstDefine ss

/-- `puppet_loader_load_class`. -/
def loadClass (loader : Loader) (className : String) : Quiet (Option ClassStmt) := do
  match ← perform (.getLoadedClass className) with
  | some c => return some c
  | none =>
    match loader.resolveClassPath className with
    | none => do
      emit .note ("Error: Cannot resolve class '" ++ className ++ "' to a file path")
      return none
    | some path =>
      match ← loadManifest loader path with
      | none => do
        emit .note ("Error: Failed to load class '" ++ className ++ "' from " ++ path)
        return none
      | some stmts =>
        match firstClassDef stmts with
        | none => do
          emit .note ("Error: No class definition found in " ++ path)
          return none
        | some c => do
          perform (.recordLoadedClass className c)
          return some c

/-- `puppet_loader_load_define`. -/
def loadDefine (loader : Loader) (defineName : String) : Quiet (Option DefineStmt) := do
  match loader.resolveClassPath defineName with
  | none => return none
  | some path =>
    match ← loadManifest loader path with
    | none => return none
    | some stmts => return firstDefine stmts

section World

variable (w : World)

/-- A class among the registered definitions, or else from its file. -/
def findOrLoadClass (className : String) : Quiet (Option ClassStmt) := do
  match ← perform (.findClassDef className) with
  | some c => return some c
  | none =>
    match w.loader with
    | some loader => loadClass loader className
    | none => return none

/-- The facts of the node being compiled. -/
def nodeFacts : Quiet (Option NodeFacts) := perform .nodeFacts

/-! ### Hiera -/

/-- The variable lookup of path interpolation, with `in_hiera_interpolation` set. -/
def interpolationLookup (name : String) : Quiet (Option Value) := do
  let was ← perform (.setHieraInterpolation true)
  let value ← call (.lookupChain name)
  let _ ← perform (.setHieraInterpolation was)
  return value

/-- The cache of a data provider. -/
def hieraStore (provider : ℕ) : HieraStore Quiet where
  read key := perform (.hieraRead provider key)
  write key value := perform (.hieraWrite provider key value)

/-- What Hiera reads of the environment at the moment. -/
def hieraEnv (nodeName callerModuleName : Option String) (parallelNodes : Bool)
    (facts : Option NodeFacts) : HieraEnv Quiet where
  nodeName
  callerModuleName
  parallelNodes
  factsLookupDotted := factsLookupDotted facts
  variableLookupChain := interpolationLookup

/-- The lookup of a key by one data provider. -/
def providerLookupBody (provider : ℕ) (key : String) : Quiet (Option Value) := do
  match w.providers[provider]? with
  | none => return none
  | some config => do
    let nodeName ← read .nodeName
    let callerModuleName ← read .callerModuleName
    let parallelNodes ← read .parallelNodes
    let facts ← nodeFacts
    hieraDataProviderLookup w.hieraFiles (hieraStore provider) config
      (hieraEnv nodeName callerModuleName parallelNodes facts) key

/-- The first of some data providers that has a key. -/
def providersLookupIn (key : String) : List ℕ → Quiet (Option Value)
  | [] => return none
  | provider :: rest => do
    match ← call (.providerLookup provider key) with
    | some value => return some value
    | none => providersLookupIn key rest

/-- The loop over `data_providers`. -/
def providersLookup (key : String) : Quiet (Option Value) :=
  providersLookupIn key (List.range w.providers.length)

/-- The scan of `module_hiera_interpolate_path` after `skip` more characters: a fact replaces
its name, other names are replaced by nothing, and a name that is not closed ends the path. -/
def moduleHieraPath (facts : Option NodeFacts) : List Char → ℕ → List Char
  | [], _ => []
  | _ :: cs, skip + 1 => moduleHieraPath facts cs skip
  | c :: cs, 0 =>
    if c = '%' ∧ cs.head? = some '{' then
      match cs.tail.findIdx? (· = '}') with
      | some n =>
        let token := String.ofList (cs.tail.take n)
        let text :=
          if startsWith token "facts." && n < 256 then
            match factsLookupDotted facts (dropChars 6 token) with
            | some (.string s) => s.toList
            | some (.number x) => (formatG x).toList
            | some (.bool b) => if b then "true".toList else "false".toList
            | _ => []
          else []
        text ++ moduleHieraPath facts cs (n + 2)
      | none => []
    else c :: moduleHieraPath facts cs 0

/-- The loop of `puppet_hiera_module_lookup` over the paths of a module. -/
def moduleHieraSearch (facts : Option NodeFacts) (key : String) : List String → Option Value
  | [] => none
  | path :: paths =>
    match w.moduleHieraFiles (String.ofList (moduleHieraPath facts path.toList 0)) with
    | some (.hash entries) =>
      match hashGet entries key with
      | some v => some v.copy
      | none => moduleHieraSearch facts key paths
    | _ => moduleHieraSearch facts key paths

/-- `puppet_hiera_module_lookup`. -/
def moduleHieraLookup (moduleName key : String) : Quiet (Option Value) := do
  let facts ← nodeFacts
  match w.loader, w.moduleHieraPaths moduleName with
  | some _, some paths =>
    return if moduleName = "" then none else moduleHieraSearch w facts key paths
  | _, _ => return none

/-- `puppet_apl_lookup`: the value Hiera has for a class parameter. -/
def aplLookup (className paramName : String) : Quiet (Option Value) := do
  let key := className ++ "::" ++ paramName
  match ← providersLookup w key with
  | some value => return some value
  | none =>
    -- The module name ends at the first colon, single or double.
    let moduleName := String.ofList (className.toList.takeWhile (· ≠ ':'))
    moduleHieraLookup w (stripTop moduleName) key

/-! ### Variables -/

/-- The facts step of `puppet_variable_lookup_chain`: `some` of the answer where it ends the
lookup. -/
def lookupFacts (name : String) : Quiet (Option (Option Value)) := do
  match w.factsDb with
  | none => return none
  | some _ => do
    let facts ← nodeFacts
    let whole := if name = "facts" then factsGetAllAsHash facts else none
    match whole with
    | some value => return some (some value)
    | none => do
      let interpolating ← read .inHieraInterpolation
      if !interpolating && isRemovedLegacyFact name then return some none
      match factsGet facts name with
      | some value => return some (some value)
      | none => return none

/-- A qualified variable, in a class that is included for it if it is not yet. -/
def lookupInClass (className varName : String) : Quiet (Option Value) := do
  match ← perform (.lookupQualified className varName) with
  | some value => return value
  | none =>
    match ← findOrLoadClass w className with
    | none => return none
    | some c => do
      call (.includeClassFromDef c)
      match ← perform (.lookupIncluded className varName) with
      | some value => return value
      | none => return none

/-- An unqualified variable: scopes, facts, data providers. -/
def lookupUnqualified (name : String) (topLevelOnly : Bool) : Quiet (Option Value) := do
  match ← perform (.lookupScopes name topLevelOnly) with
  | some value => return some value
  | none =>
    match ← lookupFacts w name with
    | some answer => return answer
    | none => do
      let interpolating ← read .inHieraInterpolation
      if topLevelOnly || interpolating then return none
      providersLookup w name

/-- `puppet_variable_lookup_chain`. The answer is recorded. -/
def variableLookupChain (name : String) : Quiet (Option Value) := do
  let value ←
    match cutLastNamespace (stripTop name) with
    | some (className, varName) => lookupInClass w className varName
    | none => lookupUnqualified w (stripTop name) (startsWith name "::")
  perform (.recordRead name value)
  return value

/-- `puppet_eval_variable`. -/
def evalVariable (name : String) : Quiet Value := do
  match ← call (.lookupChain name) with
  | some value => return value.copy
  | none => do
    let deferring ← read .deferNodeExecution
    let factless ← read .factless
    let truthiness ← read .inTruthinessCheck
    let bare := stripTop name
    let legacy := !hasChar bare ':' && isRemovedLegacyFact bare
    if legacy && !deferring && !factless then
      emit .error ("Unknown variable: '" ++ bare ++ "'")
    else if !deferring && !truthiness then
      emit .warning ("Undefined variable: " ++ name)
    return .undef

end World

end PuppetC
