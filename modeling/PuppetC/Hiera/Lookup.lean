import PuppetC.Hiera.Interpolate
import PuppetC.Support.AnswerCache

/-!
# Hiera lookup

`puppet_hiera_lookup` walks the levels of the hierarchy, reads the YAML file that each level's
interpolated path names and takes the value of the key there, the first one found or a merge of
all of them. Outside parallel mode it answers from, and fills, a cache keyed by the lookup key.

The content of the files is a function `files` from paths: what `stat` and
`puppet_hiera_load_yaml` give for a path, or `none` where there is no readable regular file. The
cache is reached through `HieraStore`, since a lookup made by the interpreter finds it in the
environment.

## Main definitions

* `hieraMergeValues`: `puppet_hiera_merge_values`.
* `hieraModuleName`: the `module_name` a lookup interpolates with.
* `hieraPaths`: the file names of a lookup, level by level.
* `hieraSearch`: the walk through the levels.
* `hieraLookup`, `hieraDataProviderLookup`: the lookup with its cache.

## Main results

* `hieraSearch_congr`: lookups of one key whose paths are equal find the same value.
-/

namespace PuppetC

universe u

/-! ### Merging -/

/-- `array_contains_value`: strings, numbers and booleans are compared, other values never
match. -/
def arrayContainsValue (items : List Value) (value : Value) : Bool :=
  match value with
  | .string _ | .number _ | .bool _ => items.contains value
  | _ => false

/-- The loop of `deep_merge_hashes` over the entries of the overlay. -/
def deepMergeEntries (result : List (String × Value)) :
    List (String × Value) → List (String × Value)
  | [] => result
  | (k, .hash overlay) :: es =>
    match hashGet result k with
    | some (.hash base) =>
      deepMergeEntries (hashSet result k (.hash (deepMergeEntries base overlay))) es
    | _ => deepMergeEntries (hashSet result k (.hash overlay)) es
  | (k, v) :: es => deepMergeEntries (hashSet result k v) es

/-- The loop of a shallow hash merge: only keys that are missing are added. -/
def addMissingEntries (existing : List (String × Value)) :
    List (String × Value) → List (String × Value)
  | [] => existing
  | (k, v) :: es =>
    addMissingEntries (if (hashGet existing k).isSome then existing else hashSet existing k v) es

/-- `puppet_hiera_merge_values` for a value found below `existing`. -/
def hieraMergeValues (existing : Option Value) (new : Value) (strategy : HieraMerge) : Value :=
  match existing with
  | none => new
  | some existing =>
    match strategy, existing, new with
    | .unique, .array xs, .array ys =>
      .array (ys.foldl (fun acc y ↦ if arrayContainsValue acc y then acc else acc ++ [y]) xs)
    | .hash, .hash es, .hash fs => .hash (addMissingEntries es fs)
    | .deep, .hash es, .hash fs => .hash (deepMergeEntries es fs)
    | _, existing, _ => existing

/-! ### The walk through the hierarchy -/

/-- The module a lookup interpolates `%{module_name}` with: the namespace of the key, or the
calling module for a bare key; nothing when it is empty or does not fit its buffer of 256. -/
def hieraModuleName (key : String) (callerModuleName : Option String) : Option String :=
  let name := match cutNamespace key with
    | some (namespaceOfKey, _) => some namespaceOfKey
    | none => callerModuleName
  name.filter fun n ↦ 0 < n.length ∧ n.length < 256

/-- The context variables of a lookup. -/
def hieraVariables {m : Type → Type u} (env : HieraEnv m) (key : String) : HieraVariables :=
  match hieraModuleName key env.callerModuleName with
  | some name => (hieraContextCreate env).set "module_name" (.string name)
  | none => hieraContextCreate env

/-- The value of `key` in a file, when it holds a YAML mapping. -/
def fileValue (files : String → Option Value) (path key : String) : Option Value :=
  match files path with
  | some (.hash entries) => hashGet entries key
  | _ => none

/-- The value of `key` in a list of files: the first one, or a merge of all. -/
def searchPaths (files : String → Option Value) (key : String) (strategy : HieraMerge)
    (result : Option Value) : List String → Option Value
  | [] => result
  | path :: paths =>
    match fileValue files path key with
    | none => searchPaths files key strategy result paths
    | some value =>
      if strategy = .first then some value
      else searchPaths files key strategy (some (hieraMergeValues result value strategy)) paths

section Lookup

variable {m : Type → Type u} [Monad m]

/-- The path of a level: its data directory and its interpolated template, in a buffer of
1024. -/
def hieraLevelPath (env : HieraEnv m) (vars : HieraVariables) (level : HieraLevel) : m String := do
  let path ← hieraInterpolate level.pathTemplate env vars
  pure (bufferCopy 1024 (level.datadir ++ "/" ++ path))

/-- The paths a list of levels names. -/
def hieraPathList (env : HieraEnv m) (vars : HieraVariables) : List HieraLevel → m (List String)
  | [] => pure []
  | level :: levels => do
    let path ← hieraLevelPath env vars level
    let paths ← hieraPathList env vars levels
    pure (path :: paths)

/-- The paths of a lookup of `key`, level by level. -/
def hieraPaths (config : HieraConfig) (env : HieraEnv m) (key : String) : m (List String) :=
  hieraPathList env (hieraVariables env key) config.hierarchy

/-- The loop of `puppet_hiera_lookup` over the levels. A first match ends it, so the paths of
later levels are not interpolated. -/
def hieraLevels (files : String → Option Value) (env : HieraEnv m) (vars : HieraVariables)
    (key : String) (strategy : HieraMerge) (result : Option Value) :
    List HieraLevel → m (Option Value)
  | [] => pure result
  | level :: levels => do
    let path ← hieraLevelPath env vars level
    match fileValue files path key with
    | none => hieraLevels files env vars key strategy result levels
    | some value =>
      if strategy = .first then pure (some value)
      else
        hieraLevels files env vars key strategy (some (hieraMergeValues result value strategy))
          levels

/-- A lookup without the cache. -/
def hieraSearch (files : String → Option Value) (config : HieraConfig) (env : HieraEnv m)
    (key : String) (default : Option Value) (strategy : HieraMerge) : m (Option Value) := do
  let result ← hieraLevels files env (hieraVariables env key) key strategy none config.hierarchy
  pure (result <|> default)

/-- Access to the cache of a configuration. -/
structure HieraStore (m : Type → Type u) where
  read : String → m (Option Value)
  write : String → Value → m Unit

/-- `puppet_hiera_lookup`. -/
def hieraLookup (files : String → Option Value) (store : HieraStore m) (config : HieraConfig)
    (env : HieraEnv m) (key : String) (default : Option Value) (strategy : HieraMerge) :
    m (Option Value) := do
  if env.parallelNodes then hieraSearch files config env key default strategy
  else
    match ← store.read key with
    | some cached => pure (some cached)
    | none => do
      match ← hieraSearch files config env key default strategy with
      | some result => do
        store.write key result
        pure (some result)
      | none => pure none

/-- `puppet_hiera_data_provider_lookup`. -/
def hieraDataProviderLookup (files : String → Option Value) (store : HieraStore m)
    (config : HieraConfig) (env : HieraEnv m) (key : String) : m (Option Value) :=
  hieraLookup files store config env key none config.defaultMerge

end Lookup

/-! ### Lookups in an environment that runs no code -/

/-- In an environment whose variable chain runs no code, the walk through the levels is the walk
through their paths. -/
theorem hieraLevels_id (files : String → Option Value) (env : HieraEnv Id)
    (vars : HieraVariables) (key : String) (strategy : HieraMerge) (result : Option Value)
    (levels : List HieraLevel) :
    hieraLevels files env vars key strategy result levels =
      searchPaths files key strategy result (hieraPathList env vars levels) := by
  induction levels generalizing result with
  | nil => rfl
  | cons level levels ih =>
    change (match fileValue files (hieraLevelPath env vars level) key with
      | none => hieraLevels files env vars key strategy result levels
      | some value => _) = searchPaths files key strategy result
        (hieraLevelPath env vars level :: hieraPathList env vars levels)
    rw [searchPaths]
    cases fileValue files (hieraLevelPath env vars level) key with
    | none => exact ih result
    | some value =>
      dsimp only
      split_ifs
      · rfl
      · exact ih _

/-- Lookups of one key whose paths are equal find the same value. -/
theorem hieraSearch_congr (files : String → Option Value) (config : HieraConfig)
    {env env' : HieraEnv Id} {key : String} (default : Option Value) (strategy : HieraMerge)
    (h : hieraPaths config env key = hieraPaths config env' key) :
    hieraSearch files config env key default strategy =
      hieraSearch files config env' key default strategy := by
  have hl := hieraLevels_id files env (hieraVariables env key) key strategy none config.hierarchy
  have hl' := hieraLevels_id files env' (hieraVariables env' key) key strategy none
    config.hierarchy
  have : hieraLevels files env (hieraVariables env key) key strategy none config.hierarchy =
      hieraLevels files env' (hieraVariables env' key) key strategy none config.hierarchy :=
    hl.trans ((congrArg (searchPaths files key strategy none) h).trans hl'.symm)
  simp only [hieraSearch, this]

end PuppetC
