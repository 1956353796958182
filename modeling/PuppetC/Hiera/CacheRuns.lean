import PuppetC.Hiera.Lookup

/-!
# Runs of lookups through one Hiera configuration

The cache of a configuration lives as long as the configuration, so the lookups of all classes
and of all nodes of a sequential run go through one cache, while the facts, the calling module
and the variables change from one lookup to the next. The cache is keyed by the lookup key
alone. This file states when such a run returns what it would return without the cache.

## Main definitions

* `HieraCall`: one lookup, with the environment it is made in.
* `hieraRun`: a sequence of lookups through one cache, empty at the start.
* `hieraUncached`: the same lookup on the path of parallel mode, which has no cache.
* `HieraCall.KeepsPaths`: a lookup that finds a value is followed, under its key, by lookups
  with the same paths.

## Main results

* `hieraRun_eq_uncached`: runs whose lookups keep their paths return what uncached lookups do.
* `hieraRun_leaks`: a value found for one node is returned to another whose paths differ.
-/

namespace PuppetC

/-- The cache of a configuration. -/
abbrev HieraCache : Type := Hash 16 Value

/-- One lookup through the data provider, in the environment of its moment. -/
structure HieraCall where
  env : HieraEnv Id
  key : String

/-- `config->cache`. -/
def hieraCacheStore : HieraStore (StateM HieraCache) where
  read key := fun cache ↦ (cache.get key, cache)
  write key value := fun cache ↦ ((), cache.set key value)

/-- An environment whose variable chain leaves the cache alone. -/
def HieraEnv.besideCache (env : HieraEnv Id) : HieraEnv (StateM HieraCache) where
  nodeName := env.nodeName
  callerModuleName := env.callerModuleName
  parallelNodes := env.parallelNodes
  factsLookupDotted := env.factsLookupDotted
  variableLookupChain name := fun cache ↦ (env.variableLookupChain name, cache)

section Run

variable (files : String → Option Value) (config : HieraConfig)

/-- One lookup through the cache. -/
def hieraCall (call : HieraCall) : StateM HieraCache (Option Value) :=
  hieraDataProviderLookup files hieraCacheStore config call.env.besideCache call.key

/-- A sequence of lookups through one cache. -/
def hieraCalls : List HieraCall → StateM HieraCache (List (Option Value))
  | [] => pure []
  | call :: calls => do
    let value ← hieraCall files config call
    let values ← hieraCalls calls
    pure (value :: values)

/-- The values a sequence of lookups returns, from the empty cache of a new configuration. -/
def hieraRun (calls : List HieraCall) : List (Option Value) :=
  (hieraCalls files config calls Table.empty).1

/-- The lookup with the cache disabled: `env->parallel_nodes` is set. -/
def hieraUncached (call : HieraCall) : Option Value :=
  (hieraCall files config ⟨{ call.env with parallelNodes := true }, call.key⟩ Table.empty).1

/-- The interpolated paths of a lookup. -/
def HieraCall.paths (call : HieraCall) : List String := hieraPaths config call.env call.key

/-- Some file on the paths of a lookup has its key. -/
def HieraCall.Finds (call : HieraCall) : Prop :=
  ∃ path ∈ call.paths config, (fileValue files path call.key).isSome

/-- If `call` finds a value, then `call'`, when it goes through the cache under the same key,
has the same paths. -/
def HieraCall.KeepsPaths (call call' : HieraCall) : Prop :=
  call.env.parallelNodes = false → call'.env.parallelNodes = false → call.key = call'.key →
    call.Finds files config → call.paths config = call'.paths config

end Run

/-! ### One lookup through the cache -/

variable {files : String → Option Value} {config : HieraConfig}

theorem hieraTokenText_chain_besideCache (env : HieraEnv Id) (name : String)
    (cache : HieraCache) :
    hieraTokenText.chain env.besideCache name cache = (hieraTokenText.chain env name, cache) := by
  simp only [hieraTokenText.chain, HieraEnv.besideCache, bind, StateT.bind]
  generalize env.variableLookupChain (stripTop name) = value
  rcases value with _ | _ | _ | s | _ | _ | _ | _ | _ <;> rfl

theorem hieraTokenText_besideCache (env : HieraEnv Id) (vars : HieraVariables) (name : String)
    (cache : HieraCache) :
    hieraTokenText env.besideCache vars name cache = (hieraTokenText env vars name, cache) := by
  have hchain := hieraTokenText_chain_besideCache env name cache
  have hmodule : (env.besideCache.callerModuleName) = env.callerModuleName := rfl
  have hfacts : env.besideCache.factsLookupDotted = env.factsLookupDotted := rfl
  simp only [hieraTokenText, hmodule, hfacts]
  rcases vars.get name with _ | _ | _ | s | _ | _ | _ | _ | _
  case some.string => rfl
  all_goals
    dsimp only
    by_cases hprefix : startsWith (stripTop name) "facts." = true
    · simp only [if_pos hprefix]; rfl
    · simp only [if_neg hprefix]
      cases env.callerModuleName with
      | none => exact hchain
      | some moduleName =>
        dsimp only
        by_cases hname : name = "module_name"
        · simp only [if_pos hname]; rfl
        · simp only [if_neg hname]; exact hchain

theorem hieraTokens_besideCache (env : HieraEnv Id) (vars : HieraVariables)
    (tokens : List TemplateToken) (cache : HieraCache) :
    hieraTokens env.besideCache vars tokens cache = (hieraTokens env vars tokens, cache) := by
  induction tokens with
  | nil => rfl
  | cons token tokens ih =>
    have htoken : hieraToken env.besideCache vars token cache =
        (hieraToken env vars token, cache) := by
      cases token with
      | char c => rfl
      | var name => exact hieraTokenText_besideCache env vars name cache
    simp only [hieraTokens, bind, StateT.bind, htoken, ih]
    rfl

theorem hieraLevels_besideCache (env : HieraEnv Id) (vars : HieraVariables) (key : String)
    (strategy : HieraMerge) (result : Option Value) (levels : List HieraLevel)
    (cache : HieraCache) :
    hieraLevels files env.besideCache vars key strategy result levels cache =
      (hieraLevels files env vars key strategy result levels, cache) := by
  induction levels generalizing result with
  | nil => rfl
  | cons level levels ih =>
    have hpath : hieraLevelPath env.besideCache vars level cache =
        (hieraLevelPath env vars level, cache) := by
      simp only [hieraLevelPath, hieraInterpolate, bind, StateT.bind, hieraTokens_besideCache]
      rfl
    simp only [hieraLevels, bind, StateT.bind, hpath]
    cases fileValue files (hieraLevelPath env vars level) key with
    | none => exact ih result
    | some value =>
      dsimp only
      split_ifs
      · rfl
      · exact ih _

theorem hieraSearch_besideCache (env : HieraEnv Id) (key : String) (strategy : HieraMerge)
    (cache : HieraCache) :
    hieraSearch files config env.besideCache key none strategy cache =
      (hieraSearch files config env key none strategy, cache) := by
  have hvars : hieraVariables env.besideCache key = hieraVariables env key := rfl
  simp only [hieraSearch, bind, StateT.bind, hvars, hieraLevels_besideCache]
  rfl

/-- The paths of a lookup do not depend on the mode. -/
theorem hieraPathList_parallelNodes (env : HieraEnv Id) (parallel : Bool)
    (vars : HieraVariables) (levels : List HieraLevel) :
    hieraPathList { env with parallelNodes := parallel } vars levels =
      hieraPathList env vars levels := by
  have htokens : ∀ tokens, hieraTokens { env with parallelNodes := parallel } vars tokens =
      hieraTokens env vars tokens := by
    intro tokens
    induction tokens with
    | nil => rfl
    | cons token tokens ih =>
      simp only [hieraTokens, ih]
      cases token <;> rfl
  induction levels with
  | nil => rfl
  | cons level levels ih =>
    simp only [hieraPathList, hieraLevelPath, hieraInterpolate, htokens, ih]

theorem hieraUncached_eq (call : HieraCall) :
    hieraUncached files config call =
      hieraSearch files config call.env call.key none config.defaultMerge :=
  calc hieraUncached files config call
      = hieraSearch files config { call.env with parallelNodes := true } call.key none
          config.defaultMerge :=
        congrArg Prod.fst (@hieraSearch_besideCache files config
          { call.env with parallelNodes := true } call.key config.defaultMerge Table.empty)
    _ = hieraSearch files config call.env call.key none config.defaultMerge :=
        hieraSearch_congr files config none config.defaultMerge
          (hieraPathList_parallelNodes call.env true _ config.hierarchy)

/-- A lookup is one query through the cache, under its key. -/
theorem hieraCall_eq_step (call : HieraCall) (cache : HieraCache) :
    hieraCall files config call cache =
      (Table.cacheOps (bucketOf 16) Value).step HieraCall.key
        (fun call ↦ call.env.parallelNodes) (hieraUncached files config) cache call := by
  simp only [hieraUncached_eq, CacheOps.step, hieraCall, hieraDataProviderLookup, hieraLookup]
  change (if call.env.parallelNodes = true then _ else _ : StateM HieraCache _) cache = _
  cases call.env.parallelNodes with
  | true => exact hieraSearch_besideCache call.env call.key config.defaultMerge cache
  | false =>
    simp only [Bool.false_eq_true, if_false, bind, StateT.bind, hieraCacheStore,
      Table.cacheOps]
    cases cache.get call.key with
    | some cached => rfl
    | none =>
      simp only [StateT.bind, hieraSearch_besideCache, bind]
      cases hieraSearch files config call.env call.key none config.defaultMerge <;> rfl

/-- A run of lookups is a run of queries through the cache. -/
theorem hieraCalls_eq_run (calls : List HieraCall) (cache : HieraCache) :
    hieraCalls files config calls cache =
      (Table.cacheOps (bucketOf 16) Value).run HieraCall.key
        (fun call ↦ call.env.parallelNodes) (hieraUncached files config) cache calls := by
  induction calls generalizing cache with
  | nil => rfl
  | cons call calls ih =>
    simp only [hieraCalls, CacheOps.run, bind, StateT.bind, hieraCall_eq_step, ih]
    rfl

/-! ### Transparency -/

/-- A walk that starts with no value and finds one has met the key in some file. -/
theorem exists_fileValue_of_searchPaths {key : String} {strategy : HieraMerge}
    {paths : List String} (value : Value)
    (h : searchPaths files key strategy none paths = some value) :
    ∃ path ∈ paths, (fileValue files path key).isSome := by
  induction paths with
  | nil => simp [searchPaths] at h
  | cons path paths ih =>
    cases hv : fileValue files path key with
    | some v => exact ⟨path, List.mem_cons_self, by simp [hv]⟩
    | none =>
      obtain ⟨path', hmem, hsome⟩ := ih (by simpa only [searchPaths, hv] using h)
      exact ⟨path', List.mem_cons_of_mem _ hmem, hsome⟩

theorem HieraCall.finds_of_uncached {call : HieraCall} {value : Value}
    (h : hieraUncached files config call = some value) : call.Finds files config := by
  rw [hieraUncached_eq] at h
  have hlevels := hieraLevels_id files call.env (hieraVariables call.env call.key) call.key
    config.defaultMerge none config.hierarchy
  refine exists_fileValue_of_searchPaths value (hlevels.symm.trans ?_)
  simpa [hieraSearch] using h

theorem HieraCall.KeepsPaths.follows {call call' : HieraCall}
    (h : call.KeepsPaths files config call') :
    CacheOps.Follows HieraCall.key (fun call ↦ call.env.parallelNodes)
      (hieraUncached files config) call call' := by
  intro hb hb' hkey value hvalue
  have hpaths := h hb hb' hkey (HieraCall.finds_of_uncached hvalue)
  rw [hieraUncached_eq] at hvalue ⊢
  rw [← hvalue, ← hkey]
  refine (hieraSearch_congr files config none config.defaultMerge ?_).symm
  simpa only [HieraCall.paths, ← hkey] using hpaths

/-- **Cache transparency.** In a run in which every lookup that finds a value is followed, under
its key, only by lookups with the same interpolated paths, each lookup returns what it would
return with the cache disabled. -/
theorem hieraRun_eq_uncached (calls : List HieraCall)
    (h : calls.Pairwise (HieraCall.KeepsPaths files config)) :
    hieraRun files config calls = calls.map (hieraUncached files config) := by
  rw [hieraRun, hieraCalls_eq_run]
  exact CacheOps.run_eq_map (CacheOps.faithful_of_find_eq_none (fun _ ↦ rfl) calls)
    (h.imp HieraCall.KeepsPaths.follows)

/-! ### Two nodes -/

/-- An environment that knows one fact, `role`. -/
def roleEnv (role : String) : HieraEnv Id where
  nodeName := none
  callerModuleName := none
  parallelNodes := false
  factsLookupDotted path := if path = "role" then some (.string role) else none
  variableLookupChain _ := none

/-- A hierarchy with one level, for the role of the node. -/
def roleConfig : HieraConfig where
  defaultMerge := .first
  hierarchy := [⟨"role", "%{facts.role}.yaml", "data"⟩]

/-- The data of two roles. -/
def roleFiles (path : String) : Option Value :=
  if path = "data/web.yaml" then some (.hash [("port", .string "80")])
  else if path = "data/db.yaml" then some (.hash [("port", .string "5432")])
  else none

/-- Two nodes of one role, and a key that only they ask for. -/
theorem hieraRun_eq_uncached_one_role :
    hieraRun roleFiles roleConfig [⟨roleEnv "web", "port"⟩, ⟨roleEnv "web", "port"⟩] =
      [⟨roleEnv "web", "port"⟩, ⟨roleEnv "web", "port"⟩].map
        (hieraUncached roleFiles roleConfig) :=
  hieraRun_eq_uncached _ (by
    refine List.pairwise_cons.2 ⟨fun call hcall _ _ _ _ ↦ ?_, List.pairwise_singleton ..⟩
    rw [List.mem_singleton.1 hcall])

/-- The port found for the web node is returned to the database node. -/
theorem hieraRun_leaks :
    hieraRun roleFiles roleConfig [⟨roleEnv "web", "port"⟩, ⟨roleEnv "db", "port"⟩] ≠
      [⟨roleEnv "web", "port"⟩, ⟨roleEnv "db", "port"⟩].map
        (hieraUncached roleFiles roleConfig) := by
  decide

end PuppetC
