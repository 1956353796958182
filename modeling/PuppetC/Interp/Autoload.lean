import PuppetC.Interp.ClassGraph

/-!
# Autoloading the definition that is asked for

The loader looks for a class or defined type in the manifest its name resolves to, and takes the
first definition there, whatever its name. A run of loads starts with no class loaded; classes
that were loaded are answered from the cache of their names.

## Main definitions

* `LoadRequest`, `LoadRequest.load`, `autoload`: requests to the loader, and a run of them.
* `LoadRequest.Right`: an answer is the definition that was asked for, if the manifest has it.
* `LoadRequest.LeadsManifest`: the manifest declares nothing of the kind before it.

## Main results

* `returns_loadClass`: the answer to a request for a class and what the cache keeps of it.
* `returns_autoload`: the answers of a run, and where the classes of its cache come from.
* `autoload_right_iff`: when all answers of a run and its cache are right.
-/

namespace PuppetC

/-! ### Requests -/

/-- A class or a defined type. -/
inductive Definition where
  | class (c : ClassStmt)
  | define (d : DefineStmt)

/-- The name that a definition declares. -/
def Definition.name : Definition → String
  | .class c => c.name
  | .define d => d.name

/-- A name that is looked for as a class or as a defined type. -/
inductive LoadRequest where
  | class (name : String)
  | define (name : String)

namespace LoadRequest

/-- The name that is looked for. -/
def name : LoadRequest → String
  | .class name => name
  | .define name => name

/-- Ask the loader. -/
def load (loader : Loader) : LoadRequest → Quiet (Option Definition)
  | .class name => do return (← loadClass loader name).map .class
  | .define name => do return (← loadDefine loader name).map .define

/-- The definition that a statement makes, if it is of the kind that is looked for. -/
def definition? : LoadRequest → Stmt → Option Definition
  | .class _, .classDef c => some (.class c)
  | .define _, .define d => some (.define d)
  | _, _ => none

/-- The statements of the manifest that a name resolves to. -/
def manifest (loader : Loader) (r : LoadRequest) : List Stmt :=
  ((loader.resolveClassPath r.name).bind loader.parseFile).getD []

/-- The definitions of the kind in the manifest. -/
def candidates (loader : Loader) (r : LoadRequest) : List Definition :=
  (r.manifest loader).filterMap r.definition?

/-- The definition declares the name that is looked for. -/
def Asks (r : LoadRequest) (d : Definition) : Prop := stripTop d.name = stripTop r.name

/-- The answer is the definition that was asked for whenever the manifest has it, and nothing
otherwise. -/
def Right (loader : Loader) (r : LoadRequest) : Option Definition → Prop
  | some d => d ∈ r.candidates loader ∧ r.Asks d
  | none => ∀ d ∈ r.candidates loader, ¬ r.Asks d

/-- The first definition of the kind in the manifest, if there is one, is the one that is looked
for. -/
def LeadsManifest (loader : Loader) (r : LoadRequest) : Prop :=
  ∀ d ∈ (r.candidates loader).head?, r.Asks d

end LoadRequest

/-- Requests to the loader, one after the other. -/
def autoload (loader : Loader) : List LoadRequest → Quiet (List (Option Definition))
  | [] => return []
  | r :: rs => do
    let d ← r.load loader
    let ds ← autoload loader rs
    return d :: ds

/-- No name of a class is mapped to a class of another name. -/
def Env.CachesOwnClasses (env : Env) : Prop :=
  ∀ name c, env.loadedClasses.lookup name = some c → stripTop c.name = stripTop name

variable {w : World} {α β : Type} {env : Env} {loader : Loader}

/-- A program returns `a` and ends with the classes `cache` loaded. -/
def World.LeavesCache (w : World) (p : Quiet α) (env : Env) (a : α)
    (cache : List (String × ClassStmt)) : Prop :=
  ∃ env', w.ReturnsQuiet p env a env' ∧ env'.loadedClasses = cache

/-! ### Programs and the cache -/

namespace World.LeavesCache

variable {p : Quiet α} {f : α → Quiet β} {a : α} {b : β} {cache cache' : List (String × ClassStmt)}

theorem pure (a : α) (env : Env) :
    w.LeavesCache (pure a : Quiet α) env a env.loadedClasses :=
  ⟨env, Prog.returns_pure_iff.2 ⟨rfl, rfl⟩, rfl⟩

theorem bind (hp : w.LeavesCache p env a cache)
    (hf : ∀ env', env'.loadedClasses = cache → w.LeavesCache (f a) env' b cache') :
    w.LeavesCache (p >>= f) env b cache' := by
  obtain ⟨env₁, hret, hcache⟩ := hp
  obtain ⟨env', hret', hcache'⟩ := hf env₁ hcache
  exact ⟨env', returnsQuiet_bind_iff.2 ⟨a, env₁, hret, hret'⟩, hcache'⟩

theorem map (g : α → β) (hp : w.LeavesCache p env a cache) :
    w.LeavesCache (do return g (← p)) env (g a) cache :=
  hp.bind fun env' hcache ↦ hcache ▸ .pure (g a) env'

theorem perform {o : EnvPrim α} {env' : Env} (h : o.handle w.factsDb env = .ok (a, env')) :
    w.LeavesCache (PuppetC.perform o) env a env'.loadedClasses :=
  ⟨env', returnsQuiet_perform_iff.2 h, rfl⟩

theorem perform_emit (env : Env) (d : Diagnostic) :
    w.LeavesCache (PuppetC.perform (.emit d)) env () env.loadedClasses := by
  have hcache : (env.emit d).loadedClasses = env.loadedClasses := by
    unfold Env.emit
    cases d.severity <;> rfl
  exact hcache ▸ .perform rfl

/-- A program that only reads files leaves the classes as they are. -/
theorem of_onlyReads (h : ∃ env', w.ReturnsQuiet p env a env' ∧ env.OnlyReads env') :
    w.LeavesCache p env a env.loadedClasses := by
  obtain ⟨env', hret, parsed, ds, errors, warnings, failed, rfl⟩ := h
  exact ⟨_, hret, rfl⟩

/-- A message and then nothing. -/
theorem emit_return (env : Env) (severity : Severity) (text : String) (a : α) :
    w.LeavesCache (do emit severity text; return a) env a env.loadedClasses :=
  (perform_emit env _).bind fun env' hcache ↦ hcache ▸ .pure a env'

end World.LeavesCache

/-! ### One request -/

open World (LeavesCache)

/-- A manifest is loaded without a change to the classes. -/
theorem returns_loadManifest (env : Env) (path : String) :
    w.LeavesCache (loadManifest loader path) env (loader.parseFile path) env.loadedClasses :=
  .of_onlyReads (exists_returnsQuiet_loadManifest loader path env)

/-- A class that is in the cache is answered from there; another one is looked for in its file,
and what is found is put into the cache. -/
theorem returns_loadClass (env : Env) (className : String) :
    w.LeavesCache (loadClass loader className) env
      ((env.loadedClasses.lookup className).or (loader.classOf className))
      (if (env.loadedClasses.lookup className).isSome then env.loadedClasses
        else env.loadedClasses ++ (loader.classOf className).toList.map (className, ·)) := by
  unfold loadClass
  refine (LeavesCache.perform rfl).bind fun env₁ h₁ ↦ ?_
  change env₁.loadedClasses = env.loadedClasses at h₁
  rw [← h₁, Loader.classOf]
  cases env₁.loadedClasses.lookup className with
  | some c => exact .pure _ _
  | none =>
    cases loader.resolveClassPath className with
    | none => simpa using LeavesCache.emit_return env₁ _ _ none
    | some path =>
      refine (returns_loadManifest env₁ path).bind fun env₂ h₂ ↦ ?_
      rw [← h₂]
      cases hstmts : loader.parseFile path with
      | none => simpa [hstmts] using LeavesCache.emit_return env₂ _ _ none
      | some stmts =>
        cases hfirst : firstClassDef stmts with
        | none => simpa [hstmts, hfirst] using LeavesCache.emit_return env₂ _ _ none
        | some c =>
          have hrecord : w.LeavesCache (perform (.recordLoadedClass className c)) env₂ ()
              (env₂.loadedClasses ++ [(className, c)]) :=
            ⟨_, returnsQuiet_perform_iff.2 rfl, rfl⟩
          simpa [hstmts, hfirst] using hrecord.bind fun env₃ h₃ ↦ h₃ ▸ .pure (some c) env₃

/-- A defined type is looked for in its file. -/
theorem returns_loadDefine (env : Env) (defineName : String) :
    w.LeavesCache (loadDefine loader defineName) env
      (((loader.resolveClassPath defineName).bind loader.parseFile).bind firstDefine)
      env.loadedClasses :=
  .of_onlyReads (exists_returnsQuiet_loadDefine loader defineName env)

/-! ### Runs of loads -/

namespace LoadRequest

/-- The first definition of the kind in the manifest. -/
def first (loader : Loader) (r : LoadRequest) : Option Definition := (r.candidates loader).head?

/-- The answer is right when the first definition is the one that was asked for, and only then. -/
theorem right_first_iff (r : LoadRequest) :
    r.Right loader (r.first loader) ↔ r.LeadsManifest loader := by
  unfold first LeadsManifest
  cases hcandidates : r.candidates loader with
  | nil => simp [Right, hcandidates]
  | cons d ds => simp [Right, hcandidates]

theorem first_class (className : String) :
    (LoadRequest.class className).first loader = (loader.classOf className).map .class := by
  rw [first, candidates, manifest, Loader.classOf, name]
  cases loader.resolveClassPath className with
  | none => rfl
  | some path =>
    rw [Option.bind_some, Option.bind_some]
    cases loader.parseFile path with
    | none => rfl
    | some stmts =>
      rw [Option.getD_some, Option.bind_some]
      induction stmts with
      | nil => rfl
      | cons s stmts ih => cases s <;> first | exact ih | rfl

theorem first_define (defineName : String) :
    (LoadRequest.define defineName).first loader =
      (((loader.resolveClassPath defineName).bind loader.parseFile).bind firstDefine).map
        .define := by
  rw [first, candidates, manifest, name]
  cases (loader.resolveClassPath defineName).bind loader.parseFile with
  | none => rfl
  | some stmts =>
    rw [Option.getD_some, Option.bind_some]
    induction stmts with
    | nil => rfl
    | cons s stmts ih => cases s <;> first | exact ih | rfl

/-- The classes of a cache were asked for, and come from the files of their names. -/
def Accounts (loader : Loader) (requests : List LoadRequest)
    (cache : List (String × ClassStmt)) : Prop :=
  ∀ name c, cache.lookup name = some c →
    .class name ∈ requests ∧ loader.classOf name = some c

/-- What one request answers and leaves in the cache. -/
theorem returns_load {past : List LoadRequest} (env : Env)
    (hcache : Accounts loader past env.loadedClasses) (r : LoadRequest) :
    ∃ cache, w.LeavesCache (r.load loader) env (r.first loader) cache ∧
      Accounts loader (past ++ [r]) cache := by
  have hgrow {cache : List (String × ClassStmt)} (h : Accounts loader past cache) :
      Accounts loader (past ++ [r]) cache := fun name c hc ↦
    ⟨List.mem_append_left _ (h name c hc).1, (h name c hc).2⟩
  cases r with
  | define name =>
    rw [first_define]
    exact ⟨_, (returns_loadDefine env name).map _, hgrow hcache⟩
  | «class» name =>
    rw [first_class]
    have hload := (@returns_loadClass w loader env name).map (Option.map Definition.class)
    cases hlookup : env.loadedClasses.lookup name with
    | some c =>
      rw [(hcache name c hlookup).2]
      rw [hlookup] at hload
      exact ⟨_, hload, hgrow hcache⟩
    | none =>
      rw [hlookup, Option.none_or] at hload
      refine ⟨_, hload, fun name' c hc ↦ ?_⟩
      rw [if_neg (by simp), List.lookup_append] at hc
      rcases Option.or_eq_some_iff.1 hc with hold | ⟨-, hnew⟩
      · exact hgrow hcache name' c hold
      · cases hclass : loader.classOf name with
        | none => simp [hclass] at hnew
        | some c' =>
          by_cases hname : name' = name
          · subst hname
            simp only [hclass, Option.toList_some, List.map_cons, List.map_nil,
              List.lookup_cons_self, Option.some.injEq] at hnew
            exact ⟨by simp, hnew ▸ hclass⟩
          · have hne : (name' == name) = false := beq_false_of_ne hname
            simp [hclass, List.lookup_cons, hne] at hnew

end LoadRequest

open LoadRequest

/-- A run answers every request with the first definition of its manifest, and the classes in its
cache come from its requests. -/
theorem returns_autoload {past : List LoadRequest} (env : Env)
    (hcache : Accounts loader past env.loadedClasses) (requests : List LoadRequest) :
    ∃ cache, w.LeavesCache (autoload loader requests) env (requests.map (·.first loader)) cache ∧
      Accounts loader (past ++ requests) cache := by
  induction requests generalizing past env with
  | nil => exact ⟨_, .pure _ _, by simpa using hcache⟩
  | cons r requests ih =>
    obtain ⟨cache, ⟨env₁, hret, rfl⟩, hcache₁⟩ := returns_load (w := w) env hcache r
    obtain ⟨cache', hrest, hcache'⟩ := ih env₁ hcache₁
    have hcons : w.LeavesCache (do let ds ← autoload loader requests; return r.first loader :: ds)
        env₁ (r.first loader :: requests.map (·.first loader)) cache' := hrest.map _
    obtain ⟨env₂, hret₂, hcache₂⟩ := hcons
    exact ⟨cache', ⟨env₂, returnsQuiet_bind_iff.2 ⟨_, env₁, hret, hret₂⟩, hcache₂⟩,
      by simpa using hcache'⟩

/-- All answers of a run of loads and all classes of its cache are right exactly when, in the
manifest of each request, the first definition of the kind is the one that is looked for. -/
theorem autoload_right_iff (w : World) (loader : Loader) (env : Env)
    (requests : List LoadRequest) :
    ∃ answers env',
      w.ReturnsQuiet (autoload loader requests) { env with loadedClasses := [] } answers env' ∧
      ((List.Forall₂ (Right loader) requests answers ∧ env'.CachesOwnClasses) ↔
        ∀ r ∈ requests, r.LeadsManifest loader) := by
  have hstart : Accounts loader [] ({ env with loadedClasses := [] } : Env).loadedClasses := by
    intro name c hc
    cases hc
  obtain ⟨cache, ⟨env', hret, rfl⟩, hcache⟩ := returns_autoload (w := w) _ hstart requests
  refine ⟨_, env', hret, ?_⟩
  rw [List.forall₂_map_right_iff, List.forall₂_same]
  simp only [right_first_iff]
  refine and_iff_left_of_imp fun hlead name c hc ↦ ?_
  obtain ⟨hmem, hclass⟩ := hcache name c hc
  have hasks := hlead _ hmem (.class c) (by
    change Definition.class c ∈ (LoadRequest.class name).first loader
    rw [first_class, hclass]
    rfl)
  exact hasks

/-- The class `apache::helper`. -/
def helperClass : ClassStmt := ⟨"apache::helper", [], none, []⟩

/-- A loader whose manifests declare the class `apache` after the class `apache::helper`. -/
def helperFirst : Loader where
  modulesPath := "modules"
  manifestsPath := none
  fileExists _ := true
  parseFile _ := some [.classDef helperClass, .classDef ⟨"apache", [], none, []⟩]
  lintLegacyFacts _ := []
  puppet8Incompatible _ := none
  hasCustomFunction _ := false

/-- The class `apache` is asked for, and the class before it in its manifest is the answer, which
stays in the cache under the name `apache`. -/
theorem not_autoload_right_helperFirst :
    ∃ answers env', World.bare.ReturnsQuiet (autoload helperFirst [.class "apache"])
        { Env.create with loadedClasses := [] } answers env' ∧
      ¬ List.Forall₂ (Right helperFirst) [.class "apache"] answers ∧ ¬ env'.CachesOwnClasses := by
  have hne : stripTop "apache::helper" ≠ stripTop "apache" := by decide +kernel
  have hload (env : Env) (hstart : env.loadedClasses = []) :
      World.bare.LeavesCache (autoload helperFirst [.class "apache"]) env
        [some (.class helperClass)] [("apache", helperClass)] := by
    have hclass := (@returns_loadClass .bare helperFirst env "apache").map
      (Option.map Definition.class)
    rw [hstart] at hclass
    refine hclass.bind fun env' hcache ↦ ?_
    change env'.loadedClasses = [("apache", helperClass)] at hcache
    exact hcache ▸ .pure _ env'
  obtain ⟨env', hret, hcache⟩ := hload { Env.create with loadedClasses := [] } rfl
  refine ⟨_, env', hret, fun hright ↦ ?_, fun hown ↦ ?_⟩
  · rw [List.forall₂_cons] at hright
    exact hne hright.1.2
  · exact hne (hown "apache" helperClass (by rw [hcache]; rfl))

end PuppetC
