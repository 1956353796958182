import PuppetC.Interp.Runs
import PuppetC.Support.Contract
import PuppetC.Support.FinalViews
import PuppetC.Support.LateMarks

/-!
# Classes that include each other

A table of classes is a graph: a class leads to the one it inherits from and to those that its body
includes. What is seen of a compile here is the list of the classes whose bodies have been started.
The three ways of including a class are described by how they extend this list, given how the calls
in them do, in the rules for final views: so both what runs that return have done and which runs
return is shown at once.

Parameters, and statements that include no class, may be anything that returns and does nothing to
classes.

## Main definitions

* `World.KeepsClasses`, `World.Neutral`: programs that do nothing to classes.
* `ClassTable`, `ClassTable.graph`: tables of classes and their graphs.
* `ClassTable.Holds`: the compile reads the table.
* `ClassTable.classViews`: how the inclusion of a class extends the list.

## Main results

* `yields_findOrLoadClass`: classes are found in the registry or in their files.
* `ClassTable.judge_includeClassFromDef`, `ClassTable.judge_loaderIncludeClass`,
  `ClassTable.judge_declareClass`: the three ways.
-/

namespace PuppetC

section World

variable (w : World)

/-! ### What inclusion reads and changes -/

/-- The classes whose bodies have been started, the last one first: they have the scopes that are
never destroyed. -/
def Env.startedClasses (env : Env) : List String :=
  (env.scopes.filterMap fun c ↦ if c.temporary then none else some c.scope.name).reverse

/-- The class in the file of its name. -/
def Loader.classOf (loader : Loader) (className : String) : Option ClassStmt :=
  (loader.resolveClassPath className).bind fun path ↦ (loader.parseFile path).bind firstClassDef

/-- The class of a name, registered or in its file. -/
def World.classOf (env : Env) (className : String) : Option ClassStmt :=
  (env.findClassDef className).or (w.loader.bind (·.classOf className))

/-- The loaded classes are those in the files. -/
def World.CachesClasses (env : Env) : Prop :=
  ∀ loader, w.loader = some loader → ∀ name c, env.loadedClasses.lookup name = some c →
    loader.classOf name = some c

/-- Nothing happens to classes. -/
structure World.KeepsClasses (env env' : Env) : Prop where
  definitions : env'.classDefinitions = env.classDefinitions
  cached : w.CachesClasses env → w.CachesClasses env'
  scopes : env'.classScopes = env.classScopes
  started : env'.startedClasses = env.startedClasses
  deferred : env'.deferredDefines.length = env.deferredDefines.length
  live : ∀ id, env.isLive id = true → env'.isLive id = true

/-- A program returns `a` and does nothing to classes. -/
def World.Yields {α : Type} (p : Quiet α) (env : Env) (a : α) : Prop :=
  ∃ env', w.ReturnsQuiet p env a env' ∧ w.KeepsClasses env env'

/-- A program that returns and does nothing to classes, wherever it is run. -/
def World.Neutral {α : Type} (p : Quiet α) : Prop := ∀ env, ∃ a, w.Yields p env a

variable {w} {α β : Type} {env env' : Env}

namespace World.KeepsClasses

theorem of_eq (hdefinitions : env'.classDefinitions = env.classDefinitions)
    (hloaded : env'.loadedClasses = env.loadedClasses)
    (hclasses : env'.classScopes = env.classScopes)
    (hscopes : env'.scopes = env.scopes) (hdeferred : env'.deferredDefines = env.deferredDefines) :
    w.KeepsClasses env env' where
  definitions := hdefinitions
  cached h := by simpa only [World.CachesClasses, hloaded] using h
  scopes := hclasses
  started := by rw [Env.startedClasses, Env.startedClasses, hscopes]
  deferred := by rw [hdeferred]
  live id h := by
    cases id with
    | global => rfl
    | node => rfl
    | cell n => simpa only [Env.isLive, Env.scope, hscopes] using h

theorem refl (env : Env) : w.KeepsClasses env env := .of_eq rfl rfl rfl rfl rfl

theorem trans {env'' : Env} (h : w.KeepsClasses env env') (h' : w.KeepsClasses env' env'') :
    w.KeepsClasses env env'' where
  definitions := h'.definitions.trans h.definitions
  cached := h'.cached ∘ h.cached
  scopes := h'.scopes.trans h.scopes
  started := h'.started.trans h.started
  deferred := h'.deferred.trans h.deferred
  live id := h'.live id ∘ h.live id

instance : IsPreorder Env w.KeepsClasses where
  refl := refl
  trans _ _ _ := trans

theorem emit (d : Diagnostic) : w.KeepsClasses env (env.emit d) := by
  unfold Env.emit
  cases d.severity <;> exact .of_eq rfl rfl rfl rfl rfl

theorem classOf_eq (h : w.KeepsClasses env env') (className : String) :
    w.classOf env' className = w.classOf env className := by
  simp only [World.classOf, Env.findClassDef, h.definitions]

end World.KeepsClasses

namespace World.Yields

theorem pure (a : α) : w.Yields (pure a : Quiet α) env a :=
  ⟨env, Prog.returns_pure_iff.2 ⟨rfl, rfl⟩, .refl env⟩

theorem bind {p : Quiet α} {f : α → Quiet β} {a : α} {b : β} (hp : w.Yields p env a)
    (hf : ∀ env', w.KeepsClasses env env' → w.Yields (f a) env' b) : w.Yields (p >>= f) env b := by
  obtain ⟨env₁, hret, hkeeps⟩ := hp
  obtain ⟨env', hret', hkeeps'⟩ := hf env₁ hkeeps
  exact ⟨env', returnsQuiet_bind_iff.2 ⟨a, env₁, hret, hret'⟩, hkeeps.trans hkeeps'⟩

theorem perform {o : EnvPrim α} {a : α} (h : o.handle w.factsDb env = .ok (a, env'))
    (hkeeps : w.KeepsClasses env env') : w.Yields (PuppetC.perform o) env a :=
  ⟨env', returnsQuiet_perform_iff.2 h, hkeeps⟩

end World.Yields

namespace World.Neutral

theorem pure (a : α) : w.Neutral (pure a : Quiet α) := Prog.Settles.pure a

theorem bind {p : Quiet α} {f : α → Quiet β} (hp : w.Neutral p) (hf : ∀ a, w.Neutral (f a)) :
    w.Neutral (p >>= f) :=
  Prog.Settles.bind w.increasing_quiet hp hf

/-- What a program yields after a neutral one. -/
theorem yields_bind {p : Quiet α} {f : α → Quiet β} {b : β} (hp : w.Neutral p)
    (hf : ∀ a env', w.Yields (f a) env' b) : w.Yields (p >>= f) env b := by
  obtain ⟨a, ha⟩ := hp env
  exact ha.bind fun env' _ ↦ hf a env'

theorem forM {γ : Type} {f : γ → Quiet Unit} (hf : ∀ c, w.Neutral (f c)) (cs : List γ) :
    w.Neutral (cs.forM f) :=
  Prog.Settles.forM w.increasing_quiet fun c _ ↦ hf c

theorem read (f : EnvField α) : w.Neutral (PuppetC.read f) :=
  fun env ↦ ⟨f.get env, env, returnsQuiet_read_iff.2 ⟨rfl, rfl⟩, .refl env⟩

theorem perform_emit (d : Diagnostic) : w.Neutral (perform (.emit d)) :=
  fun _ ↦ ⟨(), .perform rfl (.emit d)⟩

theorem emit (severity : Severity) (text : String) : w.Neutral (emit severity text) :=
  perform_emit _

theorem incrementError : w.Neutral (perform .incrementError) :=
  fun _ ↦ ⟨(), .perform rfl (.of_eq rfl rfl rfl rfl rfl)⟩

theorem incrementWarning : w.Neutral (perform .incrementWarning) :=
  fun _ ↦ ⟨(), .perform rfl (.of_eq rfl rfl rfl rfl rfl)⟩

theorem errorCounted (text : String) : w.Neutral (errorCounted text) :=
  (emit .error text).bind fun _ ↦ incrementError

theorem catalogAddClass (className : String) : w.Neutral (catalogAddClass className) := by
  refine (read .building).bind fun building ↦ ?_
  cases building with
  | false => exact .pure _
  | true => exact fun _ ↦ ⟨(), .perform rfl (.of_eq rfl rfl rfl rfl rfl)⟩

theorem isMarked (t : MarkTable) (key : String) : w.Neutral (perform (.isMarked t key)) :=
  fun env ↦ ⟨_, .perform rfl (.refl env)⟩

theorem mark (t : MarkTable) (key : String) : w.Neutral (perform (.mark t key)) :=
  fun _ ↦ ⟨(), .perform rfl (.of_eq rfl rfl rfl rfl rfl)⟩

/-- The check of a module for Puppet 8. -/
theorem checkModule (className : String) : w.Neutral (checkModule w className) := by
  unfold PuppetC.checkModule
  cases w.loader with
  | none => exact .pure _
  | some loader =>
    dsimp only
    split_ifs with hname
    · exact .pure _
    · refine (isMarked _ _).bind fun marked ↦ ?_
      cases marked with
      | true => exact .pure _
      | false =>
        refine (mark _ _).bind fun _ ↦ ?_
        cases loader.puppet8Incompatible _ with
        | none => exact .pure _
        | some requirement => exact emit _ _

end World.Neutral

/-! ### Classes that are found -/

/-- Reading files does nothing to classes. -/
theorem Env.OnlyReads.keepsClasses (h : env.OnlyReads env') : w.KeepsClasses env env' := by
  obtain ⟨parsed, ds, errors, warnings, failed, rfl⟩ := h
  exact .of_eq rfl rfl rfl rfl rfl

/-- A file is read at most once. -/
theorem yields_loadManifest (loader : Loader) (path : String) :
    w.Yields (loadManifest loader path) env (loader.parseFile path) := by
  obtain ⟨env', hret, hreads⟩ := exists_returnsQuiet_loadManifest (w := w) loader path env
  exact ⟨env', hret, hreads.keepsClasses⟩

/-- What is recorded of the file of a class. -/
theorem keepsClasses_recordLoadedClass {loader : Loader} (hloader : w.loader = some loader)
    {className : String} {c : ClassStmt} (hclass : loader.classOf className = some c) :
    w.KeepsClasses env { env with loadedClasses := env.loadedClasses ++ [(className, c)] } where
  definitions := rfl
  cached h loader' hloader' name c' hlookup := by
    rw [List.lookup_append] at hlookup
    rcases Option.or_eq_some_iff.1 hlookup with hold | ⟨-, hnew⟩
    · exact h loader' hloader' name c' hold
    · rw [List.lookup_cons, List.lookup_nil] at hnew
      split at hnew
      · next hname =>
        cases hnew
        rw [hloader] at hloader'
        cases hloader'
        rw [eq_of_beq hname, hclass]
      · cases hnew
  scopes := rfl
  started := rfl
  deferred := rfl
  live _ := id

/-- The loader finds the class in the file of a name. -/
theorem yields_loadClass {loader : Loader} (hloader : w.loader = some loader)
    (hcached : w.CachesClasses env) (className : String) :
    w.Yields (loadClass loader className) env (loader.classOf className) := by
  have hnote (text : String) (env : Env) :
      w.Yields (do emit .note text; return none) env (none : Option ClassStmt) :=
    (World.Neutral.emit _ _).yields_bind fun _ _ ↦ .pure _
  unfold loadClass
  refine .bind (.perform rfl (.refl env)) fun env₁ _ ↦ ?_
  cases hloaded : env.loadedClasses.lookup className with
  | some c =>
    rw [hcached loader hloader className c hloaded]
    exact .pure _
  | none =>
    cases hpath : loader.resolveClassPath className with
    | none =>
      have hclass : loader.classOf className = none := by
        rw [Loader.classOf, hpath]
        rfl
      rw [hclass]
      exact hnote _ _
    | some path =>
      have hclass : loader.classOf className = (loader.parseFile path).bind firstClassDef := by
        rw [Loader.classOf, hpath]
        rfl
      rw [hclass]
      refine .bind (yields_loadManifest loader path) fun env₂ _ ↦ ?_
      cases hstmts : loader.parseFile path with
      | none => exact hnote _ _
      | some stmts =>
        rw [hstmts, Option.bind_some] at hclass
        rw [Option.bind_some]
        cases hfirst : firstClassDef stmts with
        | none =>
          simp only [hfirst]
          exact hnote _ _
        | some c =>
          rw [hfirst] at hclass
          simp only [hfirst]
          exact .bind (.perform rfl (keepsClasses_recordLoadedClass hloader hclass)) fun _ _ ↦
            .pure _

/-- A class is found under its name. -/
theorem yields_findOrLoadClass (hcached : w.CachesClasses env) (className : String) :
    w.Yields (findOrLoadClass w className) env (w.classOf env className) := by
  unfold findOrLoadClass World.classOf
  refine .bind (.perform rfl (.refl env)) fun env₁ hkeeps ↦ ?_
  cases env.findClassDef className with
  | some c => exact .pure _
  | none =>
    cases hloader : w.loader with
    | none => exact .pure _
    | some loader => exact yields_loadClass hloader (hkeeps.cached hcached) className

/-! ### Tables of classes -/

/-- The statements that include classes by their names. -/
inductive InclusionVerb where
  | include
  | require
  | contain

/-- A statement in the body of a class. -/
inductive ClassPart where
  | inclusion (verb : InclusionVerb) (names : List String)
  | other (s : Stmt)

/-- The statement. -/
def ClassPart.stmt : ClassPart → Stmt
  | .inclusion .include names => .include (names.map textExpr)
  | .inclusion .require names => .require (names.map textExpr)
  | .inclusion .contain names => .contain (names.map textExpr)
  | .other s => s

/-- The names of the classes that are included. -/
def ClassPart.names : ClassPart → List String
  | .inclusion _ names => names
  | .other _ => []

/-- A class in a table of classes. -/
structure TableClass where
  name : String
  params : List (Param Expr)
  inherits : Option String
  parts : List ClassPart

namespace TableClass

/-- The definition of the class. -/
def toStmt (c : TableClass) : ClassStmt :=
  ⟨c.name, c.params, c.inherits, c.parts.map ClassPart.stmt⟩

/-- The name without the leading `::`. -/
def key (c : TableClass) : String := stripTop c.name

/-- The names of the classes that the body includes. -/
def includedNames (c : TableClass) : List String := c.parts.flatMap ClassPart.names

end TableClass

/-- A name has one leading `::` at most. -/
def IsClassName (name : String) : Prop := stripTop (stripTop name) = stripTop name

/-- The names in the class are names of classes, and what is in it besides inclusions returns and
does nothing to classes. -/
structure TableClass.Sound (w : World) (c : TableClass) : Prop where
  name : IsClassName c.name
  parent : ∀ p, c.inherits = some p → IsClassName p
  included : ∀ n ∈ c.includedNames, IsClassName n
  params : ∀ p ∈ c.params, w.Neutral (defaultParam w c.key p)
  others : ∀ s, .other s ∈ c.parts → w.Neutral (execStmt s)

/-- A table of classes. -/
structure ClassTable (w : World) where
  classes : List TableClass
  sound : ∀ c ∈ classes, c.Sound w

namespace ClassTable

variable (T : ClassTable w)

/-- The class with a key. -/
def find (key : String) : Option TableClass := T.classes.find? fun c ↦ c.key == key

/-- The keys of the names that are in the table. -/
def known (names : List String) : List String :=
  (names.map stripTop).filter fun key ↦ (T.find key).isSome

variable {T} in
theorem mem_of_find {key : String} {c : TableClass} (h : T.find key = some c) :
    c ∈ T.classes ∧ c.key = key := by
  have hkey := List.find?_some (p := fun c : TableClass ↦ c.key == key) h
  exact ⟨List.mem_of_find?_eq_some h, eq_of_beq hkey⟩

theorem mem_keys_of_find {key : String} (h : (T.find key).isSome) :
    key ∈ (T.classes.map (·.key)).toFinset := by
  obtain ⟨c, hc⟩ := Option.isSome_iff_exists.1 h
  obtain ⟨hmem, hkey⟩ := mem_of_find hc
  exact List.mem_toFinset.2 (List.mem_map.2 ⟨c, hmem, hkey⟩)

/-- The class that a class inherits from comes before it, those that it includes after it. -/
def graph : LateGraph String where
  vertices := (T.classes.map (·.key)).toFinset
  before key := (T.find key).bind fun c ↦
    (c.inherits.map stripTop).filter fun parent ↦ (T.find parent).isSome
  after key := ((T.find key).map fun c ↦ T.known c.includedNames).getD []
  before_mem key _ parent h := by
    obtain ⟨c, -, h⟩ := Option.bind_eq_some_iff.1 h
    exact T.mem_keys_of_find (Option.filter_eq_some_iff.1 h).2
  after_mem key _ other h := by
    cases hc : T.find key with
    | none => simp [hc] at h
    | some c =>
      rw [hc] at h
      exact T.mem_keys_of_find (List.mem_filter.1 h).2

/-- The compile reads the table, and a class is included if its body has been started. There are
`d` instances of defined types in the queue. -/
structure Holds (d : ℕ) (env : Env) : Prop where
  found : ∀ name, IsClassName name →
    w.classOf env name = (T.find (stripTop name)).map TableClass.toStmt
  cached : w.CachesClasses env
  marked : ∀ name, (env.classScopes.get name).isSome ↔ name ∈ env.startedClasses
  deferred : env.deferredDefines.length = d

variable {T} {d : ℕ}

theorem Holds.keeps (h : T.Holds d env) (hkeeps : w.KeepsClasses env env') : T.Holds d env' where
  found name hname := (hkeeps.classOf_eq name).trans (h.found name hname)
  cached := hkeeps.cached h.cached
  marked := by simpa only [hkeeps.scopes, hkeeps.started] using h.marked
  deferred := hkeeps.deferred.trans h.deferred

end ClassTable

/-! ### Final views of programs over the environment -/

theorem lift_bind (p : Quiet α) (f : α → Quiet β) :
    (liftM (p >>= f) : Comp β) = liftM p >>= fun a ↦ (liftM (f a) : Comp β) :=
  Prog.translate_bind liftOp p f

theorem lift_forM {γ : Type} (f : γ → Quiet Unit) (cs : List γ) :
    (liftM (cs.forM f) : Comp Unit) = cs.forM fun c ↦ (liftM (f c) : Comp Unit) := by
  induction cs with
  | nil => rfl
  | cons c cs ih =>
    change (liftM (f c >>= fun _ ↦ cs.forM f) : Comp Unit) = _
    rw [lift_bind, ih]
    rfl

/-- A program fills in a scope that exists: it returns and does nothing to classes. -/
def World.Fills (w : World) (p : ScopeId → Quiet Unit) : Prop :=
  ∀ env id, env.isLive id = true → w.Yields (p id) env ()

theorem filterMap_modify {γ δ : Type} {f : γ → γ} {g : γ → Option δ} {l : List γ} {n : ℕ}
    (h : ∀ c, l[n]? = some c → g (f c) = g c) : (l.modify n f).filterMap g = l.filterMap g := by
  induction l generalizing n with
  | nil => simp
  | cons c l ih =>
    cases n with
    | zero => simp [List.filterMap_cons, h c rfl]
    | succ n => simp [List.filterMap_cons, ih (n := n) fun c hc ↦ h c hc]

/-- A variable of a scope is set. -/
theorem keepsClasses_putScope {id : ScopeId} {s s' : Scope} (hid : env.scope id = some s)
    (hname : s'.name = s.name) : w.KeepsClasses env (env.putScope id s') := by
  cases id with
  | global => exact .of_eq rfl rfl rfl rfl rfl
  | node => exact .of_eq rfl rfl rfl rfl rfl
  | cell n =>
    refine ⟨rfl, id, rfl, ?_, rfl, fun id hlive ↦ ?_⟩
    · refine congrArg List.reverse (filterMap_modify fun c hc ↦ ?_)
      have hscope : c.scope = s := by
        simp only [Env.scope, hc, Option.ite_none_right_eq_some, Option.some.injEq] at hid
        exact hid.2
      simp [hname, hscope]
    · cases id with
      | global => rfl
      | node => rfl
      | cell m =>
        simp only [Env.isLive, Env.scope, Env.putScope, List.getElem?_modify] at hlive ⊢
        cases hm : env.scopes[m]? with
        | none => simp [hm] at hlive
        | some c => split_ifs at hlive ⊢ <;> simp_all

namespace World.Fills

theorem setVarIn (name : String) (v : Value) :
    w.Fills fun id ↦ perform (.setVarIn id name v) := by
  intro env id hid
  obtain ⟨s, hs⟩ := Option.isSome_iff_exists.1 hid
  have hset : env.setVarIn id name v =
      some (env.putScope id { s with vars := s.vars.set name v }) := by
    rw [Env.setVarIn, hs]
    rfl
  have hkeeps : w.KeepsClasses env (env.putScope id { s with vars := s.vars.set name v }) :=
    keepsClasses_putScope hs rfl
  exact .perform (by rw [EnvPrim.handle, hset]) hkeeps

theorem bind {p q : ScopeId → Quiet Unit} (hp : w.Fills p) (hq : w.Fills q) :
    w.Fills fun id ↦ p id >>= fun _ ↦ q id :=
  fun env id hid ↦ (hp env id hid).bind fun env' hkeeps ↦ hq env' id (hkeeps.live id hid)

theorem nothing : w.Fills fun _ ↦ pure () := fun _ _ _ ↦ .pure ()

theorem setClassTitle (className : String) : w.Fills fun id ↦ setClassTitle id className :=
  (setVarIn "title" _).bind (setVarIn "name" _)

/-- The parameters of a class that are not given. -/
theorem bindClassParams {className : String} {ps : List (Param Expr)}
    (hps : ∀ p ∈ ps, w.Neutral (defaultParam w className p)) :
    w.Fills fun id ↦ bindClassParams w className id (ps.map fun p ↦ (p, none)) := by
  induction ps with
  | nil => exact nothing
  | cons p ps ih =>
    obtain ⟨hp, hps⟩ := List.forall_mem_cons.1 hps
    intro env id hid
    obtain ⟨v, hv⟩ := hp env
    refine hv.bind fun env₁ hkeeps ↦ ?_
    exact ((setVarIn p.name v).bind (ih hps)) env₁ id (hkeeps.live id hid)

end World.Fills

/-! ### What the statements include -/

theorem isClassName_stripTop {name : String} (h : IsClassName name) : IsClassName (stripTop name) :=
  congrArg stripTop h

theorem forM_map {γ δ : Type} (g : γ → δ) (f : δ → Comp Unit) (cs : List γ) :
    (cs.map g).forM f = cs.forM fun c ↦ f (g c) := by
  induction cs with
  | nil => rfl
  | cons c cs ih =>
    change (f (g c) >>= fun _ ↦ (cs.map g).forM f) = _
    rw [ih]
    rfl

namespace ClassTable

variable {T : ClassTable w} {d : ℕ} {J : (α : Type) → Comp α → Set (List String) → Env → Prop}
  (hJ : FinalViews w.handler (T.Holds d) Env.startedClasses J)
  {V : String → List String → Set (List String)}

theorem known_eq_of_stripTop_eq {name name' : String} (h : stripTop name = stripTop name') :
    T.known [name] = T.known [name'] := by
  rw [known, known, List.map_singleton, List.map_singleton, h]

theorem known_append (names names' : List String) :
    T.known (names ++ names') = T.known names ++ T.known names' := by
  simp [known]

theorem known_flatMap {γ : Type} (f : γ → List String) (xs : List γ) :
    T.known (xs.flatMap f) = xs.flatMap fun x ↦ T.known (f x) := by
  induction xs with
  | nil => rfl
  | cons x xs ih => rw [List.flatMap_cons, known_append, ih, List.flatMap_cons]

theorem known_eq_flatMap (names : List String) :
    T.known names = names.flatMap fun n ↦ T.known [n] := by
  rw [← known_flatMap, List.flatMap_singleton']

/-- The views after the inclusion of the classes of some names. -/
def nameViews (T : ClassTable w) (V : String → List String → Set (List String))
    (names : List String) (t : List String) : Set (List String) :=
  loopViews V (T.known names) t

section Rules

include hJ

/-- A program that does nothing to classes, and what follows it. -/
theorem judge_yields {p : Quiet α} {f : α → Comp β} {Q : Set (List String)} {a : α}
    (hp : w.Yields p env a) (hf : ∀ env', w.KeepsClasses env env' → J β (f a) Q env') :
    J β (liftM p >>= f) Q env := by
  obtain ⟨env', hret, hkeeps⟩ := hp
  exact hJ.step (returns_lift_iff.2 hret) (hf env' hkeeps)

theorem judge_of_yields {p : Quiet α} {a : α} (hp : w.Yields p env a) (henv : T.Holds d env) :
    J α (liftM p) {env.startedClasses} env := by
  obtain ⟨env', hret, hkeeps⟩ := hp
  have h := hJ.of_returns (returns_lift_iff.2 hret) (henv.keeps hkeeps)
  rwa [hkeeps.started] at h

/-- A neutral program after another program. -/
theorem judge_bind_neutral {p : Comp α} {f : α → Quiet β} {Q : Set (List String)}
    (hp : J α p Q env) (hf : ∀ a, w.Neutral (f a)) :
    J β (p >>= fun a ↦ (liftM (f a) : Comp β)) Q env := by
  refine hJ.bind_leaving hp fun a env' henv' ↦ ?_
  obtain ⟨b, env'', hret, hkeeps⟩ := hf a env'
  exact ⟨b, env'', returns_lift_iff.2 hret, henv'.keeps hkeeps, hkeeps.started⟩

/-- A change of the frame around a program. -/
theorem judge_bracket {γ : Type} {enter : FrameOp β} {leave : β → FrameOp γ} {p : Comp α}
    {Q : Set (List String)} (hp : ∀ env', w.KeepsClasses env env' → J α p Q env') :
    J α (bracket enter leave p) Q env := by
  have hframe {δ : Type} (o : FrameOp δ) (env : Env) : w.Returns (onFrame o) env (o.handle env).1
      (o.handle env).2 ∧ w.KeepsClasses env (o.handle env).2 :=
    ⟨⟨0, rfl⟩, .of_eq rfl rfl rfl rfl rfl⟩
  refine hJ.step (hframe enter env).1 (hJ.bind_leaving (hp _ (hframe enter env).2) ?_)
  intro a env' henv'
  obtain ⟨hret, hkeeps⟩ := hframe (leave (enter.handle env).1) env'
  exact ⟨a, _, returns_bind_iff.2 ⟨_, _, hret, Prog.returns_pure_iff.2 ⟨rfl, rfl⟩⟩,
    henv'.keeps hkeeps, hkeeps.started⟩

end Rules

/-- What calls that include a class do. -/
structure Includes (T : ClassTable w) (d : ℕ)
    (J : (α : Type) → Comp α → Set (List String) → Env → Prop)
    (V : String → List String → Set (List String)) : Prop where
  fromDef : ∀ key c, T.find key = some c → ∀ env, T.Holds d env →
    J Unit (call (.includeClassFromDef c.toStmt) : Quiet Unit) (V key env.startedClasses) env
  loader : ∀ name, IsClassName name → ∀ c, T.find (stripTop name) = some c → ∀ env,
    T.Holds d env →
      J Bool (call (.loaderIncludeClass name) : Quiet Bool)
        (V (stripTop name) env.startedClasses) env

variable (hV : Includes T d J V)

/-- The loader does not include what is not there. -/
theorem exists_yields_loader {name : String} (hname : IsClassName name)
    (hunknown : T.find (stripTop name) = none) (henv : T.Holds d env) :
    ∃ b, w.Yields (call (.loaderIncludeClass name)) env b := by
  have hscope : w.Returns (perform (.getClassScope (stripTop name)) : Quiet (Option ScopeId)) env
      (env.classScopes.get (stripTop name)) env :=
    returns_lift_iff.2 (returnsQuiet_perform_iff.2 rfl)
  cases hget : env.classScopes.get (stripTop name) with
  | some id =>
    rw [hget] at hscope
    exact ⟨true, env, returnsQuiet_call_iff.2 (returns_bind_iff.2 ⟨some id, env, hscope,
      Prog.returns_pure_iff.2 ⟨rfl, rfl⟩⟩), .refl env⟩
  | none =>
    rw [hget] at hscope
    have hclass : w.classOf env (stripTop name) = none := by
      rw [henv.found _ (isClassName_stripTop hname), hname, hunknown]
      rfl
    obtain ⟨env₁, hfind, hkeeps⟩ := yields_findOrLoadClass henv.cached (stripTop name)
    rw [hclass] at hfind
    obtain ⟨_, env', hemit, hkeeps'⟩ := World.Neutral.emit (w := w) .note
      ("Error: Cannot include class '" ++ name ++ "'") env₁
    refine ⟨false, env', returnsQuiet_call_iff.2 ?_, hkeeps.trans hkeeps'⟩
    refine returns_bind_iff.2 ⟨none, env, hscope, ?_⟩
    refine returns_bind_iff.2 ⟨none, env₁, returns_lift_iff.2 hfind, ?_⟩
    exact returns_bind_iff.2 ⟨_, env', returns_lift_iff.2 hemit,
      Prog.returns_pure_iff.2 ⟨rfl, rfl⟩⟩

include hJ hV

/-- A class is included by its name. -/
theorem judge_includeByName {name : String} (hname : IsClassName name) {missing : Quiet Unit}
    (hmissing : w.Neutral missing) (henv : T.Holds d env) :
    J Unit (includeByName w name missing : Quiet Unit)
      (T.nameViews V [name] env.startedClasses) env := by
  have hclass := henv.found name hname
  rw [includeByName, lift_bind]
  refine judge_yields hJ (.perform rfl (.refl env)) fun env₁ hkeeps₁ ↦ ?_
  rw [← hkeeps₁.started]
  have henv₁ := henv.keeps hkeeps₁
  cases hfind : T.find (stripTop name) with
  | none =>
    have hviews : T.nameViews V [name] env₁.startedClasses = {env₁.startedClasses} := by
      simp [nameViews, known, hfind, loopViews]
    rw [hfind, Option.map_none, World.classOf, Option.or_eq_none_iff] at hclass
    rw [hviews, hclass.1]
    cases w.loader with
    | none =>
      obtain ⟨_, herror⟩ := World.Neutral.errorCounted (w := w)
        ("Class '" ++ name ++ "' not found") env₁
      exact judge_of_yields hJ herror henv₁
    | some loader =>
      obtain ⟨b, hb⟩ := exists_yields_loader hname hfind henv₁
      change J Unit (liftM (call (.loaderIncludeClass name) >>= fun b ↦
        if b = true then pure () else missing) : Comp Unit) _ _
      rw [lift_bind]
      refine judge_yields hJ hb fun env₂ hkeeps₂ ↦ ?_
      rw [← hkeeps₂.started]
      have hrest : w.Neutral (if b = true then pure () else missing) := by
        cases b with
        | true => exact .pure ()
        | false => exact hmissing
      obtain ⟨_, hrest⟩ := hrest env₂
      exact judge_of_yields hJ hrest (henv₁.keeps hkeeps₂)
  | some c =>
    have hviews : T.nameViews V [name] env₁.startedClasses =
        V (stripTop name) env₁.startedClasses := by
      simp [nameViews, known, hfind, loopViews]
    rw [hviews]
    rw [hfind, Option.map_some, World.classOf] at hclass
    cases hdef : env.findClassDef name with
    | some c' =>
      rw [hdef, Option.some_or, Option.some.injEq] at hclass
      rw [hclass]
      exact hV.fromDef _ c hfind env₁ henv₁
    | none =>
      cases hloader : w.loader with
      | none => simp [hdef, hloader] at hclass
      | some loader =>
        change J Unit (liftM (call (.loaderIncludeClass name) >>= fun b ↦
          if b = true then pure () else missing) : Comp Unit) _ _
        rw [lift_bind]
        refine judge_bind_neutral hJ (hV.loader name hname c hfind env₁ henv₁) fun b ↦ ?_
        cases b with
        | true => exact .pure ()
        | false => exact hmissing

/-- The statement that includes a class by its name. -/
theorem judge_execInclusion (verb : InclusionVerb) {names : List String}
    (hnames : ∀ n ∈ names, IsClassName n) (henv : T.Holds d env) :
    J Unit (execStmtBody w (ClassPart.inclusion verb names).stmt)
      (T.nameViews V names env.startedClasses) env := by
  have hloop : T.nameViews V names env.startedClasses =
      loopViews (fun n ↦ T.nameViews V [n]) names env.startedClasses := by
    refine Eq.trans ?_ (loopViews_flatMap V (fun n ↦ T.known [n]) names _).symm
    rw [nameViews, T.known_eq_flatMap]
  have hloopRule {f : Expr → Quiet Unit} (hf : ∀ n ∈ names, ∀ env, T.Holds d env →
      J Unit (f (textExpr n)) (T.nameViews V [n] env.startedClasses) env) :
      J Unit ((names.map textExpr).forM f : Quiet Unit)
        (T.nameViews V names env.startedClasses) env := by
    rw [hloop, lift_forM, forM_map]
    exact hJ.forM henv hf
  have hwarning (verb : String) : w.Neutral (do
      emit .warning verb
      perform .incrementWarning) :=
    (World.Neutral.emit _ _).bind fun _ ↦ .incrementWarning
  cases verb with
  | «include» =>
    refine hloopRule fun n hn env henv ↦ ?_
    have hn' := isClassName_stripTop (hnames n hn)
    have hliteral : w.Yields (evalExpr (textExpr n)) env (.string n) :=
      ⟨env, returnsQuiet_textExpr_iff.2 ⟨rfl, rfl⟩, .refl env⟩
    rw [lift_bind]
    refine judge_yields hJ hliteral fun env₁ hkeeps₁ ↦ ?_
    obtain ⟨_, hcheck⟩ := World.Neutral.checkModule (w := w) (stripTop n) env₁
    dsimp only
    rw [lift_bind]
    refine judge_yields hJ hcheck fun env₂ hkeeps₂ ↦ ?_
    rw [← hkeeps₁.started, ← hkeeps₂.started, nameViews, known_eq_of_stripTop_eq (hnames n hn).symm]
    exact judge_includeByName hJ hV hn' (.errorCounted _) ((henv.keeps hkeeps₁).keeps hkeeps₂)
  | require =>
    exact hloopRule fun n hn env henv ↦ judge_includeByName hJ hV (hnames n hn) (hwarning _) henv
  | contain =>
    exact hloopRule fun n hn env henv ↦ judge_includeByName hJ hV (hnames n hn) (hwarning _) henv

omit hV

/-- The body of a class, given what its statements do. -/
theorem judge_execStmtListBody {c : TableClass} (hc : c ∈ T.classes)
    (hstmt : ∀ verb names, (∀ n ∈ names, IsClassName n) → ∀ env, T.Holds d env →
      J Unit (execStmt (ClassPart.inclusion verb names).stmt : Quiet Unit)
        (T.nameViews V names env.startedClasses) env) (henv : T.Holds d env) :
    J Unit (execStmtListBody c.toStmt.body) (T.nameViews V c.includedNames env.startedClasses)
      env := by
  have hsound := T.sound c hc
  have hpart : ∀ part ∈ c.parts, ∀ env, T.Holds d env → J Unit (execStmt part.stmt : Quiet Unit)
      (T.nameViews V part.names env.startedClasses) env := by
    intro part hpart env henv
    cases part with
    | inclusion verb names =>
      exact hstmt verb names (fun n hn ↦ hsound.included n (List.mem_flatMap.2 ⟨_, hpart, hn⟩))
        env henv
    | other s =>
      obtain ⟨_, hs⟩ := hsound.others s hpart env
      exact judge_of_yields hJ hs henv
  have hviews : T.nameViews V c.includedNames env.startedClasses =
      loopViews (fun part ↦ T.nameViews V part.names) c.parts env.startedClasses := by
    rw [nameViews, TableClass.includedNames]
    refine Eq.trans ?_ (loopViews_flatMap V (fun part ↦ T.known part.names) c.parts _).symm
    rw [T.known_flatMap]
  have hstart : w.Returns (onOwn .startList) env ()
      { env with listStarts := env.scopes.length :: env.listStarts } := ⟨0, rfl⟩
  have hkeeps : w.KeepsClasses env
      { env with listStarts := env.scopes.length :: env.listStarts } := .of_eq rfl rfl rfl rfl rfl
  refine hJ.step (returns_lift_iff.2 (returnsQuiet_read_iff.2 ⟨rfl, rfl⟩)) ?_
  refine hJ.step hstart ?_
  have hbody : J Unit (execEach c.toStmt.body : Quiet Unit)
      (T.nameViews V c.includedNames env.startedClasses)
      { env with listStarts := env.scopes.length :: env.listStarts } := by
    rw [hviews, ← hkeeps.started, execEach, TableClass.toStmt, lift_forM, forM_map]
    exact hJ.forM (henv.keeps hkeeps) hpart
  refine hJ.bind_leaving hbody fun _ env' henv' ↦ ?_
  have hlength : env'.deferredDefines.length = env.deferredDefines.length :=
    henv'.deferred.trans henv.deferred.symm
  have hflush : w.Returns (flushDeferred env.deferredDefines.length) env' () env' :=
    returns_flushDeferred hlength.le
  have hkeeps' : w.KeepsClasses env' { env' with
      listStarts := env'.listStarts.tail
      deferredDefines := env'.deferredDefines.take env.deferredDefines.length } := by
    rw [← hlength, List.take_length]
    exact .of_eq rfl rfl rfl rfl rfl
  refine ⟨(), _, ?_, henv'.keeps hkeeps', hkeeps'.started⟩
  exact returns_bind_iff.2 ⟨(), env', hflush, returns_bind_iff.2 ⟨(), _, ⟨0, rfl⟩, ⟨0, rfl⟩⟩⟩

/-! ### What a class includes -/

/-- The views after the inclusion of the class that a class inherits from. -/
def parentViews (T : ClassTable w) (V : String → List String → Set (List String)) (key : String)
    (t : List String) : Set (List String) :=
  match T.graph.before key with
  | none => {t}
  | some p => if p ∈ t then {t} else V p t

/-- The views after the inclusion of a class. -/
def classViews (T : ClassTable w) (V : String → List String → Set (List String)) (key : String)
    (t : List String) : Set (List String) :=
  if key ∈ t then {t}
  else {t' | ∃ u ∈ T.parentViews V key t, t' ∈ loopViews V (T.graph.after key) (key :: u)}

omit hJ in
theorem classViews_of_mem {key : String} {t : List String} (h : key ∈ t) :
    T.classViews V key t = {t} := if_pos h

omit hJ in
theorem classViews_of_notMem {key : String} {t : List String} (h : key ∉ t) :
    T.classViews V key t =
      {t' | ∃ u ∈ T.parentViews V key t, t' ∈ loopViews V (T.graph.after key) (key :: u)} :=
  if_neg h

omit hJ in
/-- A class is entered: it has a scope. -/
theorem Holds.createClassScope (henv : T.Holds d env) (parent : ScopeParent) (key : String) :
    T.Holds d (env.createClassScope parent key).2 ∧
      (env.createClassScope parent key).2.startedClasses = key :: env.startedClasses ∧
      (env.createClassScope parent key).2.isLive (env.createClassScope parent key).1 = true := by
  have hstarted : (env.createClassScope parent key).2.startedClasses =
      key :: env.startedClasses := by
    simp [Env.createClassScope, Env.createScope, Env.startedClasses, List.filterMap_append]
  refine ⟨⟨henv.found, henv.cached, fun name ↦ ?_, henv.deferred⟩, hstarted, ?_⟩
  · rw [hstarted]
    change ((env.classScopes.set key _).get name).isSome = true ↔ _
    rw [Table.get_set, List.mem_cons]
    split_ifs with hname
    · simp [hname]
    · simpa [hname] using henv.marked name
  · simp [Env.createClassScope, Env.createScope, Env.isLive, Env.scope]

/-- A class that is not included yet is executed in its scope. -/
theorem judge_newClass {key : String} {c : TableClass} (hfind : T.find key = some c)
    (hlist : ∀ env, T.Holds d env → J Unit (execStmtList c.toStmt.body : Quiet Unit)
      (T.nameViews V c.includedNames env.startedClasses) env)
    {before pre : ScopeId → Quiet Unit} (hbefore : w.Fills before) (hpre : w.Fills pre)
    (parent : ScopeParent) (henv : T.Holds d env) :
    J Unit (do
      let scope ← perform (.createClassScope parent key)
      inClass scope do
        before scope
        withCallerModule key do
          pre scope
          execStmtList c.toStmt.body
        catalogAddClass key)
      (loopViews V (T.graph.after key) (key :: env.startedClasses)) env := by
  have hafter : T.graph.after key = T.known c.includedNames := by
    change ((T.find key).map fun c ↦ T.known c.includedNames).getD [] = _
    rw [hfind]
    rfl
  obtain ⟨henv₁, hstarted, hlive⟩ := henv.createClassScope parent key
  rw [hafter]
  refine hJ.step (returns_lift_iff.2 (returnsQuiet_perform_iff.2 rfl)) ?_
  refine judge_bracket hJ fun env₂ hkeeps₂ ↦ judge_bracket hJ fun env₃ hkeeps₃ ↦ ?_
  have hkeeps₃' := hkeeps₂.trans hkeeps₃
  refine judge_yields hJ (hbefore env₃ _ (hkeeps₃'.live _ hlive)) fun env₄ hkeeps₄ ↦ ?_
  have hkeeps₄' := hkeeps₃'.trans hkeeps₄
  refine judge_bind_neutral hJ ?_ fun _ ↦ .catalogAddClass key
  refine judge_bracket hJ fun env₅ hkeeps₅ ↦ ?_
  have hkeeps₅' := hkeeps₄'.trans hkeeps₅
  refine judge_yields hJ (hpre env₅ _ (hkeeps₅'.live _ hlive)) fun env₆ hkeeps₆ ↦ ?_
  have hkeeps₆' := hkeeps₅'.trans hkeeps₆
  have hstarted₆ : env₆.startedClasses = key :: env.startedClasses :=
    hkeeps₆'.started.trans hstarted
  rw [← hstarted₆]
  exact hlist env₆ (henv₁.keeps hkeeps₆')

/-- The class that a class inherits from is included unless it is already. -/
theorem judge_includeParent {p : String} {q : Quiet β}
    (hq : ∀ env, T.Holds d env → J β q (V p env.startedClasses) env)
    (henv : T.Holds d env) :
    J (Option ScopeId) (do
        match ← perform (.getClassScope p) with
        | some id => return some id
        | none => do
          let _ ← q
          perform (.getClassScope p) : Quiet (Option ScopeId))
      (if p ∈ env.startedClasses then {env.startedClasses} else V p env.startedClasses) env := by
  have hmarked := henv.marked p
  rw [lift_bind]
  refine judge_yields hJ (.perform rfl (.refl env)) fun env₁ hkeeps₁ ↦ ?_
  have henv₁ := henv.keeps hkeeps₁
  rw [← hkeeps₁.started] at hmarked ⊢
  cases hget : env.classScopes.get p with
  | some id =>
    rw [if_pos (hmarked.1 (by rw [hget]; rfl))]
    exact hJ.ret _ henv₁
  | none =>
    rw [if_neg fun hp ↦ by simpa [hget] using hmarked.2 hp]
    dsimp only
    rw [lift_bind]
    refine judge_bind_neutral hJ (hq env₁ henv₁) fun _ env₂ ↦ ?_
    exact ⟨_, .perform rfl (.refl env₂)⟩


/-- Where the class that a class inherits from is found. -/
theorem judge_findParent {key : String} {c : TableClass} (hfind : T.find key = some c)
    {p : String} (hp : c.inherits = some p) {f : Option ClassStmt → Quiet (Option ScopeId)}
    (hnone : w.Neutral (f none))
    (hsome : ∀ parent, T.find (stripTop p) = some parent → ∀ env, T.Holds d env →
      J (Option ScopeId) (f (some parent.toStmt) : Quiet (Option ScopeId))
        (if stripTop p ∈ env.startedClasses then {env.startedClasses}
          else V (stripTop p) env.startedClasses) env)
    (henv : T.Holds d env) :
    J (Option ScopeId) (findOrLoadClass w (stripTop p) >>= f : Quiet (Option ScopeId))
      (T.parentViews V key env.startedClasses) env := by
  have hname : IsClassName p := (T.sound c (mem_of_find hfind).1).parent p hp
  have hclass := henv.found _ (isClassName_stripTop hname)
  rw [hname] at hclass
  have hfound := yields_findOrLoadClass henv.cached (stripTop p)
  rw [hclass] at hfound
  have hbefore : T.graph.before key =
      (some (stripTop p)).filter fun parent ↦ (T.find parent).isSome := by
    change (T.find key).bind _ = _
    rw [hfind, Option.bind_some, hp]
    rfl
  rw [lift_bind]
  refine judge_yields hJ hfound fun env₁ hkeeps₁ ↦ ?_
  have henv₁ := henv.keeps hkeeps₁
  rw [← hkeeps₁.started, parentViews, hbefore]
  cases hparent : T.find (stripTop p) with
  | none =>
    rw [Option.filter_some_neg (by simp [hparent])]
    obtain ⟨_, hnone⟩ := hnone env₁
    exact judge_of_yields hJ hnone henv₁
  | some parent =>
    rw [Option.filter_some_pos (by simp [hparent])]
    exact hsome parent hparent env₁ henv₁

omit hJ in
/-- A class that inherits from no class. -/
theorem parentViews_of_none {key : String} {c : TableClass} (hfind : T.find key = some c)
    (hp : c.inherits = none) (t : List String) : T.parentViews V key t = {t} := by
  have hbefore : T.graph.before key = none := by
    change (T.find key).bind _ = _
    rw [hfind, Option.bind_some, hp]
    rfl
  rw [parentViews, hbefore]

include hV

theorem judge_parentScope {key : String} {c : TableClass} (hfind : T.find key = some c)
    (className : String) (henv : T.Holds d env) :
    J (Option ScopeId) (parentScope w c.toStmt className : Quiet (Option ScopeId))
      (T.parentViews V key env.startedClasses) env := by
  rw [parentScope]
  change J (Option ScopeId) (liftM (match c.inherits with
    | none => pure none
    | some parentName => _ : Quiet (Option ScopeId))) _ _
  cases hp : c.inherits with
  | none =>
    rw [parentViews_of_none hfind hp]
    exact hJ.ret none henv
  | some p =>
    refine judge_findParent hJ hfind hp ?_ (fun parent hparent env henv ↦ ?_) henv
    · exact (World.Neutral.emit _ _).bind fun _ ↦ .pure none
    · exact judge_includeParent hJ (fun env henv ↦ hV.fromDef _ parent hparent env henv) henv

theorem judge_loaderParentScope {key : String} {c : TableClass} (hfind : T.find key = some c)
    (henv : T.Holds d env) :
    J (Option ScopeId) (loaderParentScope w c.toStmt : Quiet (Option ScopeId))
      (T.parentViews V key env.startedClasses) env := by
  rw [loaderParentScope]
  change J (Option ScopeId) (liftM (match c.inherits with
    | none => pure none
    | some parentName => _ : Quiet (Option ScopeId))) _ _
  cases hp : c.inherits with
  | none =>
    rw [parentViews_of_none hfind hp]
    exact hJ.ret none henv
  | some p =>
    have hname : IsClassName p := (T.sound c (mem_of_find hfind).1).parent p hp
    refine judge_findParent hJ hfind hp (.pure none) (fun parent hparent env henv ↦ ?_) henv
    refine judge_includeParent hJ (fun env henv ↦ ?_) henv
    have hloader := hV.loader (stripTop p) (isClassName_stripTop hname) parent
    rw [hname] at hloader
    exact hloader hparent env henv


variable (hlist : ∀ key c, T.find key = some c → ∀ env, T.Holds d env →
  J Unit (execStmtList c.toStmt.body : Quiet Unit)
    (T.nameViews V c.includedNames env.startedClasses) env)
include hlist

/-- A class that is included by its definition. -/
theorem judge_includeClassFromDef {key : String} {c : TableClass} (hfind : T.find key = some c)
    (henv : T.Holds d env) :
    J Unit (includeClassFromDefBody w c.toStmt) (T.classViews V key env.startedClasses) env := by
  obtain ⟨hmem, hkey⟩ := mem_of_find hfind
  have hmarked := henv.marked key
  have hname : stripTop c.toStmt.name = key := hkey
  rw [includeClassFromDefBody, hname]
  refine judge_yields hJ (.perform rfl (.refl env)) fun env₁ hkeeps₁ ↦ ?_
  have henv₁ := henv.keeps hkeeps₁
  rw [← hkeeps₁.started] at hmarked ⊢
  cases hget : env.classScopes.get key with
  | some id =>
    rw [classViews_of_mem (hmarked.1 (by rw [hget]; rfl))]
    exact hJ.ret () henv₁
  | none =>
    rw [classViews_of_notMem fun hp ↦ by simpa [hget] using hmarked.2 hp]
    refine hJ.bind (R := fun u ↦ loopViews V (T.graph.after key) (key :: u))
      (judge_parentScope hJ hV hfind key henv₁) fun parent env₂ henv₂ ↦ ?_
    have hparams : w.Fills fun id ↦
        bindClassParams w key id (c.toStmt.params.map fun p ↦ (p, none)) :=
      .bindClassParams fun p hp ↦ hkey ▸ (T.sound c hmem).params p hp
    exact judge_newClass hJ hfind (hlist key c hfind)
      ((World.Fills.setClassTitle key).bind hparams) (.setVarIn "module_name" _) _ henv₂

/-- A class that the loader includes. -/
theorem judge_loaderIncludeClass {name : String} (hname : IsClassName name) {c : TableClass}
    (hfind : T.find (stripTop name) = some c) (henv : T.Holds d env) :
    J Bool (loaderIncludeClassBody w name) (T.classViews V (stripTop name) env.startedClasses)
      env := by
  obtain ⟨hmem, hkey⟩ := mem_of_find hfind
  have hmarked := henv.marked (stripTop name)
  have hclass := henv.found _ (isClassName_stripTop hname)
  rw [hname, hfind] at hclass
  rw [loaderIncludeClassBody]
  refine judge_yields hJ (.perform rfl (.refl env)) fun env₁ hkeeps₁ ↦ ?_
  have henv₁ := henv.keeps hkeeps₁
  rw [← hkeeps₁.started] at hmarked ⊢
  rw [← hkeeps₁.classOf_eq] at hclass
  cases hget : env.classScopes.get (stripTop name) with
  | some id =>
    rw [classViews_of_mem (hmarked.1 (by rw [hget]; rfl))]
    exact hJ.ret true henv₁
  | none =>
    rw [classViews_of_notMem fun hp ↦ by simpa [hget] using hmarked.2 hp]
    have hfound := yields_findOrLoadClass henv₁.cached (stripTop name)
    rw [hclass] at hfound
    refine judge_yields hJ hfound fun env₂ hkeeps₂ ↦ ?_
    have henv₂ := henv₁.keeps hkeeps₂
    rw [← hkeeps₂.started]
    refine hJ.bind (R := fun u ↦ loopViews V (T.graph.after (stripTop name)) (stripTop name :: u))
      (judge_loaderParentScope hJ hV hfind henv₂) fun parent env₃ henv₃ ↦ ?_
    have hparams : w.Fills fun id ↦
        bindClassParams w (stripTop name) id (c.toStmt.params.map fun p ↦ (p, none)) :=
      .bindClassParams fun p hp ↦ hkey ▸ (T.sound c hmem).params p hp
    have hnew := judge_newClass hJ hfind (hlist _ c hfind) hparams .nothing
      (classScopeParent parent) henv₃
    have htrue := hJ.bind_leaving (f := fun _ ↦ pure true) hnew fun _ env' henv' ↦
      ⟨true, env', Prog.returns_pure_iff.2 ⟨rfl, rfl⟩, henv', rfl⟩
    rwa [Prog.bind_assoc] at htrue


/-! ### Declarations -/

omit hJ hV hlist in
theorem yields_evalClassParams (className : String) (ps : List (Param Expr)) :
    w.Yields (evalClassParams w className [] ps) env (ps.map fun p ↦ (p, none)) := by
  induction ps generalizing env with
  | nil => exact .pure _
  | cons p ps ih => exact .bind (.pure none) fun _ _ ↦ .bind ih fun _ _ ↦ .pure _

/-- A class that is declared for the first time. -/
theorem judge_declareClass {c : TableClass} (hfind : T.find c.key = some c)
    (henv : T.Holds d env) :
    J Unit (declareClass w ⟨some (textExpr c.name), []⟩)
      (if (env.marks .classResourceDecls).contains c.key then {env.startedClasses}
        else T.classViews V c.key env.startedClasses) env := by
  obtain ⟨hmem, -⟩ := mem_of_find hfind
  have hname : IsClassName c.name := (T.sound c hmem).name
  have hliteral : w.ReturnsQuiet (evalExpr (textExpr c.name)) env (.string c.name) env :=
    returnsQuiet_textExpr_iff.2 ⟨rfl, rfl⟩
  have hkey : stripTop (Value.string c.name).toText = c.key := rfl
  rw [declareClass]
  refine hJ.step (returns_lift_iff.2 hliteral) ?_
  rw [hkey]
  refine hJ.step (returns_lift_iff.2 (returnsQuiet_perform_iff.2 rfl)) ?_
  cases hdeclared : (env.marks .classResourceDecls).contains c.key with
  | true =>
    rw [if_pos rfl]
    obtain ⟨_, herror⟩ := World.Neutral.emit (w := w) .error
      ("Duplicate declaration - class[" ++ c.key ++ "] is already declared") env
    refine judge_yields hJ herror fun env₁ hkeeps₁ ↦ ?_
    obtain ⟨_, hnote⟩ := World.Neutral.emit (w := w) .note
      "       Use 'include' for idempotent class inclusion" env₁
    refine judge_yields hJ hnote fun env₂ hkeeps₂ ↦ ?_
    obtain ⟨_, hcount⟩ := World.Neutral.incrementError (w := w) env₂
    rw [← hkeeps₁.started, ← hkeeps₂.started]
    exact judge_of_yields hJ hcount ((henv.keeps hkeeps₁).keeps hkeeps₂)
  | false =>
    obtain ⟨_, hmark⟩ := World.Neutral.mark (w := w) .classResourceDecls c.key env
    refine judge_yields hJ hmark fun env₁ hkeeps₁ ↦ ?_
    have henv₁ := henv.keeps hkeeps₁
    have hmarked := henv₁.marked c.key
    rw [← hkeeps₁.started]
    refine judge_yields hJ (.perform rfl (.refl env₁)) fun env₂ hkeeps₂ ↦ ?_
    have henv₂ := henv₁.keeps hkeeps₂
    rw [← hkeeps₂.started] at hmarked ⊢
    cases hget : env₁.classScopes.get c.key with
    | some id =>
      rw [if_neg (by simp), classViews_of_mem (hmarked.1 (by rw [hget]; rfl))]
      exact hJ.ret () henv₂
    | none =>
      rw [if_neg (by simp), classViews_of_notMem fun hp ↦ by simpa [hget] using hmarked.2 hp]
      have hclass := henv₂.found _ (isClassName_stripTop hname)
      rw [hname, show T.find (stripTop c.name) = some c from hfind] at hclass
      have hfound := yields_findOrLoadClass henv₂.cached (stripTop c.name)
      rw [hclass] at hfound
      refine judge_yields hJ hfound fun env₃ hkeeps₃ ↦ ?_
      have henv₃ := henv₂.keeps hkeeps₃
      rw [← hkeeps₃.started]
      refine hJ.bind (R := fun u ↦ loopViews V (T.graph.after c.key) (c.key :: u))
        (judge_parentScope hJ hV hfind c.key henv₃) fun parent env₄ henv₄ ↦ ?_
      refine judge_yields hJ (.pure ()) fun env₅ hkeeps₅ ↦ ?_
      have henv₅ := henv₄.keeps hkeeps₅
      rw [← hkeeps₅.started]
      refine judge_yields hJ (yields_evalClassParams _ _) fun env₆ hkeeps₆ ↦ ?_
      have henv₆ := henv₅.keeps hkeeps₆
      rw [← hkeeps₆.started]
      have hparams : w.Fills fun id ↦
          bindClassParams w c.key id (c.toStmt.params.map fun p ↦ (p, none)) :=
        .bindClassParams fun p hp ↦ (T.sound c hmem).params p hp
      exact judge_newClass hJ hfind (hlist c.key c hfind)
        ((World.Fills.setClassTitle c.key).bind hparams) .nothing _ henv₆


end ClassTable

end World

end PuppetC
