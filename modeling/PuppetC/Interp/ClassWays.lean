import PuppetC.Interp.Runs
import PuppetC.Value.Look

/-!
# The ways of declaring a class

A class is declared by `include`, by the loader, by `class { ... }` or as an instance, and each
way binds the parameters by itself. What a way has bound is observed where the body of the class
is about to be executed.

## Main definitions

* `ClassWay`, `ClassWay.declare`: the ways of declaring a class without attributes.
* `World.Starts`: the body of a class is about to be executed.
* `Env.classBinding`: the parameters and the module name that are bound.
* `ClassStmt.WaysAgree`: all ways bind the same, and report values of wrong types.

## Main results

* `ClassStmt.not_waysAgree`: the ways agree for no class.
-/

namespace PuppetC

section World

variable (w : World)

/-! ### Ways -/

/-- The ways of declaring a class. -/
inductive ClassWay where
  | includeFromDef
  | loader
  | classResource
  | classInstance
  deriving DecidableEq

/-- Declare a class without attributes. -/
def ClassWay.declare (c : ClassStmt) : ClassWay → Comp Unit
  | .includeFromDef => includeClassFromDefBody w c
  | .loader => do let _ ← loaderIncludeClassBody w c.name
  | .classResource => declareClass w ⟨some (textExpr c.name), []⟩
  | .classInstance => execClassInstance w c.name []

/-- Is the operation the call that executes the body of a class? The ways call no other statement
list. -/
def isBodyCall : (β : Type) → Calls Procedure EnvOp β → Bool
  | _, .call (.call (.execStmtList _)) => true
  | _, _ => false

/-- The meaning of operations and calls up to the body of a class. -/
def World.untilBody (fuel : ℕ) : Handler (Calls Procedure EnvOp) Env (Halt ⊕ Env) :=
  (w.handler fuel).stopAt isBodyCall

/-- A way of declaring a class gets to the body of the class in an environment. -/
def World.Starts (way : ClassWay) (c : ClassStmt) (env env' : Env) : Prop :=
  (way.declare w c).Fails w.untilBody env (.inr env')

/-! ### What they bind -/

/-- The variables of a class that its declaration binds. -/
structure ClassBinding where
  params : List (Option Value)
  moduleName : Option Value
  deriving DecidableEq

/-- A variable of the class scope itself. -/
def Env.classVar (env : Env) (name : String) : Option Value := do
  let id ← env.classScope
  let scope ← env.scope id
  scope.vars.get name

/-- What is bound for a class whose body is about to be executed. -/
def Env.classBinding (env : Env) (c : ClassStmt) : ClassBinding :=
  ⟨c.params.map fun p ↦ env.classVar p.name, env.classVar "module_name"⟩

/-- The error for a parameter whose value does not have its type. -/
def paramTypeError (className : String) (p : Param Expr) (typeStr : String) : Diagnostic :=
  ⟨.error, classParam className p ++ " expected " ++ bufferCopy 128 typeStr ++
    ", got incompatible value"⟩

/-- For every bound parameter whose value does not have the declared type there is an error. -/
def World.ReportsTypes (c : ClassStmt) (env env' : Env) : Prop :=
  ∀ p ∈ c.params, ∀ typeStr v, p.typeStr = some typeStr → env'.classVar p.name = some v →
    (∃ env₁, w.ReturnsQuiet (w.valueMatchesTypeStr v typeStr) env' false env₁) →
      paramTypeError (stripTop c.name) p typeStr ∈ env'.diagnostics.drop env.diagnostics.length

/-- The class is what its name stands for, and it is not declared yet. -/
structure World.Undeclared (c : ClassStmt) (env : Env) : Prop where
  found : ∃ env', w.ReturnsQuiet (findOrLoadClass w (stripTop c.name)) env (some c) env'
  notIncluded : env.classScopes.get (stripTop c.name) = none
  notDeclared : stripTop c.name ∉ env.marks .classResourceDecls

/-- With any data, in any environment where the class is not declared yet, all ways bind the same
parameters and module name, and report values of wrong types. -/
def ClassStmt.WaysAgree (c : ClassStmt) : Prop :=
  ∀ (w : World) (env : Env), w.Undeclared c env → ∀ way env₁, w.Starts way c env env₁ →
    w.ReportsTypes c env env₁ ∧
      ∀ way' env₂, w.Starts way' c env env₂ → env₁.classBinding c = env₂.classBinding c

/-! ### Up to the body -/

/-- A program returns without executing the body of a class. -/
abbrev World.Passes {α : Type} (p : Comp α) (env : Env) (a : α) (env' : Env) : Prop :=
  p.Returns w.untilBody env a env'

/-- The same for a quiet program. -/
abbrev World.PassesQuiet {α : Type} (p : Quiet α) (env : Env) (a : α) (env' : Env) : Prop :=
  p.Returns (fun n β e ↦ w.untilBody n β (liftOp β e)) env a env'

theorem World.increasing_untilBody : Handler.Increasing w.untilBody := w.increasing.stopAt _

variable {w} {α β : Type} {env env' : Env}

theorem passes_lift_iff {p : Quiet α} {a : α} :
    w.Passes (p : Comp α) env a env' ↔ w.PassesQuiet p env a env' :=
  Prog.returns_translate_iff

theorem passesQuiet_bind_iff {p : Quiet α} {f : α → Quiet β} {b : β} :
    w.PassesQuiet (p >>= f) env b env' ↔
      ∃ a env₁, w.PassesQuiet p env a env₁ ∧ w.PassesQuiet (f a) env₁ b env' :=
  Prog.returns_bind_iff fun m n hmn β e ↦ w.increasing_untilBody m n hmn β (liftOp β e)

/-- Operations that are no calls mean what they mean otherwise. -/
theorem untilBody_prim {o : EnvOp α} {n : ℕ} {a : α} :
    w.untilBody n α (.prim o) env = .ok (a, env') ↔
      EnvOp.handle w.factsDb α o env = .ok (a, env') := by
  rw [World.untilBody, Handler.stopAt_eq_ok_iff]
  cases n <;> exact and_iff_right rfl

theorem passesQuiet_perform_iff {o : EnvPrim α} {a : α} :
    w.PassesQuiet (perform o) env a env' ↔ o.handle w.factsDb env = .ok (a, env') := by
  refine Prog.returns_perform_iff.trans ?_
  simp only [liftOp, untilBody_prim, exists_const]
  rfl

theorem passes_onFrame_iff {o : FrameOp α} {a : α} :
    w.Passes (onFrame o) env a env' ↔ o.handle env = (a, env') := by
  refine Prog.returns_perform_iff.trans ?_
  simp only [untilBody_prim, exists_const]
  rw [show EnvOp.handle w.factsDb α (.frame o) env = .ok (o.handle env) from rfl,
    Except.ok.injEq]

theorem passesQuiet_call_iff {c : Call α} {a : α}
    (hc : isBodyCall α (.call (.call c)) = false) :
    w.PassesQuiet (call c) env a env' ↔ w.Returns (callBody w α c) env a env' := by
  refine Prog.returns_perform_iff.trans ?_
  simp only [liftOp, World.untilBody, Handler.stopAt_eq_ok_iff, hc, true_and]
  constructor
  · rintro ⟨_ | n, hn⟩
    · cases hn
    · exact ⟨n, hn⟩
  · rintro ⟨n, hn⟩
    exact ⟨n + 1, hn⟩

end World

/-! ### Data for every parameter -/

/-- The entries of a data file with one value for all parameters of a class. -/
def paramData (className : String) (params : List (Param Expr)) (v : Value) :
    List (String × Value) :=
  params.map fun p ↦ (className ++ "::" ++ p.name, v)

/-- A world whose only data provider has one data file. -/
def dataWorld (entries : List (String × Value)) : World :=
  { World.bare with
    providers := [⟨.first, [⟨"data", "", "data"⟩]⟩]
    hieraFiles := fun _ ↦ some (.hash entries) }

section Data

variable {entries : List (String × Value)} {env env' : Env}

theorem hashGet_paramData {className : String} {params : List (Param Expr)} {v : Value}
    {p : Param Expr} (hp : p ∈ params) :
    hashGet (paramData className params v) (className ++ "::" ++ p.name) = some v := by
  induction params with
  | nil => cases hp
  | cons q params ih =>
    rw [paramData, List.map_cons, hashGet_cons]
    split_ifs with hkey
    · rfl
    · rcases List.mem_cons.1 hp with rfl | hp
      exacts [absurd rfl hkey, ih hp]

theorem returnsQuiet_hieraSearch {key : String} {v : Value} (henv : HieraEnv Quiet)
    (hkey : hashGet entries key = some v) :
    (dataWorld entries).ReturnsQuiet (hieraSearch (dataWorld entries).hieraFiles
      ⟨.first, [⟨"data", "", "data"⟩]⟩ henv key none .first) env (some v) env := by
  have hfile : ∀ path, fileValue (dataWorld entries).hieraFiles path key = some v := fun _ ↦ hkey
  refine returnsQuiet_bind_iff.2 ⟨some v, env, ?_, Prog.returns_pure_iff.2 ⟨rfl, rfl⟩⟩
  refine returnsQuiet_bind_iff.2 ⟨_, env, ⟨0, rfl⟩, ?_⟩
  rw [hfile]
  exact Prog.returns_pure_iff.2 ⟨rfl, rfl⟩

theorem returns_providerLookup {key : String} {v : Value} (hkey : hashGet entries key = some v)
    (henv : env.parallelNodes = true) :
    (dataWorld entries).Returns (callBody (dataWorld entries) _ (.providerLookup 0 key)) env
      (some v) env := by
  refine returns_lift_iff.2 (returnsQuiet_bind_iff.2 ⟨_, _, returnsQuiet_read_iff.2 ⟨rfl, rfl⟩,
    returnsQuiet_bind_iff.2 ⟨_, _, returnsQuiet_read_iff.2 ⟨rfl, rfl⟩, returnsQuiet_bind_iff.2
      ⟨_, _, returnsQuiet_read_iff.2 ⟨henv.symm, rfl⟩, returnsQuiet_bind_iff.2
        ⟨none, env, returnsQuiet_perform_iff.2 rfl, returnsQuiet_hieraSearch _ hkey⟩⟩⟩⟩)

theorem passesQuiet_aplLookup {className paramName : String} {v : Value}
    (hkey : hashGet entries (className ++ "::" ++ paramName) = some v)
    (henv : env.parallelNodes = true) :
    (dataWorld entries).PassesQuiet (aplLookup (dataWorld entries) className paramName) env
      (some v) env := by
  refine passesQuiet_bind_iff.2 ⟨some v, env, passesQuiet_bind_iff.2 ⟨some v, env, ?_, ?_⟩, ?_⟩
  · exact (passesQuiet_call_iff rfl).2 (returns_providerLookup hkey henv)
  · exact Prog.returns_pure_iff.2 ⟨rfl, rfl⟩
  · exact Prog.returns_pure_iff.2 ⟨rfl, rfl⟩

theorem Env.scope_putScope {s : Scope} {id : ScopeId} (hid : env.scope id = some s) (s' : Scope) :
    (env.putScope id s').scope id = some s' := by
  cases id with
  | global => rfl
  | node => rfl
  | cell n =>
    simp only [Env.scope] at hid
    simp only [Env.scope, Env.putScope, List.getElem?_modify_eq]
    cases hn : env.scopes[n]? with
    | none => simp [hn] at hid
    | some c =>
      simp only [hn, Option.ite_none_right_eq_some] at hid
      simp [hid.1]

/-- Setting a variable of a scope changes this variable only. -/
theorem passesQuiet_setVarIn {w : World} {s : Scope} {id : ScopeId} (hid : env.scope id = some s)
    (name : String) (v : Value) :
    ∃ env', w.PassesQuiet (perform (.setVarIn id name v)) env () env' ∧
      env'.toFrame = env.toFrame ∧ env'.parallelNodes = env.parallelNodes ∧
      env'.scope id = some { s with vars := s.vars.set name v } := by
  have hset : env.setVarIn id name v =
      some (env.putScope id { s with vars := s.vars.set name v }) := by
    rw [Env.setVarIn, hid]
    rfl
  refine ⟨_, passesQuiet_perform_iff.2 ?_, env.putScope_toFrame id _, ?_,
    Env.scope_putScope hid _⟩
  · rw [EnvPrim.handle, hset]
  · cases id <;> rfl

/-- Binding parameters for which there is data. -/
theorem passesQuiet_bindClassParams {className : String} {id : ScopeId} {v : Value}
    {ps : List (Param Expr)} {s : Scope}
    (hdata : ∀ p ∈ ps, hashGet entries (className ++ "::" ++ p.name) = some v)
    (henv : env.parallelNodes = true) (hid : env.scope id = some s) :
    ∃ env' s', (dataWorld entries).PassesQuiet (bindClassParams (dataWorld entries) className id
        (ps.map fun p ↦ (p, none))) env () env' ∧
      env'.toFrame = env.toFrame ∧ env'.scope id = some s' ∧
      ∀ name, s'.vars.get name = if name ∈ ps.map (·.name) then some v else s.vars.get name := by
  induction ps generalizing env s with
  | nil => exact ⟨env, s, Prog.returns_pure_iff.2 ⟨rfl, rfl⟩, rfl, hid, by simp⟩
  | cons p ps ih =>
    obtain ⟨hp, hdata⟩ := List.forall_mem_cons.1 hdata
    obtain ⟨env₁, hset, hframe₁, hparallel, hid₁⟩ :=
      passesQuiet_setVarIn (w := dataWorld entries) hid p.name v
    obtain ⟨env', s', hrest, hframe', hid', hvars⟩ := ih hdata (hparallel.trans henv) hid₁
    refine ⟨env', s', ?_, hframe'.trans hframe₁, hid', fun name ↦ ?_⟩
    · exact passesQuiet_bind_iff.2 ⟨v, env, passesQuiet_bind_iff.2 ⟨some v, env,
        passesQuiet_aplLookup hp henv, Prog.returns_pure_iff.2 ⟨rfl, rfl⟩⟩,
        passesQuiet_bind_iff.2 ⟨(), env₁, hset, hrest⟩⟩
    · rw [hvars, Table.get_set, List.map_cons]
      by_cases hrest : name ∈ ps.map (·.name)
      · rw [if_pos hrest, if_pos (List.mem_cons_of_mem _ hrest)]
      · rw [if_neg hrest]
        by_cases hname : name = p.name
        · rw [if_pos hname, if_pos (hname ▸ List.mem_cons_self)]
        · rw [if_neg hname, if_neg (List.not_mem_cons_of_ne_of_not_mem hname hrest)]

/-- What a class scope holds when the title and the parameters are set in it. -/
theorem passesQuiet_titleAndParams {className : String} {id : ScopeId} {v : Value}
    {ps : List (Param Expr)} {s : Scope}
    (hdata : ∀ p ∈ ps, hashGet entries (className ++ "::" ++ p.name) = some v)
    (henv : env.parallelNodes = true) (hid : env.scope id = some s) :
    ∃ env₁ env' s', (dataWorld entries).PassesQuiet (setClassTitle id className) env () env₁ ∧
      (dataWorld entries).PassesQuiet (bindClassParams (dataWorld entries) className id
        (ps.map fun p ↦ (p, none))) env₁ () env' ∧
      env'.toFrame = env.toFrame ∧ env'.scope id = some s' ∧ s'.vars.get "module_name" =
        if "module_name" ∈ ps.map (·.name) then some v else s.vars.get "module_name" := by
  obtain ⟨env₁, htitle, hframe₁, hparallel₁, hid₁⟩ :=
    passesQuiet_setVarIn (w := dataWorld entries) hid "title" (.string className)
  obtain ⟨env₂, hname, hframe₂, hparallel₂, hid₂⟩ :=
    passesQuiet_setVarIn (w := dataWorld entries) hid₁ "name" (.string className)
  obtain ⟨env', s', hparams, hframe', hid', hvars⟩ :=
    passesQuiet_bindClassParams hdata (hparallel₂.trans (hparallel₁.trans henv)) hid₂
  refine ⟨env₂, env', s', passesQuiet_bind_iff.2 ⟨(), env₁, htitle, hname⟩, hparams,
    hframe'.trans (hframe₂.trans hframe₁), hid', ?_⟩
  rw [hvars, Table.get_set_of_ne _ _ (by decide), Table.get_set_of_ne _ _ (by decide)]

/-- A program in the scope of a class stops where it stops by itself. -/
theorem fails_inClass {w : World} {id : ScopeId} {p : Comp Unit} {x : Halt ⊕ Env} {env₁ : Env}
    (hpush : (FrameOp.pushScope id).handle env = ((), env₁))
    (hp : p.Fails w.untilBody { env₁ with classScope := some id } x) :
    (inClass id p).Fails w.untilBody env x :=
  (passes_onFrame_iff.2 hpush).fails_bind w.increasing_untilBody <| .bind _ <|
    (passes_onFrame_iff.2 rfl).fails_bind w.increasing_untilBody <| hp.bind _

/-- The environment in the scope of a new class. -/
def Env.enterClass (env : Env) (className : String) : Env :=
  let (id, env) := env.createClassScope .nodeScope className
  { env with
      scopeStack := env.currentScope :: env.scopeStack
      currentScope := id
      classScope := some id }

theorem Env.scope_enterClass (env : Env) (className : String) :
    (env.enterClass className).scope (.cell env.scopes.length) =
      some ⟨className, some env.nodeScope, Table.empty⟩ := by
  simp [enterClass, createClassScope, createScope, scope, parentId]

/-- A new class whose parameters are all in the data gets to the rest of its declaration. -/
theorem exists_boundClass {className : String} {ps : List (Param Expr)} {v : Value}
    (hdata : ∀ p ∈ ps, hashGet entries (className ++ "::" ++ p.name) = some v)
    (henv : env.parallelNodes = true) :
    ∃ env' id s, env'.classScope = some id ∧ env'.scope id = some s ∧
      s.vars.get "module_name" = (if "module_name" ∈ ps.map (·.name) then some v else none) ∧
      ∀ (rest : ScopeId → Comp Unit) (x : Halt ⊕ Env),
        (rest id).Fails (dataWorld entries).untilBody env' x →
        (do
          let scope ← perform (.createClassScope .nodeScope className)
          inClass scope do
            setClassTitle scope className
            bindClassParams (dataWorld entries) className scope (ps.map fun p ↦ (p, none))
            rest scope : Comp Unit).Fails (dataWorld entries).untilBody env x := by
  obtain ⟨env₁, env', s, htitle, hparams, hframe, hid, hvar⟩ := passesQuiet_titleAndParams hdata
    (show (env.enterClass className).parallelNodes = true from henv)
    (env.scope_enterClass className)
  refine ⟨env', _, s, congrArg Frame.classScope hframe, hid, hvar, fun rest x hrest ↦ ?_⟩
  have hinc := (dataWorld entries).increasing_untilBody
  refine (passes_lift_iff.2 (passesQuiet_perform_iff.2 rfl)).fails_bind hinc ?_
  refine fails_inClass rfl ?_
  exact (passes_lift_iff.2 htitle).fails_bind hinc <|
    (passes_lift_iff.2 hparams).fails_bind hinc hrest

theorem fails_execStmtList {w : World} (ss : List Stmt) :
    (execStmtList ss : Comp Unit).Fails w.untilBody env (.inr env) :=
  ⟨0, fun _ _ ↦ rfl⟩

theorem Env.classVar_eq {id : ScopeId} {s : Scope} (hclass : env.classScope = some id)
    (hid : env.scope id = some s) (name : String) : env.classVar name = s.vars.get name := by
  rw [Env.classVar, hclass]
  change (env.scope id).bind (fun s ↦ s.vars.get name) = _
  rw [hid]
  rfl

/-- A class whose name is one, and which does not inherit from itself. -/
structure ClassStmt.Proper (c : ClassStmt) : Prop where
  name : stripTop (stripTop c.name) = stripTop c.name
  parent : ∀ parent, c.inherits = some parent → stripTop (stripTop parent) ≠ stripTop c.name

/-- An environment in which a class is defined. -/
def Env.withClass (c : ClassStmt) : Env :=
  { Env.create with classDefinitions := [c], parallelNodes := true }

section Proper

variable {c : ClassStmt} (hc : c.Proper)
include hc

theorem findClassDef_withClass : (Env.withClass c).findClassDef (stripTop c.name) = some c := by
  simp [Env.findClassDef, Env.withClass, hc.name]

/-- The parent of the class is not found. -/
theorem passesQuiet_parentScope (entries : List (String × Value)) (env : Env)
    (henv : env.classDefinitions = [c]) (className : String) :
    ∃ env', (dataWorld entries).PassesQuiet (parentScope (dataWorld entries) c className) env none
      env' ∧ env'.toFrame = env.toFrame ∧ env'.parallelNodes = env.parallelNodes ∧
      env'.classDefinitions = env.classDefinitions ∧ env'.scopes = env.scopes := by
  rw [parentScope]
  cases hparent : c.inherits with
  | none => exact ⟨env, Prog.returns_pure_iff.2 ⟨rfl, rfl⟩, rfl, rfl, rfl, rfl⟩
  | some parent =>
    have hnone : env.findClassDef (stripTop parent) = none := by
      simpa [Env.findClassDef, henv] using (hc.parent parent hparent).symm
    refine ⟨_, passesQuiet_bind_iff.2 ⟨none, env, passesQuiet_bind_iff.2 ⟨none, env, ?_, ?_⟩,
      passesQuiet_bind_iff.2 ⟨(), _, passesQuiet_perform_iff.2 rfl,
        Prog.returns_pure_iff.2 ⟨rfl, rfl⟩⟩⟩, rfl, rfl, rfl, rfl⟩
    · exact passesQuiet_perform_iff.2 (by rw [EnvPrim.handle, hnone])
    · exact Prog.returns_pure_iff.2 ⟨rfl, rfl⟩

variable {v : Value}

/-- An `include` binds the name of the module. -/
theorem starts_includeFromDef :
    ∃ env', (dataWorld (paramData (stripTop c.name) c.params v)).Starts .includeFromDef c
        (Env.withClass c) env' ∧
      env'.classVar "module_name" = some (.string (moduleOf (stripTop c.name))) := by
  let w := dataWorld (paramData (stripTop c.name) c.params v)
  have hinc := w.increasing_untilBody
  obtain ⟨env₁, hparent, -, hparallel, -⟩ := passesQuiet_parentScope
    hc (paramData (stripTop c.name) c.params v) (Env.withClass c) rfl (stripTop c.name)
  obtain ⟨env₂, id, s, hclass, hid, -, hfails⟩ := exists_boundClass
    (fun p hp ↦ hashGet_paramData (v := v) hp) hparallel
  have hid' : ({ env₂ with callerModuleName := some (moduleOf (stripTop c.name)) } : Env).scope id =
      some s := hid
  obtain ⟨env₃, hmodule, hframe, -, hid₃⟩ := passesQuiet_setVarIn (w := w)
    hid' "module_name" (.string (moduleOf (stripTop c.name)))
  refine ⟨env₃, ?_, ?_⟩
  · refine (passes_lift_iff.2 (passesQuiet_perform_iff.2 rfl)).fails_bind hinc ?_
    refine (passes_lift_iff.2 hparent).fails_bind hinc ?_
    refine hfails _ _ (.bind _ ?_)
    refine (passes_onFrame_iff.2 rfl).fails_bind hinc (.bind _ ?_)
    exact (passes_lift_iff.2 hmodule).fails_bind hinc (fails_execStmtList _)
  · rw [Env.classVar_eq ((congrArg Frame.classScope hframe).trans hclass) hid₃,
      Table.get_set_self]

omit hc in
theorem passesQuiet_evalClassParams (w : World) (className : String) (ps : List (Param Expr)) :
    w.PassesQuiet (evalClassParams w className [] ps) env (ps.map fun p ↦ (p, none)) env := by
  induction ps with
  | nil => exact Prog.returns_pure_iff.2 ⟨rfl, rfl⟩
  | cons p ps ih =>
    exact passesQuiet_bind_iff.2 ⟨none, env, Prog.returns_pure_iff.2 ⟨rfl, rfl⟩,
      passesQuiet_bind_iff.2 ⟨_, env, ih, Prog.returns_pure_iff.2 ⟨rfl, rfl⟩⟩⟩

/-- A declaration `class { ... }` does not. -/
theorem starts_classResource :
    ∃ env', (dataWorld (paramData (stripTop c.name) c.params v)).Starts .classResource c
        (Env.withClass c) env' ∧ env'.classVar "module_name" =
          if "module_name" ∈ c.params.map (·.name) then some v else none := by
  let w := dataWorld (paramData (stripTop c.name) c.params v)
  have hinc := w.increasing_untilBody
  let env₀ := (Env.withClass c).mark .classResourceDecls (stripTop c.name)
  obtain ⟨env₁, hparent, -, hparallel, -⟩ := passesQuiet_parentScope
    hc (paramData (stripTop c.name) c.params v) env₀ rfl (stripTop c.name)
  obtain ⟨env₂, id, s, hclass, hid, hvar, hfails⟩ := exists_boundClass
    (fun p hp ↦ hashGet_paramData (v := v) hp) hparallel
  have htitle : w.PassesQuiet (evalExpr (textExpr c.name)) (Env.withClass c) (.string c.name)
      (Env.withClass c) :=
    (passesQuiet_call_iff rfl).2 (Prog.returns_pure_iff.2 ⟨rfl, rfl⟩)
  have hfind : w.PassesQuiet (findOrLoadClass w (stripTop c.name)) env₀ (some c) env₀ :=
    passesQuiet_bind_iff.2 ⟨some c, env₀, passesQuiet_perform_iff.2
      (congrArg (fun d ↦ Except.ok (d, env₀)) (findClassDef_withClass hc)),
      Prog.returns_pure_iff.2 ⟨rfl, rfl⟩⟩
  refine ⟨{ env₂ with callerModuleName := some (moduleOf (stripTop c.name)) }, ?_, ?_⟩
  · refine (passes_lift_iff.2 htitle).fails_bind hinc ?_
    refine (passes_lift_iff.2 (passesQuiet_perform_iff.2 rfl)).fails_bind hinc ?_
    refine (passes_lift_iff.2 (passesQuiet_perform_iff.2 rfl)).fails_bind hinc ?_
    refine (passes_lift_iff.2 (passesQuiet_perform_iff.2 rfl)).fails_bind hinc ?_
    refine (passes_lift_iff.2 hfind).fails_bind hinc ?_
    refine (passes_lift_iff.2 hparent).fails_bind hinc ?_
    refine (passes_lift_iff.2 (Prog.returns_pure_iff.2 ⟨rfl, rfl⟩)).fails_bind hinc ?_
    refine (passes_lift_iff.2 (passesQuiet_evalClassParams w _ _)).fails_bind hinc ?_
    refine hfails _ _ (.bind _ ?_)
    exact (passes_onFrame_iff.2 rfl).fails_bind hinc (.bind _ (fails_execStmtList _))
  · exact (Env.classVar_eq hclass hid "module_name").trans hvar

theorem undeclared_withClass {w : World} : w.Undeclared c (Env.withClass c) where
  found := by
    refine ⟨Env.withClass c, returnsQuiet_bind_iff.2 ⟨some c, Env.withClass c,
      returnsQuiet_perform_iff.2 ?_, Prog.returns_pure_iff.2 ⟨rfl, rfl⟩⟩⟩
    rw [EnvPrim.handle, findClassDef_withClass hc]
  notIncluded := rfl
  notDeclared := List.not_mem_nil

end Proper

end Data

/-- An `include` and a declaration `class { ... }` bind different names of the module, whatever
the parameters of the class are. -/
theorem ClassStmt.Proper.exists_starts {c : ClassStmt} (hc : c.Proper) :
    ∃ w env env₁ env₂, World.Undeclared w c env ∧ w.Starts .includeFromDef c env env₁ ∧
      w.Starts .classResource c env env₂ ∧ env₁.classBinding c ≠ env₂.classBinding c := by
  obtain ⟨env₁, hinclude, hmodule₁⟩ := starts_includeFromDef hc (v := .bool true)
  obtain ⟨env₂, hresource, hmodule₂⟩ := starts_classResource hc (v := .bool true)
  refine ⟨_, _, env₁, env₂, undeclared_withClass hc, hinclude, hresource, fun hsame ↦ ?_⟩
  have hmodule := congrArg ClassBinding.moduleName hsame
  rw [Env.classBinding, Env.classBinding, hmodule₁, hmodule₂] at hmodule
  split_ifs at hmodule
  cases hmodule

/-- For no class do the ways agree. -/
theorem ClassStmt.not_waysAgree (c : ClassStmt) (hc : c.Proper) : ¬ c.WaysAgree := by
  intro h
  obtain ⟨w, env, env₁, env₂, hundeclared, hinclude, hresource, hne⟩ := hc.exists_starts
  exact hne ((h w env hundeclared _ env₁ hinclude).2 _ env₂ hresource)

/-- The class `c` without parameters. -/
def plainClass : ClassStmt := ⟨"c", [], none, []⟩

theorem plainClass_proper : plainClass.Proper := ⟨by decide, fun _ h ↦ by cases h⟩

theorem plainClass_not_waysAgree : ¬ plainClass.WaysAgree :=
  ClassStmt.not_waysAgree plainClass plainClass_proper

/-- An `include` of the class `c` sets `$module_name`, a declaration `class { 'c': }` does not. -/
theorem ClassStmt.not_forall_waysAgree : ¬ ∀ c : ClassStmt, c.WaysAgree := by
  intro h
  obtain ⟨w, env, env₁, env₂, hundeclared, hinclude, hresource, hne⟩ :=
    plainClass_proper.exists_starts
  exact hne ((h plainClass w env hundeclared _ env₁ hinclude).2 _ env₂ hresource)

end PuppetC
