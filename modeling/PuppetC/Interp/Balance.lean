import PuppetC.Interp.Structure

/-!
# Evaluation is balanced

When `puppet_eval_expr`, `puppet_exec_stmt` or `puppet_exec_stmt_list` returns, the frame is what
it was: the current scope and the scope stack, the class scope, the calling module, the mark of
class re-execution and the two depth counters.

Structured programs leave the frame as it was if the functions they call do. The bodies of the
functions are structured, or are sequences of structured parts and of operations on the queue,
so the result follows by induction on the depth of calls.

## Main definitions

* `KeepsFrame`: programs that leave the frame as it was.

## Main results

* `frame_balanced`: evaluation of expressions and execution of statements leave the frame as it
  was.
-/

namespace PuppetC

/-- The environment in which a program in a new scope starts. -/
def Env.enterScope (env : Env) (parent : ScopeParent) (name : String) : Env :=
  ((FrameOp.pushScope (.cell env.scopes.length)).handle (env.createScope parent name true).2).2

/-- Where the program returns, the frame is what it was. -/
def KeepsFrame (hd : Handler (Calls Procedure EnvOp) Env Halt) {α : Type} (p : Comp α) : Prop :=
  ∀ env a env', p.run hd env = .ok (a, env') → env'.toFrame = env.toFrame

/-- A meaning of operations and procedures in which procedures keep the frame. -/
structure FrameSound (factsDb : Option FactsDb) (hd : Handler (Calls Procedure EnvOp) Env Halt) :
    Prop where
  prim : ∀ β (o : EnvOp β), hd β (.prim o) = EnvOp.handle factsDb β o
  call : ∀ β (c : Procedure β) env b env',
    hd β (.call c) env = .ok (b, env') → env'.toFrame = env.toFrame

namespace FrameSound

variable {factsDb : Option FactsDb} {hd : Handler (Calls Procedure EnvOp) Env Halt} {α : Type}

theorem run_onFrame (hs : FrameSound factsDb hd) (o : FrameOp α) (env : Env) :
    (onFrame o).run hd env = .ok (o.handle env) := by
  rw [onFrame, Prog.run_perform, hs.prim]
  rfl

theorem run_read (hs : FrameSound factsDb hd) (f : EnvField α) (env : Env) :
    (liftM (read f) : Comp α).run hd env = .ok (f.get env, env) := by
  change (Prog.perform (.prim (.quiet (.read f)))).run hd env = _
  rw [Prog.run_perform, hs.prim]
  rfl

theorem run_onOwn (hs : FrameSound factsDb hd) (o : OwnOp α) (env : Env) :
    (onOwn o).run hd env = o.handle env := by
  rw [onOwn, Prog.run_perform, hs.prim]
  rfl

theorem run_onNode (hs : FrameSound factsDb hd) (o : NodeOp α) (env : Env) :
    (onNode o).run hd env = .ok (o.handle factsDb env) := by
  rw [onNode, Prog.run_perform, hs.prim]
  rfl

theorem own (hs : FrameSound factsDb hd) (o : OwnOp α) : KeepsFrame hd (onOwn o) := by
  intro env a env' h
  rw [hs.run_onOwn] at h
  exact o.handle_toFrame h

theorem flush (hs : FrameSound factsDb hd) (cursor : ℕ) :
    KeepsFrame hd (flushDeferred cursor) := by
  intro env a env' h
  rw [flushDeferred, Prog.run_perform] at h
  exact hs.call _ _ _ _ _ h

theorem quiet (hs : FrameSound factsDb hd) (q : Quiet α) : KeepsFrame hd (liftM q) := by
  intro env a env' h
  change (q.translate liftOp).run hd env = _ at h
  rw [Prog.run_translate] at h
  refine Handler.Preserves.run (I := fun s ↦ s.toFrame = env.toFrame) ?_ q rfl h
  intro β e s b s' hI hrun
  cases e with
  | call c => exact (hs.call _ _ _ _ _ hrun).trans hI
  | prim o =>
    change hd β (.prim (.quiet o)) s = _ at hrun
    rw [hs.prim] at hrun
    exact (o.handle_toFrame hrun).trans hI

/-- A program between a change of the frame and its undoing runs in the changed frame. -/
theorem run_bracket {β γ : Type} (hs : FrameSound factsDb hd) {enter : FrameOp β}
    {leave : β → FrameOp γ} {p : Comp α} {env env' : Env} {a : α}
    (h : (PuppetC.bracket enter leave p).run hd env = .ok (a, env')) :
    ∃ env₁, p.run hd (enter.handle env).2 = .ok (a, env₁) ∧
      env' = ((leave (enter.handle env).1).handle env₁).2 := by
  obtain ⟨b, env₁, h₁, k₁⟩ := Prog.run_bind_eq_ok.1 h
  obtain ⟨a', env₂, h₂, k₂⟩ := Prog.run_bind_eq_ok.1 k₁
  obtain ⟨c, env₃, h₃, k₃⟩ := Prog.run_bind_eq_ok.1 k₂
  rw [hs.run_onFrame] at h₁ h₃
  cases h₁
  cases h₃
  cases k₃
  exact ⟨env₂, h₂, rfl⟩

/-- A program in a new scope runs with this scope as the current one. The scope that is current
at its end is destroyed. -/
theorem run_inNewScope (hs : FrameSound factsDb hd) {parent : ScopeParent} {name : String}
    {p : ScopeId → Comp α} {env env' : Env} {a : α}
    (h : (PuppetC.inNewScope parent name p).run hd env = .ok (a, env')) :
    ∃ env₁, (p (.cell env.scopes.length)).run hd (env.enterScope parent name) = .ok (a, env₁) ∧
      (FrameOp.popScope.handle env₁).2.destroyScope (FrameOp.popScope.handle env₁).1 =
        some env' := by
  obtain ⟨id, env₁, h₁, k₁⟩ := Prog.run_bind_eq_ok.1 h
  obtain ⟨_, env₂, h₂, k₂⟩ := Prog.run_bind_eq_ok.1 k₁
  obtain ⟨a', env₃, h₃, k₃⟩ := Prog.run_bind_eq_ok.1 k₂
  obtain ⟨popped, env₄, h₄, k₄⟩ := Prog.run_bind_eq_ok.1 k₃
  obtain ⟨_, env₅, h₅, k₅⟩ := Prog.run_bind_eq_ok.1 k₄
  rw [hs.run_onOwn] at h₁ h₅
  rw [hs.run_onFrame] at h₂ h₄
  cases h₁
  cases h₂
  cases h₄
  cases k₅
  refine ⟨env₃, h₃, ?_⟩
  simp only [OwnOp.handle] at h₅
  split at h₅
  · next hd' => cases h₅; exact hd'
  · cases h₅

/-- Between a change of the frame and its undoing, only what is done in between may change the
frame. -/
theorem bracket {β γ : Type} (hs : FrameSound factsDb hd) {enter : FrameOp β}
    {leave : β → FrameOp γ} {p : Comp α} (hu : Undoes enter leave) (hp : KeepsFrame hd p) :
    KeepsFrame hd (bracket enter leave p) := by
  intro env a env' h
  obtain ⟨env₁, h₁, rfl⟩ := hs.run_bracket h
  have hmid : env₁.toFrame = (enter.apply env.toFrame).2 := hp _ _ _ h₁
  change ((leave _).apply env₁.toFrame).2 = env.toFrame
  rw [hmid]
  exact hu env.toFrame

theorem inNewScope (hs : FrameSound factsDb hd) {parent : ScopeParent} {name : String}
    {p : ScopeId → Comp α} (hp : ∀ id, KeepsFrame hd (p id)) :
    KeepsFrame hd (inNewScope parent name p) := by
  intro env a env' h
  obtain ⟨env₁, h₁, hdestroy⟩ := hs.run_inNewScope h
  have hmid : env₁.toFrame =
      (FrameOp.apply (.pushScope (.cell env.scopes.length)) env.toFrame).2 := hp _ _ _ _ h₁
  have hpop : env'.toFrame = (FrameOp.apply .popScope env₁.toFrame).2 :=
    Env.destroyScope_toFrame hdestroy
  rw [hpop, hmid]
  rfl

/-- Structured programs keep the frame. -/
theorem structured (hs : FrameSound factsDb hd) {p : Comp α} (hp : Structured p) :
    KeepsFrame hd p := by
  induction hp with
  | pure a => intro env a' env' h; cases h; rfl
  | quiet q => exact hs.quiet q
  | bind _ _ ihp ihf =>
    intro env a env' h
    obtain ⟨b, env₁, h₁, h₂⟩ := Prog.run_bind_eq_ok.1 h
    exact (ihf b _ _ _ h₂).trans (ihp _ _ _ h₁)
  | bracket hu _ ih => exact hs.bracket hu ih
  | inNewScope _ ih => exact hs.inNewScope ih

theorem node (hs : FrameSound factsDb hd) (o : NodeOp α) : KeepsFrame hd (onNode o) := by
  intro env a env' h
  rw [hs.run_onNode, Except.ok.injEq] at h
  exact congrArg (·.2.toFrame) h ▸ o.handle_toFrame factsDb env

/-- So do those with operations on nodes. -/
theorem nodeStructured (hs : FrameSound factsDb hd) {p : Comp α} (hp : NodeStructured p) :
    KeepsFrame hd p := by
  induction hp with
  | structured hp => exact hs.structured hp
  | node o => exact hs.node o
  | bind _ _ ihp ihf =>
    intro env a env' h
    obtain ⟨b, env₁, h₁, h₂⟩ := Prog.run_bind_eq_ok.1 h
    exact (ihf b _ _ _ h₂).trans (ihp _ _ _ h₁)
  | inNewScope _ ih => exact hs.inNewScope ih

end FrameSound

namespace KeepsFrame

variable {hd : Handler (Calls Procedure EnvOp) Env Halt} {α β : Type}

theorem bind {p : Comp α} {f : α → Comp β} (hp : KeepsFrame hd p)
    (hf : ∀ a, KeepsFrame hd (f a)) : KeepsFrame hd (p >>= f) := by
  intro env b env' h
  obtain ⟨a, env₁, h₁, h₂⟩ := Prog.run_bind_eq_ok.1 h
  exact (hf a _ _ _ h₂).trans (hp _ _ _ h₁)

theorem forM {f : α → Comp Unit} (hf : ∀ a, KeepsFrame hd (f a)) :
    (as : List α) → KeepsFrame hd (as.forM f)
  | [] => fun _ _ _ h ↦ by cases h; rfl
  | a :: as => (hf a).bind fun _ ↦ forM hf as

end KeepsFrame

section World

variable (w : World) {hd : Handler (Calls Procedure EnvOp) Env Halt}

theorem execStmtListBody_keepsFrame (hs : FrameSound w.factsDb hd) (ss : List Stmt) :
    KeepsFrame hd (execStmtListBody ss) :=
  (hs.quiet _).bind fun saved ↦ (hs.own _).bind fun _ ↦ (hs.quiet _).bind fun _ ↦
    (hs.flush saved).bind fun _ ↦ (hs.own _).bind fun _ ↦ hs.own _

theorem execDeferredDefine_keepsFrame (hs : FrameSound w.factsDb hd) (i : ℕ) :
    KeepsFrame hd (execDeferredDefine w i) :=
  (hs.own _).bind fun d ↦ hs.structured (structured_runDeferred w i d)

theorem flushDeferredBody_keepsFrame (hs : FrameSound w.factsDb hd) (cursor : ℕ) :
    KeepsFrame hd (flushDeferredBody w cursor) := by
  refine (hs.quiet _).bind fun count ↦ ?_
  split_ifs
  · exact (KeepsFrame.forM (execDeferredDefine_keepsFrame w hs) _).bind fun _ ↦ hs.flush count
  · exact hs.structured (.pure ())

/-- The body of each procedure keeps the frame if the procedures that it calls do. -/
theorem procedureBody_keepsFrame (hs : FrameSound w.factsDb hd) {β : Type} (c : Procedure β) :
    KeepsFrame hd (procedureBody w β c) := by
  cases c with
  | flush f =>
    cases f with
    | flushDeferred cursor => exact flushDeferredBody_keepsFrame w hs cursor
  | call c =>
    cases c with
    | evalExpr e => exact hs.structured (structured_evalExprBody w e)
    | execStmt s => exact hs.nodeStructured (nodeStructured_execStmtBody w s)
    | execStmtList ss => exact execStmtListBody_keepsFrame w hs ss
    | includeClassFromDef c => exact hs.structured (structured_includeClassFromDefBody w c)
    | loaderIncludeClass name => exact hs.structured (structured_loaderIncludeClassBody w name)
    | lookupChain name => exact hs.quiet _
    | providerLookup provider key => exact hs.quiet _
    | matchesFilter filter vres => exact hs.quiet _

/-- Procedures keep the frame, at every depth of calls. -/
theorem handler_frameSound (fuel : ℕ) : FrameSound w.factsDb (w.handler fuel) where
  prim β o := by cases fuel <;> rfl
  call β c env b env' h := by
    let R : (β : Type) → Procedure β → Env → β → Env → Prop :=
      fun _ _ env _ env' ↦ env'.toFrame = env.toFrame
    exact Calls.meets (R := R)
      (fun hd hprim hcall _ c ↦ procedureBody_keepsFrame w ⟨hprim, hcall⟩ c) fuel h

/-- When an expression has been evaluated, or a statement or a list of statements executed, the
frame is what it was before. -/
theorem frame_balanced (fuel : ℕ) (env env' : Env) :
    (∀ e v, w.evalExpr fuel e env = .ok (v, env') → env'.toFrame = env.toFrame) ∧
    (∀ s, w.execStmt fuel s env = .ok ((), env') → env'.toFrame = env.toFrame) ∧
    (∀ ss, w.execStmtList fuel ss env = .ok ((), env') → env'.toFrame = env.toFrame) := by
  have hs := handler_frameSound w fuel
  exact ⟨fun e v ↦ hs.quiet (evalExpr e) env v env', fun s ↦ hs.quiet (execStmt s) env () env',
    fun ss ↦ hs.quiet (execStmtList ss) env () env'⟩

end World

/-- A function without parameters, whose body is a text. -/
def textFunction : FunctionStmt := ⟨"f", [], [.expression (.value (.string "x"))]⟩

/-- The definition and a call of a function, which runs in a scope of its own. -/
theorem frame_balanced_call :
    ∃ env', World.bare.execStmtList 6 [.functionDef textFunction,
        .expression (.funcall "f" [] none)] Env.create = .ok ((), env') ∧
      env'.toFrame = Env.create.toFrame := by
  obtain ⟨_, env', h, -⟩ := exists_ok_of_observed (x := World.bare.execStmtList 6
    [.functionDef textFunction, .expression (.funcall "f" [] none)] Env.create)
    (f := fun env ↦ env.listStarts) (c := []) (by decide +kernel)
  exact ⟨env', h, (frame_balanced World.bare 6 Env.create env').2.2 _ h⟩

end PuppetC
