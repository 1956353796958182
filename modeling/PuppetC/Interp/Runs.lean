import PuppetC.Interp.Exec

/-!
# Runs at some fuel

What a program of the interpreter returns in a world, whatever the fuel it takes.

## Main definitions

* `World.quietHandler`: the meaning of quiet operations and calls.
* `World.Returns`, `World.ReturnsQuiet`: a program returns from an environment.
* `Env.OnlyReads`: what reading files changes.

## Main results

* `returns_lift_iff`: a quiet program returns the same as a program of the interpreter.
* `exists_returnsQuiet_loadManifest`, `exists_returnsQuiet_loadDefine`: what the loader answers.
* `returnsQuiet_literal_iff`: literals are evaluated in no time.
-/

namespace PuppetC

section World

variable (w : World)

/-- The meaning of quiet operations and calls. -/
def World.quietHandler (fuel : ℕ) : Handler (Calls Call QuietOp) Env Halt :=
  fun β e ↦ w.handler fuel β (liftOp β e)

theorem World.run_quiet {α : Type} (p : Quiet α) (fuel : ℕ) (env : Env) :
    (p : Comp α).run (w.handler fuel) env = p.run (w.quietHandler fuel) env :=
  Prog.run_translate _ _ _ _

namespace World

/-- A program returns at some fuel. -/
abbrev Returns {α : Type} (p : Comp α) (env : Env) (a : α) (env' : Env) : Prop :=
  p.Returns w.handler env a env'

/-- A quiet program returns at some fuel. -/
abbrev ReturnsQuiet {α : Type} (p : Quiet α) (env : Env) (a : α) (env' : Env) : Prop :=
  p.Returns w.quietHandler env a env'

theorem increasing : Handler.Increasing w.handler := Calls.increasing

theorem increasing_quiet : Handler.Increasing w.quietHandler :=
  fun m n hmn β e ↦ w.increasing m n hmn β (liftOp β e)

end World

variable {w} {α β : Type} {env env' : Env}

theorem returns_lift_iff {p : Quiet α} {a : α} :
    w.Returns (p : Comp α) env a env' ↔ w.ReturnsQuiet p env a env' := by
  simp only [Prog.Returns, World.run_quiet]

theorem returns_bind_iff {p : Comp α} {f : α → Comp β} {b : β} :
    w.Returns (p >>= f) env b env' ↔
      ∃ a env₁, w.Returns p env a env₁ ∧ w.Returns (f a) env₁ b env' :=
  Prog.returns_bind_iff w.increasing

theorem returnsQuiet_bind_iff {p : Quiet α} {f : α → Quiet β} {b : β} :
    w.ReturnsQuiet (p >>= f) env b env' ↔
      ∃ a env₁, w.ReturnsQuiet p env a env₁ ∧ w.ReturnsQuiet (f a) env₁ b env' :=
  Prog.returns_bind_iff w.increasing_quiet

theorem returns_forM_cons_iff {γ : Type} {f : γ → Comp Unit} {c : γ} {cs : List γ} :
    w.Returns ((c :: cs).forM f) env () env' ↔
      ∃ env₁, w.Returns (f c) env () env₁ ∧ w.Returns (cs.forM f) env₁ () env' :=
  Prog.returns_forM_cons_iff w.increasing

theorem returnsQuiet_forM_cons_iff {γ : Type} {f : γ → Quiet Unit} {c : γ} {cs : List γ} :
    w.ReturnsQuiet ((c :: cs).forM f) env () env' ↔
      ∃ env₁, w.ReturnsQuiet (f c) env () env₁ ∧ w.ReturnsQuiet (cs.forM f) env₁ () env' :=
  Prog.returns_forM_cons_iff w.increasing_quiet

theorem returns_forM_singleton_iff {γ : Type} {f : γ → Comp Unit} {c : γ} :
    w.Returns ([c].forM f) env () env' ↔ w.Returns (f c) env () env' :=
  Prog.returns_forM_singleton_iff w.increasing

theorem returnsQuiet_forM_singleton_iff {γ : Type} {f : γ → Quiet Unit} {c : γ} :
    w.ReturnsQuiet ([c].forM f) env () env' ↔ w.ReturnsQuiet (f c) env () env' :=
  Prog.returns_forM_singleton_iff w.increasing_quiet

/-! ### Operations and calls -/

theorem returnsQuiet_perform_iff {o : EnvPrim α} {a : α} :
    w.ReturnsQuiet (perform o) env a env' ↔ o.handle w.factsDb env = .ok (a, env') := by
  refine Prog.returns_perform_iff.trans ?_
  have hprim : ∀ n, w.quietHandler n α (.prim (.prim o)) env = o.handle w.factsDb env := by
    intro n
    cases n <;> rfl
  simp only [hprim, exists_const]

theorem returnsQuiet_read_iff {f : EnvField α} {a : α} :
    w.ReturnsQuiet (read f) env a env' ↔ a = f.get env ∧ env' = env := by
  refine Prog.returns_perform_iff.trans ?_
  have hread : ∀ n, w.quietHandler n α (.prim (.read f)) env = .ok (f.get env, env) := by
    intro n
    cases n <;> rfl
  simp only [hread, exists_const, Except.ok.injEq, Prod.mk.injEq]
  exact and_congr eq_comm eq_comm

theorem returnsQuiet_call_iff {c : Call α} {a : α} :
    w.ReturnsQuiet (call c) env a env' ↔ w.Returns (callBody w α c) env a env' := by
  refine Prog.returns_perform_iff.trans ?_
  constructor
  · rintro ⟨_ | n, hn⟩
    · cases hn
    · exact ⟨n, hn⟩
  · rintro ⟨n, hn⟩
    exact ⟨n + 1, hn⟩

theorem returns_onFrame_iff {o : FrameOp α} {a : α} :
    w.Returns (onFrame o) env a env' ↔ o.handle env = (a, env') := by
  refine Prog.returns_perform_iff.trans ?_
  have hframe : ∀ n, w.handler n α (.prim (.frame o)) env = .ok (o.handle env) := by
    intro n
    cases n <;> rfl
  simp only [hframe, exists_const, Except.ok.injEq]

theorem returns_onOwn_iff {o : OwnOp α} {a : α} :
    w.Returns (onOwn o) env a env' ↔ o.handle env = .ok (a, env') := by
  refine Prog.returns_perform_iff.trans ?_
  have hown : ∀ n, w.handler n α (.prim (.own o)) env = o.handle env := by
    intro n
    cases n <;> rfl
  simp only [hown, exists_const]

/-- There is nothing to flush behind the end of the queue. -/
theorem returns_flushDeferred {cursor : ℕ} (h : env.deferredDefines.length ≤ cursor) :
    w.Returns (flushDeferred cursor) env () env := by
  refine ⟨1, (Prog.run_perform _ _ _).trans ?_⟩
  change (flushDeferredBody w cursor).run (w.handler 0) env = _
  rw [flushDeferredBody, Prog.run_bind]
  change (if cursor < env.deferredDefines.length then _ else pure () :
    Comp Unit).run (w.handler 0) env = _
  rw [if_neg h.not_gt]
  rfl

/-- A mark adds its key to those of its table. -/
theorem Env.mem_marks_mark {t : MarkTable} {key key' : String} :
    key' ∈ (env.mark t key).marks t ↔ key' = key ∨ key' ∈ env.marks t := by
  simp only [Env.mark, if_true]
  split_ifs with hmem
  · refine ⟨.inr, fun h ↦ h.elim (fun heq ↦ ?_) id⟩
    rw [heq]
    simpa using hmem
  · exact List.mem_cons

/-! ### Files that are read -/

/-- Nothing but messages, their counts and the record of the files that were read differs. -/
def Env.OnlyReads (env env' : Env) : Prop :=
  ∃ parsed ds errors warnings failed,
    env' = { env with
      parsedManifests := parsed
      diagnostics := env.diagnostics ++ ds
      errorsCount := errors
      warningsCount := warnings
      currentNodeFailed := failed }

theorem Env.OnlyReads.refl (env : Env) : env.OnlyReads env :=
  ⟨_, [], _, _, _, by rw [List.append_nil]⟩

theorem Env.OnlyReads.trans {env₁ : Env} (h : env.OnlyReads env₁) (h' : env₁.OnlyReads env') :
    env.OnlyReads env' := by
  obtain ⟨parsed, ds, errors, warnings, failed, rfl⟩ := h
  obtain ⟨parsed', ds', errors', warnings', failed', rfl⟩ := h'
  exact ⟨parsed', ds ++ ds', errors', warnings', failed', by rw [List.append_assoc]⟩

theorem Env.onlyReads_emit (env : Env) (d : Diagnostic) : env.OnlyReads (env.emit d) := by
  unfold Env.emit
  cases d.severity <;> exact ⟨_, [d], _, _, _, rfl⟩

theorem exists_returnsQuiet_forM_emit (env : Env) (ds : List Diagnostic) :
    ∃ env', w.ReturnsQuiet (ds.forM fun d ↦ perform (.emit d)) env () env' ∧
      env.OnlyReads env' := by
  induction ds generalizing env with
  | nil => exact ⟨env, Prog.returns_pure_iff.2 ⟨rfl, rfl⟩, .refl env⟩
  | cons d ds ih =>
    obtain ⟨env', hret, hreads⟩ := ih (env.emit d)
    exact ⟨env', returnsQuiet_forM_cons_iff.2 ⟨_, returnsQuiet_perform_iff.2 rfl, hret⟩,
      (env.onlyReads_emit d).trans hreads⟩

/-- A file is read at most once. -/
theorem exists_returnsQuiet_loadManifest (loader : Loader) (path : String) (env : Env) :
    ∃ env', w.ReturnsQuiet (loadManifest loader path) env (loader.parseFile path) env' ∧
      env.OnlyReads env' := by
  simp only [loadManifest, returnsQuiet_bind_iff]
  have hparsed : w.ReturnsQuiet (perform (.isParsed path)) env (env.parsedManifests.contains path)
      env := returnsQuiet_perform_iff.2 rfl
  cases hread : env.parsedManifests.contains path with
  | true =>
    rw [hread] at hparsed
    exact ⟨env, ⟨_, env, hparsed, Prog.returns_pure_iff.2 ⟨rfl, rfl⟩⟩, .refl env⟩
  | false =>
    rw [hread] at hparsed
    cases loader.parseFile path with
    | none =>
      exact ⟨_, ⟨_, env, hparsed, returnsQuiet_bind_iff.2 ⟨(), _, returnsQuiet_perform_iff.2 rfl,
        Prog.returns_pure_iff.2 ⟨rfl, rfl⟩⟩⟩, env.onlyReads_emit _⟩
    | some stmts =>
      let env₁ : Env := { env with parsedManifests := env.parsedManifests ++ [path] }
      have hrecord : w.ReturnsQuiet (perform (.recordParsed path)) env () env₁ :=
        returnsQuiet_perform_iff.2 rfl
      have hreads : env.OnlyReads env₁ := ⟨_, [], _, _, _, by rw [List.append_nil]⟩
      cases loader.isEntrySite path with
      | true =>
        refine ⟨env₁, ⟨_, env, hparsed, returnsQuiet_bind_iff.2 ⟨(), env₁, hrecord, ?_⟩⟩, hreads⟩
        exact Prog.returns_pure_iff.2 ⟨rfl, rfl⟩
      | false =>
        obtain ⟨env', hlint, hreads'⟩ :=
          exists_returnsQuiet_forM_emit (w := w) env₁ (loader.lintLegacyFacts stmts)
        refine ⟨env', ⟨_, env, hparsed, returnsQuiet_bind_iff.2 ⟨(), env₁, hrecord, ?_⟩⟩,
          hreads.trans hreads'⟩
        exact returnsQuiet_bind_iff.2 ⟨(), env', hlint, Prog.returns_pure_iff.2 ⟨rfl, rfl⟩⟩

/-- A defined type is looked for in its file. -/
theorem exists_returnsQuiet_loadDefine (loader : Loader) (defineName : String) (env : Env) :
    ∃ env', w.ReturnsQuiet (loadDefine loader defineName) env
        (((loader.resolveClassPath defineName).bind loader.parseFile).bind firstDefine) env' ∧
      env.OnlyReads env' := by
  unfold loadDefine
  cases loader.resolveClassPath defineName with
  | none => exact ⟨env, Prog.returns_pure_iff.2 ⟨rfl, rfl⟩, .refl env⟩
  | some path =>
    obtain ⟨env', hret, hreads⟩ := exists_returnsQuiet_loadManifest (w := w) loader path env
    refine ⟨env', returnsQuiet_bind_iff.2 ⟨_, env', hret, ?_⟩, hreads⟩
    rw [Option.bind_some]
    cases loader.parseFile path <;> exact Prog.returns_pure_iff.2 ⟨rfl, rfl⟩

/-! ### Literals -/

theorem returnsQuiet_literal_iff {v u : Value} :
    w.ReturnsQuiet (evalExpr (.value v)) env u env' ↔ u = literalValue v ∧ env' = env := by
  rw [evalExpr, returnsQuiet_call_iff]
  exact Prog.returns_pure_iff

/-- A string literal. -/
def textExpr (s : String) : Expr := .value (.string s)

theorem returnsQuiet_textExpr_iff {s : String} {u : Value} :
    w.ReturnsQuiet (evalExpr (textExpr s)) env u env' ↔ u = .string s ∧ env' = env :=
  returnsQuiet_literal_iff

theorem returnsQuiet_evalAll_textExpr_iff {ss : List String} {vs : List Value} :
    w.ReturnsQuiet (evalAll (ss.map textExpr)) env vs env' ↔ vs = ss.map .string ∧ env' = env := by
  induction ss generalizing vs with
  | nil => exact Prog.returns_pure_iff
  | cons s ss ih =>
    rw [List.map_cons, evalAll]
    simp only [returnsQuiet_bind_iff, returnsQuiet_textExpr_iff, Prog.returns_pure_iff]
    simp [ih, and_comm]

/-- An array of string literals. -/
theorem returnsQuiet_textArray_iff {ss : List String} {u : Value} :
    w.ReturnsQuiet (evalExpr (.array (ss.map textExpr))) env u env' ↔
      u = .array (ss.map .string) ∧ env' = env := by
  rw [evalExpr, returnsQuiet_call_iff]
  change w.Returns (liftM (evalAll (ss.map textExpr)) >>= fun vs ↦
    pure (.array (Value.copyList vs))) env u env' ↔ _
  have hcopy : Value.copyList (ss.map Value.string) = ss.map Value.string := by
    induction ss with
    | nil => rfl
    | cons s ss ih =>
      rw [List.map_cons, Value.copyList, ih]
      rfl
  simp only [returns_bind_iff, returns_lift_iff, returnsQuiet_evalAll_textExpr_iff,
    Prog.returns_pure_iff]
  simp [hcopy]

end World

end PuppetC
