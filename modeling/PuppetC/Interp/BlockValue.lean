import PuppetC.Interp.Runs

/-!
# The value of a block

A list of statements has a value where it is the body of a function, a value block or the body of a
lambda. The first two look at the kind of the last statement: an expression or a function call gives
the value, any other statement is executed and the value is undef. A lambda looks at the first
field of the last statement instead, and evaluates what it takes for an expression, whatever the
kind of the statement.

## Main definitions

* `BodyKind`, `bodyValue`: the three evaluations of a body.
* `World.HasLastValue`: the value of the last statement of a body.
* `FirstField`, `Stmt.firstField`: what the first field of a statement is.

## Main results

* `execLambdaLast_eq`: a lambda evaluates the first field of its last statement.
* `blocks_have_one_value_iff`: when the three evaluations have the value of the last statement.
-/

namespace PuppetC

/-- The three ways to evaluate a list of statements. -/
inductive BodyKind where
  | function
  | block
  | lambda

/-- The value of a list of statements: as `callUserFunction` evaluates the body of a function, as
a value block, and as the body of a lambda. -/
def bodyValue (ss : List Stmt) : BodyKind → Quiet Value
  | .function => execBlock ss
  | .block => evalExpr (.block ss)
  | .lambda => execLambdaWithResult { params := [], body := some ss, exprBody := none }

/-! ### The first field of a statement -/

/-- What the first field of a statement is, read as a pointer to an expression: missing, an
expression, or something else. -/
inductive FirstField where
  | missing
  | expr (e : Expr)
  | other

/-- The first field of a statement. -/
def Stmt.firstField : Stmt → FirstField
  | .expression e | .functionCall e | .unless e _ _ | .case e _ _
  | .resourceOverride (some e) _ => .expr e
  | .resource decl => if decl.style = .normal then .missing else .other
  | .collector style _ _ => if style = .normal then .missing else .other
  | .resourceOverride none _ | .if [] _ | .include [] | .require [] | .contain [] | .tag [] =>
    .missing
  | _ => .other

/-- A lambda evaluates the first field of its last statement, and executes the statement only if
the field is missing. -/
theorem execLambdaLast_eq (s : Stmt) :
    execLambdaLast s =
      match s.firstField with
      | .missing => do
        execStmt s
        return .undef
      | .expr e => evalExpr e
      | .other => do
        perform .undefined
        return .undef := by
  cases s with
  | resource decl =>
    by_cases h : decl.style = .normal <;> simp only [execLambdaLast, Stmt.firstField, h] <;> rfl
  | collector style =>
    by_cases h : style = .normal <;> simp only [execLambdaLast, Stmt.firstField, h] <;> rfl
  | resourceOverride reference => cases reference <;> rfl
  | «if» branches => cases branches <;> rfl
  | «include» names | require names | contain names | tag names => cases names <;> rfl
  | expression | functionCall | «unless» | case | resourceDefault | classDef | define | node
  | assignment | append | chain | classInstance | «import» | typeAlias | functionDef => rfl

theorem firstField_of_lastValue? {s : Stmt} {e : Expr} (h : s.lastValue? = some e) :
    s.firstField = .expr e := by
  cases s with
  | expression | functionCall => exact congrArg FirstField.expr (Option.some.inj h)
  | resource | collector | resourceOverride | «if» | «include» | require | contain | tag | «unless»
  | case | resourceDefault | classDef | define | node | assignment | append | chain
  | classInstance | «import» | typeAlias | functionDef => cases h

/-! ### Runs of a body -/

section World

variable (w : World)

/-- The value of a statement in last place: that of an expression, and undef for any other
statement that ends. -/
def World.IsLastValue (env : Env) (s : Stmt) (v : Value) : Prop :=
  match s.lastValue? with
  | some e => ∃ env', w.ReturnsQuiet (PuppetC.evalExpr e) env v env'
  | none => v = .undef ∧ ∃ env', w.ReturnsQuiet (PuppetC.execStmt s) env () env'

/-- The value of the last statement of a body, after the statements before it. -/
def World.HasLastValue (env : Env) (init : List Stmt) (s : Stmt) (v : Value) : Prop :=
  ∃ env₁, w.ReturnsQuiet (execEach init) env () env₁ ∧ w.IsLastValue env₁ s v

variable {w} {env env' : Env} {init : List Stmt} {s : Stmt} {v : Value}

theorem execBlock_cons_of_ne_nil {ss : List Stmt} (s : Stmt) (h : ss ≠ []) :
    execBlock (s :: ss) = (do execStmt s; execBlock ss) := by
  obtain ⟨t, ts, rfl⟩ := List.exists_cons_of_ne_nil h
  rfl

theorem execLambdaStmts_cons_of_ne_nil {ss : List Stmt} (s : Stmt) (h : ss ≠ []) :
    execLambdaStmts (s :: ss) = (do execStmt s; execLambdaStmts ss) := by
  obtain ⟨t, ts, rfl⟩ := List.exists_cons_of_ne_nil h
  rfl

/-- An evaluation that takes a body statement by statement executes the statements before the last
one and then evaluates this one. -/
theorem returnsQuiet_append_iff {f : List Stmt → Quiet Value}
    (hf : ∀ s ss, ss ≠ [] → f (s :: ss) = (do execStmt s; f ss)) :
    w.ReturnsQuiet (f (init ++ [s])) env v env' ↔
      ∃ env₁, w.ReturnsQuiet (execEach init) env () env₁ ∧ w.ReturnsQuiet (f [s]) env₁ v env' := by
  induction init generalizing env with
  | nil =>
    simp only [execEach, List.nil_append]
    constructor
    · exact fun h ↦ ⟨env, Prog.returns_forM_nil_iff.2 rfl, h⟩
    · rintro ⟨env₁, hnil, h⟩
      obtain rfl := Prog.returns_forM_nil_iff.1 hnil
      exact h
  | cons t ts ih =>
    rw [List.cons_append, hf _ _ (by simp), returnsQuiet_bind_iff]
    constructor
    · rintro ⟨u, env₁, ht, h⟩
      obtain ⟨env₂, hts, h⟩ := ih.1 h
      exact ⟨env₂, returnsQuiet_forM_cons_iff.2 ⟨env₁, ht, hts⟩, h⟩
    · rintro ⟨env₂, hts, h⟩
      obtain ⟨env₁, ht, hts⟩ := returnsQuiet_forM_cons_iff.1 hts
      exact ⟨(), env₁, ht, ih.2 ⟨env₂, hts, h⟩⟩

theorem isLastValue_iff_execBlock :
    w.IsLastValue env s v ↔ ∃ env', w.ReturnsQuiet (execBlock [s]) env v env' := by
  unfold World.IsLastValue execBlock
  cases s.lastValue? with
  | some e => exact Iff.rfl
  | none =>
    simp only [returnsQuiet_bind_iff, Prog.returns_pure_iff]
    constructor
    · rintro ⟨rfl, env', h⟩
      exact ⟨env', (), env', h, rfl, rfl⟩
    · rintro ⟨env', u, env₁, h, rfl, rfl⟩
      exact ⟨rfl, env', h⟩

/-- The body of a function has the value of its last statement. -/
theorem hasLastValue_iff_function :
    w.HasLastValue env init s v ↔
      ∃ env', w.ReturnsQuiet (bodyValue (init ++ [s]) .function) env v env' := by
  simp only [World.HasLastValue, isLastValue_iff_execBlock, bodyValue,
    returnsQuiet_append_iff fun s _ h ↦ execBlock_cons_of_ne_nil s h]
  constructor
  · rintro ⟨env₁, hinit, env', hlast⟩
    exact ⟨env', env₁, hinit, hlast⟩
  · rintro ⟨env', env₁, hinit, hlast⟩
    exact ⟨env₁, hinit, env', hlast⟩

/-- A value block has the value of its last statement. -/
theorem hasLastValue_iff_block :
    w.HasLastValue env init s v ↔
      ∃ env', w.ReturnsQuiet (bodyValue (init ++ [s]) .block) env v env' := by
  rw [hasLastValue_iff_function]
  refine exists_congr fun env' ↦ ?_
  rw [bodyValue, bodyValue, evalExpr, returnsQuiet_call_iff]
  exact returns_lift_iff.symm

/-- In a lambda the first field of the last statement gives the value. -/
theorem returnsQuiet_lambda_iff :
    w.ReturnsQuiet (bodyValue (init ++ [s]) .lambda) env v env' ↔
      ∃ env₁, w.ReturnsQuiet (execEach init) env () env₁ ∧
        w.ReturnsQuiet (execLambdaLast s) env₁ v env' :=
  returnsQuiet_append_iff (f := execLambdaStmts) fun s _ h ↦ execLambdaStmts_cons_of_ne_nil s h

/-- A lambda reads its last statement rightly: its first field is missing, is the expression that
it is as a statement, or is an expression of another statement that is undef there. -/
def World.ReadsLast (w : World) (env : Env) (s : Stmt) : Prop :=
  match s.firstField with
  | .missing => True
  | .expr e => s.lastValue? = some e ∨ ∃ env', w.ReturnsQuiet (PuppetC.evalExpr e) env .undef env'
  | .other => False

/-- A last statement that has a value has this value in a lambda exactly if the lambda reads it
rightly. -/
theorem execLambdaLast_returns_iff (h : w.IsLastValue env s v) :
    (∃ env', w.ReturnsQuiet (execLambdaLast s) env v env') ↔ w.ReadsLast env s := by
  rw [execLambdaLast_eq, World.ReadsLast]
  cases hlast : s.lastValue? with
  | some e =>
    rw [World.IsLastValue, hlast] at h
    simp only [firstField_of_lastValue? hlast, true_or, iff_true]
    exact h
  | none =>
    rw [World.IsLastValue, hlast] at h
    obtain ⟨rfl, env', hexec⟩ := h
    cases s.firstField with
    | missing =>
      simp only [iff_true]
      exact ⟨env', returnsQuiet_bind_iff.2 ⟨(), env', hexec, Prog.returns_pure_iff.2 ⟨rfl, rfl⟩⟩⟩
    | expr e => simp
    | other =>
      simp only [iff_false, not_exists, returnsQuiet_bind_iff, returnsQuiet_perform_iff]
      rintro env₂ u env₁ ⟨hundefined, -⟩
      cases hundefined

/-- The body of a function, a value block and the body of a lambda have the value of the last
statement exactly if the lambda reads this statement rightly, where the statements come to it and it
ends. -/
theorem blocks_have_one_value_iff (w : World) (env : Env) (init : List Stmt) (s : Stmt) :
    (∀ v, w.HasLastValue env init s v →
      ∀ kind, ∃ env', w.ReturnsQuiet (bodyValue (init ++ [s]) kind) env v env') ↔
    ∀ env₁, w.ReturnsQuiet (execEach init) env () env₁ →
      (∃ v, w.IsLastValue env₁ s v) → w.ReadsLast env₁ s := by
  constructor
  · rintro h env₁ hinit ⟨v, hv⟩
    obtain ⟨env', hlambda⟩ := h v ⟨env₁, hinit, hv⟩ .lambda
    obtain ⟨env₂, hinit', hlast⟩ := returnsQuiet_lambda_iff.1 hlambda
    obtain ⟨-, rfl⟩ := hinit.unique w.increasing_quiet hinit'
    exact (execLambdaLast_returns_iff hv).1 ⟨env', hlast⟩
  · intro h v hv kind
    cases kind with
    | function => exact hasLastValue_iff_function.1 hv
    | block => exact hasLastValue_iff_block.1 hv
    | lambda =>
      obtain ⟨env₁, hinit, hlast⟩ := hv
      obtain ⟨env', hlambda⟩ := (execLambdaLast_returns_iff hlast).2 (h env₁ hinit ⟨v, hlast⟩)
      exact ⟨env', returnsQuiet_lambda_iff.2 ⟨env₁, hinit, hlambda⟩⟩

/-- An `unless` statement whose condition is true, without an `else`, executes nothing. In a lambda
its condition is the value. -/
theorem not_one_value_unless :
    ¬ ∀ (w : World) (env : Env) (init : List Stmt) (s : Stmt) (v : Value),
      w.HasLastValue env init s v →
        ∀ kind, ∃ env', w.ReturnsQuiet (bodyValue (init ++ [s]) kind) env v env' := by
  intro h
  let s : Stmt := .unless (.value (.bool true)) [] none
  have hlast : World.bare.HasLastValue Env.create [] s .undef :=
    ⟨Env.create, Prog.returns_forM_nil_iff.2 rfl, rfl, _, 3, rfl⟩
  obtain ⟨env', hlambda⟩ := h World.bare Env.create [] s .undef hlast .lambda
  obtain ⟨env₁, -, hvalue⟩ := returnsQuiet_lambda_iff.1 hlambda
  cases (returnsQuiet_literal_iff.1 hvalue).1

end World

end PuppetC
