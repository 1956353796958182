import Mathlib.Data.List.DropRight
import PuppetC.Interp.Runs

/-!
# Both operands of `and` and `or` are evaluated

The operands of a binary operator are evaluated one after the other, those of `and` and `or` in a
context that only checks them for truth; the operator is applied to the two values. So an operand
on the right is evaluated whatever the one on the left is.

## Main definitions

* `BinOp.Decides`: the value on the left decides the result.
* `Env.effect`: an environment without the scopes that were destroyed last and without the record
  of the compile.

## Main results

* `returnsQuiet_logical_iff`: how `and` and `or` are evaluated.
* `logical_effect_iff`: when the expression does what its operand on the left does.
-/

namespace PuppetC

/-- The value on the left of `and` or `or` decides the result. -/
def BinOp.Decides (op : BinOp) (left : Value) : Prop :=
  op = .and ∧ left.isTruthy = false ∨ op = .or ∧ left.isTruthy = true

/-- What a program does to the environment. Scopes that were destroyed last are left out, and so
is the record of the compile, which no function reads. -/
def Env.effect (env : Env) : Env :=
  { env with
    scopes := env.scopes.rdropWhile fun c ↦ !c.live
    tickets := 0
    events := []
    listStarts := []
    reads := []
    nodeEvents := [] }

variable {w : World} {α : Type} {env env' : Env}

/-- One level deeper in checks for truth. -/
def Env.enterTruth (env : Env) : Env := { env with inTruthinessCheck := env.inTruthinessCheck + 1 }

/-- One level less deep in checks for truth. -/
def Env.leaveTruth (env : Env) : Env := { env with inTruthinessCheck := env.inTruthinessCheck - 1 }

theorem Env.enterTruth_leaveTruth (env : Env) : env.leaveTruth.enterTruth = env := by
  simp [Env.leaveTruth, Env.enterTruth]

theorem returns_withTruth_iff {p : Comp α} {a : α} :
    w.Returns (withTruth p) env a env' ↔
      ∃ env₁, w.Returns p env.enterTruth a env₁ ∧ env' = env₁.leaveTruth := by
  simp only [withTruth, bracket, returns_bind_iff, returns_onFrame_iff, Prog.returns_pure_iff]
  constructor
  · rintro ⟨_, _, henter, b, env₁, hp, _, _, hleave, rfl, rfl⟩
    cases henter
    cases hleave
    exact ⟨env₁, hp, rfl⟩
  · rintro ⟨env₁, hp, rfl⟩
    exact ⟨(), _, rfl, a, env₁, hp, (), _, rfl, rfl, rfl⟩

/-! ### Evaluation of `and` and `or` -/

variable {op : BinOp} {left right : Expr} {u v : Value}

/-- Both operands are evaluated, one after the other. -/
theorem returnsQuiet_logical_iff (hop : op = .and ∨ op = .or) :
    w.ReturnsQuiet (evalExpr (.binop op left right)) env u env' ↔
      ∃ l r env₁, w.Returns (withTruth (evalExpr left)) env l env₁ ∧
        w.Returns (withTruth (evalExpr right)) env₁ r env' ∧
        u = (evalBinop w.regexec op l r).1 := by
  have hsilent (l r : Value) : (evalBinop w.regexec op l r).2 = [] := by
    rcases hop with rfl | rfl <;> rfl
  have hbody : evalBinopExpr w op left right = (do
      let p ← withTruth (do
        let l ← evalExpr left
        let r ← evalExpr right
        return (l, r) : Quiet (Value × Value))
      applyBinop w op p.1 p.2) := by
    rcases hop with rfl | rfl <;> rfl
  rw [evalExpr, returnsQuiet_call_iff]
  change w.Returns (evalBinopExpr w op left right) env u env' ↔ _
  rw [hbody]
  simp only [returns_bind_iff, returns_withTruth_iff, returns_lift_iff, returnsQuiet_bind_iff,
    Prog.returns_pure_iff, applyBinop, hsilent]
  have hnil {env₁ env₂ : Env} {a : Unit} :
      w.ReturnsQuiet ([].forM fun d ↦ perform (.emit d)) env₁ a env₂ ↔ env₂ = env₁ := by
    refine Prog.returns_pure_iff.trans ?_
    simp
  simp only [hnil]
  constructor
  · rintro ⟨_, _, ⟨_, ⟨l, env₁, hl, r, env₂, hr, rfl, rfl⟩, rfl⟩, _, _, rfl, rfl, rfl⟩
    exact ⟨l, r, _, ⟨env₁, hl, rfl⟩, ⟨_, by rwa [Env.enterTruth_leaveTruth], rfl⟩, rfl⟩
  · rintro ⟨l, r, _, ⟨env₁, hl, rfl⟩, ⟨env₂, hr, rfl⟩, rfl⟩
    rw [Env.enterTruth_leaveTruth] at hr
    exact ⟨_, _, ⟨env₂, ⟨l, env₁, hl, r, env₂, hr, rfl, rfl⟩, rfl⟩, (), _, rfl, rfl, rfl⟩

/-- An expression whose operand on the left decides does what this operand does exactly when the
operand on the right returns and does nothing. -/
theorem logical_effect_iff {env₁ : Env} (hdecides : op.Decides v)
    (hleft : w.Returns (withTruth (evalExpr left)) env v env₁) :
    (∃ u env', w.ReturnsQuiet (evalExpr (.binop op left right)) env u env' ∧
      env'.effect = env₁.effect) ↔
      ∃ r env', w.Returns (withTruth (evalExpr right)) env₁ r env' ∧
        env'.effect = env₁.effect := by
  have hop : op = .and ∨ op = .or := hdecides.imp And.left And.left
  simp only [returnsQuiet_logical_iff hop]
  constructor
  · rintro ⟨u, env', ⟨l, r, env₂, hl, hr, -⟩, heffect⟩
    obtain ⟨rfl, rfl⟩ := hleft.unique w.increasing hl
    exact ⟨r, env', hr, heffect⟩
  · rintro ⟨r, env', hr, heffect⟩
    exact ⟨_, env', ⟨v, r, env₁, hleft, hr, rfl⟩, heffect⟩

/-- `false and true` does nothing, as `false` does. -/
theorem logical_effect_false_true :
    ∃ u env', World.bare.ReturnsQuiet
      (evalExpr (.binop .and (.value (.bool false)) (.value (.bool true)))) Env.create u env' ∧
      env'.effect = Env.create.effect :=
  (logical_effect_iff (w := .bare) (.inl ⟨rfl, rfl⟩) (returns_withTruth_iff.2
    ⟨_, returns_lift_iff.2 (returnsQuiet_literal_iff.2 ⟨rfl, rfl⟩), rfl⟩)).2
    ⟨.bool true, Env.create, returns_withTruth_iff.2
      ⟨_, returns_lift_iff.2 (returnsQuiet_literal_iff.2 ⟨rfl, rfl⟩), rfl⟩, rfl⟩

/-! ### A message from an operand that does not matter -/

/-- `notice('x')`. -/
def noticeX : Expr := .funcall "notice" [textExpr "x"] none

theorem returnsQuiet_noticeX (env : Env) :
    w.ReturnsQuiet (evalExpr noticeX) env .undef (env.emit ⟨.notice, "x"⟩) := by
  rw [evalExpr, returnsQuiet_call_iff]
  change w.Returns (funcLog .notice [textExpr "x"] : Quiet Value) env .undef _
  have hargs : w.ReturnsQuiet (evalAll (["x"].map textExpr)) env (["x"].map .string) env :=
    returnsQuiet_evalAll_textExpr_iff.2 ⟨rfl, rfl⟩
  have hmessage : w.ReturnsQuiet (concatArgsToMessage [textExpr "x"]) env "x" env :=
    returnsQuiet_bind_iff.2 ⟨_, env, hargs, Prog.returns_pure_iff.2 ⟨rfl, rfl⟩⟩
  rw [returns_lift_iff, funcLog]
  refine returnsQuiet_bind_iff.2 ⟨"x", env, hmessage, ?_⟩
  change w.ReturnsQuiet (do emit .notice "x"; return Value.undef) env .undef _
  exact returnsQuiet_bind_iff.2
    ⟨(), _, returnsQuiet_perform_iff.2 rfl, Prog.returns_pure_iff.2 ⟨rfl, rfl⟩⟩

theorem returns_withTruth_noticeX (env : Env) :
    w.Returns (withTruth (evalExpr noticeX)) env .undef (env.emit ⟨.notice, "x"⟩) := by
  refine returns_withTruth_iff.2 ⟨_, returns_lift_iff.2 (returnsQuiet_noticeX _), ?_⟩
  simp [Env.emit, Env.enterTruth, Env.leaveTruth]

/-- `false and notice('x')` prints a message, and `false` alone does nothing. -/
theorem not_logical_effect_noticeX :
    ∃ env', World.bare.ReturnsQuiet
        (evalExpr (.binop .and (.value (.bool false)) noticeX)) Env.create (.bool false) env' ∧
      World.bare.Returns (withTruth (evalExpr (.value (.bool false)))) Env.create (.bool false)
        Env.create ∧
      env'.effect ≠ Env.create.effect := by
  have hleft : World.bare.Returns (withTruth (evalExpr (.value (.bool false)))) Env.create
      (.bool false) Env.create :=
    returns_withTruth_iff.2 ⟨_, returns_lift_iff.2 (returnsQuiet_literal_iff.2 ⟨rfl, rfl⟩), rfl⟩
  refine ⟨Env.create.emit ⟨.notice, "x"⟩, ?_, hleft, fun heq ↦ ?_⟩
  · exact (returnsQuiet_logical_iff (.inl rfl)).2
      ⟨_, _, _, hleft, returns_withTruth_noticeX _, rfl⟩
  · have hdiagnostics := congrArg Env.diagnostics heq
    cases hdiagnostics

end PuppetC
