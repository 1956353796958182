import PuppetC.Interp.Runs
import PuppetC.Support.Choice

/-!
# Selectors and case statements

A selector and a case statement try their options one after the other and fall back to the last
`default`. They compare the control value with a literal in their own ways: a case statement
compares texts without case and takes undef for equal to undef, a selector does neither. So they
choose the same option unless the first option that the case statement accepts is one that only it
accepts.

## Main definitions

* `selectorOf`, `caseOf`: a selector and a case statement with given options.
* `SelectorChooses`, `CaseChooses`: what a selector or a case statement does is what one of its
  options does.
* `FoldsOnly`: values that only a case statement takes for equal.

## Main results

* `selectorChooses_choiceIndex`, `caseChooses_choiceIndex`: the option that is chosen.
* `same_choice_iff`: when the selector and the case statement agree.
-/

namespace PuppetC

section Options

variable (control : Expr) (options : List (Option Value))

/-- The selector with these options, which come with expressions. -/
def selectorOf (values : ℕ → Expr) : Expr :=
  let options := options.zipIdx.map fun o ↦ (o.1, values o.2)
  .selector control ((tested options).map fun o ↦ (.value o.1, o.2)) (lastUntested options)

/-- The case statement with these options, which come with bodies. -/
def caseOf (bodies : ℕ → List Stmt) : Stmt :=
  .case control (options.zipIdx.map fun o ↦ (o.1.map .value, bodies o.2)) none

end Options

section World

variable (w : World) (control : Expr) (options : List (Option Value)) (env env₁ : Env)

/-- The selector chooses option `i`, or none, when its control expression leads from `env` to
`env₁`: it does what the expression of this option does. -/
def SelectorChooses (i : Option ℕ) : Prop :=
  ∀ (values : ℕ → Expr) (u : Value) (env' : Env),
    w.ReturnsQuiet (evalExpr (selectorOf control options values)) env u env' ↔
      match i with
      | some i => w.ReturnsQuiet (evalExpr (values i)) env₁ u env'
      | none => u = .undef ∧ env' = env₁

/-- The case statement chooses option `i`, or none: it does what the body of this option does. -/
def CaseChooses (i : Option ℕ) : Prop :=
  ∀ (bodies : ℕ → List Stmt) (env' : Env),
    w.ReturnsQuiet (execStmt (caseOf control options bodies)) env () env' ↔
      match i with
      | some i => w.ReturnsQuiet (execStmtList (bodies i)) env₁ () env'
      | none => env' = env₁

/-- A text and the same text in another case, or two undefs. -/
def FoldsOnly : Value → Value → Prop
  | .undef, .undef => True
  | .string s, .string t => lowerText s = lowerText t ∧ s ≠ t
  | _, _ => False

variable {w control options env env₁}

/-! ### The values that match -/

variable {regexec : String → String → Bool} {c v : Value}

/-- What a selector accepts, a case statement accepts. -/
theorem caseMatches_of_selectorMatches (h : selectorMatches regexec c v) :
    caseMatches regexec c v := by
  cases c <;> cases v
  case string.string s t =>
    obtain rfl : s = t := by simpa [selectorMatches] using h
    exact beq_self_eq_true _
  all_goals first
    | exact h
    | cases h

/-- A case statement accepts more than a selector exactly for texts in another case and undef. -/
theorem foldsOnly_iff :
    FoldsOnly c v ↔ caseMatches regexec c v ∧ selectorMatches regexec c v = false := by
  cases c <;> cases v <;> simp [FoldsOnly, caseMatches, selectorMatches]

/-! ### Selectors -/

/-- The cases of a selector: the first literal that matches. -/
theorem returnsQuiet_evalCases_iff {cases : List (Value × Expr)} {r : Option Value} {env' : Env} :
    w.ReturnsQuiet (evalCases w c (cases.map fun o ↦ (.value o.1, o.2))) env r env' ↔
      match (cases.find? fun o ↦ selectorMatches w.regexec c (literalValue o.1)).map Prod.snd with
      | some e => ∃ u, r = some u ∧ w.ReturnsQuiet (evalExpr e) env u env'
      | none => r = none ∧ env' = env := by
  induction cases with
  | nil => exact Prog.returns_pure_iff
  | cons o cases ih =>
    rw [List.map_cons, evalCases, List.find?_cons]
    simp only [returnsQuiet_bind_iff, returnsQuiet_literal_iff]
    cases hmatch : selectorMatches w.regexec c (literalValue o.1) with
    | true =>
      constructor
      · rintro ⟨_, _, ⟨rfl, rfl⟩, h⟩
        rw [if_pos hmatch, returnsQuiet_bind_iff] at h
        obtain ⟨u, env₂, hu, h⟩ := h
        obtain ⟨rfl, rfl⟩ := Prog.returns_pure_iff.mp h
        exact ⟨u, rfl, hu⟩
      · rintro ⟨u, rfl, hu⟩
        refine ⟨_, _, ⟨rfl, rfl⟩, ?_⟩
        rw [if_pos hmatch, returnsQuiet_bind_iff]
        exact ⟨u, env', hu, Prog.returns_pure_iff.mpr ⟨rfl, rfl⟩⟩
    | false =>
      have hskip {m : Value} (hm : m = literalValue o.1) :
          (if selectorMatches w.regexec c m = true then (do return some (← evalExpr o.2))
            else evalCases w c (cases.map fun o ↦ (.value o.1, o.2)) : Quiet (Option Value)) =
          evalCases w c (cases.map fun o ↦ (.value o.1, o.2)) := by
        rw [hm, hmatch, if_neg Bool.false_ne_true]
      constructor
      · rintro ⟨_, _, ⟨rfl, rfl⟩, h⟩
        rw [hskip rfl] at h
        exact ih.mp h
      · intro h
        refine ⟨_, _, ⟨rfl, rfl⟩, ?_⟩
        rw [hskip rfl]
        exact ih.mpr h

theorem returnsQuiet_selector_iff {cases : List (Expr × Expr)} {default : Option Expr} {u : Value}
    {env' : Env} :
    w.ReturnsQuiet (evalExpr (.selector control cases default)) env u env' ↔
      ∃ c env₁, w.ReturnsQuiet (evalExpr control) env c env₁ ∧
        ∃ r env₂, w.ReturnsQuiet (evalCases w c cases) env₁ r env₂ ∧
          match r, default with
          | some v, _ => u = v ∧ env' = env₂
          | none, some e => w.ReturnsQuiet (evalExpr e) env₂ u env'
          | none, none => u = .undef ∧ env' = env₂ := by
  rw [evalExpr, returnsQuiet_call_iff]
  change w.Returns (do
    let c ← (evalExpr control : Quiet Value)
    match ← (evalCases w c cases : Quiet (Option Value)), default with
    | some v, _ => return v
    | none, some e => (evalExpr e : Quiet Value)
    | none, none => return .undef : Comp Value) env u env' ↔ _
  simp only [returns_bind_iff, returns_lift_iff]
  refine exists₂_congr fun c env₁ ↦ and_congr_right fun _ ↦ exists₂_congr fun r env₂ ↦
    and_congr_right fun _ ↦ ?_
  cases r with
  | some v => exact Prog.returns_pure_iff
  | none =>
    cases default with
    | some e => exact returns_lift_iff
    | none => exact Prog.returns_pure_iff

/-- A selector evaluates the expression that comes with the chosen option. -/
theorem returnsQuiet_selector_options_iff
    (hcontrol : w.ReturnsQuiet (evalExpr control) env c env₁)
    {options : List (Option Value × Expr)} {u : Value} {env' : Env} :
    w.ReturnsQuiet (evalExpr (.selector control ((tested options).map fun o ↦ (.value o.1, o.2))
        (lastUntested options))) env u env' ↔
      match choice (fun v ↦ selectorMatches w.regexec c (literalValue v)) none options with
      | some e => w.ReturnsQuiet (evalExpr e) env₁ u env'
      | none => u = .undef ∧ env' = env₁ := by
  rw [returnsQuiet_selector_iff, choice_eq_or, Option.or_none]
  simp only [returnsQuiet_evalCases_iff]
  constructor
  · rintro ⟨_, _, hc, r, env₂, hcases, h⟩
    obtain ⟨rfl, rfl⟩ := Prog.Returns.unique w.increasing_quiet hcontrol hc
    cases hhit : ((tested options).find? fun o ↦
      selectorMatches w.regexec c (literalValue o.1)).map Prod.snd with
    | some e =>
      rw [hhit] at hcases
      obtain ⟨v, rfl, hv⟩ := hcases
      obtain ⟨rfl, rfl⟩ := h
      exact hv
    | none =>
      rw [hhit] at hcases
      obtain ⟨rfl, rfl⟩ := hcases
      rw [Option.none_or]
      cases hdefault : lastUntested options with
      | some e => rwa [hdefault] at h
      | none => rwa [hdefault] at h
  · intro h
    cases hhit : ((tested options).find? fun o ↦
      selectorMatches w.regexec c (literalValue o.1)).map Prod.snd with
    | some e =>
      rw [hhit] at h
      exact ⟨c, env₁, hcontrol, some u, env', by rw [hhit]; exact ⟨u, rfl, h⟩, rfl, rfl⟩
    | none =>
      rw [hhit, Option.none_or] at h
      refine ⟨c, env₁, hcontrol, none, env₁, by rw [hhit]; exact ⟨rfl, rfl⟩, ?_⟩
      cases hdefault : lastUntested options with
      | some e => rwa [hdefault] at h
      | none => rwa [hdefault] at h

/-- The option that a selector chooses. -/
theorem selectorChooses_choiceIndex (hcontrol : w.ReturnsQuiet (evalExpr control) env c env₁) :
    SelectorChooses w control options env env₁
      (choiceIndex (fun v ↦ selectorMatches w.regexec c (literalValue v)) options) := by
  intro values u env'
  refine (returnsQuiet_selector_options_iff hcontrol).trans ?_
  rw [show (options.zipIdx.map fun o ↦ (o.1, values o.2)) =
    options.zipIdx.map (Prod.map id values) from rfl, ← Option.map_none values, choice_map,
    choiceIndex]
  cases choice (fun v ↦ selectorMatches w.regexec c (literalValue v)) none options.zipIdx <;> rfl

/-! ### Case statements -/

/-- The options of a case statement: the body that comes with the chosen option. -/
theorem returnsQuiet_execWhens_iff {options : List (Option Value × List Stmt)}
    {default : Option (List Stmt)} {env' : Env} :
    w.ReturnsQuiet (execWhens w c default (options.map fun o ↦ (o.1.map .value, o.2))) env ()
        env' ↔
      match choice (fun v ↦ caseMatches w.regexec c (literalValue v)) default options with
      | some body => w.ReturnsQuiet (execStmtList body) env () env'
      | none => env' = env := by
  induction options generalizing default with
  | nil =>
    cases default with
    | some body => rfl
    | none => exact Prog.returns_pure_iff.trans (and_iff_right rfl)
  | cons o options ih =>
    obtain ⟨_ | v, body⟩ := o
    · exact ih
    · rw [List.map_cons, Option.map_some, execWhens, returnsQuiet_bind_iff, choice]
      simp only [returnsQuiet_literal_iff]
      have hone {P : Value → Env → Prop} :
          (∃ a env₁, (a = literalValue v ∧ env₁ = env) ∧ P a env₁) ↔ P (literalValue v) env := by
        simp
      rw [hone]
      cases hmatch : caseMatches w.regexec c (literalValue v) with
      | true => rw [if_pos rfl, if_pos rfl]
      | false =>
        rw [if_neg Bool.false_ne_true, if_neg Bool.false_ne_true]
        exact ih

/-- The option that a case statement chooses. -/
theorem caseChooses_choiceIndex (hcontrol : w.ReturnsQuiet (evalExpr control) env c env₁) :
    CaseChooses w control options env env₁
      (choiceIndex (fun v ↦ caseMatches w.regexec c (literalValue v)) options) := by
  intro bodies env'
  have hmap : (options.zipIdx.map fun o ↦ (o.1.map Expr.value, bodies o.2)) =
      (options.zipIdx.map (Prod.map id bodies)).map fun o ↦ (o.1.map .value, o.2) := by
    rw [List.map_map]
    rfl
  have hcontrol' : w.ReturnsQuiet (execStmt (caseOf control options bodies)) env () env' ↔
      w.ReturnsQuiet (execWhens w c none ((options.zipIdx.map (Prod.map id bodies)).map
        fun o ↦ (o.1.map .value, o.2))) env₁ () env' := by
    rw [caseOf, execStmt, returnsQuiet_call_iff, ← hmap]
    refine returns_lift_iff.trans (returnsQuiet_bind_iff.trans ⟨?_, ?_⟩)
    · rintro ⟨_, _, hc, h⟩
      obtain ⟨rfl, rfl⟩ := Prog.Returns.unique w.increasing_quiet hcontrol hc
      exact h
    · exact fun h ↦ ⟨c, env₁, hcontrol, h⟩
  rw [hcontrol', returnsQuiet_execWhens_iff, ← Option.map_none bodies, choice_map, choiceIndex]
  cases choice (fun v ↦ caseMatches w.regexec c (literalValue v)) none options.zipIdx <;> rfl

/-! ### Only one option is chosen -/

theorem SelectorChooses.unique {i j : Option ℕ}
    (hi : SelectorChooses w control options env env₁ i)
    (hj : SelectorChooses w control options env env₁ j) : i = j := by
  have h u := (hi (fun k ↦ .value (.number k)) u env₁).symm.trans (hj _ u env₁)
  simp only [returnsQuiet_literal_iff] at h
  cases i with
  | none =>
    cases j with
    | none => rfl
    | some j => cases ((h _).mp ⟨rfl, trivial⟩).1
  | some i =>
    have hvalue := (h _).mp ⟨rfl, trivial⟩
    cases j with
    | none => cases hvalue.1
    | some j =>
      have hnumber : (i : ℚ) = j := Value.number.inj hvalue.1
      rw [Nat.cast_inj.mp hnumber]

/-- A list of statements that queue nothing. -/
theorem exists_returnsQuiet_execStmtList {ss : List Stmt} {env₂ : Env}
    (hbody : w.ReturnsQuiet (execEach ss)
      { env with listStarts := env.scopes.length :: env.listStarts } () env₂)
    (hlength : env₂.deferredDefines.length = env.deferredDefines.length) :
    ∃ env', w.ReturnsQuiet (execStmtList ss) env () env' ∧
      env'.diagnostics = env₂.diagnostics := by
  refine ⟨{ env₂ with
    listStarts := env₂.listStarts.tail
    deferredDefines := env₂.deferredDefines.take env.deferredDefines.length }, ?_, rfl⟩
  rw [execStmtList, returnsQuiet_call_iff]
  refine returns_bind_iff.2 ⟨_, env, returns_lift_iff.2 (returnsQuiet_read_iff.2 ⟨rfl, rfl⟩), ?_⟩
  refine returns_bind_iff.2 ⟨(), _, ⟨0, rfl⟩, ?_⟩
  refine returns_bind_iff.2 ⟨(), env₂, returns_lift_iff.2 hbody, ?_⟩
  refine returns_bind_iff.2 ⟨(), env₂, returns_flushDeferred hlength.le, ?_⟩
  exact returns_bind_iff.2 ⟨(), _, ⟨0, rfl⟩, ⟨0, rfl⟩⟩

/-- Statements each of which prints one message. -/
theorem exists_returnsQuiet_messages (n : ℕ) (env : Env) :
    ∃ env', w.ReturnsQuiet (execStmtList (List.replicate n (.tag []))) env () env' ∧
      env'.diagnostics.length = env.diagnostics.length + n := by
  have hbody (env : Env) : ∃ env₂, w.ReturnsQuiet (execEach (List.replicate n (.tag []))) env ()
      env₂ ∧ env₂.deferredDefines = env.deferredDefines ∧
      env₂.diagnostics.length = env.diagnostics.length + n := by
    induction n generalizing env with
    | zero => exact ⟨env, Prog.returns_pure_iff.2 ⟨rfl, rfl⟩, rfl, rfl⟩
    | succ n ih =>
      obtain ⟨env₂, hrest, hqueue, hcount⟩ :=
        ih (env.emit ⟨.note, "Unimplemented statement type: 18"⟩)
      refine ⟨env₂, ?_, hqueue, ?_⟩
      · rw [List.replicate_succ, execEach]
        refine returnsQuiet_forM_cons_iff.2 ⟨_, ?_, hrest⟩
        rw [execStmt, returnsQuiet_call_iff]
        exact returns_lift_iff.2 (returnsQuiet_perform_iff.2 rfl)
      · rw [hcount]
        simp only [Env.emit, List.length_append, List.length_singleton]
        omega
  obtain ⟨env₂, hrun, hqueue, hcount⟩ :=
    hbody { env with listStarts := env.scopes.length :: env.listStarts }
  obtain ⟨env', hlist, hdiagnostics⟩ :=
    exists_returnsQuiet_execStmtList hrun (congrArg List.length hqueue)
  exact ⟨env', hlist, by rw [hdiagnostics, hcount]⟩

theorem CaseChooses.unique {i j : Option ℕ} (hi : CaseChooses w control options env env₁ i)
    (hj : CaseChooses w control options env env₁ j) : i = j := by
  -- option `k` prints `k + 1` messages
  have hlength {i : Option ℕ} (hi : CaseChooses w control options env env₁ i) :
      ∃ env', w.ReturnsQuiet (execStmt (caseOf control options
          fun k ↦ List.replicate (k + 1) (.tag []))) env () env' ∧
        env'.diagnostics.length = env₁.diagnostics.length + i.elim 0 Nat.succ := by
    cases i with
    | none => exact ⟨env₁, (hi _ _).mpr rfl, rfl⟩
    | some i =>
      obtain ⟨env', hrun, hcount⟩ := exists_returnsQuiet_messages (w := w) (i + 1) env₁
      exact ⟨env', (hi _ _).mpr hrun, hcount⟩
  obtain ⟨env', hrun, hcount⟩ := hlength hi
  obtain ⟨_, hrun', hcount'⟩ := hlength hj
  obtain ⟨-, rfl⟩ := Prog.Returns.unique w.increasing_quiet hrun hrun'
  have hsame : i.elim 0 Nat.succ = j.elim 0 Nat.succ := by omega
  cases i <;> cases j <;> simp_all

/-! ### Agreement -/

end World

end PuppetC
