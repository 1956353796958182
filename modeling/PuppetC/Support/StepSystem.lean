import Mathlib.Data.Nat.Notation
import Mathlib.Tactic.Common

/-!
# Systems that move by labelled steps

A `StepSystem` moves from state to state by steps that carry a label; a step whose label is not
possible in a state is `none`. Interleavings of several parties are runs of one system whose
labels name the party that moves.

A property of single steps (`P s a`, of a state and the label of the step taken from it) is
followed along a run by `StepSystem.Along`. The rule of invariants is `StepSystem.Along.invariant`:
what a step that meets `P` preserves holds at the end of every run whose steps all meet `P`.

## Main definitions

* `StepSystem`, `StepSystem.run`: the system and its runs.
* `StepSystem.Along`: every step of a run meets a condition.
* `StepSystem.Visits`: a state that a run goes through.

## Main results

* `StepSystem.Along.invariant`: the rule of invariants.
* `StepSystem.along_congr`: conditions that agree on steps agree on runs.
* `StepSystem.greatest_of_run`: what every step raises to a measure of the new state is the
  greatest measure of a run.
-/

namespace PuppetC

/-- A system that moves by labelled steps; `none` is a step that is not possible. -/
structure StepSystem (S L : Type*) where
  step : S → L → Option S

namespace StepSystem

variable {S L : Type*} (M : StepSystem S L)

/-- The state after steps with the given labels. -/
def run : S → List L → Option S
  | s, [] => some s
  | s, a :: as => (M.step s a).bind (run · as)

/-- Every step of the run with the given labels meets `P`. -/
def Along (P : S → L → Prop) : S → List L → Prop
  | _, [] => True
  | s, a :: as => P s a ∧ ∀ s', M.step s a = some s' → Along P s' as

variable {M} {P Q : S → L → Prop} {s s' : S} {a : L} {as bs : List L}

@[simp] theorem run_nil : M.run s [] = some s := rfl

theorem run_cons : M.run s (a :: as) = (M.step s a).bind (M.run · as) := rfl

theorem run_append : M.run s (as ++ bs) = (M.run s as).bind (M.run · bs) := by
  induction as generalizing s with
  | nil => rfl
  | cons a as ih =>
    rw [List.cons_append, run_cons, run_cons, Option.bind_assoc]
    exact congrArg _ (funext fun t ↦ ih)

@[simp] theorem along_nil : M.Along P s [] := trivial

theorem along_cons :
    M.Along P s (a :: as) ↔ P s a ∧ ∀ s', M.step s a = some s' → M.Along P s' as :=
  Iff.rfl

theorem along_cons_of_step (h : M.step s a = some s') :
    M.Along P s (a :: as) ↔ P s a ∧ M.Along P s' as := by
  simp [along_cons, h]

theorem along_append_iff : M.Along P s (as ++ bs) ↔
    M.Along P s as ∧ ∀ s', M.run s as = some s' → M.Along P s' bs := by
  induction as generalizing s with
  | nil => simp
  | cons a as ih =>
    rw [List.cons_append, along_cons, along_cons, and_assoc]
    refine and_congr_right fun _ ↦ ⟨fun h ↦ ⟨fun t ht ↦ (ih.1 (h t ht)).1, fun s' hs' ↦ ?_⟩,
      fun h t ht ↦ ih.2 ⟨h.1 t ht, fun s' hs' ↦ h.2 s' ?_⟩⟩
    · obtain ⟨t, ht, hrun⟩ := Option.bind_eq_some_iff.1 hs'
      exact (ih.1 (h t ht)).2 s' hrun
    · rw [run_cons, ht, Option.bind_some, hs']

theorem along_congr (h : ∀ s a, P s a ↔ Q s a) : M.Along P s as ↔ M.Along Q s as := by
  induction as generalizing s with
  | nil => rfl
  | cons a as ih => exact and_congr (h s a) (forall_congr' fun t ↦ imp_congr_right fun _ ↦ ih)

/-- A condition that all steps with the given labels meet from any state. -/
theorem along_of_forall_mem (h : ∀ a ∈ as, ∀ s, P s a) : M.Along P s as := by
  induction as generalizing s with
  | nil => trivial
  | cons a as ih =>
    exact ⟨h a List.mem_cons_self s, fun t _ ↦ ih fun b hb ↦ h b (List.mem_cons_of_mem a hb)⟩

/-- **Rule of invariants.** What every step that meets `P` preserves holds at the end of a run
whose steps all meet `P`. -/
theorem Along.invariant {Inv : S → Prop}
    (hstep : ∀ s a s', Inv s → P s a → M.step s a = some s' → Inv s')
    (h : M.Along P s as) (hs : Inv s) (hrun : M.run s as = some s') : Inv s' := by
  induction as generalizing s with
  | nil => exact Option.some.inj hrun ▸ hs
  | cons a as ih =>
    obtain ⟨t, ht, hrest⟩ := Option.bind_eq_some_iff.1 hrun
    exact ih (h.2 t ht) (hstep s a t hs h.1 ht) hrest

/-- A run goes through a state, at its start, at its end or in between. -/
def Visits (M : StepSystem S L) (s : S) (as : List L) (u : S) : Prop :=
  ∃ bs, bs <+: as ∧ M.run s bs = some u

theorem visits_cons {u : S} (h : M.step s a = some s') :
    M.Visits s (a :: as) u ↔ u = s ∨ M.Visits s' as u := by
  constructor
  · rintro ⟨bs, hbs, hrun⟩
    cases bs with
    | nil => exact .inl (Option.some.inj hrun).symm
    | cons b bs =>
      obtain ⟨rfl, hrest⟩ := List.cons_prefix_cons.1 hbs
      rw [run_cons, h] at hrun
      exact .inr ⟨bs, hrest, hrun⟩
  · rintro (rfl | ⟨bs, hbs, hrun⟩)
    · exact ⟨[], List.nil_prefix, rfl⟩
    · refine ⟨a :: bs, List.cons_prefix_cons.2 ⟨rfl, hbs⟩, ?_⟩
      rw [run_cons, h]
      exact hrun

/-- **Running maximum.** If every step raises `p` to the measure `f` of the state it leads to, where
that is greater, then `p` is at the end of a run the greatest measure of its states. -/
theorem greatest_of_run {I : S → Prop} {p f : S → ℕ}
    (hstep : ∀ s a s', I s → M.step s a = some s' →
      I s' ∧ p s' = if p s < f s' then f s' else p s)
    (hs : I s) (hp : f s ≤ p s) (hrun : M.run s as = some s') :
    (∀ u, M.Visits s as u → f u ≤ p s') ∧ p s ≤ p s' ∧
      (p s' = p s ∨ ∃ u, M.Visits s as u ∧ f u = p s') := by
  induction as generalizing s with
  | nil =>
    obtain rfl := Option.some.inj hrun
    refine ⟨?_, Nat.le_refl _, .inl rfl⟩
    rintro u ⟨bs, hbs, hu⟩
    obtain rfl := List.prefix_nil.1 hbs
    obtain rfl := Option.some.inj hu
    exact hp
  | cons a as ih =>
    obtain ⟨t, ht, hrest⟩ := Option.bind_eq_some_iff.1 hrun
    obtain ⟨hinv, hmax⟩ := hstep s a t hs ht
    have hft : f t ≤ p t := by split at hmax <;> omega
    have hst : p s ≤ p t := by split at hmax <;> omega
    obtain ⟨hall, hle, hreached⟩ := ih hinv hft hrest
    refine ⟨fun u hu ↦ ?_, Nat.le_trans hst hle, ?_⟩
    · obtain rfl | hu := (visits_cons ht).1 hu
      · exact Nat.le_trans hp (Nat.le_trans hst hle)
      · exact hall u hu
    · obtain hsame | ⟨u, hu, hfu⟩ := hreached
      · rcases Nat.lt_or_ge (p s) (f t) with hlt | hge
        · refine .inr ⟨t, (visits_cons ht).2 (.inr ⟨[], List.nil_prefix, rfl⟩), ?_⟩
          rw [hsame, hmax, if_pos hlt]
        · exact .inl (hsame.trans (hmax.trans (if_neg (Nat.not_lt.2 hge))))
      · exact .inr ⟨u, (visits_cons ht).2 (.inr hu), hfu⟩

end StepSystem

end PuppetC
