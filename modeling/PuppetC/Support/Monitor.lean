import PuppetC.Support.Program

/-!
# Monitored runs

A monitor follows a run with a state of its own, which no operation sees, and says after each
operation whether it was bad. A monitored run stops at the first bad operation; as long as there is
none, it is the run without the monitor.

Two monitored runs agree when the runs agree and the monitors say the same, and two monitors of one
run agree when they say the same as long as an invariant holds.

## Main definitions

* `Monitor`, `Handler.monitor`: a monitor, and the meaning of operations under it.
* `Prog.Violates`: at some fuel a run stops at a bad operation.

## Main results

* `Calls.erases`: without a bad operation the monitor changes nothing.
* `Handler.Agree.monitor`, `Handler.agree_monitor_of_invariant`: agreement of monitored runs.
* `Prog.violates_congr`: runs that agree violate alike.
-/

namespace PuppetC

/-- What follows a run, with a state `γ`. Both functions are given the operation, the states before
and after it, and the state of the monitor before it. -/
structure Monitor (E : Type → Type) (σ γ : Type) where
  follow : (β : Type) → E β → σ → γ → σ → γ
  bad : (β : Type) → E β → σ → γ → σ → Bool

variable {E : Type → Type} {σ τ γ ε α : Type}

namespace Handler

/-- The meaning of operations under a monitor; a bad operation fails with `none`. -/
def monitor (h : Handler E σ ε) (m : Monitor E σ γ) : Handler E (σ × γ) (Option ε) :=
  fun β e s ↦
    match h β e s.1 with
    | .error x => .error (some x)
    | .ok r =>
      if m.bad β e s.1 s.2 r.2 then .error none
      else .ok (r.1, (r.2, m.follow β e s.1 s.2 r.2))

/-- Monitored runs agree when the runs do and the monitors say the same in related states. -/
theorem Agree.monitor {h : Handler E σ ε} {h' : Handler E τ ε} {R : σ → τ → Prop}
    (hR : h.Agree h' R) {m : Monitor E σ γ} {m' : Monitor E τ γ}
    (hm : ∀ β (e : E β) s s' t t' g, R s t → R s' t' →
      m.bad β e s g s' = m'.bad β e t g t' ∧ m.follow β e s g s' = m'.follow β e t g t') :
    (h.monitor m).Agree (h'.monitor m') fun s t ↦ R s.1 t.1 ∧ s.2 = t.2 := by
  rintro β e ⟨s, g⟩ ⟨t, g'⟩ ⟨hst, rfl⟩
  have he := hR β e s t hst
  simp only [Handler.monitor]
  cases hx : h β e s with
  | error x =>
    cases hy : h' β e t with
    | error y =>
      simp only [SameOutcome, hx, hy] at he
      exact congrArg some he
    | ok q => simp [SameOutcome, hx, hy] at he
  | ok r =>
    cases hy : h' β e t with
    | error y => simp [SameOutcome, hx, hy] at he
    | ok q =>
      simp only [SameOutcome, hx, hy] at he
      obtain ⟨hbad, hfollow⟩ := hm β e s r.2 t q.2 g hst he.2
      dsimp only
      rw [hbad, hfollow]
      cases hb : m'.bad β e t g q.2
      · exact ⟨he.1, he.2, rfl⟩
      · rfl

/-- Two monitors of one run agree when they say the same where an invariant holds, which is kept
where they find nothing bad. -/
theorem agree_monitor_of_invariant {h : Handler E σ ε} {m m' : Monitor E σ γ} {I : σ → γ → Prop}
    (hfollow : m.follow = m'.follow)
    (hstep : ∀ β (e : E β) s g b s', I s g → h β e s = .ok (b, s') →
      m.bad β e s g s' = m'.bad β e s g s' ∧
        (m.bad β e s g s' = false → I s' (m.follow β e s g s'))) :
    (h.monitor m).Agree (h.monitor m') fun s t ↦ s = t ∧ I s.1 s.2 := by
  rintro β e ⟨s, g⟩ t ⟨rfl, hI⟩
  simp only [Handler.monitor, ← hfollow]
  cases hx : h β e s with
  | error x => rfl
  | ok r =>
    obtain ⟨hbad, hkeep⟩ := hstep β e s g r.1 r.2 hI hx
    dsimp only
    rw [← hbad]
    cases hb : m.bad β e s g r.2
    · exact ⟨rfl, rfl, hkeep hb⟩
    · rfl

/-- Where nothing bad happens, the one handler does what the other does, beside its monitor. -/
def Erases (H : Handler E (σ × γ) (Option ε)) (h : Handler E σ ε) : Prop :=
  ∀ β (e : E β) s g, H β e (s, g) = .error none ∨
    (H β e (s, g)).map (fun r ↦ (r.1, r.2.1)) = (h β e s).mapError some

theorem monitor_erases (h : Handler E σ ε) (m : Monitor E σ γ) : (h.monitor m).Erases h := by
  intro β e s g
  simp only [Handler.monitor]
  cases h β e s with
  | error x => exact Or.inr rfl
  | ok r =>
    dsimp only
    cases m.bad β e s g r.2
    · exact Or.inr rfl
    · exact Or.inl rfl

theorem Erases.run {H : Handler E (σ × γ) (Option ε)} {h : Handler E σ ε} (hH : H.Erases h)
    (p : Prog E α) (s : σ) (g : γ) : p.run H (s, g) = .error none ∨
      (p.run H (s, g)).map (fun r ↦ (r.1, r.2.1)) = (p.run h s).mapError some := by
  induction p generalizing s g with
  | ret a => exact Or.inr rfl
  | op e k ih =>
    simp only [Prog.run]
    rcases hH _ e s g with he | he
    · exact Or.inl (by rw [he])
    · cases hx : H _ e (s, g) with
      | error x =>
        cases hy : h _ e s with
        | error y =>
          obtain rfl : x = some y := by simpa [hx, hy, Except.map, Except.mapError] using he
          exact Or.inr rfl
        | ok q => simp [hx, hy, Except.map, Except.mapError] at he
      | ok r =>
        cases hy : h _ e s with
        | error y => simp [hx, hy, Except.map, Except.mapError] at he
        | ok q =>
          obtain rfl : (r.1, r.2.1) = q := by simpa [hx, hy, Except.map, Except.mapError] using he
          exact ih r.1 r.2.1 r.2.2

/-- A run without a bad operation returns under the monitor what it returns without. -/
theorem Erases.run_eq_ok {H : Handler E (σ × γ) (Option ε)} {h : Handler E σ ε}
    (hH : H.Erases h) {p : Prog E α} {s s' : σ} {g : γ} {a : α}
    (hgood : p.run H (s, g) ≠ .error none) (hrun : p.run h s = .ok (a, s')) :
    ∃ g', p.run H (s, g) = .ok (a, (s', g')) := by
  have hmap := (hH.run p s g).resolve_left hgood
  rw [hrun] at hmap
  cases hx : p.run H (s, g) with
  | error x => simp [hx, Except.map, Except.mapError] at hmap
  | ok r =>
    rw [hx] at hmap
    obtain ⟨ha, hs⟩ : r.1 = a ∧ r.2.1 = s' := by
      simpa [Except.map, Except.mapError] using hmap
    exact ⟨r.2.2, by rw [← ha, ← hs]⟩

end Handler

/-- Procedures whose operations are monitored do what procedures do without the monitor. -/
theorem Calls.erases {C O : Type → Type} {body : (β : Type) → C β → Prog (Calls C O) β}
    {H : Handler O (σ × γ) (Option ε)} {h : Handler O σ ε} (hH : H.Erases h) (out : ε)
    (fuel : ℕ) : (handler body H (some out) fuel).Erases (handler body h out fuel) := by
  induction fuel with
  | zero =>
    intro β e s g
    cases e with
    | call c => exact Or.inr rfl
    | prim o => exact hH β o s g
  | succ fuel ih =>
    intro β e s g
    cases e with
    | call c => exact ih.run (body β c) s g
    | prim o => exact hH β o s g

namespace Prog

/-- A run stopped at a bad operation. -/
def isViolation : Except (Option ε) α → Bool
  | .error none => true
  | _ => false

theorem eq_of_isViolation {x : Except (Option ε) α} (h : isViolation x = true) :
    x = .error none := by
  cases x with
  | error y => cases y with
    | none => rfl
    | some y => cases h
  | ok r => cases h

/-- At some fuel the run stops at a bad operation. -/
def Violates (hs : ℕ → Handler E σ (Option ε)) (p : Prog E α) (s : σ) : Prop :=
  ∃ n, p.run (hs n) s = .error none

/-- Runs that agree violate alike. -/
theorem violates_congr {hs : ℕ → Handler E σ (Option ε)} {hs' : ℕ → Handler E τ (Option ε)}
    {R : σ → τ → Prop} (hR : ∀ n, (hs n).Agree (hs' n) R) (p : Prog E α) {s : σ} {t : τ}
    (hst : R s t) : p.Violates hs s ↔ p.Violates hs' t := by
  refine exists_congr fun n ↦ ?_
  have hrun := (hR n).run p hst
  cases hx : p.run (hs n) s with
  | ok r =>
    cases hy : p.run (hs' n) t with
    | ok q => simp
    | error y => simp [Handler.SameOutcome, hx, hy] at hrun
  | error x =>
    cases hy : p.run (hs' n) t with
    | ok q => simp [Handler.SameOutcome, hx, hy] at hrun
    | error y =>
      simp only [Handler.SameOutcome, hx, hy] at hrun
      simp only [Except.error.injEq, hrun]

end Prog

end PuppetC
