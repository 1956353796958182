import PuppetC.Support.Program
import Mathlib.Data.Set.Insert
import Mathlib.Tactic.Common

/-!
# The views in which a program ends

A program is described by a set `Q` of final views: what can be seen of the states in which it
returns, where an invariant `I` holds. There are two halves to this. Runs with a given fuel *stay*
in `Q`, and every view of `Q` is *attained* by some run. The first is a statement about runs that
return, the second promises that they do.

Both halves obey the same rules, so a proof by the rules shows them at once.

## Main definitions

* `Prog.StaysIn`, `Prog.Attains`: the halves.
* `FinalViews`: the rules.

## Main results

* `Prog.staysIn_finalViews`, `Prog.attains_finalViews`: both halves obey the rules.
* `FinalViews.forM`: the rule for loops.
* `Calls.staysIn_call_succ`, `Calls.attains_call`: calls of procedures.
-/

namespace PuppetC

variable {E : Type → Type} {σ τ ε α β : Type}

namespace Prog

/-- Replacing operations goes through sequences. -/
theorem translate_bind {F : Type → Type} (f : (β : Type) → E β → F β) (p : Prog E α)
    (g : α → Prog E β) : (p >>= g).translate f = p.translate f >>= fun a ↦ (g a).translate f := by
  change (p.bind g).translate f = (p.translate f).bind fun a ↦ (g a).translate f
  induction p with
  | ret a => rfl
  | op e k ih =>
    simp only [bind, translate]
    exact congrArg _ (funext ih)

/-- Nothing more than the result of a program. -/
theorem bind_pure (p : Prog E α) : p >>= pure = p := by
  change p.bind ret = p
  induction p with
  | ret a => rfl
  | op e k ih => exact congrArg _ (funext ih)

/-- Sequences can be put together in any order. -/
theorem bind_assoc {γ : Type} (p : Prog E α) (f : α → Prog E β) (g : β → Prog E γ) :
    (p >>= f) >>= g = p >>= fun a ↦ f a >>= g := by
  change (p.bind f).bind g = p.bind fun a ↦ (f a).bind g
  induction p with
  | ret a => rfl
  | op e k ih => exact congrArg _ (funext ih)

variable (I : σ → Prop) (view : σ → τ)

/-- Where a program returns, the invariant holds and the view is in `Q`. -/
def StaysIn (h : Handler E σ ε) (p : Prog E α) (Q : Set τ) (s : σ) : Prop :=
  ∀ a s', p.run h s = .ok (a, s') → I s' ∧ view s' ∈ Q

/-- Every view in `Q` is one in which a program returns, and the invariant holds there. -/
def Attains (hs : ℕ → Handler E σ ε) (p : Prog E α) (Q : Set τ) (s : σ) : Prop :=
  ∀ t ∈ Q, ∃ a s', p.Returns hs s a s' ∧ I s' ∧ view s' = t

variable {I view}

theorem StaysIn.mono {h : Handler E σ ε} {p : Prog E α} {Q R : Set τ} {s : σ}
    (hp : p.StaysIn I view h Q s) (hQR : Q ⊆ R) : p.StaysIn I view h R s :=
  fun a s' hrun ↦ (hp a s' hrun).imp_right fun h ↦ hQR h

theorem Attains.mono {hs : ℕ → Handler E σ ε} {p : Prog E α} {Q R : Set τ} {s : σ}
    (hp : p.Attains I view hs Q s) (hRQ : R ⊆ Q) : p.Attains I view hs R s :=
  fun t ht ↦ hp t (hRQ ht)

end Prog

/-- The rules for the final views of programs. -/
structure FinalViews (hs : ℕ → Handler E σ ε) (I : σ → Prop) (view : σ → τ)
    (J : (α : Type) → Prog E α → Set τ → σ → Prop) : Prop where
  ret : ∀ {α : Type} (a : α) {s : σ}, I s → J α (pure a) {view s} s
  bind : ∀ {α β : Type} {p : Prog E α} {f : α → Prog E β} {Q : Set τ} {R : τ → Set τ} {s : σ},
    J α p Q s → (∀ a s', I s' → J β (f a) (R (view s')) s') →
      J β (p >>= f) {t | ∃ u ∈ Q, t ∈ R u} s
  step : ∀ {α β : Type} {p : Prog E α} {f : α → Prog E β} {Q : Set τ} {s s' : σ} {a : α},
    p.Returns hs s a s' → J β (f a) Q s' → J β (p >>= f) Q s

namespace Prog

variable {hs : ℕ → Handler E σ ε} (hinc : Handler.Increasing hs) (I : σ → Prop) (view : σ → τ)
include hinc

/-- Runs with a given fuel obey the rules. -/
theorem staysIn_finalViews (n : ℕ) :
    FinalViews hs I view fun _ p Q s ↦ p.StaysIn I view (hs n) Q s where
  ret a s hs b s' hrun := by
    cases hrun
    exact ⟨hs, rfl⟩
  bind hp hf b s' hrun := by
    obtain ⟨a, s₁, hrun, hrest⟩ := run_bind_eq_ok.1 hrun
    obtain ⟨hI, hview⟩ := hp a s₁ hrun
    exact (hf a s₁ hI b s' hrest).imp_right fun h ↦ ⟨_, hview, h⟩
  step hp hf b s' hrun := by
    obtain ⟨a, s₁, hrun, hrest⟩ := run_bind_eq_ok.1 hrun
    obtain ⟨rfl, rfl⟩ := Returns.unique hinc ⟨n, hrun⟩ hp
    exact hf b s' hrest

/-- Views that are attained obey the rules. -/
theorem attains_finalViews :
    FinalViews hs I view fun _ p Q s ↦ p.Attains I view hs Q s where
  ret a s hs t ht := ⟨a, s, returns_pure_iff.2 ⟨rfl, rfl⟩, hs, ht.symm⟩
  bind hp hf t ht := by
    obtain ⟨u, hu, ht⟩ := ht
    obtain ⟨a, s₁, hret, hI, rfl⟩ := hp u hu
    obtain ⟨b, s', hrest, h⟩ := hf a s₁ hI t ht
    exact ⟨b, s', (returns_bind_iff hinc).2 ⟨a, s₁, hret, hrest⟩, h⟩
  step hp hf t ht := by
    obtain ⟨b, s', hrest, h⟩ := hf t ht
    exact ⟨b, s', (returns_bind_iff hinc).2 ⟨_, _, hp, hrest⟩, h⟩

end Prog

namespace FinalViews

variable {hs : ℕ → Handler E σ ε} {I : σ → Prop} {view : σ → τ}
  {J : (α : Type) → Prog E α → Set τ → σ → Prop} (hJ : FinalViews hs I view J)
include hJ

/-- A program of which one run is known. -/
theorem of_returns {p : Prog E α} {s s' : σ} {a : α} (hp : p.Returns hs s a s') (hs' : I s') :
    J α p {view s'} s := by
  have h := hJ.step hp (hJ.ret a hs')
  rwa [Prog.bind_pure] at h

/-- What follows a program may leave the view alone. -/
theorem bind_leaving {p : Prog E α} {f : α → Prog E β} {Q : Set τ} {s : σ} (hp : J α p Q s)
    (hf : ∀ a s', I s' → ∃ b s'', (f a).Returns hs s' b s'' ∧ I s'' ∧ view s'' = view s') :
    J β (p >>= f) Q s := by
  have h := hJ.bind (f := f) (R := fun u ↦ {u}) hp fun a s' hs' ↦ by
    obtain ⟨b, s'', hret, hI, hview⟩ := hf a s' hs'
    exact hview ▸ hJ.of_returns hret hI
  simpa using h

end FinalViews

/-- The views after a loop over a list, from those after each of its rounds. -/
def loopViews {γ : Type} (V : γ → τ → Set τ) : List γ → τ → Set τ
  | [], t => {t}
  | x :: xs, t => {t' | ∃ u ∈ V x t, t' ∈ loopViews V xs u}

theorem loopViews_append {γ : Type} (V : γ → τ → Set τ) (xs ys : List γ) (t : τ) :
    loopViews V (xs ++ ys) t = {t' | ∃ u ∈ loopViews V xs t, t' ∈ loopViews V ys u} := by
  induction xs generalizing t with
  | nil => simp [loopViews]
  | cons x xs ih =>
    ext t'
    simp only [List.cons_append, loopViews, ih, Set.mem_ofPred_eq]
    grind

/-- A loop whose rounds are loops. -/
theorem loopViews_flatMap {γ δ : Type} (V : δ → τ → Set τ) (g : γ → List δ) (xs : List γ) (t : τ) :
    loopViews (fun x ↦ loopViews V (g x)) xs t = loopViews V (xs.flatMap g) t := by
  induction xs generalizing t with
  | nil => rfl
  | cons x xs ih =>
    rw [List.flatMap_cons, loopViews_append]
    simp only [loopViews, ih]

/-- The rule for loops. -/
theorem FinalViews.forM {hs : ℕ → Handler E σ ε} {I : σ → Prop} {view : σ → τ}
    {J : (α : Type) → Prog E α → Set τ → σ → Prop} (hJ : FinalViews hs I view J) {γ : Type}
    {f : γ → Prog E PUnit} {V : γ → τ → Set τ} {xs : List γ} {s : σ} (hs : I s)
    (hf : ∀ x ∈ xs, ∀ s, I s → J PUnit (f x) (V x (view s)) s) :
    J PUnit (xs.forM f) (loopViews V xs (view s)) s := by
  induction xs generalizing s with
  | nil => exact hJ.ret _ hs
  | cons x xs ih =>
    obtain ⟨hx, hxs⟩ := List.forall_mem_cons.1 hf
    exact hJ.bind (hx s hs) fun _ s' hs' ↦ ih hs' hxs

/-! ### Calls -/

namespace Calls

variable {C O : Type → Type} {body : (β : Type) → C β → Prog (Calls C O) β} {h : Handler O σ ε}
  {out : ε} {I : σ → Prop} {view : σ → τ} {c : C β} {Q : Set τ} {s : σ}

theorem staysIn_call_zero :
    (Prog.perform (.call c)).StaysIn I view (handler body h out 0) Q s := by
  intro a s' hrun
  cases hrun

/-- A call stays where its body stays with less fuel. -/
theorem staysIn_call_succ {n : ℕ} (hbody : (body β c).StaysIn I view (handler body h out n) Q s) :
    (Prog.perform (.call c)).StaysIn I view (handler body h out (n + 1)) Q s := by
  intro a s' hrun
  rw [Prog.run_perform] at hrun
  exact hbody a s' hrun

/-- A call attains what its body attains. -/
theorem attains_call (hbody : (body β c).Attains I view (handler body h out) Q s) :
    (Prog.perform (.call c)).Attains I view (handler body h out) Q s := by
  intro t ht
  obtain ⟨a, s', ⟨n, hrun⟩, hs'⟩ := hbody t ht
  exact ⟨a, s', ⟨n + 1, by rw [Prog.run_perform]; exact hrun⟩, hs'⟩

end Calls

end PuppetC
