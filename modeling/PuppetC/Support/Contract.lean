import PuppetC.Support.Program

/-!
# Programs and relations between states

A relation between the state before and after a run is a contract of a program in two senses: all
runs that return keep to it, or the program returns from every state and keeps to it. For a
reflexive and transitive relation, both pass from the parts of a program to the whole.

## Main definitions

* `Prog.Within`: what returns keeps to the relation.
* `Prog.Settles`: the program returns, and keeps to the relation.

## Main results

* `Prog.Within.bind`, `Prog.Within.forM`, `Prog.Settles.bind`, `Prog.Settles.forM`: composition.
* `Prog.Settles.within`: what settles is within.
-/

namespace PuppetC.Prog

variable {E : Type → Type} {σ ε α β γ : Type} {hs : ℕ → Handler E σ ε} {R R' : σ → σ → Prop}

/-- Every run that returns ends in a state which is related to the first one. -/
def Within (hs : ℕ → Handler E σ ε) (R : σ → σ → Prop) (p : Prog E α) : Prop :=
  ∀ s a s', p.Returns hs s a s' → R s s'

/-- From every state the program returns, in a state which is related to the first one. -/
def Settles (hs : ℕ → Handler E σ ε) (R : σ → σ → Prop) (p : Prog E α) : Prop :=
  ∀ s, ∃ a s', p.Returns hs s a s' ∧ R s s'

namespace Within

theorem mono {p : Prog E α} (hp : p.Within hs R) (h : ∀ s s', R s s' → R' s s') :
    p.Within hs R' :=
  fun s a s' hret ↦ h s s' (hp s a s' hret)

theorem pure [Std.Refl R] (a : α) : (pure a : Prog E α).Within hs R := by
  intro s b s' hret
  obtain ⟨-, rfl⟩ := returns_pure_iff.1 hret
  exact refl_of R s'

theorem bind [IsTrans σ R] (hinc : Handler.Increasing hs) {p : Prog E α} {f : α → Prog E β}
    (hp : p.Within hs R) (hf : ∀ a, (f a).Within hs R) : (p >>= f).Within hs R := by
  intro s b s' hret
  obtain ⟨a, t, hret, hrest⟩ := (returns_bind_iff hinc).1 hret
  exact trans_of R (hp s a t hret) (hf a t b s' hrest)

theorem forM [IsPreorder σ R] (hinc : Handler.Increasing hs) {f : γ → Prog E PUnit}
    {cs : List γ} (hf : ∀ c ∈ cs, (f c).Within hs R) : (cs.forM f).Within hs R := by
  induction cs with
  | nil => exact .pure _
  | cons c cs ih =>
    exact .bind hinc (hf c (List.mem_cons_self ..)) fun _ ↦
      ih fun c' hc' ↦ hf c' (List.mem_cons_of_mem _ hc')

end Within

namespace Settles

theorem mono {p : Prog E α} (hp : p.Settles hs R) (h : ∀ s s', R s s' → R' s s') :
    p.Settles hs R' := by
  intro s
  obtain ⟨a, s', hret, hR⟩ := hp s
  exact ⟨a, s', hret, h s s' hR⟩

theorem pure [Std.Refl R] (a : α) : (pure a : Prog E α).Settles hs R :=
  fun s ↦ ⟨a, s, returns_pure_iff.2 ⟨rfl, rfl⟩, refl_of R s⟩

theorem bind [IsTrans σ R] (hinc : Handler.Increasing hs) {p : Prog E α} {f : α → Prog E β}
    (hp : p.Settles hs R) (hf : ∀ a, (f a).Settles hs R) : (p >>= f).Settles hs R := by
  intro s
  obtain ⟨a, t, hret, hR⟩ := hp s
  obtain ⟨b, s', hret', hR'⟩ := hf a t
  exact ⟨b, s', (returns_bind_iff hinc).2 ⟨a, t, hret, hret'⟩, trans_of R hR hR'⟩

theorem forM [IsPreorder σ R] (hinc : Handler.Increasing hs) {f : γ → Prog E PUnit}
    {cs : List γ} (hf : ∀ c ∈ cs, (f c).Settles hs R) : (cs.forM f).Settles hs R := by
  induction cs with
  | nil => exact .pure _
  | cons c cs ih =>
    exact .bind hinc (hf c (List.mem_cons_self ..)) fun _ ↦
      ih fun c' hc' ↦ hf c' (List.mem_cons_of_mem _ hc')

/-- A program returns in one way at most, so what it returns keeps to its contract. -/
theorem within (hinc : Handler.Increasing hs) {p : Prog E α} (hp : p.Settles hs R) :
    p.Within hs R := by
  intro s a s' hret
  obtain ⟨b, t, hret', hR⟩ := hp s
  obtain ⟨-, rfl⟩ := hret.unique hinc hret'
  exact hR

end Settles

end PuppetC.Prog
