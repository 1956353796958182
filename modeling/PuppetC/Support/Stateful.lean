import Mathlib.Order.Basic

/-!
# Computations that fail and keep their state

A computation over a state returns or fails, and leaves a state either way: what a function of a
program does that reports an error by its result and works on a record of its caller. Where a
computation leads to, from a state, is a relation between its outcome and the state it leaves,
which is followed through the parts of the computation one after the other.

## Main definitions

* `Stateful`: a computation that returns or fails, and leaves a state either way.
* `Stateful.attempt`: a computation whose outcome is given.
* `Stateful.Leads`: what is met by the outcome and the state that a computation leaves.
* `Stateful.andFinally`, `Stateful.onError`: a step after a computation, however it ends, and one
  for when it fails.

## Main results

* `Stateful.Leads.bind`: where two computations lead to, one after the other.
-/

namespace PuppetC

/-- A computation that returns or fails, and leaves a state either way. -/
abbrev Stateful (σ ε α : Type) : Type := ExceptT ε (StateM σ) α

namespace Stateful

variable {σ ε α β : Type}

/-- The outcome of a computation from a state and the state that it leaves. -/
def outcome (x : Stateful σ ε α) (s : σ) : Except ε α × σ := x.run.run s

/-- A computation whose outcome is given, and that leaves the state as it is. -/
def attempt (r : Except ε α) : Stateful σ ε α := ExceptT.mk fun s ↦ (r, s)

/-- A step on the state after a computation, however it ends. -/
def andFinally (x : Stateful σ ε α) (g : σ → σ) : Stateful σ ε α :=
  ExceptT.mk fun s ↦ let (r, s') := x.outcome s; (r, g s')

/-- A step on the state after a computation that fails. -/
def onError (x : Stateful σ ε α) (g : ε → σ → σ) : Stateful σ ε α :=
  ExceptT.mk fun s ↦
    match x.outcome s with
    | (.ok a, s') => (.ok a, s')
    | (.error e, s') => (.error e, g e s')

/-- The outcome of a computation from a state and the state that it leaves meet a condition. -/
def Leads (x : Stateful σ ε α) (s : σ) (Q : Except ε α → σ → Prop) : Prop :=
  Q (x.outcome s).1 (x.outcome s).2

variable {x : Stateful σ ε α} {f : α → Stateful σ ε β} {s : σ}

theorem leads_attempt {r : Except ε α} {Q : Except ε α → σ → Prop} :
    (attempt r : Stateful σ ε α).Leads s Q ↔ Q r s := Iff.rfl

/-- A computation after one whose outcome is given. -/
theorem leads_attempt_bind {r : Except ε α} {Q : Except ε β → σ → Prop} :
    (attempt r >>= f).Leads s Q ↔
      match r with
      | .ok a => (f a).Leads s Q
      | .error e => Q (.error e) s := by
  cases r <;> exact Iff.rfl

theorem leads_get_bind {f : σ → Stateful σ ε β} {Q : Except ε β → σ → Prop} :
    (get >>= f).Leads s Q ↔ (f s).Leads s Q := Iff.rfl

theorem leads_modify_bind {g : σ → σ} {y : Stateful σ ε β} {Q : Except ε β → σ → Prop} :
    (modify g >>= fun _ ↦ y).Leads s Q ↔ y.Leads (g s) Q := Iff.rfl

theorem leads_set_bind {s' : σ} {y : Stateful σ ε β} {Q : Except ε β → σ → Prop} :
    (set s' >>= fun _ ↦ y).Leads s Q ↔ y.Leads s' Q := Iff.rfl

theorem leads_andFinally {g : σ → σ} {Q : Except ε α → σ → Prop} :
    (x.andFinally g).Leads s Q ↔ x.Leads s fun r s' ↦ Q r (g s') := Iff.rfl

theorem Leads.mono {P Q : Except ε α → σ → Prop} (h : x.Leads s P)
    (hPQ : ∀ r s', P r s' → Q r s') : x.Leads s Q := hPQ _ _ h

/-- Where a computation leads to that fails only with another step on the state. -/
theorem Leads.onError {g : ε → σ → σ} {P Q : Except ε α → σ → Prop} (h : x.Leads s P)
    (hok : ∀ a s', P (.ok a) s' → Q (.ok a) s')
    (herror : ∀ e s', P (.error e) s' → Q (.error e) (g e s')) : (x.onError g).Leads s Q := by
  unfold Leads at h
  unfold Leads outcome Stateful.onError
  cases hx : x.outcome s with
  | mk r s' =>
    rw [hx] at h
    cases r with
    | ok a => simpa only [ExceptT.run, ExceptT.mk, StateT.run, hx] using hok a s' h
    | error e => simpa only [ExceptT.run, ExceptT.mk, StateT.run, hx] using herror e s' h

/-- Where two computations lead to, one after the other: to where the second leads from what the
first leaves, or to where the first fails. -/
theorem Leads.bind {P : Except ε α → σ → Prop} {Q : Except ε β → σ → Prop} (h : x.Leads s P)
    (hok : ∀ a s', P (.ok a) s' → (f a).Leads s' Q)
    (herror : ∀ e s', P (.error e) s' → Q (.error e) s') : (x >>= f).Leads s Q := by
  have hrun : (x >>= f).outcome s =
      match x.outcome s with
      | (.ok a, s') => (f a).outcome s'
      | (.error e, s') => (.error e, s') := by
    change ExceptT.bindCont f (x.outcome s).1 (x.outcome s).2 = _
    cases hx : x.outcome s with
    | mk r s' => cases r <;> rfl
  unfold Leads at h ⊢
  rw [hrun]
  cases hx : x.outcome s with
  | mk r s' =>
    rw [hx] at h
    cases r with
    | ok a => exact hok a s' h
    | error e => exact herror e s' h

end Stateful

end PuppetC
