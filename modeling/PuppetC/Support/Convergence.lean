import Mathlib.Data.Option.Basic

/-!
# Stages that converge

A stage brings one part of a state to what is wanted: it fails, or says whether it changed
something. Where stages that say they changed nothing did not, there is nothing to do for several of
them, one after the other, exactly if there is nothing to do for each.

## Main definitions

* `Stage`, `Stage.seq`: stages, one after the other.
* `Stage.IsQuiet`, `Stage.Settled`: a stage that changes nothing, and a state with nothing to do.

## Main results

* `Stage.settled_seq_iff`: nothing is to do for two stages exactly if nothing is for each.
-/

namespace PuppetC

/-- A stage fails, or answers whether it changed something, with the state that it leaves. -/
abbrev Stage (S : Type*) := S → Option (Bool × S)

namespace Stage

variable {S : Type*} {f g : Stage S} {s s' : S} {changed : Bool}

/-- One stage after another. -/
def seq (f g : Stage S) : Stage S := fun s ↦
  (f s).bind fun p ↦ (g p.2).map fun q ↦ (p.1 || q.1, q.2)

/-- A stage that says it changed nothing did not. -/
def IsQuiet (f : Stage S) : Prop := ∀ s s', f s = some (false, s') → s' = s

/-- There is nothing to do. -/
def Settled (f : Stage S) (s : S) : Prop := f s = some (false, s)

theorem seq_eq_some_iff : f.seq g s = some (changed, s') ↔
    ∃ b s₁ b', f s = some (b, s₁) ∧ g s₁ = some (b', s') ∧ changed = (b || b') := by
  constructor
  · intro h
    obtain ⟨p, hp, h⟩ := Option.bind_eq_some_iff.1 h
    obtain ⟨q, hq, h⟩ := Option.map_eq_some_iff.1 h
    obtain ⟨rfl, rfl⟩ := Prod.mk.inj h
    exact ⟨p.1, p.2, q.1, hp, hq, rfl⟩
  · rintro ⟨b, s₁, b', hf, hg, rfl⟩
    simp [Stage.seq, hf, hg]

theorem IsQuiet.seq (hf : f.IsQuiet) (hg : g.IsQuiet) : (f.seq g).IsQuiet := by
  intro s s' h
  obtain ⟨b, s₁, b', hfs, hgs, hor⟩ := seq_eq_some_iff.1 h
  obtain ⟨rfl, rfl⟩ := Bool.or_eq_false_iff.1 hor.symm
  exact (hg s₁ s' hgs).trans (hf s s₁ hfs)

/-- Nothing is to do for two stages exactly if nothing is for each. -/
theorem settled_seq_iff (hg : g.IsQuiet) :
    (f.seq g).Settled s ↔ f.Settled s ∧ g.Settled s := by
  constructor
  · intro h
    obtain ⟨b, s₁, b', hfs, hgs, hor⟩ := seq_eq_some_iff.1 h
    obtain ⟨rfl, rfl⟩ := Bool.or_eq_false_iff.1 hor.symm
    obtain rfl := hg s₁ s hgs
    exact ⟨hfs, hgs⟩
  · rintro ⟨hfs, hgs⟩
    exact seq_eq_some_iff.2 ⟨false, s, false, hfs, hgs, rfl⟩

end Stage

end PuppetC
