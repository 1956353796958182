import Mathlib.Data.List.Iterate

/-!
# Counting loops

A loop `for (c = a; inside(c); c = next(c))` whose counter has a machine type: the next value of the
counter is not always the intended one, and where it is undefined the loop has no result.

The loop takes the first `n` of the intended values and leaves with the one after them exactly if
the test holds of these and not of that one, and each step from one of them is exact.

## Main definitions

* `countLoop`: the values that the counter takes in the loop, and the value that leaves it.

## Main results

* `exists_countLoop_iff`: when a loop counts as intended.
-/

namespace PuppetC

variable {α : Type}

/-- The values that the counter takes in a loop of at most `fuel` tests from `a`, and the value that
leaves the loop; nothing if the loop goes on or the next value is undefined. -/
def countLoop (inside : α → Bool) (next : α → Option α) : ℕ → α → Option (List α × α)
  | 0, _ => none
  | fuel + 1, a =>
    if inside a then do
      let b ← next a
      let (values, last) ← countLoop inside next fuel b
      return (a :: values, last)
    else some ([], a)

variable {inside : α → Bool} {next : α → Option α}

theorem countLoop_succ_eq_some_cons_iff {fuel : ℕ} {a x last : α} {values : List α} :
    countLoop inside next (fuel + 1) a = some (x :: values, last) ↔
      a = x ∧ inside a = true ∧
        ∃ b, next a = some b ∧ countLoop inside next fuel b = some (values, last) := by
  rw [countLoop]
  cases hin : inside a with
  | false => simp
  | true =>
    simp only [if_true, Option.bind_eq_bind, Option.bind_eq_some_iff, Prod.exists,
      Option.pure_def, Option.some_inj, Prod.mk.injEq, List.cons.injEq, true_and]
    constructor
    · rintro ⟨b, hb, _, _, hrest, ⟨rfl, rfl⟩, rfl⟩
      exact ⟨rfl, b, hb, hrest⟩
    · rintro ⟨rfl, b, hb, hrest⟩
      exact ⟨b, hb, values, last, hrest, ⟨rfl, rfl⟩, rfl⟩

theorem countLoop_eq_some_nil_iff {fuel : ℕ} {a last : α} :
    countLoop inside next fuel a = some ([], last) ↔
      0 < fuel ∧ inside a = false ∧ a = last := by
  cases fuel with
  | zero => simp [countLoop]
  | succ fuel =>
    rw [countLoop]
    cases hin : inside a with
    | false => simp
    | true => simp [Option.bind_eq_some_iff]

/-- The value that the counter starts a tour of the loop with is the first that it takes, or the
one that leaves the loop. -/
theorem eq_of_countLoop_iterate {f : α → α} {fuel n : ℕ} {a b : α}
    (h : countLoop inside next fuel b = some (List.iterate f a n, f^[n] a)) : b = a := by
  cases n with
  | zero => exact (countLoop_eq_some_nil_iff.mp h).2.2
  | succ n =>
    cases fuel with
    | zero => cases h
    | succ fuel => exact (countLoop_succ_eq_some_cons_iff.mp h).1

/-- A loop takes the first `n` values that `f` intends and leaves with the next one exactly if the
test holds of these alone and every step between them is exact. -/
theorem exists_countLoop_iff {f : α → α} {n : ℕ} {a : α} :
    (∃ fuel, countLoop inside next fuel a = some (List.iterate f a n, f^[n] a)) ↔
      (∀ k < n, inside (f^[k] a) = true ∧ next (f^[k] a) = some (f^[k + 1] a)) ∧
        inside (f^[n] a) = false := by
  induction n generalizing a with
  | zero =>
    simp only [List.iterate, Function.iterate_zero_apply, countLoop_eq_some_nil_iff, and_true,
      Nat.not_lt_zero, false_implies, implies_true, true_and]
    exact ⟨fun ⟨_, h⟩ ↦ h.2, fun h ↦ ⟨1, Nat.one_pos, h⟩⟩
  | succ n ih =>
    have hsplit : (∀ k < n + 1, inside (f^[k] a) = true ∧ next (f^[k] a) = some (f^[k + 1] a)) ↔
        (inside a = true ∧ next a = some (f a)) ∧
          ∀ k < n, inside (f^[k] (f a)) = true ∧ next (f^[k] (f a)) = some (f^[k + 1] (f a)) := by
      constructor
      · intro h
        exact ⟨h 0 n.succ_pos, fun k hk ↦ h (k + 1) (Nat.succ_lt_succ hk)⟩
      · rintro ⟨hzero, hsucc⟩ k hk
        cases k with
        | zero => exact hzero
        | succ k => exact hsucc k (Nat.lt_of_succ_lt_succ hk)
    rw [hsplit, and_assoc, Function.iterate_succ_apply, ← ih]
    constructor
    · rintro ⟨fuel, h⟩
      cases fuel with
      | zero => cases h
      | succ fuel =>
        obtain ⟨-, hin, b, hb, hrest⟩ := countLoop_succ_eq_some_cons_iff.mp h
        obtain rfl := eq_of_countLoop_iterate hrest
        exact ⟨⟨hin, hb⟩, fuel, hrest⟩
    · rintro ⟨⟨hin, hnext⟩, fuel, hrest⟩
      exact ⟨fuel + 1, countLoop_succ_eq_some_cons_iff.mpr ⟨rfl, hin, _, hnext, hrest⟩⟩

end PuppetC
