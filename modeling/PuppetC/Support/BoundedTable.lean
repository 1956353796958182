import Mathlib.Data.List.Basic
import Mathlib.Data.List.Nodup
import Mathlib.Data.List.Perm.Subperm

/-!
# Tables with a bounded number of entries

A table that takes every value once, and drops what comes after it is full.

## Main definitions

* `tableAdd`, `tableOf`: a value, and all values of a list, are added.

## Main results

* `mem_tableOf_iff`: nothing is dropped if all values fit.
-/

namespace PuppetC

variable {α : Type*} [DecidableEq α] {cap : ℕ} {table xs ys : List α} {x y : α}

/-- Add a value to a table of at most `cap` entries. -/
def tableAdd (cap : ℕ) (table : List α) (x : α) : List α :=
  if x ∈ table then table else if table.length < cap then table ++ [x] else table

/-- The table after all values were added. -/
def tableOf (cap : ℕ) (xs : List α) : List α := xs.foldl (tableAdd cap) []

theorem mem_tableAdd (h : y ∈ tableAdd cap table x) : y = x ∨ y ∈ table := by
  rw [tableAdd] at h
  split_ifs at h with hx hroom
  · exact .inr h
  · exact (List.mem_append.1 h).symm.imp List.mem_singleton.1 id
  · exact .inr h

theorem subset_tableAdd (h : y ∈ table) : y ∈ tableAdd cap table x := by
  rw [tableAdd]
  split_ifs
  · exact h
  · exact List.mem_append_left _ h
  · exact h

theorem nodup_tableAdd (h : table.Nodup) : (tableAdd cap table x).Nodup := by
  rw [tableAdd]
  split_ifs with hx hroom
  · exact h
  · exact List.nodup_append.2 ⟨h, List.nodup_singleton x,
      fun a ha b hb hab ↦ hx (List.mem_singleton.1 hb ▸ hab ▸ ha)⟩
  · exact h

theorem mem_foldl_tableAdd (h : y ∈ xs.foldl (tableAdd cap) table) : y ∈ xs ∨ y ∈ table := by
  induction xs generalizing table with
  | nil => exact .inr h
  | cons x xs ih =>
    rcases ih h with h | h
    · exact .inl (List.mem_cons_of_mem x h)
    · rcases mem_tableAdd h with rfl | h
      · exact .inl List.mem_cons_self
      · exact .inr h

theorem nodup_foldl_tableAdd (h : table.Nodup) : (xs.foldl (tableAdd cap) table).Nodup := by
  induction xs generalizing table with
  | nil => exact h
  | cons x xs ih => exact ih (nodup_tableAdd h)

/-- Nothing is dropped if all values fit. -/
theorem subset_foldl_tableAdd (hys : ys.length ≤ cap) (htable : table.Nodup) (hsub : table ⊆ ys)
    (hxs : xs ⊆ ys) (hy : y ∈ xs ∨ y ∈ table) : y ∈ xs.foldl (tableAdd cap) table := by
  induction xs generalizing table with
  | nil => exact hy.resolve_left List.not_mem_nil
  | cons x xs ih =>
    obtain ⟨hx, hxs⟩ := List.cons_subset.1 hxs
    have hadded : x ∈ tableAdd cap table x := by
      rw [tableAdd]
      split_ifs with hin hroom
      · exact hin
      · exact List.mem_append_right _ (List.mem_singleton_self x)
      · have hlt := (List.nodup_cons.2 ⟨hin, htable⟩).subperm (List.cons_subset.2 ⟨hx, hsub⟩)
        have hlength := hlt.length_le
        rw [List.length_cons] at hlength
        omega
    refine ih (nodup_tableAdd htable) (fun z hz ↦ ?_) hxs ?_
    · rcases mem_tableAdd hz with rfl | hz
      · exact hx
      · exact hsub hz
    · rcases hy with hy | hy
      · rcases List.mem_cons.1 hy with rfl | hy
        · exact .inr hadded
        · exact .inl hy
      · exact .inr (subset_tableAdd hy)

theorem nodup_tableOf : (tableOf cap xs).Nodup := nodup_foldl_tableAdd List.nodup_nil

theorem mem_of_mem_tableOf (h : x ∈ tableOf cap xs) : x ∈ xs :=
  (mem_foldl_tableAdd h).resolve_right List.not_mem_nil

/-- A table whose values all fit has all of them. -/
theorem mem_tableOf_iff (hys : ys.length ≤ cap) (hxs : xs ⊆ ys) :
    x ∈ tableOf cap xs ↔ x ∈ xs :=
  ⟨mem_of_mem_tableOf, fun h ↦
    subset_foldl_tableAdd hys List.nodup_nil (List.nil_subset ys) hxs (.inl h)⟩

end PuppetC
