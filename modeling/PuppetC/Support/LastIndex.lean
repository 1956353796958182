import Mathlib.Data.List.Induction
import PuppetC.Support.BucketTable

/-!
# An index of the last of the rows with a key

A list of rows grows at its end, and a table holds for each key the position of the row that was
added last with it. Rows that were added before with the same key stay in the list, out of reach of
the table; there are none exactly if the keys are distinct.

## Main definitions

* `IndexesLast`: a table holds the last positions of the keys of a list.

## Main results

* `IndexesLast.append`: a row is added at the end of the list and to the table.
* `IndexesLast.forall_unique_iff`: each position that a table holds is the only one of its key
  exactly if the keys are distinct.
-/

namespace PuppetC

variable {κ : Type}

theorem getElem?_append_singleton_of_ne {k k' : κ} (h : k ≠ k') (keys : List κ) (j : ℕ) :
    (keys ++ [k'])[j]? = some k ↔ keys[j]? = some k := by
  rcases Nat.lt_trichotomy j keys.length with hj | rfl | hj
  · rw [List.getElem?_append_left hj]
  · simp [Ne.symm h]
  · rw [List.getElem?_eq_none (by rw [List.length_append, List.length_singleton]; omega),
      List.getElem?_eq_none (Nat.le_of_lt hj)]

theorem getElem?_append_singleton_of_lt (k k' : κ) (keys : List κ) {j : ℕ}
    (hj : keys.length < j) : (keys ++ [k'])[j]? ≠ some k := by
  rw [List.getElem?_eq_none (by rw [List.length_append, List.length_singleton]; omega)]
  exact nofun

/-- A key of a list has a last position. -/
theorem exists_last_position {k : κ} {keys : List κ} (hk : k ∈ keys) :
    ∃ i : ℕ, keys[i]? = some k ∧ ∀ j, i < j → keys[j]? ≠ some k := by
  induction keys using List.reverseRecOn with
  | nil => cases hk
  | append_singleton keys k' ih =>
    by_cases heq : k = k'
    · subst heq
      exact ⟨keys.length, by simp, fun j ↦ getElem?_append_singleton_of_lt k k keys⟩
    · have hmem : k ∈ keys := by simpa [heq] using hk
      simpa only [ne_eq, getElem?_append_singleton_of_ne heq] using ih hmem

variable [DecidableEq κ] {bucket : κ → ℕ}

/-- A table holds for each key the last position of this key in a list, and no other keys. -/
def IndexesLast (index : Table bucket ℕ) (keys : List κ) : Prop :=
  ∀ k i, index.get k = some i ↔ keys[i]? = some k ∧ ∀ j, i < j → keys[j]? ≠ some k

namespace IndexesLast

variable {index : Table bucket ℕ} {keys : List κ}

theorem empty : IndexesLast (Table.empty : Table bucket ℕ) ([] : List κ) :=
  fun k i ↦ by simp

/-- A row is added at the end of the list and to the table. -/
theorem append (h : IndexesLast index keys) (k : κ) :
    IndexesLast (index.set k keys.length) (keys ++ [k]) := by
  intro k' i
  rw [Table.get_set]
  by_cases hk : k' = k
  · subst hk
    rw [if_pos rfl, Option.some_inj]
    constructor
    · rintro rfl
      exact ⟨by simp, fun j ↦ getElem?_append_singleton_of_lt k' k' keys⟩
    · rintro ⟨hi, hlast⟩
      have hlt : i < (keys ++ [k']).length := (List.getElem?_eq_some_iff.1 hi).1
      rw [List.length_append, List.length_singleton] at hlt
      by_contra hne
      exact hlast keys.length (by omega) (by simp)
  · rw [if_neg hk, h k' i]
    simp only [ne_eq, getElem?_append_singleton_of_ne hk]

theorem exists_get (h : IndexesLast index keys) {k : κ} (hk : k ∈ keys) :
    ∃ i, index.get k = some i := by
  obtain ⟨i, hi⟩ := exists_last_position hk
  exact ⟨i, (h k i).2 hi⟩

theorem get_eq_none (h : IndexesLast index keys) {k : κ} (hk : k ∉ keys) :
    index.get k = none := by
  rw [Option.eq_none_iff_forall_ne_some]
  exact fun i hi ↦ hk (List.mem_of_getElem? ((h k i).1 hi).1)

/-- Each position that a table holds is the only one of its key exactly if the keys of the list are
distinct. -/
theorem forall_unique_iff (h : IndexesLast index keys) :
    (∀ k i, index.get k = some i → ∀ j, keys[j]? = some k → j = i) ↔ keys.Nodup := by
  constructor
  · intro hunique
    refine List.nodup_iff_injective_get.2 fun i j hij ↦ Fin.ext ?_
    have hi : keys[i.1]? = some (keys.get i) := by simp
    have hj : keys[j.1]? = some (keys.get i) := by rw [hij]; simp
    obtain ⟨m, hm⟩ := h.exists_get (List.mem_of_getElem? hi)
    exact (hunique _ m hm _ hi).trans (hunique _ m hm _ hj).symm
  · intro hnodup k i hi j hj
    obtain ⟨hlt, hget⟩ := List.getElem?_eq_some_iff.1 hj
    obtain ⟨hlt', hget'⟩ := List.getElem?_eq_some_iff.1 ((h k i).1 hi).1
    exact hnodup.getElem_inj_iff.1 (hget.trans hget'.symm)

end IndexesLast

end PuppetC
