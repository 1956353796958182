import Mathlib.Data.List.Nodup

/-!
# Tables with a key

A table of a relational database whose rows are told apart by a key. `KeyedTable key` is the list
of its rows, in the order they were put in; no two rows have one key, and this is a field of the
structure. `replace` is an insertion that takes the place of the row with that key, if there is
one.

## Main definitions

* `KeyedTable`: the rows of a table.
* `KeyedTable.find`: the row of a key.
* `KeyedTable.replace`: `INSERT OR REPLACE`.

## Main results

* `KeyedTable.mem_replace`: the rows after an insertion.
-/

namespace PuppetC

/-- The rows of a table, no two of which have one key. -/
structure KeyedTable {κ ρ : Type} (key : ρ → κ) where
  rows : List ρ
  nodup : (rows.map key).Nodup

namespace KeyedTable

variable {κ ρ : Type} {key : ρ → κ}

/-- A table without rows. -/
def empty : KeyedTable key := ⟨[], List.nodup_nil⟩

@[simp] theorem rows_empty : (empty : KeyedTable key).rows = [] := rfl

theorem eq_of_key_eq (t : KeyedTable key) {r r' : ρ} (hr : r ∈ t.rows) (hr' : r' ∈ t.rows)
    (h : key r = key r') : r = r' :=
  List.inj_on_of_nodup_map t.nodup hr hr' h

variable [DecidableEq κ]

/-- The row of a key. -/
def find (t : KeyedTable key) (k : κ) : Option ρ := t.rows.find? fun r ↦ key r = k

/-- `INSERT OR REPLACE`. -/
def replace (t : KeyedTable key) (r : ρ) : KeyedTable key where
  rows := t.rows.filter (fun r' ↦ key r' ≠ key r) ++ [r]
  nodup := by
    rw [List.map_append, List.nodup_append]
    refine ⟨t.nodup.sublist (List.filter_sublist.map key), List.nodup_singleton _, ?_⟩
    intro k hk k' hk'
    obtain ⟨r', hr', rfl⟩ := List.mem_map.1 hk
    obtain rfl : k' = key r := by simpa using hk'
    simpa using (List.mem_filter.1 hr').2

theorem mem_replace {t : KeyedTable key} {r r' : ρ} :
    r' ∈ (t.replace r).rows ↔ r' = r ∨ r' ∈ t.rows ∧ key r' ≠ key r := by
  simp [replace, or_comm]

end KeyedTable

end PuppetC
