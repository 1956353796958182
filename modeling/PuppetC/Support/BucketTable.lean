import Mathlib.Data.List.Nodup

/-!
# Chained hash tables as ordered association lists

A chained hash table puts a new key at the head of its chain and replaces the value of a key it
already holds, and it is traversed bucket by bucket. `Table bucket β` is such a table, listed in
the order of that traversal: the list is what a loop over the buckets visits, `get` is the
chain search and `set` the insertion. No two entries have one key, and this is a field of the
structure.

## Main definitions

* `Bucket.get`, `Bucket.set`: search and insertion on the list of entries.
* `Table`: a list of entries with distinct keys.
* `Table.keys`: the keys, in the order of the traversal.

## Main results

* `Table.get_set`: reading a table after an insertion.
* `Table.get_eq_some_iff`: `get` finds exactly the entries the traversal visits.
-/

namespace PuppetC

namespace Bucket

variable {κ β : Type} [DecidableEq κ] (bucket : κ → ℕ)

/-- The value of the first entry whose key is `k`. -/
def get (k : κ) : List (κ × β) → Option β
  | [] => none
  | e :: es => if e.1 = k then some e.2 else get k es

/-- Replace the value of the entry whose key is `k`. -/
def replace (k : κ) (v : β) : List (κ × β) → List (κ × β)
  | [] => []
  | e :: es => if e.1 = k then (k, v) :: es else e :: replace k v es

/-- Put an entry in front of the chain its key belongs to. -/
def push (k : κ) (v : β) : List (κ × β) → List (κ × β)
  | [] => [(k, v)]
  | e :: es => if bucket k ≤ bucket e.1 then (k, v) :: e :: es else e :: push k v es

/-- Insert or replace. -/
def set (k : κ) (v : β) (es : List (κ × β)) : List (κ × β) :=
  if (get k es).isSome then replace k v es else push bucket k v es

theorem get_eq_none_iff {k : κ} {es : List (κ × β)} : get k es = none ↔ k ∉ es.map Prod.fst := by
  induction es with
  | nil => simp [get]
  | cons e es ih =>
    by_cases h : e.1 = k
    · simp [get, h]
    · simp [get, h, ih, eq_comm (a := k)]

theorem get_replace (k k' : κ) (v : β) (es : List (κ × β)) :
    get k' (replace k v es) = if k' = k ∧ (get k es).isSome then some v else get k' es := by
  induction es with
  | nil => simp [get, replace]
  | cons e es ih => by_cases h : e.1 = k <;> grind [get, replace]

theorem get_push (k k' : κ) (v : β) (es : List (κ × β)) (hk : get k es = none) :
    get k' (push bucket k v es) = if k' = k then some v else get k' es := by
  induction es with
  | nil => grind [get, push]
  | cons e es ih => grind [get, push]

theorem get_set (k k' : κ) (v : β) (es : List (κ × β)) :
    get k' (set bucket k v es) = if k' = k then some v else get k' es := by
  unfold set
  split_ifs with h hkk hkk
  · simp [get_replace, h, hkk]
  · simp [get_replace, hkk]
  · simpa [hkk] using get_push bucket k k' v es (by simpa using h)
  · simpa [hkk] using get_push bucket k k' v es (by simpa using h)

theorem keys_replace (k : κ) (v : β) (es : List (κ × β)) :
    (replace k v es).map Prod.fst = es.map Prod.fst := by
  induction es with
  | nil => rfl
  | cons e es ih => by_cases h : e.1 = k <;> simp [replace, h, ih]

omit [DecidableEq κ] in
theorem keys_push_perm (k : κ) (v : β) (es : List (κ × β)) :
    ((push bucket k v es).map Prod.fst).Perm (k :: es.map Prod.fst) := by
  induction es with
  | nil => simp [push]
  | cons e es ih =>
    by_cases h : bucket k ≤ bucket e.1
    · simp [push, h]
    · simpa [push, h] using (ih.cons e.1).trans (List.Perm.swap ..)

theorem nodup_set (k : κ) (v : β) {es : List (κ × β)} (h : (es.map Prod.fst).Nodup) :
    ((set bucket k v es).map Prod.fst).Nodup := by
  unfold set
  split_ifs with hk
  · rwa [keys_replace]
  · have hk' : k ∉ es.map Prod.fst := get_eq_none_iff.1 (by simpa using hk)
    exact (keys_push_perm bucket k v es).nodup_iff.2 (List.nodup_cons.2 ⟨hk', h⟩)

theorem eq_or_mem_of_mem_set {k : κ} {v : β} {es : List (κ × β)} {e : κ × β}
    (h : e ∈ set bucket k v es) : e = (k, v) ∨ e ∈ es := by
  unfold set at h
  split_ifs at h
  · clear * - h
    induction es with
    | nil => exact .inr h
    | cons f es ih => by_cases hk : f.1 = k <;> grind [replace]
  · clear * - h
    induction es with
    | nil => exact .inl (List.mem_singleton.1 h)
    | cons f es ih => by_cases hk : bucket k ≤ bucket f.1 <;> grind [push]

theorem get_eq_some_iff {k : κ} {v : β} {es : List (κ × β)} (h : (es.map Prod.fst).Nodup) :
    get k es = some v ↔ (k, v) ∈ es := by
  induction es with
  | nil => simp [get]
  | cons e es ih =>
    obtain ⟨hnot, hes⟩ := List.nodup_cons.1 h
    by_cases hk : e.1 = k
    · have hmem : (k, v) ∉ es := fun hm ↦ hnot (hk ▸ List.mem_map_of_mem (f := Prod.fst) hm)
      simp [get, hk, hmem, Prod.ext_iff, eq_comm]
    · simp [get, hk, ih hes, Prod.ext_iff, eq_comm (a := k)]

end Bucket

/-- A chained hash table, listed in the order in which its buckets are traversed. -/
structure Table {κ : Type} (bucket : κ → ℕ) (β : Type) where
  entries : List (κ × β)
  nodup_keys : (entries.map Prod.fst).Nodup

namespace Table

variable {κ β : Type} {bucket : κ → ℕ}

/-- The table without entries. -/
def empty : Table bucket β := ⟨[], List.nodup_nil⟩

@[ext] theorem ext {t t' : Table bucket β} (h : t.entries = t'.entries) : t = t' := by
  cases t; cases t'; cases h; rfl

/-- The keys of a table, in the order of the traversal. -/
def keys (t : Table bucket β) : List κ := t.entries.map Prod.fst

variable [DecidableEq κ]

/-- Search for a key. -/
def get (t : Table bucket β) (k : κ) : Option β := Bucket.get k t.entries

/-- Insert or replace. -/
def set (t : Table bucket β) (k : κ) (v : β) : Table bucket β :=
  ⟨Bucket.set bucket k v t.entries, Bucket.nodup_set bucket k v t.nodup_keys⟩

@[simp] theorem get_empty (k : κ) : (empty : Table bucket β).get k = none := rfl

theorem get_set (t : Table bucket β) (k k' : κ) (v : β) :
    (t.set k v).get k' = if k' = k then some v else t.get k' :=
  Bucket.get_set bucket k k' v t.entries

@[simp] theorem get_set_self (t : Table bucket β) (k : κ) (v : β) :
    (t.set k v).get k = some v := by
  simp [get_set]

theorem get_set_of_ne (t : Table bucket β) {k k' : κ} (v : β) (h : k' ≠ k) :
    (t.set k v).get k' = t.get k' := by
  simp [get_set, h]

theorem get_eq_some_iff (t : Table bucket β) {k : κ} {v : β} :
    t.get k = some v ↔ (k, v) ∈ t.entries :=
  Bucket.get_eq_some_iff t.nodup_keys

theorem get_eq_none_iff (t : Table bucket β) {k : κ} : t.get k = none ↔ k ∉ t.keys :=
  Bucket.get_eq_none_iff

/-- The order of the entries makes no difference to a search. -/
theorem get_eq_of_perm {t t' : Table bucket β} (h : t.entries.Perm t'.entries) (k : κ) :
    t.get k = t'.get k :=
  Option.ext fun v ↦ by rw [get_eq_some_iff, get_eq_some_iff, h.mem_iff]

end Table

end PuppetC
