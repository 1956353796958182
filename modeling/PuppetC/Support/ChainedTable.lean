import Mathlib.Data.Fintype.Card
import Mathlib.Data.List.FinRange
import Mathlib.Logic.Function.Basic
import PuppetC.Support.BucketTable

/-!
# Chained hash tables

A table with `n` buckets, each with a chain of entries, and a count of its entries. A set searches
the chain of its key; it replaces the value there, or puts a new entry in front of the chain and
counts it. Listed bucket by bucket, such a table is the ordered association list of `BucketTable`.

A list of entries in the order of the buckets is determined by its chains. If it is set entry by
entry in a new table, each chain is turned around; so the new table lists its entries in the same
order exactly if no two keys share a bucket.

## Main definitions

* `bucketChain`: the entries of a bucket in a list of entries.
* `ChainedTable`: a table of chains, with its invariants.
* `ChainedTable.set`, `ChainedTable.get`, `ChainedTable.entries`.
* `ChainedTable.ofSets`: the table after a sequence of sets.

## Main results

* `eq_of_chains`: a list in the order of the buckets is determined by its chains.
* `foldl_set_nil_eq_iff`: when a table that is built anew lists its entries in the same order.
* `ChainedTable.entries_set`, `ChainedTable.get_entries`: a table refines an ordered list.
* `ChainedTable.get_ofSets`, `ChainedTable.entryCount_ofSets`: the law of a table.
-/

namespace PuppetC

variable {κ β : Type}

/-! ### Chains of a list -/

/-- The entries of a bucket. -/
def bucketChain (bucket : κ → ℕ) (i : ℕ) (es : List (κ × β)) : List (κ × β) :=
  es.filter fun e ↦ bucket e.1 = i

/-- The entries stand in the order of their buckets. -/
def BucketOrder (bucket : κ → ℕ) (es : List (κ × β)) : Prop :=
  es.Pairwise fun e f ↦ bucket e.1 ≤ bucket f.1

variable {bucket : κ → ℕ} {es fs : List (κ × β)}

theorem mem_bucketChain_iff {i : ℕ} {e : κ × β} :
    e ∈ bucketChain bucket i es ↔ e ∈ es ∧ bucket e.1 = i := by
  simp [bucketChain]

theorem bucketChain_cons (i : ℕ) (e : κ × β) (es : List (κ × β)) :
    bucketChain bucket i (e :: es) =
      if bucket e.1 = i then e :: bucketChain bucket i es else bucketChain bucket i es := by
  simp only [bucketChain, List.filter_cons, decide_eq_true_eq]

/-- A list in the order of the buckets is determined by its chains. -/
theorem eq_of_chains (hes : BucketOrder bucket es) (hfs : BucketOrder bucket fs)
    (h : ∀ i, bucketChain bucket i es = bucketChain bucket i fs) : es = fs := by
  induction es generalizing fs with
  | nil =>
    cases fs with
    | nil => rfl
    | cons f fs =>
      have hf := h (bucket f.1)
      rw [bucketChain_cons, if_pos rfl] at hf
      cases hf
  | cons e es ih =>
    obtain ⟨he, hes⟩ := List.pairwise_cons.mp hes
    cases fs with
    | nil =>
      have he' := h (bucket e.1)
      rw [bucketChain_cons, if_pos rfl] at he'
      cases he'
    | cons f fs =>
      obtain ⟨hf, hrest⟩ := List.pairwise_cons.mp hfs
      -- the first entries have the least bucket of both lists
      have hef : bucket e.1 ≤ bucket f.1 := by
        have hmem : f ∈ bucketChain bucket (bucket f.1) (e :: es) := by
          rw [h, bucketChain_cons, if_pos rfl]
          exact List.mem_cons_self
        rcases List.mem_cons.mp (mem_bucketChain_iff.mp hmem).1 with rfl | hmem
        exacts [Nat.le_refl _, he f hmem]
      have hfe : bucket f.1 ≤ bucket e.1 := by
        have hmem : e ∈ bucketChain bucket (bucket e.1) (f :: fs) := by
          rw [← h, bucketChain_cons, if_pos rfl]
          exact List.mem_cons_self
        rcases List.mem_cons.mp (mem_bucketChain_iff.mp hmem).1 with rfl | hmem
        exacts [Nat.le_refl _, hf e hmem]
      have hbucket : bucket e.1 = bucket f.1 := Nat.le_antisymm hef hfe
      have hfirst := h (bucket e.1)
      rw [bucketChain_cons, bucketChain_cons, if_pos rfl, if_pos hbucket.symm] at hfirst
      obtain ⟨rfl, -⟩ := List.cons.inj hfirst
      refine congrArg (e :: ·) (ih hes hrest fun i ↦ ?_)
      have hi := h i
      rw [bucketChain_cons, bucketChain_cons] at hi
      split_ifs at hi with hb
      · exact (List.cons.inj hi).2
      · exact hi

/-! ### Sets on a list -/

section Set

variable {k : κ} {v : β}

theorem push_perm (k : κ) (v : β) (es : List (κ × β)) :
    (Bucket.push bucket k v es).Perm ((k, v) :: es) := by
  induction es with
  | nil => exact .refl _
  | cons e es ih =>
    rw [Bucket.push]
    split_ifs
    · exact .refl _
    · exact (ih.cons e).trans (.swap _ _ _)

theorem bucketChain_push (i : ℕ) : bucketChain bucket i (Bucket.push bucket k v es) =
    if bucket k = i then (k, v) :: bucketChain bucket i es else bucketChain bucket i es := by
  induction es with
  | nil =>
    rw [Bucket.push, bucketChain_cons]
  | cons e es ih =>
    rw [Bucket.push]
    by_cases hle : bucket k ≤ bucket e.1
    · rw [if_pos hle, bucketChain_cons]
    · rw [if_neg hle, bucketChain_cons, ih, bucketChain_cons]
      split_ifs with he hk
      · omega
      · rfl
      · rfl
      · rfl

theorem bucketOrder_push (h : BucketOrder bucket es) :
    BucketOrder bucket (Bucket.push bucket k v es) := by
  induction es with
  | nil => exact List.pairwise_singleton _ _
  | cons e es ih =>
    obtain ⟨he, hes⟩ := List.pairwise_cons.mp h
    rw [Bucket.push]
    split_ifs with hle
    · refine List.pairwise_cons.mpr ⟨fun f hf ↦ ?_, h⟩
      rcases List.mem_cons.mp hf with rfl | hf
      exacts [hle, hle.trans (he f hf)]
    · refine List.pairwise_cons.mpr ⟨fun f hf ↦ ?_, ih hes⟩
      rcases List.mem_cons.mp ((push_perm k v es).mem_iff.mp hf) with rfl | hf
      exacts [(Nat.lt_of_not_le hle).le, he f hf]

variable [DecidableEq κ]

theorem bucketChain_replace (i : ℕ) : bucketChain bucket i (Bucket.replace k v es) =
    if bucket k = i then Bucket.replace k v (bucketChain bucket i es)
    else bucketChain bucket i es := by
  induction es with
  | nil => simp [Bucket.replace, bucketChain]
  | cons e es ih =>
    rw [Bucket.replace]
    by_cases hk : e.1 = k
    · rw [if_pos hk, bucketChain_cons, bucketChain_cons, hk]
      split_ifs with hi
      · rw [Bucket.replace, if_pos hk]
      · rfl
    · rw [if_neg hk, bucketChain_cons, ih, bucketChain_cons]
      split_ifs with he hi
      · rw [Bucket.replace, if_neg hk]
      · rfl
      · rfl
      · rfl

theorem bucketOrder_replace (h : BucketOrder bucket es) :
    BucketOrder bucket (Bucket.replace k v es) := by
  rw [BucketOrder, ← List.pairwise_map (f := Prod.fst)
    (R := fun k k' ↦ bucket k ≤ bucket k')] at h ⊢
  rwa [Bucket.keys_replace]

/-- A key is found in its chain as in all entries. -/
theorem get_bucketChain (k : κ) (es : List (κ × β)) :
    Bucket.get k (bucketChain bucket (bucket k) es) = Bucket.get k es := by
  induction es with
  | nil => rfl
  | cons e es ih =>
    rw [bucketChain_cons, Bucket.get]
    by_cases hk : e.1 = k
    · rw [if_pos (congrArg bucket hk), Bucket.get, if_pos hk, if_pos hk]
    · rw [if_neg hk, ← ih]
      split_ifs
      · rw [Bucket.get, if_neg hk]
      · rfl

/-- A set changes the chain of its key alone: it replaces the value there or adds an entry in
front. -/
theorem bucketChain_set (i : ℕ) : bucketChain bucket i (Bucket.set bucket k v es) =
    if bucket k = i then
      if (Bucket.get k (bucketChain bucket i es)).isSome then
        Bucket.replace k v (bucketChain bucket i es)
      else (k, v) :: bucketChain bucket i es
    else bucketChain bucket i es := by
  rw [Bucket.set]
  by_cases hi : bucket k = i
  · subst hi
    rw [if_pos rfl, get_bucketChain]
    split_ifs
    · rw [bucketChain_replace, if_pos rfl]
    · rw [bucketChain_push, if_pos rfl]
  · rw [if_neg hi]
    split_ifs
    · rw [bucketChain_replace, if_neg hi]
    · rw [bucketChain_push, if_neg hi]

theorem bucketOrder_set (h : BucketOrder bucket es) :
    BucketOrder bucket (Bucket.set bucket k v es) := by
  rw [Bucket.set]
  split_ifs
  exacts [bucketOrder_replace h, bucketOrder_push h]

/-- Distinct keys that are set one after the other turn each chain around. -/
theorem bucketChain_foldl_set (hfs : (fs.map Prod.fst).Nodup)
    (hnew : ∀ e ∈ fs, e.1 ∉ es.map Prod.fst) (i : ℕ) :
    bucketChain bucket i (fs.foldl (fun es e ↦ Bucket.set bucket e.1 e.2 es) es) =
      (bucketChain bucket i fs).reverse ++ bucketChain bucket i es := by
  induction fs generalizing es with
  | nil => rfl
  | cons f fs ih =>
    obtain ⟨hnot, hfs⟩ := List.nodup_cons.mp hfs
    obtain ⟨hf, hrest⟩ := List.forall_mem_cons.mp hnew
    have hget : Bucket.get f.1 es = none := Bucket.get_eq_none_iff.mpr hf
    have hset : Bucket.set bucket f.1 f.2 es = Bucket.push bucket f.1 f.2 es := by
      rw [Bucket.set, hget]
      rfl
    rw [List.foldl_cons, hset, ih hfs, bucketChain_push, bucketChain_cons]
    · split_ifs
      · rw [List.reverse_cons, List.append_assoc, List.singleton_append]
      · rfl
    · intro e he hmem
      rw [(push_perm f.1 f.2 es).map Prod.fst |>.mem_iff, List.map_cons, List.mem_cons] at hmem
      rcases hmem with heq | hmem
      · exact hnot (heq ▸ List.mem_map_of_mem he)
      · exact hrest e he hmem

omit [DecidableEq κ] in
theorem length_bucketChain (i : ℕ) :
    (bucketChain bucket i es).length = (es.map fun e ↦ bucket e.1).count i := by
  rw [bucketChain, ← List.countP_eq_length_filter, List.count, List.countP_map]
  rfl

omit [DecidableEq κ] in
theorem keys_bucketChain (i : ℕ) (es : List (κ × β)) : (bucketChain bucket i es).map Prod.fst =
    (es.map Prod.fst).filter fun k ↦ bucket k = i := by
  rw [bucketChain, List.filter_map]
  rfl

omit [DecidableEq κ] in
/-- If no two keys share a bucket, a chain has no order. -/
theorem reverse_bucketChain (h : (es.map fun e ↦ bucket e.1).Nodup) (i : ℕ) :
    (bucketChain bucket i es).reverse = bucketChain bucket i es := by
  have hle : (bucketChain bucket i es).length ≤ 1 := by
    rw [length_bucketChain]
    exact List.nodup_iff_count_le_one.mp h i
  match bucketChain bucket i es, hle with
  | [], _ => rfl
  | [_], _ => rfl

omit [DecidableEq κ] in
/-- If the keys of each chain read the same backwards, no two keys share a bucket. -/
theorem nodup_buckets (hkeys : (es.map Prod.fst).Nodup)
    (h : ∀ i, ((bucketChain bucket i es).map Prod.fst).reverse =
      (bucketChain bucket i es).map Prod.fst) : (es.map fun e ↦ bucket e.1).Nodup := by
  refine List.nodup_iff_count_le_one.mpr fun i ↦ ?_
  rw [← length_bucketChain, ← List.length_map Prod.fst]
  have hnodup : ((bucketChain bucket i es).map Prod.fst).Nodup := by
    rw [keys_bucketChain]
    exact hkeys.filter _
  have hrev := h i
  match hks : (bucketChain bucket i es).map Prod.fst with
  | [] => exact Nat.zero_le _
  | [_] => exact Nat.le_refl _
  | k :: k' :: ks =>
    rw [hks] at hnodup hrev
    -- the first key would be the last one too
    have hlast := congrArg List.getLast? hrev
    rw [List.getLast?_reverse, List.head?_cons, List.getLast?_cons_cons] at hlast
    exact absurd (List.mem_of_getLast? hlast.symm) (List.nodup_cons.mp hnodup).1

theorem bucketOrder_foldl_set (hes : BucketOrder bucket es) :
    BucketOrder bucket (fs.foldl (fun es e ↦ Bucket.set bucket e.1 e.2 es) es) := by
  induction fs generalizing es with
  | nil => exact hes
  | cons f fs ih => exact ih (bucketOrder_set hes)

omit [DecidableEq κ] in
theorem bucketOrder_iff_of_keys (hkeys : fs.map Prod.fst = es.map Prod.fst) :
    BucketOrder bucket fs ↔ BucketOrder bucket es := by
  rw [BucketOrder, BucketOrder, ← List.pairwise_map (f := Prod.fst)
    (R := fun k k' ↦ bucket k ≤ bucket k'), hkeys, List.pairwise_map]

/-- Entries with the keys of a list, set one after the other in a new table, are that list exactly
if they are its entries and no two keys share a bucket. -/
theorem foldl_set_nil_eq_iff (hes : BucketOrder bucket es) (hnodup : (es.map Prod.fst).Nodup)
    (hkeys : fs.map Prod.fst = es.map Prod.fst) :
    fs.foldl (fun es e ↦ Bucket.set bucket e.1 e.2 es) [] = es ↔
      fs = es ∧ (es.map fun e ↦ bucket e.1).Nodup := by
  have hempty : BucketOrder bucket ([] : List (κ × β)) := List.Pairwise.nil
  have hchain (i : ℕ) :
      bucketChain bucket i (fs.foldl (fun es e ↦ Bucket.set bucket e.1 e.2 es) []) =
        (bucketChain bucket i fs).reverse := by
    rw [bucketChain_foldl_set (hkeys ▸ hnodup) fun _ _ ↦ List.not_mem_nil]
    exact List.append_nil _
  have hfs : BucketOrder bucket fs := (bucketOrder_iff_of_keys hkeys).mpr hes
  constructor
  · intro h
    have hbuckets : (es.map fun e ↦ bucket e.1).Nodup := by
      refine nodup_buckets hnodup fun i ↦ ?_
      have hi := hchain i
      rw [h] at hi
      rw [hi, List.map_reverse, List.reverse_reverse, ← List.map_reverse, ← hi, keys_bucketChain,
        keys_bucketChain, hkeys]
    have hbuckets' : (fs.map fun e ↦ bucket e.1).Nodup := by
      have hmap := congrArg (List.map bucket) hkeys
      rw [List.map_map, List.map_map] at hmap
      exact hmap ▸ hbuckets
    refine ⟨eq_of_chains hfs hes fun i ↦ ?_, hbuckets⟩
    rw [← reverse_bucketChain hbuckets', ← hchain, h]
  · rintro ⟨rfl, hbuckets⟩
    refine eq_of_chains (bucketOrder_foldl_set hempty) hes fun i ↦ ?_
    rw [hchain, reverse_bucketChain hbuckets]

theorem length_set : (Bucket.set bucket k v es).length =
    if (Bucket.get k es).isSome then es.length else es.length + 1 := by
  rw [Bucket.set]
  split_ifs
  · rw [← List.length_map Prod.fst, Bucket.keys_replace, List.length_map]
  · exact (push_perm k v es).length_eq

end Set

/-! ### Tables -/

section Chains

variable {n : ℕ} {bucket : κ → Fin n} {chains : Fin n → List (κ × β)}

/-- The entries of all chains, in the order of the buckets. -/
def chainEntries (chains : Fin n → List (κ × β)) : List (κ × β) := (List.finRange n).flatMap chains

theorem flatMap_ite_of_mem {i : Fin n} {l : List (Fin n)} (hl : l.Nodup) (hi : i ∈ l)
    (es : List (κ × β)) : (l.flatMap fun j ↦ if j = i then es else []) = es := by
  induction l with
  | nil => cases hi
  | cons j l ih =>
    obtain ⟨hj, hl⟩ := List.nodup_cons.mp hl
    rw [List.flatMap_cons]
    by_cases hji : j = i
    · subst hji
      have hnil : (l.flatMap fun j' ↦ if j' = j then es else []) = [] := by
        rw [List.flatMap_eq_nil_iff]
        intro j' hj'
        rw [if_neg]
        rintro rfl
        exact hj hj'
      rw [if_pos rfl, hnil, List.append_nil]
    · rw [if_neg hji, List.nil_append, ih hl ((List.mem_cons.mp hi).resolve_left (Ne.symm hji))]

/-- The chain of a bucket in the entries of all chains. -/
theorem bucketChain_chainEntries (hmem : ∀ i, ∀ e ∈ chains i, bucket e.1 = i) (i : Fin n) :
    bucketChain (fun k ↦ (bucket k).val) i (chainEntries chains) = chains i := by
  rw [bucketChain, chainEntries, List.filter_flatMap]
  have hfilter (j : Fin n) : ((chains j).filter fun e ↦ (bucket e.1).val = i.val) =
      if j = i then chains i else [] := by
    split_ifs with hji
    · subst hji
      exact List.filter_eq_self.mpr fun e he ↦ by simp [hmem j e he]
    · rw [List.filter_eq_nil_iff]
      intro e he
      rw [decide_eq_true_eq, hmem j e he]
      exact fun h ↦ hji (Fin.ext h)
  simp only [hfilter]
  exact flatMap_ite_of_mem (List.nodup_finRange n) (List.mem_finRange i) _

theorem bucketOrder_chainEntries (hmem : ∀ i, ∀ e ∈ chains i, bucket e.1 = i) :
    BucketOrder (fun k ↦ (bucket k).val) (chainEntries chains) := by
  rw [BucketOrder, chainEntries, List.pairwise_flatMap]
  refine ⟨fun i _ ↦ List.pairwise_of_forall_mem_list fun e he f hf ↦ ?_, ?_⟩
  · rw [hmem i e he, hmem i f hf]
  · refine (List.pairwise_lt_finRange n).imp fun {i j} hij e he f hf ↦ ?_
    rw [hmem i e he, hmem j f hf]
    exact hij.le

variable [DecidableEq κ]

/-- The chain of a key after a set. -/
def setInChain (k : κ) (v : β) (es : List (κ × β)) : List (κ × β) :=
  if (Bucket.get k es).isSome then Bucket.replace k v es else (k, v) :: es

theorem nodup_setInChain {k : κ} {v : β} {es : List (κ × β)} (h : (es.map Prod.fst).Nodup) :
    ((setInChain k v es).map Prod.fst).Nodup := by
  rw [setInChain]
  split_ifs with hget
  · rwa [Bucket.keys_replace]
  · refine List.nodup_cons.mpr ⟨?_, h⟩
    exact Bucket.get_eq_none_iff.mp (Option.not_isSome_iff_eq_none.mp hget)

theorem eq_or_mem_of_mem_setInChain {k : κ} {v : β} {es : List (κ × β)} {e : κ × β}
    (h : e ∈ setInChain k v es) : e = (k, v) ∨ e ∈ es := by
  have hset : setInChain k v es = Bucket.set (fun _ ↦ 0) k v es := by
    rw [setInChain, Bucket.set]
    cases es with
    | nil => rfl
    | cons e es => rw [Bucket.push, if_pos (Nat.le_refl _)]
  rw [hset] at h
  exact Bucket.eq_or_mem_of_mem_set _ h

theorem mem_update_setInChain {k : κ} {v : β} (hmem : ∀ i, ∀ e ∈ chains i, bucket e.1 = i) :
    ∀ i, ∀ e ∈ Function.update chains (bucket k) (setInChain k v (chains (bucket k))) i,
      bucket e.1 = i := by
  intro i e he
  by_cases hi : i = bucket k
  · subst hi
    rw [Function.update_self] at he
    rcases eq_or_mem_of_mem_setInChain he with rfl | he
    exacts [rfl, hmem _ e he]
  · rw [Function.update_of_ne hi] at he
    exact hmem i e he

/-- A set on the chain of its key is a set on the list of all entries. -/
theorem chainEntries_update {k : κ} {v : β} (hmem : ∀ i, ∀ e ∈ chains i, bucket e.1 = i) :
    chainEntries (Function.update chains (bucket k) (setInChain k v (chains (bucket k)))) =
      Bucket.set (fun k ↦ (bucket k).val) k v (chainEntries chains) := by
  have hmem' := mem_update_setInChain (k := k) (v := v) hmem
  refine eq_of_chains (bucketOrder_chainEntries hmem')
    (bucketOrder_set (bucketOrder_chainEntries hmem)) fun i ↦ ?_
  by_cases hi : i < n
  · obtain ⟨i, rfl⟩ : ∃ j : Fin n, j.val = i := ⟨⟨i, hi⟩, rfl⟩
    rw [bucketChain_chainEntries hmem', bucketChain_set, bucketChain_chainEntries hmem]
    by_cases hk : bucket k = i
    · subst hk
      rw [Function.update_self, if_pos rfl]
      rfl
    · rw [Function.update_of_ne (Ne.symm hk), if_neg fun h ↦ hk (Fin.ext h)]
  · have hnil (es : List (κ × β)) : bucketChain (fun k ↦ (bucket k).val) i es = [] := by
      refine List.filter_eq_nil_iff.mpr fun e _ ↦ ?_
      rw [decide_eq_true_eq]
      rintro rfl
      exact hi (bucket e.1).isLt
    rw [hnil, hnil]

end Chains

/-- A chained hash table with `n` buckets. -/
structure ChainedTable {n : ℕ} (bucket : κ → Fin n) (β : Type) where
  chains : Fin n → List (κ × β)
  entryCount : ℕ
  mem_chains : ∀ i, ∀ e ∈ chains i, bucket e.1 = i
  nodup_keys : ∀ i, ((chains i).map Prod.fst).Nodup
  entryCount_eq : entryCount = (chainEntries chains).length

namespace ChainedTable

variable {n : ℕ} {bucket : κ → Fin n}

/-- The table without entries. -/
def empty : ChainedTable bucket β where
  chains _ := []
  entryCount := 0
  mem_chains _ _ h := absurd h List.not_mem_nil
  nodup_keys _ := List.nodup_nil
  entryCount_eq := by simp [chainEntries]

/-- The entries, in the order in which a loop over the buckets visits them. -/
def entries (t : ChainedTable bucket β) : List (κ × β) := chainEntries t.chains

variable [DecidableEq κ]

/-- Search the chain of a key. -/
def get (t : ChainedTable bucket β) (k : κ) : Option β := Bucket.get k (t.chains (bucket k))

/-- A search in a chain finds what a search in the list of all entries finds. -/
theorem get_entries (t : ChainedTable bucket β) (k : κ) : Bucket.get k t.entries = t.get k := by
  rw [get, ← bucketChain_chainEntries t.mem_chains]
  exact (get_bucketChain k _).symm

/-- Replace the value of a key, or put a new entry in front of its chain and count it. -/
def set (t : ChainedTable bucket β) (k : κ) (v : β) : ChainedTable bucket β where
  chains := Function.update t.chains (bucket k) (setInChain k v (t.chains (bucket k)))
  entryCount := if (t.get k).isSome then t.entryCount else t.entryCount + 1
  mem_chains := mem_update_setInChain t.mem_chains
  nodup_keys i := by
    by_cases hi : i = bucket k
    · subst hi
      rw [Function.update_self]
      exact nodup_setInChain (t.nodup_keys _)
    · rw [Function.update_of_ne hi]
      exact t.nodup_keys i
  entryCount_eq := by
    rw [chainEntries_update t.mem_chains, length_set, ← get_entries, t.entryCount_eq]
    rfl

/-- The list of entries after a set. -/
theorem entries_set (t : ChainedTable bucket β) (k : κ) (v : β) :
    (t.set k v).entries = Bucket.set (fun k ↦ (bucket k).val) k v t.entries :=
  chainEntries_update t.mem_chains

theorem get_set (t : ChainedTable bucket β) (k k' : κ) (v : β) :
    (t.set k v).get k' = if k' = k then some v else t.get k' := by
  rw [← get_entries, entries_set, Bucket.get_set, get_entries]

omit [DecidableEq κ] in
/-- A key stands in one entry only. -/
theorem nodup_keys_entries (t : ChainedTable bucket β) : (t.entries.map Prod.fst).Nodup := by
  rw [entries, chainEntries, List.map_flatMap, List.nodup_flatMap]
  refine ⟨fun i _ ↦ t.nodup_keys i, (List.nodup_finRange n).imp fun {i j} hij ↦ ?_⟩
  intro k hi hj
  obtain ⟨e, he, rfl⟩ := List.mem_map.mp hi
  obtain ⟨f, hf, heq⟩ := List.mem_map.mp hj
  exact hij (by rw [← t.mem_chains i e he, ← t.mem_chains j f hf, heq])

/-! ### Sequences of sets -/

/-- The table after a sequence of sets. -/
def ofSets (ops : List (κ × β)) : ChainedTable bucket β :=
  ops.foldl (fun t op ↦ t.set op.1 op.2) empty

theorem ofSets_concat (ops : List (κ × β)) (op : κ × β) :
    (ofSets (ops ++ [op]) : ChainedTable bucket β) = (ofSets ops).set op.1 op.2 := by
  rw [ofSets, List.foldl_append]
  rfl

/-- A search finds the last value that was set for a key. -/
theorem get_ofSets (ops : List (κ × β)) (k : κ) :
    (ofSets ops : ChainedTable bucket β).get k =
      (ops.reverse.find? fun op ↦ op.1 = k).map Prod.snd := by
  induction ops using List.reverseRecOn with
  | nil => rfl
  | append_singleton ops op ih =>
    rw [ofSets_concat, get_set, ih, List.reverse_append, List.reverse_singleton,
      List.singleton_append, List.find?_cons]
    by_cases hk : op.1 = k
    · simp [hk]
    · simp [hk, Ne.symm hk]

/-- The count is the number of distinct keys. -/
theorem entryCount_ofSets (ops : List (κ × β)) :
    (ofSets ops : ChainedTable bucket β).entryCount = (ops.map Prod.fst).toFinset.card := by
  induction ops using List.reverseRecOn with
  | nil => rfl
  | append_singleton ops op ih =>
    have hsome : ((ofSets ops : ChainedTable bucket β).get op.1).isSome ↔
        op.1 ∈ (ops.map Prod.fst).toFinset := by
      rw [get_ofSets, Option.isSome_map, List.find?_isSome, List.mem_toFinset, List.mem_map]
      simp
    have hkeys : ((ops ++ [op]).map Prod.fst).toFinset =
        insert op.1 (ops.map Prod.fst).toFinset := by
      ext k
      simp
    rw [ofSets_concat, hkeys]
    change (if ((ofSets ops : ChainedTable bucket β).get op.1).isSome then _ else _) = _
    rw [ih]
    split_ifs with hget
    · rw [Finset.insert_eq_self.mpr (hsome.mp hget)]
    · rw [Finset.card_insert_of_notMem (mt hsome.mpr hget)]

end ChainedTable

end PuppetC
