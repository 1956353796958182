import PuppetC.Support.ChainedTable
import PuppetC.Value.Look

/-!
# Hash tables and their copies

A hash value has 16 buckets. As a table it answers what was set last and counts its keys. A copy is
a new table that is set entry by entry in the order of the original, so it finds the same values,
but each chain is turned around. A copy lists its entries in the order of the original, in every
hash within the value, exactly if no hash in it has two keys in one bucket.

## Main definitions

* `HashTable`: `puppet_hash_t` with its chains.
* `Value.Laid`: the hashes of a value list their entries as a table does; `LaidValue`.
* `Value.KeysApart`: no two keys of a hash share a bucket.

## Main results

* `hashSet_entries`: the entries of a hash value are those of a table.
* `Value.copy_eq_self_iff`: when a copy is the original.
* `hash_table_law`: the law of a table and of copies.
-/

namespace PuppetC

/-- The bucket of a key in a hash value. -/
def valueBucket (key : String) : Fin 16 := ⟨bucketOf 16 key, Nat.mod_lt _ (by decide)⟩

/-- The table of a hash value. -/
abbrev HashTable : Type := ChainedTable valueBucket Value

/-- `puppet_hash_set` on a table is `hashSet` on its entries. -/
theorem hashSet_entries (t : HashTable) (k : String) (v : Value) :
    (t.set k v).entries = hashSet t.entries k v :=
  t.entries_set k v

/-- `puppet_hash_get` on a table is `hashGet` on its entries. -/
theorem hashGet_entries (t : HashTable) (k : String) : hashGet t.entries k = t.get k :=
  t.get_entries k

theorem setEntries_eq_foldl (es fs : List (String × Value)) :
    setEntries es fs = fs.foldl (fun es e ↦ Bucket.set (bucketOf 16) e.1 e.2 es) es := by
  induction fs generalizing es with
  | nil => rfl
  | cons f fs ih => exact ih _

namespace Value

/-- The hashes of a value list their entries in the order of the buckets, with distinct keys. -/
inductive Laid : Value → Prop where
  | undef : Laid undef
  | bool (b : Bool) : Laid (bool b)
  | string (s : String) : Laid (string s)
  | number (n : ℚ) : Laid (number n)
  | array {items : List Value} (h : ∀ v ∈ items, Laid v) : Laid (array items)
  | hash {entries : List (String × Value)} (hkeys : (entries.map Prod.fst).Nodup)
      (horder : BucketOrder (bucketOf 16) entries) (h : ∀ e ∈ entries, Laid e.2) :
      Laid (hash entries)
  | regexp (pattern : String) : Laid (regexp pattern)
  | deferred (f : String) {args : List Value} (h : ∀ v ∈ args, Laid v) : Laid (deferred f args)

/-- No two keys of a hash in a value share a bucket. -/
inductive KeysApart : Value → Prop where
  | undef : KeysApart undef
  | bool (b : Bool) : KeysApart (bool b)
  | string (s : String) : KeysApart (string s)
  | number (n : ℚ) : KeysApart (number n)
  | array {items : List Value} (h : ∀ v ∈ items, KeysApart v) : KeysApart (array items)
  | hash {entries : List (String × Value)}
      (hbuckets : (entries.map fun e ↦ bucketOf 16 e.1).Nodup)
      (h : ∀ e ∈ entries, KeysApart e.2) : KeysApart (hash entries)
  | regexp (pattern : String) : KeysApart (regexp pattern)
  | deferred (f : String) {args : List Value} (h : ∀ v ∈ args, KeysApart v) :
      KeysApart (deferred f args)

/-- A hash with the entries of a table is laid out as one. -/
theorem laid_hash_entries (t : HashTable) (h : ∀ e ∈ t.entries, e.2.Laid) :
    (hash t.entries).Laid :=
  .hash t.nodup_keys_entries (bucketOrder_chainEntries t.mem_chains) h

theorem Laid.keyed {v : Value} (hv : v.Laid) : v.Keyed := by
  induction hv with
  | undef => exact .undef
  | bool b => exact .bool b
  | string s => exact .string s
  | number n => exact .number n
  | regexp pattern => exact .regexp pattern
  | array _ ih => exact .array ih
  | hash hkeys _ _ ih => exact .hash hkeys ih
  | deferred f _ ih => exact .deferred f ih

/-- Copies of some values are these exactly if each copy is. -/
theorem map_copy_eq_self_iff {vs : List Value} : vs.map copy = vs ↔ ∀ v ∈ vs, v.copy = v := by
  conv_lhs => rw [← List.map_id vs, List.map_map]
  exact List.map_inj_left

theorem copyEntries_eq_self_iff {es : List (String × Value)} :
    copyEntries es = es ↔ ∀ e ∈ es, e.2.copy = e.2 := by
  rw [copyEntries_eq_map]
  conv_lhs => rw [← List.map_id es, List.map_map]
  rw [List.map_inj_left]
  simp [Prod.ext_iff]

/-- A copy is the original, with the same order in every hash, exactly if no hash has two keys in
one bucket. -/
theorem copy_eq_self_iff {v : Value} (hv : v.Laid) : v.copy = v ↔ v.KeysApart := by
  induction hv with
  | undef => exact iff_of_true rfl .undef
  | bool b => exact iff_of_true rfl (.bool b)
  | string s => exact iff_of_true rfl (.string s)
  | number n => exact iff_of_true rfl (.number n)
  | regexp pattern => exact iff_of_true rfl (.regexp pattern)
  | @array items _ ih =>
    rw [copy, copyList_eq_map, array.injEq, map_copy_eq_self_iff]
    constructor
    · exact fun h ↦ .array fun v hv ↦ (ih v hv).mp (h v hv)
    · intro h
      cases h with
      | array h => exact fun v hv ↦ (ih v hv).mpr (h v hv)
  | @deferred f args _ ih =>
    rw [copy, copyList_eq_map, deferred.injEq, and_iff_right rfl, map_copy_eq_self_iff]
    constructor
    · exact fun h ↦ .deferred f fun v hv ↦ (ih v hv).mp (h v hv)
    · intro h
      cases h with
      | deferred _ h => exact fun v hv ↦ (ih v hv).mpr (h v hv)
  | @hash es hkeys horder _ ih =>
    rw [copy, hash.injEq, setEntries_eq_foldl,
      foldl_set_nil_eq_iff horder hkeys (keys_copyEntries es), copyEntries_eq_self_iff]
    constructor
    · exact fun h ↦ .hash h.2 fun e he ↦ (ih e he).mp (h.1 e he)
    · intro h
      cases h with
      | hash hbuckets h => exact ⟨fun e he ↦ (ih e he).mpr (h e he), hbuckets⟩

end Value

/-- A value whose hashes list their entries as a table does. -/
abbrev LaidValue : Type := { v : Value // v.Laid }

/-- After any sets a table answers the last value that was set for a key and counts the distinct
keys. A copy of a value finds the same as the original, and it is the original, with the same order
of entries in every hash, exactly if no hash has two keys in one bucket. -/
theorem hash_table_law (ops : List (String × Value)) (v : LaidValue) :
    (∀ k, (ChainedTable.ofSets ops : HashTable).get k =
      (ops.reverse.find? fun op ↦ op.1 = k).map Prod.snd) ∧
    (ChainedTable.ofSets ops : HashTable).entryCount = (ops.map Prod.fst).toFinset.card ∧
    Value.Alike (some v.1.copy) (some v.1) ∧ (v.1.copy = v.1 ↔ v.1.KeysApart) :=
  ⟨ChainedTable.get_ofSets ops, ChainedTable.entryCount_ofSets ops, v.2.keyed.alike_copy,
    Value.copy_eq_self_iff v.2⟩

/-- `{'a' => 1, 'q' => 2}`, whose keys share a bucket: the copy lists them the other way round. -/
theorem copy_ne_self_a_q : ∃ v : LaidValue,
    v.1 = .hash (ChainedTable.ofSets [("a", .number 1), ("q", .number 2)] : HashTable).entries ∧
      v.1.copy ≠ v.1 := by
  have hentries : (ChainedTable.ofSets [("a", .number 1), ("q", .number 2)] : HashTable).entries =
      [("q", .number 2), ("a", .number 1)] := by
    decide +kernel
  refine ⟨⟨_, Value.laid_hash_entries _ ?_⟩, rfl, ?_⟩
  · rw [hentries]
    simp [Value.Laid.number]
  · dsimp only
    rw [hentries]
    decide +kernel

end PuppetC
