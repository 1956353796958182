import PuppetC.Hiera.ConfigTree
import PuppetC.Value.Look

/-!
# Deep merges of hashes

`deep_merge` merges its arguments into an empty hash, from left to right. A key that the hash does
not hold yet is looked for in two other spellings, with underscores for dashes and with the two
exchanged; where such a key holds a hash and the new value is a hash, the new value is merged into
it, and the new key is lost. Otherwise the merge is the recursive union in which the right value
wins.

## Main definitions

* `deepMergeHash`, `funcDeepMerge`: `deep_merge_hash`, `puppet_func_deep_merge`.
* `mergesExactly`: no value is merged under another key.
* `Value.tree`: the data of a value, in which the order of buckets plays no part.
* `HashArg.mergeAll`, `HashArg.union`: the merge of several hashes, the union of their data.

## Main results

* `tree_deepMergeHash_iff`: one merge is the union exactly if no value is merged under another key.
* `deep_merge_union`: the merge of several hashes, and when the grouping makes no difference.
-/

namespace PuppetC

open ConfigTree

/-- `normalize_key`. -/
def normalizeKey (key : String) : String :=
  String.ofList (key.toList.map fun c ↦ if c = '-' then '_' else c)

/-- The normalized key, with dashes where the key itself has underscores. -/
def swapKey (key : String) : String :=
  String.ofList (key.toList.map fun c ↦ if c = '_' then '-' else if c = '-' then '_' else c)

/-- The entry of the destination that a value is merged into: that of the key, else that of the
normalized key, else that of the exchanged one. -/
def destEntry (dest : List (String × Value)) (key : String) : Option (String × Value) :=
  [key, normalizeKey key, swapKey key].findSome? fun k ↦ (hashGet dest k).map fun v ↦ (k, v)

/-- `deep_merge_hash`. -/
def deepMergeHash (dest : List (String × Value)) :
    List (String × Value) → List (String × Value)
  | [] => dest
  | (key, .hash src) :: es =>
    match destEntry dest key with
    | some (k, .hash base) => deepMergeHash (hashSet dest k (.hash (deepMergeHash base src))) es
    | _ => deepMergeHash (hashSet dest key (Value.hash src).copy) es
  | (key, v) :: es => deepMergeHash (hashSet dest key v.copy) es

/-- One argument of `puppet_func_deep_merge`, with the messages so far. -/
def deepMergeArgument (result : List (String × Value) × List String) :
    Value → List (String × Value) × List String
  | .undef => result
  | .hash es => (deepMergeHash result.1 es, result.2)
  | _ => (result.1, result.2 ++ ["deep_merge() skipping non-hash argument"])

/-- `puppet_func_deep_merge`, of the values of its arguments: the result and the messages. -/
def funcDeepMerge (args : List Value) : Value × List String :=
  if args = [] then (.undef, ["deep_merge() requires at least 1 argument"])
  else
    let result := args.foldl deepMergeArgument ([], [])
    (.hash result.1, result.2)

/-- No value is merged under another key than its own. -/
def mergesExactly (dest : List (String × Value)) : List (String × Value) → Prop
  | [] => True
  | (key, .hash src) :: es =>
    match destEntry dest key with
    | some (k, .hash base) =>
      k = key ∧ mergesExactly base src ∧
        mergesExactly (hashSet dest k (.hash (deepMergeHash base src))) es
    | _ => mergesExactly (hashSet dest key (Value.hash src).copy) es
  | (key, v) :: es => mergesExactly (hashSet dest key v.copy) es

/-! ### The data of a value -/

/-- What is neither an array nor a hash, and the name of a deferred function. -/
inductive Scalar where
  | undef
  | bool (b : Bool)
  | string (s : String)
  | number (n : ℚ)
  | regexp (pattern : String)
  | deferred (f : String)

namespace Value

mutual

/-- The data of a value. A deferred call is the list of its function and its arguments. -/
def tree : Value → ConfigTree Scalar
  | .array items => .list (treeItems items)
  | .hash entries => .node (treeEntries entries)
  | .undef => .atom .undef
  | .bool b => .atom (.bool b)
  | .string s => .atom (.string s)
  | .number n => .atom (.number n)
  | .regexp pattern => .atom (.regexp pattern)
  | .deferred f args => .list (.atom (.deferred f) :: treeItems args)

/-- The data of the items of an array. -/
def treeItems : List Value → List (ConfigTree Scalar)
  | [] => []
  | v :: vs => v.tree :: treeItems vs

/-- The data of the entries of a hash. -/
def treeEntries : List (String × Value) → String → Option (ConfigTree Scalar)
  | [], _ => none
  | (k, v) :: es, k' => if k = k' then some v.tree else treeEntries es k'

end

theorem treeItems_eq_map (items : List Value) : treeItems items = items.map tree := by
  induction items with
  | nil => rfl
  | cons v vs ih => rw [treeItems, ih, List.map_cons]

theorem treeEntries_eq (es : List (String × Value)) (k : String) :
    treeEntries es k = (hashGet es k).map tree := by
  induction es with
  | nil => rfl
  | cons e es ih =>
    obtain ⟨k', v⟩ := e
    rw [treeEntries, hashGet_cons, ih]
    split_ifs <;> rfl

theorem treeEntries_hashSet (es : List (String × Value)) (k k' : String) (v : Value) :
    treeEntries (hashSet es k v) k' = if k' = k then some v.tree else treeEntries es k' := by
  rw [treeEntries_eq, treeEntries_eq, hashGet_hashSet]
  split_ifs <;> rfl

theorem tree_ne_node {v : Value} (h : ∀ es, v ≠ .hash es) (f) : v.tree ≠ .node f := by
  cases v with
  | hash es => exact absurd rfl (h es)
  | undef | bool | string | number | regexp | array | deferred => simp [tree]

/-- A copy has the same data. -/
theorem tree_copy {v : Value} (hv : v.Keyed) : v.copy.tree = v.tree := by
  induction v using induct with
  | undef | bool | string | number | regexp => rfl
  | array items ih =>
    obtain _ | _ | _ | _ | hitems := hv
    rw [copy, tree, tree, treeItems_eq_map, treeItems_eq_map, copyList_eq_map, List.map_map]
    exact congrArg _ (List.map_congr_left fun w hw ↦ ih w hw (hitems w hw))
  | deferred f args ih =>
    obtain _ | _ | _ | _ | _ | _ | _ | ⟨-, hargs⟩ := hv
    rw [copy, tree, tree, treeItems_eq_map, treeItems_eq_map, copyList_eq_map, List.map_map]
    exact congrArg (fun ts ↦ ConfigTree.list (_ :: ts))
      (List.map_congr_left fun w hw ↦ ih w hw (hargs w hw))
  | hash es ih =>
    obtain _ | _ | _ | _ | _ | ⟨hkeys, hes⟩ := hv
    rw [copy, tree, tree]
    refine congrArg _ (funext fun k ↦ ?_)
    have hcopy : ((copyEntries es).map Prod.fst).Nodup := by rwa [keys_copyEntries]
    rw [treeEntries_eq, treeEntries_eq, hashGet_setEntries hcopy, hashGet_copyEntries]
    cases hget : hashGet es k with
    | none => rfl
    | some w =>
      have hmem := mem_of_hashGet hget
      exact congrArg some (ih _ hmem (hes _ hmem))

end Value

/-! ### What a merge leaves alone -/

/-- The entry that a value is merged into is that of its key, or the key is missing. -/
theorem destEntry_eq_some {dest : List (String × Value)} {key k : String} {v : Value}
    (h : destEntry dest key = some (k, v)) :
    hashGet dest k = some v ∧ (k = key ∨ hashGet dest key = none) := by
  unfold destEntry at h
  obtain ⟨k', hk', hget⟩ := List.exists_of_findSome?_eq_some h
  obtain ⟨w, hw, hpair⟩ := Option.map_eq_some_iff.1 hget
  obtain ⟨rfl, rfl⟩ := Prod.mk.inj hpair
  refine ⟨hw, ?_⟩
  cases hkey : hashGet dest key with
  | none => exact Or.inr rfl
  | some u =>
    rw [List.findSome?_cons, hkey] at h
    exact Or.inl (Prod.mk.inj (Option.some.inj h)).1.symm

theorem destEntry_of_hashGet {dest : List (String × Value)} {key : String} {v : Value}
    (h : hashGet dest key = some v) : destEntry dest key = some (key, v) := by
  rw [destEntry, List.findSome?_cons, h]
  rfl

/-- A value that is not merged into the destination, since it is no hash or finds none. -/
def IsSet (dest : List (String × Value)) (key : String) (v : Value) : Prop :=
  ∀ k base src, v = .hash src → destEntry dest key ≠ some (k, .hash base)

section Rounds

variable {dest es src base : List (String × Value)} {key k : String} {v : Value}

theorem deepMergeHash_merged (h : destEntry dest key = some (k, .hash base)) :
    deepMergeHash dest ((key, .hash src) :: es) =
      deepMergeHash (hashSet dest k (.hash (deepMergeHash base src))) es := by
  simp only [deepMergeHash, h]

theorem deepMergeHash_set (h : IsSet dest key v) :
    deepMergeHash dest ((key, v) :: es) = deepMergeHash (hashSet dest key v.copy) es := by
  cases v with
  | hash src =>
    rw [deepMergeHash]
    split
    · next hdest => exact absurd hdest (h _ _ src rfl)
    · rfl
  | undef | bool | string | number | regexp | array | deferred =>
    rw [deepMergeHash]
    simp

theorem mergesExactly_merged_iff (h : destEntry dest key = some (k, .hash base)) :
    mergesExactly dest ((key, .hash src) :: es) ↔
      k = key ∧ mergesExactly base src ∧
        mergesExactly (hashSet dest k (.hash (deepMergeHash base src))) es := by
  simp only [mergesExactly, h]

theorem mergesExactly_set_iff (h : IsSet dest key v) :
    mergesExactly dest ((key, v) :: es) ↔ mergesExactly (hashSet dest key v.copy) es := by
  cases v with
  | hash src =>
    rw [mergesExactly]
    split
    · next hdest => exact absurd hdest (h _ _ src rfl)
    · rfl
  | undef | bool | string | number | regexp | array | deferred =>
    rw [mergesExactly]
    simp

/-- Induction on a merge: each value is merged into a hash of the destination, or set. -/
theorem deepMergeHash_induct
    {P : List (String × Value) → List (String × Value) → Prop} (nil : ∀ dest, P dest [])
    (merged : ∀ dest key src es k base, destEntry dest key = some (k, .hash base) →
      P base src → P (hashSet dest k (.hash (deepMergeHash base src))) es →
        P dest ((key, .hash src) :: es))
    (set : ∀ dest key v es, IsSet dest key v → P (hashSet dest key v.copy) es →
      P dest ((key, v) :: es))
    (dest es : List (String × Value)) : P dest es := by
  induction dest, es using deepMergeHash.induct with
  | case1 dest => exact nil dest
  | case2 dest key src es k base hdest ihbase ih => exact merged _ _ _ _ _ _ hdest ihbase ih
  | case3 dest key src es hdest ih => exact set _ _ _ _ (fun k base _ _ h ↦ hdest k base h) ih
  | case4 dest key v es hv ih => exact set _ _ _ _ (fun _ _ src h ↦ absurd h (hv src)) ih

end Rounds

/-- A key that neither the destination nor the source has is missing after the merge. -/
theorem hashGet_deepMergeHash_eq_none {dest es : List (String × Value)} {k : String}
    (hk : k ∉ es.map Prod.fst) (hget : hashGet dest k = none) :
    hashGet (deepMergeHash dest es) k = none := by
  induction dest, es using deepMergeHash_induct with
  | nil dest => rwa [deepMergeHash]
  | merged dest key src es k' base hdest _ ih =>
    rw [List.map_cons, List.mem_cons, not_or] at hk
    rw [deepMergeHash_merged hdest]
    refine ih hk.2 ?_
    rw [hashGet_hashSet_of_ne, hget]
    rintro rfl
    rw [(destEntry_eq_some hdest).1] at hget
    cases hget
  | set dest key v es hset ih =>
    rw [List.map_cons, List.mem_cons, not_or] at hk
    rw [deepMergeHash_set hset]
    exact ih hk.2 (by rwa [hashGet_hashSet_of_ne hk.1])

/-- If no key of the source is lost, the merge leaves the values of other keys alone. -/
theorem hashGet_deepMergeHash_of_notMem {dest es : List (String × Value)}
    (hes : (es.map Prod.fst).Nodup)
    (hkept : ∀ key ∈ es.map Prod.fst, (hashGet (deepMergeHash dest es) key).isSome) {k : String}
    (hk : k ∉ es.map Prod.fst) : hashGet (deepMergeHash dest es) k = hashGet dest k := by
  induction dest, es using deepMergeHash_induct with
  | nil dest => rw [deepMergeHash]
  | merged dest key src es k' base hdest _ ih =>
    rw [List.map_cons, List.nodup_cons] at hes
    rw [List.map_cons, List.mem_cons, not_or] at hk
    rw [List.map_cons, List.forall_mem_cons, deepMergeHash_merged hdest] at hkept
    rw [deepMergeHash_merged hdest, ih hes.2 hkept.2 hk.2]
    rcases destEntry_eq_some hdest with ⟨-, rfl | hnone⟩
    · exact hashGet_hashSet_of_ne hk.1 _ _
    · have hne : key ≠ k' := by
        rintro rfl
        rw [(destEntry_eq_some hdest).1] at hnone
        cases hnone
      have hlost := hashGet_deepMergeHash_eq_none hes.1
        ((hashGet_hashSet_of_ne hne dest (.hash (deepMergeHash base src))).trans hnone)
      rw [hlost] at hkept
      exact absurd hkept.1 (by simp)
  | set dest key v es hset ih =>
    rw [List.map_cons, List.nodup_cons] at hes
    rw [List.map_cons, List.mem_cons, not_or] at hk
    rw [List.map_cons, List.forall_mem_cons, deepMergeHash_set hset] at hkept
    rw [deepMergeHash_set hset, ih hes.2 hkept.2 hk.2]
    exact hashGet_hashSet_of_ne hk.1 _ _

/-! ### One merge -/

open Value

theorem overrideEntry_treeEntries_hashSet {dest es : List (String × Value)} {key : String}
    {v w : Value} (hkey : key ∉ es.map Prod.fst)
    (hw : overrideEntry (treeEntries dest key) (some v.tree) = some w.tree) (k : String) :
    overrideEntry (treeEntries (hashSet dest key w) k) (treeEntries es k) =
      overrideEntry (treeEntries dest k) (treeEntries ((key, v) :: es) k) := by
  rw [treeEntries_hashSet, treeEntries]
  by_cases hk : k = key
  · subst hk
    rw [if_pos rfl, if_pos rfl, treeEntries_eq es, hashGet_eq_none_iff.2 hkey, hw]
    exact overrideEntry_none_right _
  · rw [if_neg hk, if_neg (Ne.symm hk)]

/-- A value that is set wins over the one that it replaces. -/
theorem overrideEntry_of_isSet {dest : List (String × Value)} {key : String} {v : Value}
    (h : IsSet dest key v) (hv : v.Keyed) :
    overrideEntry (treeEntries dest key) (some v.tree) = some v.copy.tree := by
  rw [tree_copy hv, treeEntries_eq]
  cases hget : hashGet dest key with
  | none => exact overrideEntry_none_left _
  | some u =>
    rw [Option.map_some, overrideEntry]
    by_cases hsrc : ∃ src, v = .hash src
    · obtain ⟨src, rfl⟩ := hsrc
      refine congrArg some (override_of_not_node_left (tree_ne_node fun base hbase ↦ ?_) _)
      exact h key base src rfl (by rw [destEntry_of_hashGet hget, hbase])
    · exact congrArg some (override_of_not_node_right _
        (tree_ne_node fun src hv ↦ hsrc ⟨src, hv⟩))

theorem isSome_overrideEntry (x : Option (ConfigTree Scalar)) (t : ConfigTree Scalar) :
    (overrideEntry x (some t)).isSome := by
  cases x <;> rw [overrideEntry] <;> rfl

theorem isSome_treeEntries {es : List (String × Value)} {k : String} :
    (treeEntries es k).isSome = (hashGet es k).isSome := by
  rw [treeEntries_eq, Option.isSome_map]

/-- A merge is the union in which the source wins exactly if no value is merged under another
key. -/
theorem treeEntries_deepMergeHash_iff {dest es : List (String × Value)}
    (hes : (Value.hash es).Keyed) :
    (∀ k, treeEntries (deepMergeHash dest es) k =
      overrideEntry (treeEntries dest k) (treeEntries es k)) ↔ mergesExactly dest es := by
  induction dest, es using deepMergeHash_induct with
  | nil dest =>
    simp [deepMergeHash, mergesExactly, treeEntries, overrideEntry_none_right]
  | set dest key v es hset ih =>
    obtain ⟨hkey, hv, hes⟩ := keyed_hash_cons_iff.1 hes
    rw [deepMergeHash_set hset, mergesExactly_set_iff hset, ← ih hes]
    exact forall_congr' fun k ↦ by
      rw [overrideEntry_treeEntries_hashSet hkey (overrideEntry_of_isSet hset hv)]
  | merged dest key src es k base hdest ihbase ih =>
    obtain ⟨hkey, hsrc, hes⟩ := keyed_hash_cons_iff.1 hes
    obtain ⟨hget, hfound⟩ := destEntry_eq_some hdest
    rw [deepMergeHash_merged hdest, mergesExactly_merged_iff hdest, ← ih hes, ← ihbase hsrc]
    have hnodup : (es.map Prod.fst).Nodup := by
      obtain _ | _ | _ | _ | _ | ⟨hnodup, -⟩ := hes
      exact hnodup
    set M := deepMergeHash base src with hM
    -- the keys of the source are all there in a union
    have hkept (h : ∀ k', treeEntries (deepMergeHash (hashSet dest k (.hash M)) es) k' =
        overrideEntry (treeEntries dest k') (treeEntries ((key, .hash src) :: es) k'))
        (k' : String) (hk' : k' ∈ ((key, Value.hash src) :: es).map Prod.fst) :
        (hashGet (deepMergeHash (hashSet dest k (.hash M)) es) k').isSome := by
      rw [← isSome_treeEntries, h k', treeEntries_eq (_ :: es)]
      cases hv : hashGet ((key, Value.hash src) :: es) k' with
      | none => exact absurd hk' (hashGet_eq_none_iff.1 hv)
      | some v => exact isSome_overrideEntry _ _
    have hunion (hbase : ∀ k, treeEntries M k =
        overrideEntry (treeEntries base k) (treeEntries src k)) (hk : k = key) :
        overrideEntry (treeEntries dest key) (some (Value.hash src).tree) =
          some (Value.hash M).tree := by
      subst hk
      rw [treeEntries_eq, hget, Option.map_some, overrideEntry, tree, tree, tree, override]
      exact congrArg (fun f ↦ some (node f)) (funext fun k' ↦ (hbase k').symm)
    constructor
    · intro h
      have hall := hkept h
      have hk : k = key := by
        refine hfound.resolve_right fun hnone ↦ ?_
        have hne : key ≠ k := by
          rintro rfl
          rw [hget] at hnone
          cases hnone
        have hlost := hashGet_deepMergeHash_eq_none hkey
          ((hashGet_hashSet_of_ne hne dest (.hash M)).trans hnone)
        have hsome := hall key (by simp)
        rw [hlost] at hsome
        cases hsome
      subst hk
      have hlast := hashGet_deepMergeHash_of_notMem hnodup
        (fun k' hk' ↦ hall k' (List.mem_cons_of_mem _ hk')) hkey
      rw [hashGet_hashSet_self] at hlast
      have hbase : ∀ k', treeEntries M k' =
          overrideEntry (treeEntries base k') (treeEntries src k') := by
        have hat := h k
        rw [treeEntries_eq, hlast, treeEntries_eq, hget, treeEntries, if_pos rfl, Option.map_some,
          Option.map_some, overrideEntry, tree, tree, tree, override] at hat
        exact fun k' ↦ congrFun (node.inj (Option.some.inj hat)) k'
      refine ⟨rfl, hbase, fun k' ↦ ?_⟩
      rw [h k', overrideEntry_treeEntries_hashSet hkey (hunion hbase rfl)]
    · rintro ⟨rfl, hbase, h⟩ k'
      rw [h k', overrideEntry_treeEntries_hashSet hkey (hunion hbase rfl)]

/-- The data of a merge is the union exactly if no value is merged under another key. -/
theorem tree_deepMergeHash_iff {dest es : List (String × Value)} (hes : (Value.hash es).Keyed) :
    (Value.hash (deepMergeHash dest es)).tree =
        override (Value.hash dest).tree (Value.hash es).tree ↔ mergesExactly dest es := by
  rw [← treeEntries_deepMergeHash_iff hes, tree, tree, tree, override, node.injEq, funext_iff]

theorem keyed_deepMergeHash {dest es : List (String × Value)} (hdest : (Value.hash dest).Keyed) :
    (Value.hash (deepMergeHash dest es)).Keyed := by
  induction dest, es using deepMergeHash_induct with
  | nil dest => rwa [deepMergeHash]
  | merged dest key src es k base hmerged ihbase ih =>
    rw [deepMergeHash_merged hmerged]
    refine ih (keyed_hashSet hdest (ihbase ?_))
    obtain _ | _ | _ | _ | _ | ⟨-, hvalues⟩ := hdest
    exact hvalues _ (mem_of_hashGet (destEntry_eq_some hmerged).1)
  | set dest key v es hset ih =>
    rw [deepMergeHash_set hset]
    exact ih (keyed_hashSet hdest (keyed_copy v))

/-! ### The merge of all arguments -/

/-- A hash whose keys, and those of the hashes in it, are distinct. -/
abbrev HashArg := {es : List (String × Value) // (Value.hash es).Keyed}

namespace HashArg

/-- The hash as a value. -/
def value (a : HashArg) : Value := .hash a.1

/-- The empty hash. -/
def empty : HashArg := ⟨[], .hash List.nodup_nil (by simp)⟩

/-- `deep_merge_hash`, of the hashes that it is called with. -/
def merge (dest src : HashArg) : HashArg := ⟨deepMergeHash dest.1 src.1, keyed_deepMergeHash dest.2⟩

/-- The merge of hashes into the empty one. -/
def mergeAll (args : List HashArg) : HashArg := args.foldl merge empty

/-- No argument has a value that is merged under another key than its own. -/
def mergesAllExactly (dest : HashArg) : List HashArg → Prop
  | [] => True
  | a :: as => mergesExactly dest.1 a.1 ∧ mergesAllExactly (dest.merge a) as

/-- The recursive union of the data of hashes, in which the later ones win. -/
def union (dest : HashArg) (args : List HashArg) : ConfigTree Scalar :=
  (args.map fun a ↦ a.value.tree).foldl override dest.value.tree

theorem tree_merge_iff (dest src : HashArg) :
    (dest.merge src).value.tree = override dest.value.tree src.value.tree ↔
      mergesExactly dest.1 src.1 :=
  tree_deepMergeHash_iff src.2

/-- Every merge on the way gives the union exactly if no value is merged under another key. -/
theorem tree_foldl_merge_iff (dest : HashArg) (args : List HashArg) :
    (∀ pre post, args = pre ++ post →
      (pre.foldl merge dest).value.tree = union dest pre) ↔ mergesAllExactly dest args := by
  induction args generalizing dest with
  | nil => simp [mergesAllExactly, union]
  | cons a as ih =>
    rw [mergesAllExactly, ← ih, ← tree_merge_iff]
    constructor
    · intro h
      have hfirst : (dest.merge a).value.tree = override dest.value.tree a.value.tree :=
        h [a] as rfl
      refine ⟨hfirst, fun pre post has ↦ ?_⟩
      have hrest := h (a :: pre) post (by rw [has, List.cons_append])
      change (pre.foldl merge (dest.merge a)).value.tree =
        (pre.map fun a ↦ a.value.tree).foldl override (override _ _) at hrest
      rw [hrest, union, hfirst]
    · rintro ⟨hfirst, hrest⟩ pre post hsplit
      cases pre with
      | nil => rfl
      | cons b pre =>
        obtain ⟨rfl, has⟩ := List.cons.inj hsplit
        change (pre.foldl merge (dest.merge a)).value.tree =
          (pre.map fun a ↦ a.value.tree).foldl override (override _ _)
        rw [hrest pre post has, union, hfirst]

end HashArg

/-- `deep_merge` of hashes merges them all, without a message. -/
theorem funcDeepMerge_hashes {args : List HashArg} (h : args ≠ []) :
    funcDeepMerge (args.map HashArg.value) = ((HashArg.mergeAll args).value, []) := by
  have hfold (dest : HashArg) : (args.map HashArg.value).foldl deepMergeArgument (dest.1, []) =
      ((args.foldl HashArg.merge dest).1, []) := by
    clear h
    induction args generalizing dest with
    | nil => rfl
    | cons a as ih => exact ih (dest.merge a)
  rw [funcDeepMerge, if_neg (by simpa using h)]
  exact congrArg (fun result ↦ (Value.hash result.1, result.2)) (hfold HashArg.empty)

namespace HashArg

theorem isSome_hashGet_merge_iff {dest src : HashArg} (h : mergesExactly dest.1 src.1)
    (k : String) :
    (hashGet (dest.merge src).1 k).isSome ↔
      (hashGet dest.1 k).isSome ∨ (hashGet src.1 k).isSome := by
  have hunion := (treeEntries_deepMergeHash_iff src.2).2 h k
  rw [← isSome_treeEntries, ← isSome_treeEntries, ← isSome_treeEntries, merge, hunion]
  cases treeEntries dest.1 k <;> cases treeEntries src.1 k <;> simp [overrideEntry]

/-- The keys of the merge are those of the arguments. -/
theorem isSome_hashGet_foldl_iff {dest : HashArg} {args : List HashArg}
    (h : mergesAllExactly dest args) (k : String) :
    (hashGet (args.foldl merge dest).1 k).isSome ↔
      (hashGet dest.1 k).isSome ∨ ∃ a ∈ args, (hashGet a.1 k).isSome := by
  induction args generalizing dest with
  | nil => simp
  | cons a as ih =>
    rw [List.foldl_cons, ih h.2, isSome_hashGet_merge_iff h.1, or_assoc]
    simp only [List.mem_cons, exists_eq_or_imp]

theorem override_empty (a : HashArg) : override empty.value.tree a.value.tree = a.value.tree := by
  rw [value, value, tree, tree, override]
  exact congrArg node (funext fun k ↦ overrideEntry_none_left _)

/-- The data of the merge of two hashes. -/
theorem tree_mergeAll_pair {a b : HashArg} (h : mergesAllExactly empty [a, b]) :
    (mergeAll [a, b]).value.tree = override a.value.tree b.value.tree := by
  have hunion := (tree_foldl_merge_iff empty [a, b]).2 h [a, b] [] rfl
  change _ = override (override empty.value.tree a.value.tree) b.value.tree at hunion
  rwa [override_empty] at hunion

/-- When the grouping of three merges makes no difference. -/
theorem tree_mergeAll_assoc_iff {a b c : HashArg} (hab : mergesAllExactly empty [a, b])
    (hbc : mergesAllExactly empty [b, c])
    (hleft : mergesAllExactly empty [mergeAll [a, b], c])
    (hright : mergesAllExactly empty [a, mergeAll [b, c]]) :
    (mergeAll [mergeAll [a, b], c]).value.tree = (mergeAll [a, mergeAll [b, c]]).value.tree ↔
      Regroups a.value.tree b.value.tree c.value.tree := by
  rw [tree_mergeAll_pair hleft, tree_mergeAll_pair hright, tree_mergeAll_pair hab,
    tree_mergeAll_pair hbc]
  exact override_assoc_iff _ _ _

/-- A hash of one entry. -/
def single (k : String) (v : Value) (hv : v.Keyed) : HashArg :=
  ⟨[(k, v)], .hash (List.nodup_singleton k) (by simpa using hv)⟩

/-- A hash of one entry, in a hash of one entry. -/
def nested (k key : String) : HashArg :=
  single k (single key (.bool true) (.bool true)).value (single key (.bool true) (.bool true)).2

theorem hashSet_nil (k : String) (v : Value) : hashSet [] k v = [(k, v)] := rfl

theorem hashSet_cons_self (k : String) (v w : Value) (es : List (String × Value)) :
    hashSet ((k, v) :: es) k w = (k, w) :: es := by
  simp [hashSet, Bucket.set, Bucket.get, Bucket.replace]

end HashArg

open HashArg

theorem funcDeepMerge_pair (a b : HashArg) :
    (funcDeepMerge [a.value, b.value]).1 = (mergeAll [a, b]).value :=
  congrArg Prod.fst (funcDeepMerge_hashes (List.cons_ne_nil a [b]))

/-- `deep_merge` gives the recursive union in which later values win, with the keys of all
arguments, as long as no value is merged under another key than its own. The grouping makes no
difference unless a hash is overridden by something else and this by a hash. -/
theorem deep_merge_union :
    (∀ args : List HashArg,
      ((∀ pre post, args = pre ++ post → pre ≠ [] →
        (funcDeepMerge (pre.map value)).1.tree = HashArg.union empty pre) ↔
          mergesAllExactly empty args) ∧
      (args ≠ [] → mergesAllExactly empty args → ∃ r : HashArg,
        funcDeepMerge (args.map value) = (r.value, []) ∧
          ∀ k, (hashGet r.1 k).isSome ↔ ∃ a ∈ args, (hashGet a.1 k).isSome)) ∧
    ∀ a b c : HashArg, mergesAllExactly empty [a, b] → mergesAllExactly empty [b, c] →
      mergesAllExactly empty [mergeAll [a, b], c] → mergesAllExactly empty [a, mergeAll [b, c]] →
        ((funcDeepMerge [(funcDeepMerge [a.value, b.value]).1, c.value]).1.tree =
          (funcDeepMerge [a.value, (funcDeepMerge [b.value, c.value]).1]).1.tree ↔
            Regroups a.value.tree b.value.tree c.value.tree) := by
  refine ⟨fun args ↦ ⟨?_, fun hargs h ↦ ⟨mergeAll args, funcDeepMerge_hashes hargs, fun k ↦ ?_⟩⟩,
    fun a b c hab hbc hleft hright ↦ ?_⟩
  · rw [← tree_foldl_merge_iff]
    refine forall_congr' fun pre ↦ forall_congr' fun post ↦ imp_congr_right fun _ ↦ ?_
    cases pre with
    | nil => exact iff_of_true (fun hpre ↦ absurd rfl hpre) rfl
    | cons a pre =>
      rw [funcDeepMerge_hashes (List.cons_ne_nil a pre)]
      simp only [ne_eq, reduceCtorEq, not_false_eq_true, true_imp_iff]
      rfl
  · have hempty : ¬ (hashGet empty.1 k).isSome := by simp [empty]
    rw [mergeAll, isSome_hashGet_foldl_iff h, or_iff_right hempty]
  · rw [funcDeepMerge_pair, funcDeepMerge_pair, funcDeepMerge_pair, funcDeepMerge_pair]
    exact tree_mergeAll_assoc_iff hab hbc hleft hright

theorem deep_merge_union_nested :
    let x := nested "k" "x"
    (∃ r : HashArg, funcDeepMerge ([x, nested "k" "y"].map value) = (r.value, []) ∧
      ∀ k, (hashGet r.1 k).isSome ↔ ∃ a ∈ [x, nested "k" "y"], (hashGet a.1 k).isSome) ∧
    ((funcDeepMerge [(funcDeepMerge [x.value, x.value]).1, x.value]).1.tree =
      (funcDeepMerge [x.value, (funcDeepMerge [x.value, x.value]).1]).1.tree ↔
        Regroups x.value.tree x.value.tree x.value.tree) := by
  refine ⟨(deep_merge_union.1 _).2 (List.cons_ne_nil _ _) ?_, deep_merge_union.2 _ _ _ ?_ ?_ ?_ ?_⟩
  all_goals
    simp [mergesAllExactly, mergeAll, nested, single, empty, HashArg.merge, mergesExactly,
      deepMergeHash, destEntry, hashGet_cons, value, Value.copy, Value.copyEntries, setEntries,
      hashSet_nil, hashSet_cons_self]

/-- A dash and an underscore are confused, and a hash that was overridden comes back. -/
theorem not_deep_merge_union :
    (¬ ∀ args : List HashArg, args ≠ [] →
      (funcDeepMerge (args.map value)).1.tree = HashArg.union empty args) ∧
    ¬ ∀ a b c : HashArg,
      (funcDeepMerge [(funcDeepMerge [a.value, b.value]).1, c.value]).1.tree =
        (funcDeepMerge [a.value, (funcDeepMerge [b.value, c.value]).1]).1.tree := by
  constructor
  · intro h
    have hunion := h [nested "a_b" "x", nested "a-b" "y"] (List.cons_ne_nil _ _)
    have hnorm : normalizeKey "a-b" = "a_b" := rfl
    have hlost : (mergeAll [nested "a_b" "x", nested "a-b" "y"]).1 =
        [("a_b", .hash (hashSet [("x", .bool true)] "y" (.bool true)))] := by
      simp [mergeAll, nested, single, empty, HashArg.merge, deepMergeHash, destEntry,
        hashGet_cons, value, Value.copy, Value.copyEntries, setEntries, hashSet_nil,
        hashSet_cons_self, hnorm]
    rw [funcDeepMerge_hashes (List.cons_ne_nil _ _), value, hlost] at hunion
    have hat := congrFun (node.inj hunion) "a-b"
    simp [treeEntries, overrideEntry, nested, single, empty, value, tree] at hat
  · intro h
    have hassoc := h (nested "k" "x") (single "k" (.bool true) (.bool true)) (nested "k" "y")
    rw [funcDeepMerge_pair, funcDeepMerge_pair, funcDeepMerge_pair, funcDeepMerge_pair,
      tree_mergeAll_assoc_iff] at hassoc
    · simp only [nested, single, value, tree, Regroups] at hassoc
      have hat := hassoc "k"
      simp only [treeEntries, tree, RegroupsEntry, if_true, Regroups, override, node.injEq] at hat
      simpa [treeEntries, overrideEntry] using congrFun hat "x"
    all_goals
      simp [mergesAllExactly, mergeAll, nested, single, empty, HashArg.merge, mergesExactly,
        deepMergeHash, destEntry, hashGet_cons, value, Value.copy, Value.copyEntries, setEntries,
        hashSet_nil, hashSet_cons_self]

end PuppetC
