import PuppetC.Hiera.ConfigTree
import PuppetC.Hiera.Lookup
import PuppetC.Value.Look

/-!
# Hiera merging and the priority of levels

What `puppet_hiera_merge_values` makes of the values found at the levels of a hierarchy, compared
with the merge that each strategy stands for. A value denotes a tree of configuration data, in
which the order of the buckets of a hash plays no part.

## Main definitions

* `denote`: the data of a value.
* `hieraMergeLevels`: the fold of `puppet_hiera_merge_values` over the values of a lookup.
* `priorityMerge`: the merge of levels by a strategy.
* `MergesByPriority`: the fold gives that merge, overrides nothing and does not depend on the order
  of buckets.
* `MergesPlainly`: no two levels differ at a key of a deep merge; a unique merge repeats nothing
  that is not looked for.

## Main results

* `searchPaths_eq_hieraMergeLevels`: a lookup is the fold over the values of its files.
* `denote_hieraMergeValues`: what one call does to the data.
* `mergesByPriority_iff`: the fold respects priority exactly if the levels merge plainly.
-/

namespace PuppetC

open ConfigTree

/-! ### The data of a value -/

mutual

/-- The data of a value; what is neither an array nor a hash is a scalar. -/
def denote : Value → ConfigTree Value
  | .array items => .list (denoteItems items)
  | .hash entries => .node (denoteEntries entries)
  | .undef => .atom .undef
  | .bool b => .atom (.bool b)
  | .string s => .atom (.string s)
  | .number n => .atom (.number n)
  | .regexp pattern => .atom (.regexp pattern)
  | .deferred f args => .atom (.deferred f args)

/-- The data of the items of an array. -/
def denoteItems : List Value → List (ConfigTree Value)
  | [] => []
  | v :: vs => denote v :: denoteItems vs

/-- The data of the entries of a hash. -/
def denoteEntries : List (String × Value) → String → Option (ConfigTree Value)
  | [], _ => none
  | (k, v) :: es, k' => if k = k' then some (denote v) else denoteEntries es k'

end

theorem denoteItems_eq_map (items : List Value) : denoteItems items = items.map denote := by
  induction items with
  | nil => rfl
  | cons v vs ih => rw [denoteItems, ih, List.map_cons]

theorem denoteEntries_eq (es : List (String × Value)) (k : String) :
    denoteEntries es k = (hashGet es k).map denote := by
  induction es with
  | nil => rfl
  | cons e es ih =>
    obtain ⟨k', v⟩ := e
    rw [denoteEntries, hashGet_cons, ih]
    split_ifs <;> rfl

theorem denoteEntries_hashSet (es : List (String × Value)) (k k' : String) (v : Value) :
    denoteEntries (hashSet es k v) k' =
      if k' = k then some (denote v) else denoteEntries es k' := by
  rw [denoteEntries_eq, denoteEntries_eq, hashGet_hashSet]
  split_ifs <;> rfl

theorem denoteEntries_eq_none {es : List (String × Value)} {k : String}
    (h : k ∉ es.map Prod.fst) : denoteEntries es k = none := by
  rw [denoteEntries_eq, hashGet_eq_none_iff.2 h, Option.map_none]

/-! ### One merge -/

/-- The scalars that `array_contains_value` compares. -/
def Compared : ConfigTree Value → Prop
  | .atom (.string _) | .atom (.number _) | .atom (.bool _) => True
  | _ => False

theorem arrayContainsValue_iff (items : List Value) (v : Value) :
    arrayContainsValue items v = true ↔ Compared (denote v) ∧ denote v ∈ denoteItems items := by
  rw [denoteItems_eq_map, List.mem_map]
  have hmem : ∀ v : Value, (∀ w, denote w = denote v → w = v) →
      (items.contains v = true ↔ ∃ w ∈ items, denote w = denote v) := by
    intro v hinj
    rw [List.contains_iff_mem]
    exact ⟨fun h ↦ ⟨v, h, rfl⟩, fun ⟨w, hw, h⟩ ↦ hinj w h ▸ hw⟩
  cases v with
  | string s | number n | bool b =>
    simp only [arrayContainsValue, denote, Compared, true_and]
    exact hmem _ fun w h ↦ by cases w <;> simp_all [denote]
  | undef | array _ | hash _ | regexp _ | deferred _ _ =>
    simp [arrayContainsValue, denote, Compared]

theorem denoteItems_foldl (xs ys : List Value) :
    denoteItems (ys.foldl (fun acc y ↦ if arrayContainsValue acc y then acc else acc ++ [y]) xs) =
      (denoteItems ys).foldl (appendNew Compared) (denoteItems xs) := by
  induction ys generalizing xs with
  | nil => rfl
  | cons y ys ih =>
    have hstep : denoteItems (if arrayContainsValue xs y then xs else xs ++ [y]) =
        appendNew Compared (denoteItems xs) (denote y) := by
      unfold appendNew
      by_cases h : arrayContainsValue xs y
      · rw [if_pos h, if_pos ((arrayContainsValue_iff xs y).1 h)]
      · rw [if_neg h, if_neg fun h' ↦ h ((arrayContainsValue_iff xs y).2 h')]
        simp only [denoteItems_eq_map, List.map_append, List.map_cons, List.map_nil]
    rw [List.foldl_cons, ih, hstep, denoteItems, List.foldl_cons]

theorem denoteEntries_addMissingEntries (es fs : List (String × Value)) (k : String) :
    denoteEntries (addMissingEntries es fs) k = (denoteEntries es k <|> denoteEntries fs k) := by
  induction fs generalizing es with
  | nil => simp [addMissingEntries, denoteEntries]
  | cons f fs ih =>
    obtain ⟨k', v⟩ := f
    rw [addMissingEntries, ih, denoteEntries]
    by_cases hk : (hashGet es k').isSome
    · rw [if_pos hk]
      split_ifs with h
      · subst h
        obtain ⟨w, hw⟩ := Option.isSome_iff_exists.1 hk
        simp [denoteEntries_eq, hw]
      · rfl
    · rw [if_neg hk, denoteEntries_hashSet]
      by_cases h : k' = k
      · subst h
        simp [denoteEntries_eq, Option.not_isSome_iff_eq_none.1 hk]
      · rw [if_neg (Ne.symm h), if_neg h]

theorem override_denote_of_not_hash {a : ConfigTree Value} {v : Value}
    (h : ∀ es, v ≠ .hash es) : override a (denote v) = denote v := by
  cases v with
  | hash es => exact absurd rfl (h es)
  | _ => cases a <;> rw [denote, override] <;> simp

theorem override_denote_left_of_not_hash {v : Value} {b : ConfigTree Value}
    (h : ∀ es, v ≠ .hash es) : override (denote v) b = b := by
  cases v with
  | hash es => exact absurd rfl (h es)
  | _ => rw [denote, override]; simp

theorem overrideEntry_denote_of_not_hash {r : Option (ConfigTree Value)} {v : Value}
    (h : ∀ es, v ≠ .hash es) : overrideEntry r (some (denote v)) = some (denote v) := by
  cases r with
  | none => rw [overrideEntry]
  | some a => rw [overrideEntry, override_denote_of_not_hash h]

theorem overrideEntry_hashSet {result es : List (String × Value)} {k : String} {v w : Value}
    (hk : k ∉ es.map Prod.fst)
    (hw : overrideEntry (denoteEntries result k) (some (denote v)) = some (denote w))
    (k' : String) :
    overrideEntry (denoteEntries (hashSet result k w) k') (denoteEntries es k') =
      overrideEntry (denoteEntries result k') (denoteEntries ((k, v) :: es) k') := by
  rw [denoteEntries_hashSet, denoteEntries]
  by_cases h : k' = k
  · subst h
    rw [if_pos rfl, if_pos rfl, denoteEntries_eq_none hk, hw, overrideEntry]
  · rw [if_neg h, if_neg (Ne.symm h)]

/-- The lower level wins in `deep_merge_hashes`. -/
theorem denoteEntries_deepMergeEntries (result es : List (String × Value))
    (hes : (Value.hash es).Keyed) (k : String) :
    denoteEntries (deepMergeEntries result es) k =
      overrideEntry (denoteEntries result k) (denoteEntries es k) := by
  induction result, es using deepMergeEntries.induct generalizing k with
  | case1 result =>
    rw [deepMergeEntries, denoteEntries]
    cases denoteEntries result k <;> rw [overrideEntry]
  | case2 result k' overlay es base hget ihbase ih =>
    obtain ⟨hk', hoverlay, hes⟩ := keyed_hash_cons_iff.1 hes
    have hmerged : denote (.hash (deepMergeEntries base overlay)) =
        override (denote (.hash base)) (denote (.hash overlay)) := by
      rw [denote, denote, denote, override]
      exact congrArg _ (funext (ihbase hoverlay))
    simp only [deepMergeEntries, hget]
    rw [ih hes]
    refine overrideEntry_hashSet hk' ?_ k
    rw [hmerged, denoteEntries_eq, hget, Option.map_some, overrideEntry]
  | case3 result k' overlay es hget ih =>
    obtain ⟨hk', -, hes⟩ := keyed_hash_cons_iff.1 hes
    have hstep : deepMergeEntries result ((k', .hash overlay) :: es) =
        deepMergeEntries (hashSet result k' (.hash overlay)) es := by
      rw [deepMergeEntries]
      split
      · exact (hget _ ‹_›).elim
      · rfl
    rw [hstep, ih hes]
    refine overrideEntry_hashSet hk' ?_ k
    rw [denoteEntries_eq]
    cases h : hashGet result k' with
    | none => rw [Option.map_none, overrideEntry]
    | some v =>
      rw [Option.map_some, overrideEntry,
        override_denote_left_of_not_hash fun base hv ↦ hget base (by rw [h, hv])]
  | case4 result k' v es hv ih =>
    obtain ⟨hk', -, hes⟩ := keyed_hash_cons_iff.1 hes
    rw [deepMergeEntries, ih hes]
    · exact overrideEntry_hashSet hk' (overrideEntry_denote_of_not_hash hv) k
    · exact hv

/-- What a merge of a value with the value of a lower level does to their data. -/
noncomputable def mergeData : HieraMerge → ConfigTree Value → ConfigTree Value → ConfigTree Value
  | .unique, .list xs, .list ys => .list (ys.foldl (appendNew Compared) xs)
  | .hash, .node f, .node g => .node fun k ↦ (f k <|> g k)
  | .deep, a, b => overlay a b
  | _, a, _ => a

/-- `puppet_hiera_merge_values` on the data of two values. -/
theorem denote_hieraMergeValues (v w : Value) (hw : w.Keyed) (strategy : HieraMerge) :
    denote (hieraMergeValues (some v) w strategy) = mergeData strategy (denote v) (denote w) := by
  cases strategy with
  | first => rfl
  | unique =>
    cases v <;> cases w <;> simp only [hieraMergeValues, denote, mergeData, denoteItems_foldl]
  | hash =>
    cases v <;> cases w <;> simp only [hieraMergeValues, denote, mergeData]
    exact congrArg _ (funext fun k ↦ denoteEntries_addMissingEntries _ _ k)
  | deep =>
    cases v <;> cases w <;> simp only [hieraMergeValues, denote, mergeData, overlay]
    rw [override]
    exact congrArg _ (funext fun k ↦ denoteEntries_deepMergeEntries _ _ hw k)

/-! ### The levels of a lookup -/

/-- The fold of `puppet_hiera_merge_values` over values, from the highest priority down. -/
def hieraMergeLevels (strategy : HieraMerge) (levels : List Value) : Option Value :=
  levels.foldl (fun result v ↦ some (hieraMergeValues result v strategy)) none

theorem hieraMergeLevels_cons (strategy : HieraMerge) (v : Value) (levels : List Value) :
    hieraMergeLevels strategy (v :: levels) =
      some (levels.foldl (fun r v ↦ hieraMergeValues (some r) v strategy) v) := by
  have hfold : ∀ r : Value,
      levels.foldl (fun result v ↦ some (hieraMergeValues result v strategy)) (some r) =
        some (levels.foldl (fun r v ↦ hieraMergeValues (some r) v strategy) r) := by
    induction levels with
    | nil => exact fun r ↦ rfl
    | cons w ws ih => exact fun r ↦ ih _
  exact hfold v

theorem hieraMergeLevels_first (v : Value) (levels : List Value) :
    hieraMergeLevels .first (v :: levels) = some v := by
  rw [hieraMergeLevels_cons]
  induction levels with
  | nil => rfl
  | cons w ws ih => exact ih

theorem searchPaths_eq_foldl (files : String → Option Value) (key : String)
    {strategy : HieraMerge} (hs : strategy ≠ .first) (paths : List String)
    (result : Option Value) :
    searchPaths files key strategy result paths =
      (paths.filterMap fun path ↦ fileValue files path key).foldl
        (fun result v ↦ some (hieraMergeValues result v strategy)) result := by
  induction paths generalizing result with
  | nil => rfl
  | cons path paths ih =>
    cases h : fileValue files path key with
    | none =>
      simp only [searchPaths, List.filterMap_cons, h]
      exact ih result
    | some v =>
      simp only [searchPaths, List.filterMap_cons, h, if_neg hs, List.foldl_cons]
      exact ih _

/-- What a lookup finds is the fold over the values in its files. -/
theorem searchPaths_eq_hieraMergeLevels (files : String → Option Value) (key : String)
    (strategy : HieraMerge) (paths : List String) :
    searchPaths files key strategy none paths =
      hieraMergeLevels strategy (paths.filterMap fun path ↦ fileValue files path key) := by
  by_cases hs : strategy = .first
  · subst hs
    induction paths with
    | nil => rfl
    | cons path paths ih =>
      cases h : fileValue files path key with
      | none =>
        simp only [searchPaths, List.filterMap_cons, h]
        exact ih
      | some v =>
        simp only [searchPaths, List.filterMap_cons, h, if_true]
        exact (hieraMergeLevels_first v _).symm
  · exact searchPaths_eq_foldl files key hs paths none

/-- The fold of `mergeData`. -/
noncomputable def mergeDataLevels (strategy : HieraMerge) :
    List (ConfigTree Value) → Option (ConfigTree Value)
  | [] => none
  | a :: as => some (as.foldl (mergeData strategy) a)

/-- The value found at a level; a table has a key once. -/
abbrev LevelValue : Type := { v : Value // v.Keyed }

/-- The data of the values found at levels. -/
def levelData (levels : List LevelValue) : List (ConfigTree Value) :=
  levels.map fun v ↦ denote v.1

/-- The fold of `puppet_hiera_merge_values` on the data of the levels. -/
theorem denote_hieraMergeLevels (strategy : HieraMerge) (levels : List LevelValue) :
    (hieraMergeLevels strategy (levels.map Subtype.val)).map denote =
      mergeDataLevels strategy (levelData levels) := by
  cases levels with
  | nil => rfl
  | cons v vs =>
    rw [List.map_cons, hieraMergeLevels_cons, levelData, List.map_cons, mergeDataLevels,
      Option.map_some]
    have hfold : ∀ r : Value,
        denote ((vs.map Subtype.val).foldl (fun r v ↦ hieraMergeValues (some r) v strategy) r) =
          (vs.map fun v ↦ denote v.1).foldl (mergeData strategy) (denote r) := by
      induction vs with
      | nil => exact fun r ↦ rfl
      | cons w ws ih =>
        intro r
        rw [List.map_cons, List.foldl_cons, ih, denote_hieraMergeValues r w.1 w.2, List.map_cons,
          List.foldl_cons]
    exact congrArg some (hfold v.1)

/-! ### Priority -/

/-- The merge of levels by a strategy: the first one; the items of the lists without later
duplicates; the union of the mappings, in which the highest level that sets a key wins; the
recursive union of the mappings. A level of another kind than the first adds nothing. -/
noncomputable def priorityMerge : HieraMerge → List (ConfigTree Value) → Option (ConfigTree Value)
  | _, [] => none
  | .unique, .list xs :: as =>
    some (.list (withoutRepeats (xs ++ (as.filterMap itemsOf).flatten)))
  | .hash, .node f :: as =>
    some (.node fun k ↦ (f :: as.filterMap entriesOf).findSome? fun g ↦ g k)
  | .deep, a :: as => some (as.foldl deep a)
  | _, a :: _ => some a

/-- The merge of the levels is the one of the strategy, no level overrides a key that the levels
above it set, and the result does not depend on the order of the buckets. -/
structure MergesByPriority (strategy : HieraMerge) (levels : List LevelValue) : Prop where
  result : (hieraMergeLevels strategy (levels.map Subtype.val)).map denote =
    priorityMerge strategy (levelData levels)
  noOverride : ∀ higher v lower r, levels = higher ++ v :: lower →
    hieraMergeLevels strategy (higher.map Subtype.val) = some r →
    KeysKept (denote r) (denote (hieraMergeValues (some r) v.1 strategy))
  anyOrder : ∀ levels', levelData levels' = levelData levels →
    (hieraMergeLevels strategy (levels'.map Subtype.val)).map denote =
      (hieraMergeLevels strategy (levels.map Subtype.val)).map denote

/-- Levels that a strategy merges by priority: those of a unique merge repeat nothing that is not
looked for, and nothing in the first array; those of a deep merge do not set a key differently. -/
def MergesPlainly : HieraMerge → List (ConfigTree Value) → Prop
  | .unique, .list xs :: as =>
    xs.Nodup ∧ NoHiddenRepeat Compared xs (as.filterMap itemsOf).flatten
  | .deep, .node f :: as => (.node f :: as).Pairwise Compatible
  | _, _ => True

/-! ### When priority is respected -/

/-- `MergesByPriority` for the data of the levels. -/
structure DataMergesByPriority (strategy : HieraMerge) (as : List (ConfigTree Value)) : Prop where
  result : mergeDataLevels strategy as = priorityMerge strategy as
  noOverride : ∀ higher b lower r, as = higher ++ b :: lower →
    mergeDataLevels strategy higher = some r → KeysKept r (mergeData strategy r b)

theorem mergesByPriority_iff_data (strategy : HieraMerge) (levels : List LevelValue) :
    MergesByPriority strategy levels ↔ DataMergesByPriority strategy (levelData levels) := by
  constructor
  · intro h
    refine ⟨(denote_hieraMergeLevels strategy levels).symm.trans h.result, ?_⟩
    intro higher b lower r hsplit hr
    obtain ⟨higher, rest, rfl, rfl, hrest⟩ := List.map_eq_append_iff.1 hsplit
    obtain ⟨v, lower, rfl, rfl, rfl⟩ := List.map_eq_cons_iff.1 hrest
    obtain ⟨r, hvalue, rfl⟩ := Option.map_eq_some_iff.1
      ((denote_hieraMergeLevels strategy higher).trans hr)
    rw [← denote_hieraMergeValues r v.1 v.2]
    exact h.noOverride higher v lower r rfl hvalue
  · intro h
    refine ⟨(denote_hieraMergeLevels strategy levels).trans h.result, ?_, fun levels' hlevels ↦ ?_⟩
    · rintro higher v lower r rfl hr
      rw [denote_hieraMergeValues r v.1 v.2]
      refine h.noOverride (levelData higher) (denote v.1) (levelData lower) (denote r) ?_ ?_
      · simp [levelData]
      · rw [← denote_hieraMergeLevels, hr, Option.map_some]
    · rw [denote_hieraMergeLevels, denote_hieraMergeLevels, hlevels]

theorem foldl_mergeData_eq_self {strategy : HieraMerge} {a : ConfigTree Value}
    (h : ∀ b, mergeData strategy a b = a) (as : List (ConfigTree Value)) :
    as.foldl (mergeData strategy) a = a := by
  induction as with
  | nil => rfl
  | cons b bs ih => rw [List.foldl_cons, h, ih]

theorem DataMergesByPriority.of_self {strategy : HieraMerge} {a : ConfigTree Value}
    (h : ∀ b, mergeData strategy a b = a) {as : List (ConfigTree Value)}
    (hspec : priorityMerge strategy (a :: as) = some a) :
    DataMergesByPriority strategy (a :: as) := by
  refine ⟨?_, fun higher b lower r hsplit hr ↦ ?_⟩
  · rw [mergeDataLevels, foldl_mergeData_eq_self h, hspec]
  · cases higher with
    | nil => cases hr
    | cons c higher =>
      obtain ⟨rfl, -⟩ := List.cons.inj hsplit
      rw [mergeDataLevels, foldl_mergeData_eq_self h] at hr
      obtain rfl := Option.some.inj hr
      rw [h]
      exact keysKept_self a

theorem foldl_mergeData_unique (xs : List (ConfigTree Value)) (as : List (ConfigTree Value)) :
    as.foldl (mergeData .unique) (.list xs) =
      .list ((as.filterMap itemsOf).flatten.foldl (appendNew Compared) xs) := by
  induction as generalizing xs with
  | nil => rfl
  | cons b bs ih =>
    cases b with
    | list ys =>
      simp only [List.foldl_cons, List.filterMap_cons, itemsOf, List.flatten_cons,
        List.foldl_append, mergeData]
      exact ih _
    | atom _ | node _ =>
      simp only [List.foldl_cons, List.filterMap_cons, itemsOf, mergeData]
      exact ih xs

theorem foldl_mergeData_hash (f : String → Option (ConfigTree Value))
    (as : List (ConfigTree Value)) :
    as.foldl (mergeData .hash) (.node f) =
      .node fun k ↦ (f :: as.filterMap entriesOf).findSome? fun g ↦ g k := by
  induction as generalizing f with
  | nil =>
    refine congrArg node (funext fun k ↦ ?_)
    cases h : f k <;> simp [h]
  | cons b bs ih =>
    cases b with
    | node g =>
      simp only [List.foldl_cons, List.filterMap_cons, entriesOf, mergeData]
      rw [ih]
      refine congrArg node (funext fun k ↦ ?_)
      rw [List.findSome?_cons, List.findSome?_cons]
      dsimp only
      cases f k <;> rfl
    | atom _ | list _ =>
      simp only [List.foldl_cons, List.filterMap_cons, entriesOf, mergeData]
      exact ih f

theorem mergeData_deep : mergeData .deep = overlay := by
  funext a b
  cases a <;> cases b <;> rfl

theorem keysKept_mergeData_hash (a b : ConfigTree Value) : KeysKept a (mergeData .hash a b) := by
  cases a with
  | atom _ | list _ => exact fun h ↦ by cases h
  | node f =>
    cases b with
    | atom _ | list _ => exact keysKept_self _
    | node g =>
      intro _
      rw [mergeData, Kept]
      intro k
      cases f k with
      | none => rw [KeptEntry]; trivial
      | some a => exact keptEntry_refl (some a)

/-- The levels of a unique merge that starts with an array. -/
theorem dataMergesByPriority_unique_iff (xs : List (ConfigTree Value))
    (as : List (ConfigTree Value)) :
    DataMergesByPriority .unique (.list xs :: as) ↔
      xs.Nodup ∧ NoHiddenRepeat Compared xs (as.filterMap itemsOf).flatten := by
  rw [← appendNew_eq_withoutRepeats_iff]
  have hresult : mergeDataLevels .unique (.list xs :: as) = priorityMerge .unique (.list xs :: as) ↔
      (as.filterMap itemsOf).flatten.foldl (appendNew Compared) xs =
        withoutRepeats (xs ++ (as.filterMap itemsOf).flatten) := by
    rw [mergeDataLevels, priorityMerge, foldl_mergeData_unique, Option.some_inj, list.injEq]
  refine ⟨fun h ↦ hresult.1 h.result, fun h ↦ ⟨hresult.2 h, ?_⟩⟩
  intro higher b lower r hsplit hr
  cases higher with
  | nil => cases hr
  | cons c higher =>
    obtain ⟨rfl, -⟩ := List.cons.inj hsplit
    rw [mergeDataLevels, foldl_mergeData_unique] at hr
    obtain rfl := Option.some.inj hr
    exact fun h ↦ by cases h

/-- The levels of a deep merge that starts with a hash. -/
theorem dataMergesByPriority_deep_iff (f : String → Option (ConfigTree Value))
    (as : List (ConfigTree Value)) :
    DataMergesByPriority .deep (.node f :: as) ↔ (.node f :: as).Pairwise Compatible := by
  have hf : (node f).entriesOf.isSome := rfl
  constructor
  · intro h
    rw [pairwise_compatible_iff hf]
    rintro pre b post rfl
    have := h.noOverride (.node f :: pre) b post _ rfl rfl
    rwa [mergeData_deep] at this
  · intro h
    refine ⟨?_, fun higher b lower r hsplit hr ↦ ?_⟩
    · rw [mergeDataLevels, priorityMerge, mergeData_deep, foldl_overlay_eq_deep hf h]
    · cases higher with
      | nil => cases hr
      | cons c higher =>
        obtain ⟨rfl, htail⟩ := List.cons.inj hsplit
        rw [mergeDataLevels, mergeData_deep] at hr
        obtain rfl := Option.some.inj hr
        rw [mergeData_deep]
        exact (pairwise_compatible_iff hf).1 h higher b lower htail

theorem dataMergesByPriority_nil (strategy : HieraMerge) : DataMergesByPriority strategy [] :=
  ⟨by cases strategy <;> rfl, fun higher b lower r hsplit ↦ by simp at hsplit⟩

/-- Merging of data by priority. -/
theorem dataMergesByPriority_iff (strategy : HieraMerge) (as : List (ConfigTree Value)) :
    DataMergesByPriority strategy as ↔ MergesPlainly strategy as := by
  cases as with
  | nil =>
    refine iff_of_true (dataMergesByPriority_nil strategy) ?_
    cases strategy <;> trivial
  | cons a as =>
    cases strategy with
    | first =>
      exact iff_of_true (.of_self (fun b ↦ by cases a <;> rfl) (by cases a <;> rfl)) trivial
    | unique =>
      cases a with
      | list xs => exact dataMergesByPriority_unique_iff xs as
      | atom _ | node _ => exact iff_of_true (.of_self (fun b ↦ rfl) rfl) trivial
    | hash =>
      cases a with
      | atom _ | list _ => exact iff_of_true (.of_self (fun b ↦ rfl) rfl) trivial
      | node f =>
        refine iff_of_true ⟨?_, fun higher b lower r _ _ ↦ keysKept_mergeData_hash r b⟩ trivial
        rw [mergeDataLevels, foldl_mergeData_hash, priorityMerge]
    | deep =>
      cases a with
      | node f => exact dataMergesByPriority_deep_iff f as
      | atom _ | list _ =>
        refine iff_of_true (.of_self (fun b ↦ rfl) ?_) trivial
        rw [priorityMerge, foldl_deep_eq_self rfl]

/-- The fold of `puppet_hiera_merge_values` respects the priority of the levels exactly if they
merge plainly. -/
theorem mergesByPriority_iff (strategy : HieraMerge) (levels : List LevelValue) :
    MergesByPriority strategy levels ↔ MergesPlainly strategy (levelData levels) :=
  (mergesByPriority_iff_data strategy levels).trans (dataMergesByPriority_iff strategy _)

/-- A deep merge gives the value of the lower level. -/
theorem not_mergesByPriority :
    ¬ ∀ strategy levels, MergesByPriority strategy levels := by
  intro h
  have hkeyed : ∀ n : ℚ, (Value.hash [("a", .number n)]).Keyed := fun n ↦
    .hash (by simp) fun e he ↦ by
      obtain rfl := List.mem_singleton.1 he
      exact .number n
  have hplain := (dataMergesByPriority_iff _ _).1
    ((mergesByPriority_iff_data .deep [⟨_, hkeyed 1⟩, ⟨_, hkeyed 2⟩]).1 (h _ _))
  have hagrees := List.rel_of_pairwise_cons hplain List.mem_cons_self rfl rfl
  simp only [denote, Agrees] at hagrees
  have ha := hagrees "a"
  simp [denoteEntries, denote, AgreesEntry, Agrees] at ha

end PuppetC
