import PuppetC.Interp.Operators
import PuppetC.Value.Look

/-!
# Equality of values

`puppet_values_equal` compares hashes by looking the keys of one up in the other, so it finds two
values equal when nothing that can be looked up in them differs. It is an equivalence relation on
data, and the order of the entries in the buckets of a hash does not matter.

## Main definitions

* `Value.IsKeyedData`, `DataValue`: data, made of hashes, arrays and scalars.

## Main results

* `valuesEqual_iff_alike`: values are equal if no path tells them apart.
* `equivalence_valuesEqual`: equality of data is an equivalence relation.
-/

namespace PuppetC

/-! ### Data -/

/-- A value made of hashes with distinct keys, of arrays and of scalars. -/
inductive Value.IsKeyedData : Value → Prop where
  | undef : IsKeyedData .undef
  | bool (b : Bool) : IsKeyedData (.bool b)
  | string (s : String) : IsKeyedData (.string s)
  | number (n : ℚ) : IsKeyedData (.number n)
  | array {items : List Value} (h : ∀ v ∈ items, IsKeyedData v) : IsKeyedData (.array items)
  | hash {entries : List (String × Value)} (hkeys : (entries.map Prod.fst).Nodup)
      (h : ∀ e ∈ entries, IsKeyedData e.2) : IsKeyedData (.hash entries)

theorem Value.IsKeyedData.keyed {v : Value} (hv : v.IsKeyedData) : v.Keyed := by
  induction hv with
  | undef => exact .undef
  | bool b => exact .bool b
  | string s => exact .string s
  | number n => exact .number n
  | array _ ih => exact .array ih
  | hash hkeys _ ih => exact .hash hkeys ih

theorem Value.IsKeyedData.copy {v : Value} (hv : v.IsKeyedData) : v.copy.IsKeyedData := by
  induction hv with
  | undef => exact .undef
  | bool b => exact .bool b
  | string s => exact .string s
  | number n => exact .number n
  | array _ ih =>
    rw [Value.copy, copyList_eq_map]
    exact .array (List.forall_mem_map.2 ih)
  | hash _ _ ih =>
    rw [Value.copy, copyEntries_eq_map]
    refine .hash (nodup_setEntries_nil _) fun e he ↦ ?_
    rcases mem_or_mem_of_mem_setEntries he with he | he
    · cases he
    · obtain ⟨e', he', rfl⟩ := List.mem_map.1 he
      exact ih e' he'

/-- A piece of data. -/
abbrev DataValue : Type := { v : Value // v.IsKeyedData }

/-- The copy of a piece of data. -/
def DataValue.copy (v : DataValue) : DataValue := ⟨v.1.copy, v.2.copy⟩

/-! ### Arrays and hashes -/

theorem valuesEqualList_iff {xs ys : List Value} :
    valuesEqualList xs ys = true ↔ List.Forall₂ (fun x y ↦ valuesEqual x y = true) xs ys := by
  induction xs generalizing ys with
  | nil => cases ys <;> simp [valuesEqualList]
  | cons x xs ih =>
    cases ys with
    | nil => simp [valuesEqualList]
    | cons y ys => rw [valuesEqualList, Bool.and_eq_true, List.forall₂_cons, ih]

theorem valuesEqualEntries_iff {es fs : List (String × Value)} :
    valuesEqualEntries es fs = true ↔
      ∀ e ∈ es, ∃ v, hashGet fs e.1 = some v ∧ valuesEqual e.2 v = true := by
  induction es with
  | nil => simp [valuesEqualEntries]
  | cons e es ih =>
    rw [valuesEqualEntries, List.forall_mem_cons, ← ih]
    cases hashGet fs e.1 <;> simp

/-- Hashes with the same number of distinct keys, those of one among those of the other. -/
theorem hashGet_eq_none_of_length_eq {es fs : List (String × Value)}
    (hes : (es.map Prod.fst).Nodup) (hsub : es.map Prod.fst ⊆ fs.map Prod.fst)
    (hlength : es.length = fs.length) {k : String} (hk : hashGet es k = none) :
    hashGet fs k = none := by
  have hperm : (es.map Prod.fst).Perm (fs.map Prod.fst) :=
    (List.subperm_of_subset hes hsub).perm_of_length_le (by simp [hlength])
  rw [hashGet_eq_none_iff] at hk ⊢
  exact fun hmem ↦ hk (hperm.mem_iff.mpr hmem)

namespace Value

/-! ### Equality and content -/

theorem alike_array_iff_forall₂ {xs ys : List Value} :
    Alike (some (.array xs)) (some (.array ys)) ↔
      List.Forall₂ (fun x y ↦ Alike (some x) (some y)) xs ys := by
  rw [alike_array_iff, List.forall₂_iff_get]
  refine and_congr_right fun hlength ↦ ⟨fun h i hi hi' ↦ ?_, fun h i ↦ ?_⟩
  · simpa [hi, hi'] using h i
  · rcases lt_or_ge i xs.length with hi | hi
    · simpa [hi, hlength ▸ hi] using h i hi (hlength ▸ hi)
    · rw [List.getElem?_eq_none hi, List.getElem?_eq_none (hlength ▸ hi)]
      exact .refl _

/-- A scalar: it has no part. -/
def isScalar : Value → Bool
  | .undef | .bool _ | .string _ | .number _ => true
  | _ => false

theorem valuesEqual_scalar_iff {v w : Value} (hv : v.isScalar) :
    valuesEqual v w = true ↔ v = w := by
  cases v <;> cases hv <;> cases w <;> simp [valuesEqual]

theorem alike_scalar_iff {v w : Value} (hv : v.isScalar) :
    Alike (some v) (some w) ↔ v = w := by
  refine ⟨fun h ↦ ?_, fun h ↦ h ▸ .refl _⟩
  have hhead := h.head
  cases v <;> cases hv <;> cases w <;> simp_all [head]

/-- Data is equal if no path tells it apart. -/
theorem valuesEqual_iff_alike {v w : Value} (hv : v.IsKeyedData) (hw : w.IsKeyedData) :
    valuesEqual v w = true ↔ Alike (some v) (some w) := by
  induction hv generalizing w with
  | undef | bool | string | number =>
    exact (valuesEqual_scalar_iff rfl).trans (alike_scalar_iff rfl).symm
  | @array xs _ ih =>
    cases hw with
    | @array ys hys =>
      rw [valuesEqual, valuesEqualList_iff, alike_array_iff_forall₂]
      refine ⟨fun h ↦ ?_, fun h ↦ ?_⟩ <;>
        refine List.forall₂_iff_get.2 ⟨h.length_eq, fun i hi hi' ↦ ?_⟩
      · exact (ih _ (List.get_mem _ _) (hys _ (List.get_mem _ _))).1
          ((List.forall₂_iff_get.1 h).2 i hi hi')
      · exact (ih _ (List.get_mem _ _) (hys _ (List.get_mem _ _))).2
          ((List.forall₂_iff_get.1 h).2 i hi hi')
    | _ => exact iff_of_false (by simp [valuesEqual]) fun h ↦ by simpa [head] using h.head
  | @hash es hkeys _ ih =>
    cases hw with
    | @hash fs hkeys' hfs =>
      rw [valuesEqual, Bool.and_eq_true, valuesEqualEntries_iff, beq_iff_eq, alike_hash_iff]
      constructor
      · rintro ⟨hentries, hlength⟩ k
        cases hk : hashGet es k with
        | none =>
          have hsub : es.map Prod.fst ⊆ fs.map Prod.fst := by
            rintro _ hmem
            obtain ⟨e, he, rfl⟩ := List.mem_map.1 hmem
            obtain ⟨u, hu, -⟩ := hentries e he
            exact List.mem_map.2 ⟨(e.1, u), mem_of_hashGet hu, rfl⟩
          rw [hashGet_eq_none_of_length_eq hkeys hsub hlength hk]
          exact .refl _
        | some v =>
          obtain ⟨u, hu, hequal⟩ := hentries (k, v) (mem_of_hashGet hk)
          rw [hu]
          exact (ih _ (mem_of_hashGet hk) (hfs _ (mem_of_hashGet hu))).1 hequal
      · intro h
        have hkeyset : ∀ k, k ∈ es.map Prod.fst ↔ k ∈ fs.map Prod.fst := fun k ↦ by
          rw [← not_iff_not, ← hashGet_eq_none_iff, ← hashGet_eq_none_iff,
            ← Option.not_isSome_iff_eq_none, ← Option.not_isSome_iff_eq_none, (h k).isSome]
        refine ⟨fun e he ↦ ?_, ?_⟩
        · have hget : hashGet es e.1 = some e.2 := (hashGet_eq_some_iff hkeys).2 he
          have hlike := h e.1
          rw [hget] at hlike
          obtain ⟨u, hu⟩ := Option.isSome_iff_exists.1 (hlike.isSome.symm.trans rfl)
          rw [hu] at hlike
          exact ⟨u, hu, (ih e he (hfs (e.1, u) (mem_of_hashGet hu))).2 hlike⟩
        · have hperm := (List.perm_ext_iff_of_nodup hkeys hkeys').2 hkeyset
          simpa using hperm.length_eq
    | _ => exact iff_of_false (by simp [valuesEqual]) fun h ↦ by simpa [head] using h.head

/-- Equality of data is an equivalence relation. -/
theorem equivalence_valuesEqual :
    Equivalence fun v w : DataValue ↦ valuesEqual v.1 w.1 = true := by
  refine ⟨fun v ↦ ?_, fun {v w} h ↦ ?_, fun {u v w} h h' ↦ ?_⟩
  · exact (valuesEqual_iff_alike v.2 v.2).2 (.refl _)
  · exact (valuesEqual_iff_alike w.2 v.2).2 ((valuesEqual_iff_alike v.2 w.2).1 h).symm
  · exact (valuesEqual_iff_alike u.2 w.2).2
      (((valuesEqual_iff_alike u.2 v.2).1 h).trans ((valuesEqual_iff_alike v.2 w.2).1 h'))

/-- A copy is equal to what it copies. -/
theorem valuesEqual_copy (v : DataValue) : valuesEqual v.copy.1 v.1 = true :=
  (valuesEqual_iff_alike v.copy.2 v.2).2 v.2.keyed.alike_copy

end Value

end PuppetC
