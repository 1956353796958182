import Mathlib.Data.List.Sort

/-!
# Sorting with a comparator

`qsort` of the C library, for a comparator whose result may be undefined: it reads its arguments as
values of a kind that they need not be. A sort compares every element of an array of two or more
with another one, so it is undefined if a comparison is.

If the comparator is a total preorder on the elements, the result is an ordered permutation of them.
How a sort arranges elements that compare equal does not matter if these are the same.

## Main definitions

* `notAfter`: one value may stand before another.
* `ComparesOn`: a comparator is a total preorder on the elements of a list.
* `qsort`: the sorted list.

## Main results

* `exists_qsort_eq_some`: the result is an ordered permutation.
* `eq_of_ordered_perm`: there is only one ordered permutation.
-/

namespace PuppetC

variable {α : Type}

/-- A comparator tells that `x` may stand before `y`. -/
def notAfter (cmp : α → α → Option ℤ) (x y : α) : Bool := (cmp x y).any (decide <| · ≤ 0)

/-- A comparator is defined and a total preorder on the elements of a list. -/
structure ComparesOn (cmp : α → α → Option ℤ) (xs : List α) : Prop where
  isDefined : ∀ x ∈ xs, ∀ y ∈ xs, (cmp x y).isSome
  trans : ∀ x ∈ xs, ∀ y ∈ xs, ∀ z ∈ xs, notAfter cmp x y → notAfter cmp y z → notAfter cmp x z
  total : ∀ x ∈ xs, ∀ y ∈ xs, notAfter cmp x y ∨ notAfter cmp y x

/-- The elements in the order of a comparator, or nothing if a comparison of them is undefined. -/
def qsort (cmp : α → α → Option ℤ) (xs : List α) : Option (List α) :=
  if ∀ x ∈ xs, ∀ y ∈ xs, (cmp x y).isSome then some (xs.mergeSort (notAfter cmp)) else none

variable {cmp : α → α → Option ℤ} {xs ys : List α}

/-- Sorting with a total preorder gives an ordered permutation. -/
theorem exists_qsort_eq_some (h : ComparesOn cmp xs) :
    ∃ ys, qsort cmp xs = some ys ∧ ys.Perm xs ∧ ys.Pairwise fun x y ↦ notAfter cmp x y := by
  refine ⟨xs.mergeSort (notAfter cmp), if_pos h.isDefined, List.mergeSort_perm _ _, ?_⟩
  -- the comparator is a preorder on the type of the elements only
  have hmap : (xs.attach.mergeSort fun x y ↦ notAfter cmp x.1 y.1).map Subtype.val =
      xs.mergeSort (notAfter cmp) := by
    rw [List.map_mergeSort (s := notAfter cmp) fun _ _ _ _ ↦ rfl, List.attach_map_subtype_val]
  rw [← hmap, List.pairwise_map]
  refine List.pairwise_mergeSort ?_ ?_ _
  · rintro ⟨x, hx⟩ ⟨y, hy⟩ ⟨z, hz⟩
    exact h.trans x hx y hy z hz
  · rintro ⟨x, hx⟩ ⟨y, hy⟩
    rw [Bool.or_eq_true]
    exact h.total x hx y hy

/-- If only equal elements compare equal, there is one ordered permutation. -/
theorem eq_of_ordered_perm
    (hanti : ∀ x ∈ xs, ∀ y ∈ xs, notAfter cmp x y → notAfter cmp y x → x = y) {zs : List α}
    (hys : ys.Perm xs) (hordered : ys.Pairwise fun x y ↦ notAfter cmp x y)
    (hzs : zs.Perm xs) (hordered' : zs.Pairwise fun x y ↦ notAfter cmp x y) : ys = zs := by
  refine (hys.trans hzs.symm).eq_of_pairwise (fun x y hx hy ↦ ?_) hordered hordered'
  exact hanti x (hys.mem_iff.mp hx) y (hzs.mem_iff.mp hy)

end PuppetC
