import Mathlib.Data.List.Pairwise
import Mathlib.Tactic.SplitIfs

/-!
# Membership up to an equality

Operations on lists that compare elements by a relation `e`: membership, removal, the first of the
elements that are equal, intersection. What they keep they copy. A comparison that knows only some
elements, those with `p`, and takes the others for equal to nothing, gives the same result as `e`
exactly if no two elements that are compared are equal and without `p`.

## Main definitions

* `removeBy`, `distinctBy`, `intersectBy`: the operations.
* `Restricts`: a comparison that knows only some elements.

## Main results

* `any_eq_any_iff`, `removeBy_eq_iff`, `distinctBy_eq_iff`, `intersectBy_eq_iff`: when a comparison
  that knows only some elements gives the same result.
-/

namespace PuppetC

variable {α β : Type}

/-- Copies of the elements that equal none of `ys`. -/
def removeBy (e : α → α → Bool) (copy : α → α) (xs ys : List α) : List α :=
  (xs.filter fun x ↦ !ys.any fun y ↦ e y x).map copy

/-- A copy of an element, at the end, unless there is an element equal to it. -/
def addNew (e : α → α → Bool) (copy : α → α) (acc : List α) (x : α) : List α :=
  if acc.any fun y ↦ e y x then acc else acc ++ [copy x]

/-- Copies of the first of the elements that are equal. -/
def distinctBy (e : α → α → Bool) (copy : α → α) (xs : List α) : List α :=
  xs.foldl (addNew e copy) []

/-- Copies of the elements that equal one of `ys`, each once. -/
def intersectBy (e : α → α → Bool) (copy : α → α) (xs ys : List α) : List α :=
  xs.foldl (fun acc x ↦ if ys.any fun y ↦ e y x then addNew e copy acc x else acc) []

/-- An intersection is made of the first ones of the elements that equal one of `ys`. -/
theorem intersectBy_eq_distinctBy (e : α → α → Bool) (copy : α → α) (xs ys : List α) :
    intersectBy e copy xs ys = distinctBy e copy (xs.filter fun x ↦ ys.any fun y ↦ e y x) := by
  rw [distinctBy, List.foldl_filter]
  rfl

/-! ### Images -/

section Map

variable {f : α → β} {e : β → β → Bool} {copy : β → β} {copy' : α → α}

theorem removeBy_map (hcopy : ∀ x, copy (f x) = f (copy' x)) (xs ys : List α) :
    removeBy e copy (xs.map f) (ys.map f) =
      (removeBy (fun x y ↦ e (f x) (f y)) copy' xs ys).map f := by
  simp only [removeBy, List.filter_map, List.map_map, List.any_map, Function.comp_def, hcopy]

theorem addNew_map (hcopy : ∀ x, copy (f x) = f (copy' x)) (acc : List α) (x : α) :
    addNew e copy (acc.map f) (f x) = (addNew (fun x y ↦ e (f x) (f y)) copy' acc x).map f := by
  simp only [addNew, List.any_map, Function.comp_def, hcopy, apply_ite (List.map f),
    List.map_append, List.map_cons, List.map_nil]

theorem foldl_addNew_map (hcopy : ∀ x, copy (f x) = f (copy' x)) (acc xs : List α) :
    (xs.map f).foldl (addNew e copy) (acc.map f) =
      (xs.foldl (addNew (fun x y ↦ e (f x) (f y)) copy') acc).map f := by
  induction xs generalizing acc with
  | nil => rfl
  | cons x xs ih => rw [List.map_cons, List.foldl_cons, List.foldl_cons, addNew_map hcopy, ih]

theorem distinctBy_map (hcopy : ∀ x, copy (f x) = f (copy' x)) (xs : List α) :
    distinctBy e copy (xs.map f) = (distinctBy (fun x y ↦ e (f x) (f y)) copy' xs).map f :=
  foldl_addNew_map hcopy [] xs

theorem intersectBy_map (hcopy : ∀ x, copy (f x) = f (copy' x)) (xs ys : List α) :
    intersectBy e copy (xs.map f) (ys.map f) =
      (intersectBy (fun x y ↦ e (f x) (f y)) copy' xs ys).map f := by
  rw [intersectBy_eq_distinctBy, intersectBy_eq_distinctBy, ← distinctBy_map hcopy,
    List.filter_map]
  simp only [List.any_map, Function.comp_def]

end Map

/-! ### The first elements -/

section Operations

variable {e : α → α → Bool} {copy : α → α}

theorem subset_foldl_addNew (acc xs : List α) : acc ⊆ xs.foldl (addNew e copy) acc := by
  induction xs generalizing acc with
  | nil => exact List.Subset.refl _
  | cons x xs ih =>
    refine List.Subset.trans ?_ (ih _)
    rw [addNew]
    split_ifs
    · exact List.Subset.refl _
    · exact List.subset_append_left _ _

theorem mem_foldl_addNew {acc xs : List α} {z : α} (h : z ∈ xs.foldl (addNew e copy) acc) :
    z ∈ acc ∨ ∃ x ∈ xs, z = copy x := by
  induction xs generalizing acc with
  | nil => exact .inl h
  | cons x xs ih =>
    rcases ih h with hmem | ⟨y, hy, hz⟩
    · rw [addNew] at hmem
      split_ifs at hmem
      · exact .inl hmem
      · rcases List.mem_append.mp hmem with hmem | hmem
        · exact .inl hmem
        · exact .inr ⟨x, List.mem_cons_self, List.mem_singleton.mp hmem⟩
    · exact .inr ⟨y, List.mem_cons_of_mem _ hy, hz⟩

/-- What is kept is a copy of an element. -/
theorem mem_distinctBy {xs : List α} {z : α} (h : z ∈ distinctBy e copy xs) :
    ∃ x ∈ xs, z = copy x :=
  (mem_foldl_addNew h).resolve_left List.not_mem_nil

/-- Every element equals one that is kept. -/
theorem exists_mem_distinctBy (hcopy : ∀ x, e (copy x) x) {xs : List α} {x : α} (hx : x ∈ xs) :
    ∃ z ∈ distinctBy e copy xs, e z x := by
  have hfold (acc : List α) : ∃ z ∈ xs.foldl (addNew e copy) acc, e z x := by
    induction xs generalizing acc with
    | nil => cases hx
    | cons y xs ih =>
      rcases List.mem_cons.mp hx with rfl | hx
      · have hnow : ∃ z ∈ addNew e copy acc x, e z x := by
          rw [addNew]
          split_ifs with hany
          · exact List.any_eq_true.mp hany
          · exact ⟨copy x, List.mem_append_right _ (List.mem_singleton_self _), hcopy x⟩
        obtain ⟨z, hz, hzx⟩ := hnow
        exact ⟨z, subset_foldl_addNew (addNew e copy acc x) xs hz, hzx⟩
      · exact ih hx _
  exact hfold []

end Operations

/-! ### Comparisons that know only some elements -/

/-- The comparison `e'` is the equality `e` on the elements with `p`, and takes the others for equal
to nothing; a copy is equal to what it copies. -/
structure Restricts (e e' : α → α → Bool) (p : α → Bool) (copy : α → α) : Prop where
  equivalence : Equivalence fun x y ↦ e x y = true
  copy_eq : ∀ x, e (copy x) x = true
  respects : ∀ x y, e x y = true → p x = p y
  restrict : ∀ x y, e' x y = (p x && e x y)

namespace Restricts

variable {e e' : α → α → Bool} {p : α → Bool} {copy : α → α} (h : Restricts e e' p copy)

include h

theorem eq_of_copy_eq {x y : α} (hcopy : copy x = copy y) : e x y = true :=
  h.equivalence.trans (h.equivalence.symm (h.copy_eq x)) (hcopy ▸ h.copy_eq y)

theorem any_eq_any_of_forall {xs : List α} {v : α} (hall : ∀ y ∈ xs, e y v → p y) :
    (xs.any fun y ↦ e' y v) = xs.any fun y ↦ e y v := by
  rw [Bool.eq_iff_iff, List.any_eq_true, List.any_eq_true]
  refine exists_congr fun y ↦ and_congr_right fun hy ↦ ?_
  rw [h.restrict, Bool.and_eq_true]
  exact and_iff_right_of_imp (hall y hy)

/-- Membership. -/
theorem any_eq_any_iff {xs : List α} {v : α} :
    ((xs.any fun y ↦ e' y v) = xs.any fun y ↦ e y v) ↔ ∀ y ∈ xs, e y v → p y := by
  refine ⟨fun heq y hy hyv ↦ ?_, h.any_eq_any_of_forall⟩
  obtain ⟨z, -, hz⟩ := List.any_eq_true.mp (heq.trans (List.any_eq_true.mpr ⟨y, hy, hyv⟩))
  rw [h.restrict, Bool.and_eq_true] at hz
  rw [h.respects y z (h.equivalence.trans hyv (h.equivalence.symm hz.2))]
  exact hz.1

/-- Removal. -/
theorem removeBy_eq_iff {xs ys : List α} :
    removeBy e' copy xs ys = removeBy e copy xs ys ↔ ∀ x ∈ xs, ∀ y ∈ ys, e y x → p y := by
  constructor
  · intro heq x hx y hy hyx
    by_contra hpy
    have hkept : x ∈ xs.filter fun x ↦ !ys.any fun y ↦ e' y x := by
      refine List.mem_filter.mpr ⟨hx, ?_⟩
      rw [Bool.not_eq_true', ← Bool.not_eq_true]
      intro hany
      obtain ⟨z, -, hz⟩ := List.any_eq_true.mp hany
      rw [h.restrict, Bool.and_eq_true] at hz
      have hpz := h.respects y z (h.equivalence.trans hyx (h.equivalence.symm hz.2))
      exact hpy (hpz.trans hz.1)
    have hmem : copy x ∈ removeBy e copy xs ys := heq ▸ List.mem_map_of_mem hkept
    obtain ⟨z, hz, hcopy⟩ := List.mem_map.mp hmem
    have hyz : e y z = true := h.equivalence.trans hyx (h.equivalence.symm (h.eq_of_copy_eq hcopy))
    have hany : (ys.any fun y ↦ e y z) = true := List.any_eq_true.mpr ⟨y, hy, hyz⟩
    simp [hany] at hz
  · intro hall
    have hfilter : (xs.filter fun x ↦ !ys.any fun y ↦ e' y x) =
        xs.filter fun x ↦ !ys.any fun y ↦ e y x :=
      List.filter_congr fun x hx ↦ by rw [h.any_eq_any_of_forall (hall x hx)]
    rw [removeBy, removeBy, hfilter]

/-! ### The first ones -/

theorem foldl_addNew_eq {acc xs : List α} (hacc : ∀ y ∈ acc, ∀ x ∈ xs, e y x → p y)
    (hxs : xs.Pairwise fun x y ↦ e x y → p x) :
    xs.foldl (addNew e' copy) acc = xs.foldl (addNew e copy) acc := by
  induction xs generalizing acc with
  | nil => rfl
  | cons x xs ih =>
    obtain ⟨hx, hxs⟩ := List.pairwise_cons.mp hxs
    have hstep : addNew e' copy acc x = addNew e copy acc x := by
      rw [addNew, addNew, h.any_eq_any_of_forall fun y hy ↦ hacc y hy x List.mem_cons_self]
    rw [List.foldl_cons, List.foldl_cons, hstep]
    refine ih (fun y hy z hz hyz ↦ ?_) hxs
    rw [addNew] at hy
    split_ifs at hy
    · exact hacc y hy z (List.mem_cons_of_mem _ hz) hyz
    · rcases List.mem_append.mp hy with hy | hy
      · exact hacc y hy z (List.mem_cons_of_mem _ hz) hyz
      · obtain rfl := List.mem_singleton.mp hy
        rw [h.respects _ _ (h.copy_eq x)]
        exact hx z hz (h.equivalence.trans (h.equivalence.symm (h.copy_eq x)) hyz)

/-- No two elements that are kept are equal. -/
theorem pairwise_distinctBy (xs : List α) :
    (distinctBy e copy xs).Pairwise fun x y ↦ ¬e x y = true := by
  have hfold (acc : List α) (hacc : acc.Pairwise fun x y ↦ ¬e x y = true) :
      (xs.foldl (addNew e copy) acc).Pairwise fun x y ↦ ¬e x y = true := by
    induction xs generalizing acc with
    | nil => exact hacc
    | cons x xs ih =>
      refine ih _ ?_
      rw [addNew]
      split_ifs with hany
      · exact hacc
      · refine List.pairwise_append.mpr ⟨hacc, List.pairwise_singleton _ _, fun y hy z hz hyz ↦ ?_⟩
        obtain rfl := List.mem_singleton.mp hz
        exact hany (List.any_eq_true.mpr ⟨y, hy, h.equivalence.trans hyz (h.copy_eq x)⟩)
  exact hfold [] List.Pairwise.nil

/-- Elements without `p` are all kept. -/
theorem sublist_distinctBy (xs : List α) :
    ((xs.filter fun x ↦ !p x).map copy).Sublist (distinctBy e' copy xs) := by
  have hfold (acc : List α) :
      (acc ++ (xs.filter fun x ↦ !p x).map copy).Sublist (xs.foldl (addNew e' copy) acc) := by
    induction xs generalizing acc with
    | nil =>
      simpa only [List.filter_nil, List.map_nil, List.append_nil, List.foldl_nil] using
        List.Sublist.refl acc
    | cons x xs ih =>
      cases hpx : p x with
      | true =>
        rw [List.filter_cons_of_neg (by simp [hpx]), List.foldl_cons]
        refine List.Sublist.trans (List.Sublist.append_right ?_ _) (ih _)
        rw [addNew]
        split_ifs
        · exact List.Sublist.refl _
        · exact List.sublist_append_left _ _
      | false =>
        have hnew : addNew e' copy acc x = acc ++ [copy x] := by
          rw [addNew, if_neg]
          intro hany
          obtain ⟨y, -, hy⟩ := List.any_eq_true.mp hany
          rw [h.restrict, Bool.and_eq_true] at hy
          exact Bool.false_ne_true (hpx.symm.trans ((h.respects y x hy.2).symm.trans hy.1))
        rw [List.filter_cons_of_pos (by simp [hpx]), List.foldl_cons, hnew, List.map_cons]
        simpa using ih (acc ++ [copy x])
  exact hfold []

/-- The first of the elements that are equal. -/
theorem distinctBy_eq_iff {xs : List α} :
    distinctBy e' copy xs = distinctBy e copy xs ↔ xs.Pairwise fun x y ↦ e x y → p x := by
  refine ⟨fun heq ↦ ?_, h.foldl_addNew_eq (by simp)⟩
  have hpairwise := (h.pairwise_distinctBy xs).sublist (heq ▸ h.sublist_distinctBy xs)
  rw [List.pairwise_map, List.pairwise_filter] at hpairwise
  refine hpairwise.imp fun {x y} hne hxy ↦ ?_
  by_contra hpx
  have hx : (!p x) = true := by simpa using hpx
  have hy : (!p y) = true := by rwa [← h.respects x y hxy]
  refine hne hx hy (h.equivalence.trans (h.copy_eq x) (h.equivalence.trans hxy ?_))
  exact h.equivalence.symm (h.copy_eq y)

/-- Intersection. -/
theorem intersectBy_eq_iff {xs ys : List α} :
    intersectBy e' copy xs ys = intersectBy e copy xs ys ↔
      ∀ x ∈ xs, ∀ y ∈ ys, e y x → p y := by
  rw [intersectBy_eq_distinctBy, intersectBy_eq_distinctBy]
  constructor
  · intro heq x hx y hy hyx
    have hmem : x ∈ xs.filter fun x ↦ ys.any fun y ↦ e y x :=
      List.mem_filter.mpr ⟨hx, List.any_eq_true.mpr ⟨y, hy, hyx⟩⟩
    obtain ⟨z, hz, hzx⟩ := exists_mem_distinctBy h.copy_eq hmem
    obtain ⟨w, hw, rfl⟩ := mem_distinctBy (heq ▸ hz)
    obtain ⟨v, -, hv⟩ := List.any_eq_true.mp (List.mem_filter.mp hw).2
    rw [h.restrict, Bool.and_eq_true] at hv
    calc p y = p x := h.respects _ _ hyx
      _ = p (copy w) := (h.respects _ _ hzx).symm
      _ = p w := h.respects _ _ (h.copy_eq w)
      _ = p v := (h.respects _ _ hv.2).symm
      _ = true := hv.1
  · intro hall
    have hfilter : (xs.filter fun x ↦ ys.any fun y ↦ e' y x) =
        xs.filter fun x ↦ ys.any fun y ↦ e y x :=
      List.filter_congr fun x hx ↦ h.any_eq_any_of_forall (hall x hx)
    rw [hfilter, h.distinctBy_eq_iff]
    refine List.Pairwise.imp_of_mem (R := fun _ _ ↦ True) (fun {x y} hx _ _ _ ↦ ?_)
      (List.pairwise_of_forall fun _ _ ↦ trivial)
    obtain ⟨hx, hany⟩ := List.mem_filter.mp hx
    obtain ⟨z, hz, hzx⟩ := List.any_eq_true.mp hany
    exact (h.respects z x hzx).symm.trans (hall x hx z hz hzx)

end Restricts

end PuppetC
