import PuppetC.Interp.Equality
import PuppetC.Interp.Runs
import PuppetC.Support.DistinctBy

/-!
# Membership in arrays

Several operations look for a value in an array: `in`, `-`, and the functions `member`, `unique`,
`delete`, `union`, `intersection` and `difference`. Each compares values in its own way: it knows
values of some types only and takes the others for equal to nothing.

So an operation treats values as equal as `puppet_values_equal` does exactly if no two values that
it compares are equal and of a type that it does not know.

## Main definitions

* `comparedBy`: a comparison that knows some types.
* `member`, `unique`, `delete`, `union`, `intersection`, `difference`: the functions, on arrays.
* `funcMember`, `funcUnique`, `funcDelete`, `funcUnion`, `funcIntersection`, `funcDifference`: the
  functions, on their arguments.
* `UsesEquality`: the operations treat values as equal as `puppet_values_equal` does.

## Main results

* `restricts_comparedBy`: a comparison is equality on the types that it knows.
* `one_equality`: equality is an equivalence relation, and when the operations use it.
-/

namespace PuppetC

/-! ### Comparisons -/

/-- Equality of scalars. -/
def scalarEqual : Value → Value → Bool
  | .undef, .undef => true
  | .bool b, .bool b' => b == b'
  | .string s, .string s' => s == s'
  | .number n, .number n' => n == n'
  | _, _ => false

/-- Equality of scalars whose type is among `types`. -/
def comparedBy (types : List ℕ) (x y : Value) : Bool :=
  types.contains x.typeCode && scalarEqual x y

/-- Strings and numbers, which `in` and `delete` compare. -/
def stringNumber : List ℕ := [2, 3]

/-- Strings, numbers and booleans, which `-`, `member` and `unique` compare. -/
def stringNumberBool : List ℕ := [2, 3, 1]

/-- The types that `values_equal` compares, other than by identity: two arrays or hashes of an
operation are never the same object. -/
def scalarTypes : List ℕ := [0, 1, 3, 2]

/-! ### The functions on arrays -/

/-- The answer of `member`. -/
def member (items : List Value) (search : Value) : Bool :=
  items.any fun item ↦ comparedBy stringNumberBool item search

/-- The array that `unique` returns. -/
def unique (items : List Value) : List Value :=
  distinctBy (comparedBy stringNumberBool) Value.copy items

/-- The array that `delete` returns. -/
def delete (items : List Value) (target : Value) : List Value :=
  removeBy (comparedBy stringNumber) Value.copy items [target]

/-- The array that `union` returns: it adds the elements of one array and then of the other. -/
def union (a b : List Value) : List Value :=
  b.foldl (addNew (comparedBy scalarTypes) Value.copy)
    (a.foldl (addNew (comparedBy scalarTypes) Value.copy) [])

/-- The array that `intersection` returns. -/
def intersection (a b : List Value) : List Value :=
  intersectBy (comparedBy scalarTypes) Value.copy a b

/-- The array that `difference` returns. -/
def difference (a b : List Value) : List Value :=
  removeBy (comparedBy scalarTypes) Value.copy a b

/-! ### The functions on their arguments -/

/-- A function of two arguments; without them it prints a message and returns `failed`. -/
def withTwoArguments (message : String) (failed : Value) (f : Value → Value → Quiet Value) :
    List Expr → Quiet Value
  | e₁ :: e₂ :: _ => do
    let v₁ ← evalExpr e₁
    let v₂ ← evalExpr e₂
    f v₁ v₂
  | _ => do
    emit .logError message
    return failed

/-- `puppet_func_member`. -/
def funcMember : List Expr → Quiet Value :=
  withTwoArguments "member() requires 2 arguments: array and value" (.bool false)
    fun array search ↦
      match array with
      | .array items => return .bool (member items search)
      | _ => do
        emit .logError "member() first argument must be an array"
        return .bool false

/-- `puppet_func_unique`. -/
def funcUnique : List Expr → Quiet Value
  | [] => do
    emit .logError "unique() requires 1 argument: array"
    return .undef
  | arg :: _ => do
    match ← evalExpr arg with
    | .array items => return .array (unique items)
    | _ => do
      emit .logError "unique() argument must be an array"
      return Value.undef

/-- `puppet_func_delete`. Only a string deletes a key of a hash. -/
def funcDelete : List Expr → Quiet Value :=
  withTwoArguments "delete() requires 2 arguments: collection, value" .undef
    fun collection target ↦
      match collection with
      | .array items => return .array (delete items target)
      | .hash entries =>
        return .hash (setEntries [] (Value.copyEntries
          (entries.filter fun e ↦ target ≠ .string e.1)))
      | _ => do
        emit .logError "delete() first argument must be an array or hash"
        return Value.undef

/-- A function of two arrays; of other values it is undef. -/
def funcOfArrays (message : String) (f : List Value → List Value → List Value) :
    List Expr → Quiet Value :=
  withTwoArguments message .undef fun a b ↦
    match a, b with
    | .array xs, .array ys => return .array (f xs ys)
    | _, _ => return Value.undef

/-- `puppet_func_union`. -/
def funcUnion : List Expr → Quiet Value := funcOfArrays "union() requires 2 arguments" union

/-- `puppet_func_intersection`. -/
def funcIntersection : List Expr → Quiet Value :=
  funcOfArrays "intersection() requires 2 arguments" intersection

/-- `puppet_func_difference`. -/
def funcDifference : List Expr → Quiet Value :=
  funcOfArrays "difference() requires 2 arguments" difference

variable {w : World} {env env' : Env}

/-- A function of two arguments gets their values. -/
theorem returnsQuiet_withTwoArguments_iff {message : String} {failed u : Value}
    {f : Value → Value → Quiet Value} {e₁ e₂ : Expr} {rest : List Expr} :
    w.ReturnsQuiet (withTwoArguments message failed f (e₁ :: e₂ :: rest)) env u env' ↔
      ∃ v₁ env₁, w.ReturnsQuiet (evalExpr e₁) env v₁ env₁ ∧
        ∃ v₂ env₂, w.ReturnsQuiet (evalExpr e₂) env₁ v₂ env₂ ∧
          w.ReturnsQuiet (f v₁ v₂) env₂ u env' := by
  rw [withTwoArguments]
  simp only [returnsQuiet_bind_iff]

/-! ### Comparisons and equality -/

theorem typeCode_eq_of_valuesEqual {x y : Value} (h : valuesEqual x y = true) :
    x.typeCode = y.typeCode := by
  cases x <;> cases y <;> first | rfl | cases h

/-- A comparison of scalars is equality on the types that it knows. -/
theorem comparedBy_eq {types : List ℕ} (htypes : types ⊆ scalarTypes) (x y : Value) :
    comparedBy types x y = (types.contains x.typeCode && valuesEqual x y) := by
  rw [comparedBy]
  cases hcontains : types.contains x.typeCode with
  | false => rfl
  | true =>
    have hscalar : x.typeCode ∈ scalarTypes := htypes (List.contains_iff_mem.mp hcontains)
    cases x <;> cases y <;> first | rfl | simp [Value.typeCode, scalarTypes] at hscalar

/-- A comparison knows the values of its types, and takes the others for equal to nothing. -/
theorem restricts_comparedBy {types : List ℕ} (htypes : types ⊆ scalarTypes) :
    Restricts (fun x y : DataValue ↦ valuesEqual x.1 y.1) (fun x y ↦ comparedBy types x.1 y.1)
      (fun x ↦ types.contains x.1.typeCode) DataValue.copy where
  equivalence := Value.equivalence_valuesEqual
  copy_eq := Value.valuesEqual_copy
  respects x y h := by rw [typeCode_eq_of_valuesEqual h]
  restrict x y := comparedBy_eq htypes x.1 y.1

theorem scalarEqual_iff {x y : Value} : scalarEqual x y = true ↔ y.isScalar ∧ x = y := by
  cases x <;> cases y <;> simp [scalarEqual, Value.isScalar]

theorem any_comparedBy (types : List ℕ) (items : List Value) (v : Value) :
    (items.any fun item ↦ comparedBy types item v) =
      (types.contains v.typeCode && v.isScalar && items.contains v) := by
  rw [Bool.eq_iff_iff, List.any_eq_true]
  simp only [comparedBy, Bool.and_eq_true, scalarEqual_iff, List.contains_iff_mem]
  constructor
  · rintro ⟨_, hmem, htype, hscalar, rfl⟩
    exact ⟨⟨htype, hscalar⟩, hmem⟩
  · rintro ⟨⟨htype, hscalar⟩, hmem⟩
    exact ⟨v, hmem, htype, hscalar, rfl⟩

/-- `in` looks for a string or a number in an array. -/
theorem evalIn_array (v : Value) (items : List Value) : evalIn v (.array items) =
    some (.bool (items.any fun item ↦ comparedBy stringNumber item v)) := by
  rw [any_comparedBy]
  cases v <;> rfl

/-- `-` takes strings, numbers and booleans away. -/
theorem evalSub_array (xs ys : List Value) : evalSub (.array xs) (.array ys) =
    some (.array (removeBy (comparedBy stringNumberBool) Value.copy xs ys)) := by
  have hremoved (x : Value) :
      removedBy ys x = ys.any fun y ↦ comparedBy stringNumberBool y x := by
    rw [any_comparedBy]
    cases x <;> rfl
  rw [evalSub, removeBy, Value.copyList_eq_map]
  simp only [hremoved]

/-! ### One equality -/

/-- The operations on the arrays `a` and `b` and the value `v` treat values as equal as
`puppet_values_equal` does. -/
structure UsesEquality (a b : List Value) (v : Value) : Prop where
  isIn : evalIn v (.array a) = some (.bool (a.any fun x ↦ valuesEqual x v))
  member : member a v = a.any fun x ↦ valuesEqual x v
  unique : unique a = distinctBy valuesEqual Value.copy a
  delete : delete a v = removeBy valuesEqual Value.copy a [v]
  minus : evalSub (.array a) (.array [v]) =
    some (.array (removeBy valuesEqual Value.copy a [v]))
  union : union a b = distinctBy valuesEqual Value.copy (a ++ b)
  intersection : intersection a b = intersectBy valuesEqual Value.copy a b
  difference : difference a b = removeBy valuesEqual Value.copy a b

/-- Two values that are equal and of a type that a comparison does not know. -/
def Overlooked (types : List ℕ) (x y : DataValue) : Prop :=
  valuesEqual x.1 y.1 = true ∧ x.1.typeCode ∉ types

variable {types : List ℕ}

theorem not_overlooked_iff {x y : DataValue} : ¬Overlooked types x y ↔
    (valuesEqual x.1 y.1 = true → types.contains x.1.typeCode = true) := by
  rw [Overlooked, not_and, not_not, List.contains_iff_mem]

theorem copy_val (x : DataValue) : Value.copy x.val = x.copy.val := rfl

theorem any_comparedBy_eq_iff (htypes : types ⊆ scalarTypes) {a : List DataValue} {v : DataValue} :
    (((a.map Subtype.val).any fun x ↦ comparedBy types x v.1) =
      (a.map Subtype.val).any fun x ↦ valuesEqual x v.1) ↔ ∀ x ∈ a, ¬Overlooked types x v := by
  simp only [List.any_map, not_overlooked_iff]
  exact (restricts_comparedBy htypes).any_eq_any_iff

theorem removeBy_comparedBy_eq_iff (htypes : types ⊆ scalarTypes) {a b : List DataValue} :
    removeBy (comparedBy types) Value.copy (a.map Subtype.val) (b.map Subtype.val) =
        removeBy valuesEqual Value.copy (a.map Subtype.val) (b.map Subtype.val) ↔
      ∀ x ∈ a, ∀ y ∈ b, ¬Overlooked types y x := by
  rw [removeBy_map copy_val, removeBy_map copy_val, Subtype.val_injective.list_map.eq_iff,
    (restricts_comparedBy htypes).removeBy_eq_iff]
  simp only [not_overlooked_iff]

theorem distinctBy_comparedBy_eq_iff (htypes : types ⊆ scalarTypes) {a : List DataValue} :
    distinctBy (comparedBy types) Value.copy (a.map Subtype.val) =
        distinctBy valuesEqual Value.copy (a.map Subtype.val) ↔
      a.Pairwise fun x y ↦ ¬Overlooked types x y := by
  rw [distinctBy_map copy_val, distinctBy_map copy_val, Subtype.val_injective.list_map.eq_iff,
    (restricts_comparedBy htypes).distinctBy_eq_iff]
  simp only [not_overlooked_iff]

theorem intersectBy_comparedBy_eq_iff (htypes : types ⊆ scalarTypes) {a b : List DataValue} :
    intersectBy (comparedBy types) Value.copy (a.map Subtype.val) (b.map Subtype.val) =
        intersectBy valuesEqual Value.copy (a.map Subtype.val) (b.map Subtype.val) ↔
      ∀ x ∈ a, ∀ y ∈ b, ¬Overlooked types y x := by
  rw [intersectBy_map copy_val, intersectBy_map copy_val, Subtype.val_injective.list_map.eq_iff,
    (restricts_comparedBy htypes).intersectBy_eq_iff]
  simp only [not_overlooked_iff]

/-- Of two values that are equal neither or both are overlooked. -/
theorem Overlooked.symm {x y : DataValue} (h : Overlooked types x y) : Overlooked types y x :=
  ⟨Value.equivalence_valuesEqual.symm h.1, typeCode_eq_of_valuesEqual h.1 ▸ h.2⟩

theorem Overlooked.mono {types' : List ℕ} (htypes : types ⊆ types') {x y : DataValue}
    (h : Overlooked types' x y) : Overlooked types x y :=
  ⟨h.1, fun hmem ↦ h.2 (htypes hmem)⟩

/-- The operations use `puppet_values_equal` exactly if nothing that `in` and `delete` compare with
the value, no two elements of the one array, and no two elements of both are overlooked. -/
theorem usesEquality_iff (a b : List DataValue) (v : DataValue) :
    UsesEquality (a.map Subtype.val) (b.map Subtype.val) v.val ↔
      (∀ x ∈ a, ¬Overlooked stringNumber x v) ∧
      (a.Pairwise fun x y ↦ ¬Overlooked stringNumberBool x y) ∧
      (a ++ b).Pairwise fun x y ↦ ¬Overlooked scalarTypes x y := by
  have hstring : stringNumber ⊆ scalarTypes := by decide
  have hbool : stringNumberBool ⊆ scalarTypes := by decide
  have hsame : scalarTypes ⊆ scalarTypes := List.Subset.refl _
  have hunion : union (a.map Subtype.val) (b.map Subtype.val) =
      distinctBy (comparedBy scalarTypes) Value.copy ((a ++ b).map Subtype.val) := by
    rw [union, distinctBy, List.map_append, List.foldl_append]
  constructor
  · intro h
    refine ⟨?_, (distinctBy_comparedBy_eq_iff hbool).mp h.unique, ?_⟩
    · have hin := (evalIn_array _ _).symm.trans h.isIn
      exact (any_comparedBy_eq_iff hstring).mp (Value.bool.inj (Option.some.inj hin))
    · refine (distinctBy_comparedBy_eq_iff hsame).mp (hunion.symm.trans ?_)
      rw [h.union, List.map_append]
  · rintro ⟨hv, ha, hab⟩
    have hvbool : ∀ x ∈ a, ¬Overlooked stringNumberBool x v :=
      fun x hx hover ↦ hv x hx (hover.mono (by decide))
    have hcross : ∀ x ∈ a, ∀ y ∈ b, ¬Overlooked scalarTypes y x := fun x hx y hy hover ↦
      (List.pairwise_append.mp hab).2.2 x hx y hy hover.symm
    have hone {types : List ℕ} (hall : ∀ x ∈ a, ¬Overlooked types x v) :
        ∀ x ∈ a, ∀ y ∈ [v], ¬Overlooked types y x := by
      rintro x hx y hy hover
      obtain rfl := List.mem_singleton.mp hy
      exact hall x hx hover.symm
    exact
      { isIn := by rw [evalIn_array, (any_comparedBy_eq_iff hstring).mpr hv]
        member := (any_comparedBy_eq_iff hbool).mpr hvbool
        unique := (distinctBy_comparedBy_eq_iff hbool).mpr ha
        delete := (removeBy_comparedBy_eq_iff hstring (b := [v])).mpr (hone hv)
        minus := by
          rw [evalSub_array]
          exact congrArg (fun items ↦ some (Value.array items))
            ((removeBy_comparedBy_eq_iff hbool (b := [v])).mpr (hone hvbool))
        union := by
          rw [hunion, (distinctBy_comparedBy_eq_iff hsame).mpr hab, List.map_append]
        intersection := (intersectBy_comparedBy_eq_iff hsame).mpr hcross
        difference := (removeBy_comparedBy_eq_iff hsame).mpr hcross }

end PuppetC
