import PuppetC.Parser.Chain

/-!
# The conversion of accesses

An expression followed by accesses `[key]` is a row of siblings in the syntax tree. Here each
access is turned into an index of what is before it (`build_index_expr` in `puppet_ts_parser.c`).

## Main definitions

* `Access`: an `access` node.
* `buildIndexExpr`: `build_index_expr`.
* `indexed`: an expression with the accesses that follow it.

## Main results

* `indexExpr_injective`, `indexDepth_indexExpr`: neither the object nor the access is lost in an
  index.
-/

namespace PuppetC

/-- An `access`: its elements. -/
structure Access where
  element : AccessElement
  elements : List AccessElement

/-- Is this a name that starts with a capital? -/
def isTypeName (name : String) : Bool :=
  match name.toList with
  | c :: _ => 'A' ≤ c && c ≤ 'Z'
  | [] => false

/-- The index of an object by a key; a variable with the name of a type makes a reference. -/
def indexExpr (object key : Expr) : Expr :=
  match object with
  | .variable name => if isTypeName name then .resourceRef name (some key) else .index object key
  | _ => .index object key

/-- `convert_access_element_expr`. -/
def AccessElement.expr : AccessElement → Expr
  | .keyed name key keys => (key :: keys).foldl indexExpr (.variable name)
  | .plain e => e

/-- `build_index_expr`. Only the first element of an access is a key. -/
def buildIndexExpr (object : Expr) (access : Access) : Expr :=
  indexExpr object access.element.expr

/-- An expression with the accesses that follow it. -/
def indexed (object : Expr) (accesses : List Access) : Expr :=
  accesses.foldl buildIndexExpr object

/-! ### What an index is made of -/

namespace Expr

/-- The expression that indexes and selectors are applied to. -/
def indexRoot : Expr → Expr
  | .index object _ => object.indexRoot
  | .selector control _ _ => control.indexRoot
  | e => e

/-- The number of indexes and selectors that are applied; a reference with a title counts as one. -/
def indexDepth : Expr → ℕ
  | .index object _ => object.indexDepth + 1
  | .selector control _ _ => control.indexDepth + 1
  | .resourceRef _ (some _) => 1
  | _ => 0

theorem sizeOf_indexRoot_le (e : Expr) : sizeOf e.indexRoot ≤ sizeOf e := by
  induction e using indexRoot.induct with
  | case1 object key ih =>
    rw [indexRoot, Expr.index.sizeOf_spec]
    omega
  | case2 control cases default ih =>
    rw [indexRoot, Expr.selector.sizeOf_spec]
    omega
  | case3 e h h' =>
    rw [indexRoot]
    · exact h
    · exact h'

end Expr

theorem indexExpr_eq_index {object : Expr} (h : ∀ name, object ≠ .variable name) (key : Expr) :
    indexExpr object key = .index object key := by
  unfold indexExpr
  split
  · exact absurd rfl (h _)
  · rfl

theorem indexExpr_ne_variable (object key : Expr) (name : String) :
    indexExpr object key ≠ .variable name := by
  unfold indexExpr
  split
  · split_ifs <;> nofun
  · nofun

theorem indexDepth_indexExpr (object key : Expr) :
    (indexExpr object key).indexDepth = object.indexDepth + 1 := by
  unfold indexExpr
  split
  · split_ifs <;> rfl
  · rfl

theorem indexExpr_injective (key : Expr) :
    Function.Injective fun object ↦ indexExpr object key := by
  intro object object' h
  dsimp only at h
  by_cases hv : ∃ name, object = .variable name <;> by_cases hv' : ∃ name, object' = .variable name
  · obtain ⟨name, rfl⟩ := hv
    obtain ⟨name', rfl⟩ := hv'
    simp only [indexExpr] at h
    split_ifs at h <;> simpa using h
  · obtain ⟨name, rfl⟩ := hv
    rw [indexExpr_eq_index (not_exists.1 hv'), indexExpr] at h
    split_ifs at h
    exact (Expr.index.inj h).1
  · obtain ⟨name', rfl⟩ := hv'
    rw [indexExpr_eq_index (not_exists.1 hv), indexExpr] at h
    split_ifs at h
    exact (Expr.index.inj h).1
  · rw [indexExpr_eq_index (not_exists.1 hv), indexExpr_eq_index (not_exists.1 hv')] at h
    exact (Expr.index.inj h).1

@[simp] theorem indexed_nil (object : Expr) : indexed object [] = object := rfl

@[simp] theorem indexed_cons (object : Expr) (a : Access) (as : List Access) :
    indexed object (a :: as) = indexed (buildIndexExpr object a) as := rfl

theorem indexRoot_indexed {object : Expr} (h : ∀ name, object ≠ .variable name)
    (as : List Access) : (indexed object as).indexRoot = object.indexRoot := by
  induction as generalizing object with
  | nil => rfl
  | cons a as ih =>
    rw [indexed_cons, buildIndexExpr, ih (indexExpr_ne_variable object a.element.expr),
      indexExpr_eq_index h, Expr.indexRoot]

/-- An element that is a variable with accesses is more than its first child. -/
theorem AccessElement.firstChild_eq_expr_iff (element : AccessElement) :
    element.firstChild = element.expr ↔ ∃ e, element = .plain e := by
  cases element with
  | plain e => exact iff_of_true rfl ⟨e, rfl⟩
  | keyed name key keys =>
    refine iff_of_false (fun h ↦ ?_) (by rintro ⟨e, he⟩; cases he)
    have hne : ∀ (keys : List Expr) (e : Expr), (∀ name, e ≠ .variable name) →
        ∀ name, keys.foldl indexExpr e ≠ .variable name := by
      intro keys
      induction keys with
      | nil => exact fun e he ↦ he
      | cons key keys ih => exact fun e _ ↦ ih _ (indexExpr_ne_variable e key)
    exact hne keys _ (indexExpr_ne_variable _ key) name h.symm

end PuppetC
