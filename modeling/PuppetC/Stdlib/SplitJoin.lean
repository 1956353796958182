import PuppetC.Interp.Functions
import PuppetC.Support.Separator

/-!
# Splitting and joining strings

`split` looks for the separator with `strstr` and copies what stands between its occurrences;
`join` concatenates the display texts of the items. Both take the lengths of their texts from
`strlen`, not from the values, so they see a string only up to its first NUL. Apart from that each
is the inverse of the other.

## Main definitions

* `splitItems`, `funcSplit`: `puppet_func_split`.
* `joinItems`, `funcJoin`: `puppet_func_join`.
* `SplitsBack`, `JoinsBack`: one function undoes the other.

## Main results

* `split_join_inverse`: when `split` and `join` are inverse.
-/

namespace PuppetC

/-! ### The functions -/

/-- The items of the array that `split` returns. -/
def splitItems (str pattern : String) : List Value :=
  if h : beforeNul pattern.toList = [] then
    (beforeNul str.toList).map fun c ↦ .string (String.singleton c)
  else
    (splitBy (beforeNul pattern.toList) h (beforeNul str.toList)).map fun part ↦
      .string (String.ofList part)

/-- The text that `join` returns. -/
def joinItems (items : List Value) (separator : String) : String :=
  String.ofList <| (beforeNul separator.toList).intercalate <|
    items.map fun v ↦ beforeNul (displayText v).toList

/-- `puppet_func_split`. -/
def funcSplit : List Expr → Quiet Value
  | e₁ :: e₂ :: _ => do
    let strVal ← evalExpr e₁
    let patternVal ← evalExpr e₂
    match strVal, patternVal with
    | .string str, .string pattern => return .array (splitItems str pattern)
    | .string _, _ => do
      emit .logError "split() second argument must be a string pattern"
      return Value.undef
    | _, _ => do
      emit .logError "split() first argument must be a string"
      return Value.undef
  | _ => do
    emit .logError "split() requires 2 arguments: string and pattern"
    return Value.undef

/-- `puppet_func_join`. -/
def funcJoin : List Expr → Quiet Value
  | e₁ :: e₂ :: _ => do
    let arrayVal ← evalExpr e₁
    let sepVal ← evalExpr e₂
    match arrayVal, sepVal with
    | .array items, .string separator => return .string (joinItems items separator)
    | .array _, _ => do
      emit .logError "join() second argument must be a string separator"
      return Value.undef
    | _, _ => do
      emit .logError "join() first argument must be an array"
      return Value.undef
  | _ => do
    emit .logError "join() requires 2 arguments: array and separator"
    return Value.undef

/-! ### The texts -/

/-- The separators of `split`, on texts. -/
def splitText (sep : List Char) (s : List Char) : List (List Char) :=
  if h : sep = [] then s.map fun c ↦ [c] else splitBy sep h s

/-- The parts of a joined text can be told apart; if there is no separator, each is one
character. -/
def ToldApart (sep : List Char) (xs : List (List Char)) : Prop :=
  if sep = [] then ∀ x ∈ xs, x.length = 1 else SeparatedBy sep xs

variable {sep s : List Char} {xs : List (List Char)}

theorem splitItems_eq (str pattern : String) : splitItems str pattern =
    (splitText (beforeNul pattern.toList) (beforeNul str.toList)).map fun part ↦
      .string (String.ofList part) := by
  rw [splitItems, splitText]
  split_ifs with h
  · rw [List.map_map]
    exact List.map_congr_left fun c _ ↦ congrArg Value.string String.singleton_eq_ofList
  · rfl

theorem toList_joinItems_string (xs : List String) (separator : String) :
    (joinItems (xs.map .string) separator).toList =
      (beforeNul separator.toList).intercalate (xs.map fun x ↦ beforeNul x.toList) := by
  rw [joinItems, String.toList_ofList, List.map_map]
  rfl

theorem intercalate_nil_eq_flatten (xs : List (List Char)) :
    ([] : List Char).intercalate xs = xs.flatten := by
  induction xs with
  | nil => rfl
  | cons x xs ih =>
    cases xs with
    | nil => simp
    | cons y ys =>
      rw [List.intercalate_cons_cons, ih, List.append_nil]
      rfl

/-- The parts of a text joined are the text. -/
theorem intercalate_splitText (sep s : List Char) : sep.intercalate (splitText sep s) = s := by
  rw [splitText]
  split_ifs with h
  · rw [h, intercalate_nil_eq_flatten, ← List.flatMap_def, List.flatMap_singleton']
  · exact intercalate_splitBy h s

/-- A joined text is split into what was joined exactly if the parts can be told apart. -/
theorem splitText_intercalate_iff (hxs : xs ≠ []) :
    splitText sep (sep.intercalate xs) = xs ↔ ToldApart sep xs := by
  rw [splitText, ToldApart]
  split_ifs with h
  · rw [h, intercalate_nil_eq_flatten]
    constructor
    · intro heq x hx
      rw [← heq] at hx
      obtain ⟨c, -, rfl⟩ := List.mem_map.mp hx
      rfl
    · clear hxs
      induction xs with
      | nil => exact fun _ ↦ rfl
      | cons x xs ih =>
        intro hall
        obtain ⟨hx, hrest⟩ := List.forall_mem_cons.mp hall
        obtain ⟨c, rfl⟩ := List.length_eq_one_iff.mp hx
        rw [List.flatten_cons, List.map_append, ih hrest]
        rfl
  · exact splitBy_intercalate_iff h hxs

theorem mem_intercalate {x : List Char} {c : Char} (hx : x ∈ xs) (hc : c ∈ x) :
    c ∈ sep.intercalate xs := by
  induction xs with
  | nil => exact absurd hx List.not_mem_nil
  | cons y ys ih =>
    cases ys with
    | nil =>
      rw [List.mem_singleton] at hx
      rwa [List.intercalate_singleton, ← hx]
    | cons z zs =>
      rw [List.intercalate_cons_cons, List.append_assoc, List.mem_append]
      rcases List.mem_cons.mp hx with rfl | hx
      · exact .inl hc
      · exact .inr (List.mem_append_right _ (ih hx))

/-- A part holds what the text holds. -/
theorem nul_not_mem_of_mem_splitText (hs : '\x00' ∉ s) :
    ∀ part ∈ splitText sep s, '\x00' ∉ part := by
  intro part hpart hmem
  have hjoined : '\x00' ∈ sep.intercalate (splitText sep s) := mem_intercalate hpart hmem
  rw [intercalate_splitText] at hjoined
  exact hs hjoined

theorem nul_not_mem_intercalate (hsep : '\x00' ∉ sep) (hxs : ∀ x ∈ xs, '\x00' ∉ x) :
    '\x00' ∉ sep.intercalate xs := by
  induction xs with
  | nil => exact List.not_mem_nil
  | cons x xs ih =>
    obtain ⟨hx, hrest⟩ := List.forall_mem_cons.mp hxs
    cases xs with
    | nil => rwa [List.intercalate_singleton]
    | cons y ys =>
      rw [List.intercalate_cons_cons, List.mem_append, List.mem_append, not_or, not_or]
      exact ⟨⟨hx, hsep⟩, ih hrest⟩

/-! ### Inverses -/

/-- `join(split(s, p), p) = s`, and no part contains `p`. -/
structure SplitsBack (s p : String) : Prop where
  joined : joinItems (splitItems s p) p = s
  parts : ∀ part ∈ splitItems s p, ∃ t : String, part = .string t ∧ ¬p.toList <:+: t.toList

/-- `split(join(xs, p), p) = xs`. -/
def JoinsBack (xs : List String) (p : String) : Prop :=
  splitItems (joinItems (xs.map .string) p) p = xs.map .string

theorem hasChar_eq_false_iff {s : String} {c : Char} : hasChar s c = false ↔ c ∉ s.toList := by
  rw [hasChar, List.contains_eq_mem, decide_eq_false_iff_not]

/-- What is joined after a split is what `split` sees of the text. -/
theorem toList_joinItems_splitItems (s p : String) :
    (joinItems (splitItems s p) p).toList = beforeNul s.toList := by
  have hstrings : splitItems s p = ((splitText (beforeNul p.toList) (beforeNul s.toList)).map
      String.ofList).map .string := by
    rw [splitItems_eq, List.map_map]
    rfl
  rw [hstrings, toList_joinItems_string, List.map_map]
  have hparts : (splitText (beforeNul p.toList) (beforeNul s.toList)).map
      ((fun x : String ↦ beforeNul x.toList) ∘ String.ofList) =
        splitText (beforeNul p.toList) (beforeNul s.toList) := by
    refine List.map_congr_left (g := id) (fun part hpart ↦ ?_) |>.trans (List.map_id _)
    rw [Function.comp_apply, String.toList_ofList, id, beforeNul_eq_self_iff]
    exact nul_not_mem_of_mem_splitText (nul_not_mem_beforeNul _) part hpart
  rw [hparts, intercalate_splitText]

theorem splitsBack_iff {p : String} (hp : p ≠ "") (s : String) :
    SplitsBack s p ↔ hasChar s '\x00' = false := by
  rw [hasChar_eq_false_iff, ← beforeNul_eq_self_iff, ← toList_joinItems_splitItems s p,
    String.toList_inj]
  refine ⟨SplitsBack.joined, fun hjoined ↦ ⟨hjoined, fun part hpart ↦ ?_⟩⟩
  rw [splitItems_eq] at hpart
  obtain ⟨t, ht, rfl⟩ := List.mem_map.mp hpart
  refine ⟨_, rfl, fun hsub ↦ ?_⟩
  rw [String.toList_ofList] at hsub
  -- a part has no NUL, so a separator that it contains has none
  have hnul : '\x00' ∉ p.toList := fun hmem ↦
    nul_not_mem_of_mem_splitText (nul_not_mem_beforeNul _) t ht (hsub.subset hmem)
  have hne : p.toList ≠ [] := by simpa using hp
  rw [beforeNul_eq_self_iff.mpr hnul, splitText, dif_neg hne] at ht
  exact not_isInfix_of_mem_splitBy hne _ t ht hsub

theorem joinsBack_iff (p : String) {xs : List String} (hxs : xs ≠ []) : JoinsBack xs p ↔
    (∀ x ∈ xs, hasChar x '\x00' = false) ∧
      ToldApart (beforeNul p.toList) (xs.map String.toList) := by
  have hinj : Function.Injective fun part : List Char ↦ Value.string (String.ofList part) :=
    fun _ _ h ↦ String.ofList_injective (Value.string.inj h)
  have hstrings : xs.map Value.string =
      (xs.map String.toList).map fun part ↦ Value.string (String.ofList part) := by
    simp only [List.map_map, Function.comp_def, String.ofList_toList]
  rw [JoinsBack, splitItems_eq, hstrings, hinj.list_map.eq_iff, ← hstrings,
    toList_joinItems_string]
  have hnul : (∀ x ∈ xs, hasChar x '\x00' = false) ↔
      ∀ x ∈ xs.map String.toList, '\x00' ∉ x := by
    simp only [hasChar_eq_false_iff, List.forall_mem_map]
  have hseen (h : ∀ x ∈ xs, hasChar x '\x00' = false) :
      beforeNul ((beforeNul p.toList).intercalate (xs.map fun x ↦ beforeNul x.toList)) =
        (beforeNul p.toList).intercalate (xs.map String.toList) := by
    have hmap : xs.map (fun x ↦ beforeNul x.toList) = xs.map String.toList :=
      List.map_congr_left fun x hx ↦
        beforeNul_eq_self_iff.mpr (hasChar_eq_false_iff.mp (h x hx))
    rw [hmap, beforeNul_eq_self_iff]
    exact nul_not_mem_intercalate (nul_not_mem_beforeNul _) (hnul.mp h)
  constructor
  · intro h
    have hall : ∀ x ∈ xs, hasChar x '\x00' = false := by
      rw [hnul, ← h]
      exact nul_not_mem_of_mem_splitText (nul_not_mem_beforeNul _)
    rw [hseen hall, splitText_intercalate_iff (by simpa using hxs)] at h
    exact ⟨hall, h⟩
  · rintro ⟨hall, h⟩
    rwa [hseen hall, splitText_intercalate_iff (by simpa using hxs)]

/-- Without a NUL, parts that neither contain nor overlap the separator can be told apart. -/
theorem toldApart_of_not_meets {p : String} (hp : p ≠ "") (hnul : hasChar p '\x00' = false)
    {xs : List String} (h : ∀ x ∈ xs, ¬Meets p.toList x.toList) :
    ToldApart (beforeNul p.toList) (xs.map String.toList) := by
  have hne : p.toList ≠ [] := by simpa using hp
  rw [beforeNul_eq_self_iff.mpr (hasChar_eq_false_iff.mp hnul), ToldApart, if_neg hne]
  exact separatedBy_of_forall hne (List.forall_mem_map.mpr h)

/-- `split` and `join` are inverse exactly on strings without NULs: every string without one is
joined again, and strings without one are given back if the separator, as far as it is seen, tells
them apart. A separator without a NUL that they neither contain nor overlap does. -/
theorem split_join_inverse (p : String) (hp : p ≠ "") :
    (∀ s, SplitsBack s p ↔ hasChar s '\x00' = false) ∧
    (∀ xs, xs ≠ [] → (JoinsBack xs p ↔ (∀ x ∈ xs, hasChar x '\x00' = false) ∧
      ToldApart (beforeNul p.toList) (xs.map String.toList))) ∧
    (hasChar p '\x00' = false → ∀ xs : List String, (∀ x ∈ xs, ¬Meets p.toList x.toList) →
      ToldApart (beforeNul p.toList) (xs.map String.toList)) :=
  ⟨splitsBack_iff hp, fun _ ↦ joinsBack_iff p, fun hnul _ ↦ toldApart_of_not_meets hp hnul⟩

/-- `split(join(['', 'a', ''], ','), ',')`. -/
theorem split_join_inverse_comma : SplitsBack ",a,,b" "," ∧ JoinsBack ["", "a", ""] "," := by
  obtain ⟨hsplit, hjoin, htold⟩ := split_join_inverse "," (by decide)
  refine ⟨(hsplit _).mpr (by decide), (hjoin _ (by decide)).mpr ⟨by decide, ?_⟩⟩
  refine htold (by decide) _ fun x hx ↦ not_meets_singleton ?_
  revert x
  decide

/-- `split(base64('decode', 'YQBi'), ',')` loses what follows the NUL. -/
theorem not_splitsBack_nul : ¬SplitsBack "a\x00b" "," := by
  rw [splitsBack_iff (by decide)]
  decide

end PuppetC
