import Mathlib.Data.List.TakeWhile
import Mathlib.Tactic.Common

/-!
# The words of a list

The words of a list are what stands between its separators, of which there may be any number in a
row.

## Main definitions

* `wordsOf`: the words of a list.

## Main results

* `mem_of_mem_wordsOf`, `exists_mem_wordsOf`: the words have what is not a separator.
* `wordsOf_word_append`, `wordsOf_seps_append`: the words of lists that start with a word, or with
  separators.
-/

namespace PuppetC

variable {α : Type*} {p : α → Bool} {w xs ys : List α} {c : α}

/-- What satisfies a predicate is taken up to what does not. -/
theorem span_append {ys : List α} (hw : ∀ c ∈ w, p c = true) (hys : ∀ c ∈ ys.head?, p c = false) :
    (w ++ ys).takeWhile p = w ∧ (w ++ ys).dropWhile p = ys := by
  rw [List.takeWhile_append_of_pos hw, List.dropWhile_append_of_pos hw]
  cases ys with
  | nil => exact ⟨List.append_nil w, rfl⟩
  | cons c ys =>
    have hc := hys c rfl
    rw [List.takeWhile_cons_of_neg (by simp [hc]), List.dropWhile_cons_of_neg (by simp [hc])]
    exact ⟨List.append_nil w, rfl⟩

/-- The words of a list between separators. -/
def wordsOf (p : α → Bool) (xs : List α) : List (List α) :=
  (xs.splitOnP p).filter fun w ↦ !w.isEmpty

theorem wordsOf_append_cons (hc : p c = true) (xs ys : List α) :
    wordsOf p (xs ++ c :: ys) = wordsOf p xs ++ wordsOf p ys := by
  rw [wordsOf, List.splitOnP_append_cons xs ys hc, List.filter_append, wordsOf, wordsOf]

@[simp] theorem wordsOf_nil : wordsOf p [] = [] := by
  simp [wordsOf]

/-- A list without separators is a word. -/
theorem wordsOf_word (hw : ∀ c ∈ w, p c = false) (hne : w ≠ []) : wordsOf p w = [w] := by
  rw [wordsOf, List.splitOnP_eq_singleton hw]
  simpa using hne

/-- The words of lists with separators between them. -/
theorem wordsOf_intercalate (hc : p c = true) (ls : List (List α)) :
    wordsOf p ([c].intercalate ls) = ls.flatMap (wordsOf p) := by
  induction ls with
  | nil => exact wordsOf_nil
  | cons l ls ih =>
    cases ls with
    | nil => simp
    | cons l' ls =>
      rw [List.intercalate_cons_cons, List.append_assoc, List.singleton_append,
        wordsOf_append_cons hc, ih]
      rfl

/-- What is neither in a separator nor in the lists is not in the lists with separators between
them. -/
theorem notMem_intercalate {d : α} {sep : List α} {ls : List (List α)} (hsep : d ∉ sep)
    (h : ∀ l ∈ ls, d ∉ l) : d ∉ sep.intercalate ls := by
  induction ls with
  | nil => exact List.not_mem_nil
  | cons l ls ih =>
    rw [List.forall_mem_cons] at h
    cases ls with
    | nil =>
      rw [List.intercalate_singleton]
      exact h.1
    | cons l' ls =>
      rw [List.intercalate_cons_cons, List.mem_append, List.mem_append, not_or, not_or]
      exact ⟨⟨h.1, hsep⟩, ih h.2⟩

theorem wordsOf_word_append (hw : ∀ c ∈ w, p c = false) (hne : w ≠ []) (hc : p c = true)
    (ys : List α) : wordsOf p (w ++ c :: ys) = w :: wordsOf p ys := by
  rw [wordsOf_append_cons hc, wordsOf_word hw hne, List.singleton_append]

/-- Separators in front of a list do not matter. -/
theorem wordsOf_seps_append (hxs : ∀ c ∈ xs, p c = true) (ys : List α) :
    wordsOf p (xs ++ ys) = wordsOf p ys := by
  induction xs with
  | nil => rfl
  | cons c xs ih =>
    rw [List.forall_mem_cons] at hxs
    have hcons := wordsOf_append_cons hxs.1 [] (xs ++ ys)
    rw [wordsOf_nil, List.nil_append, List.nil_append] at hcons
    rw [List.cons_append, hcons, ih hxs.2]

/-- Separators behind a list do not matter. -/
theorem wordsOf_append_seps (hys : ∀ c ∈ ys, p c = true) (xs : List α) :
    wordsOf p (xs ++ ys) = wordsOf p xs := by
  cases ys with
  | nil => rw [List.append_nil]
  | cons c ys =>
    rw [List.forall_mem_cons] at hys
    have hnil := wordsOf_seps_append hys.2 []
    rw [List.append_nil, wordsOf_nil] at hnil
    rw [wordsOf_append_cons hys.1, hnil, List.append_nil]

/-- A list is a word, or starts with one before a separator. -/
theorem words_induct {P : List α → Prop} (p : α → Bool) (word : ∀ w, (∀ c ∈ w, p c = false) → P w)
    (cons : ∀ w c xs, (∀ d ∈ w, p d = false) → p c = true → P xs → P (w ++ c :: xs))
    (xs : List α) : P xs := by
  induction hn : xs.length using Nat.strongRecOn generalizing xs with
  | _ n ih =>
    have hw : ∀ c ∈ xs.takeWhile fun c ↦ !p c, p c = false := fun c hc ↦ by
      simpa using List.mem_takeWhile_imp hc
    have hxs : xs.takeWhile (fun c ↦ !p c) ++ xs.dropWhile (fun c ↦ !p c) = xs :=
      List.takeWhile_append_dropWhile
    cases hdrop : xs.dropWhile fun c ↦ !p c with
    | nil =>
      rw [hdrop, List.append_nil] at hxs
      exact word xs (hxs ▸ hw)
    | cons c ys =>
      have hc : p c = true := by
        have hhead := List.head_dropWhile_not (fun c ↦ !p c) (l := xs) (by simp [hdrop])
        simpa [hdrop] using hhead
      rw [hdrop] at hxs
      rw [← hxs]
      refine cons _ c ys hw hc (ih ys.length ?_ ys rfl)
      rw [← hn, ← hxs, List.length_append, List.length_cons]
      omega

/-- A word is not empty and has no separators. -/
theorem mem_of_mem_wordsOf (h : w ∈ wordsOf p xs) :
    w ≠ [] ∧ ∀ c ∈ w, p c = false ∧ c ∈ xs := by
  induction xs using words_induct p with
  | word xs hxs =>
    by_cases hne : xs = []
    · rw [hne, wordsOf_nil] at h
      cases h
    · rw [wordsOf_word hxs hne] at h
      rw [List.mem_singleton.1 h]
      exact ⟨hne, fun c hc ↦ ⟨hxs c hc, hc⟩⟩
  | cons v d xs hv hd ih =>
    rw [wordsOf_append_cons hd, List.mem_append] at h
    rcases h with h | h
    · by_cases hne : v = []
      · rw [hne, wordsOf_nil] at h
        cases h
      · rw [wordsOf_word hv hne] at h
        rw [List.mem_singleton.1 h]
        exact ⟨hne, fun c hc ↦ ⟨hv c hc, List.mem_append_left _ hc⟩⟩
    · obtain ⟨hne, hw⟩ := ih h
      exact ⟨hne, fun c hc ↦ ⟨(hw c hc).1,
        List.mem_append_right _ (List.mem_cons_of_mem _ (hw c hc).2)⟩⟩

/-- A word is no longer than the list. -/
theorem length_le_of_mem_wordsOf (h : w ∈ wordsOf p xs) : w.length ≤ xs.length := by
  induction xs using words_induct p with
  | word xs hxs =>
    by_cases hnil : xs = []
    · rw [hnil, wordsOf_nil] at h
      cases h
    · rw [wordsOf_word hxs hnil, List.mem_singleton] at h
      rw [h]
  | cons v c xs hv hc ih =>
    rw [wordsOf_append_cons hc, List.mem_append] at h
    rw [List.length_append, List.length_cons]
    rcases h with h | h
    · by_cases hnil : v = []
      · rw [hnil, wordsOf_nil] at h
        cases h
      · rw [wordsOf_word hv hnil, List.mem_singleton] at h
        rw [h]
        omega
    · have := ih h
      omega

/-- Separators that do not occur do not matter. -/
theorem wordsOf_congr {q : α → Bool} (h : ∀ c ∈ xs, p c = q c) : wordsOf p xs = wordsOf q xs := by
  induction xs using words_induct q with
  | word xs hxs =>
    by_cases hnil : xs = []
    · rw [hnil, wordsOf_nil, wordsOf_nil]
    · rw [wordsOf_word hxs hnil, wordsOf_word (fun c hc ↦ (h c hc).trans (hxs c hc)) hnil]
  | cons v c xs hv hc ih =>
    rw [List.forall_mem_append, List.forall_mem_cons] at h
    rw [wordsOf_append_cons hc, wordsOf_append_cons (h.2.1.trans hc), ih h.2.2]
    by_cases hnil : v = []
    · rw [hnil, wordsOf_nil, wordsOf_nil]
    · rw [wordsOf_word hv hnil, wordsOf_word (fun d hd ↦ (h.1 d hd).trans (hv d hd)) hnil]

/-- What is not a separator is in a word. -/
theorem exists_mem_wordsOf (hc : c ∈ xs) (hpc : p c = false) : ∃ w ∈ wordsOf p xs, c ∈ w := by
  induction xs using words_induct p with
  | word xs hxs => exact ⟨xs, by simp [wordsOf_word hxs (List.ne_nil_of_mem hc)], hc⟩
  | cons v d xs hv hd ih =>
    rw [wordsOf_append_cons hd]
    rcases List.mem_append.1 hc with hc | hc
    · exact ⟨v, by simp [wordsOf_word hv (List.ne_nil_of_mem hc)], hc⟩
    · rcases List.mem_cons.1 hc with rfl | hc
      · rw [hd] at hpc
        cases hpc
      · obtain ⟨w, hw, hcw⟩ := ih hc
        exact ⟨w, List.mem_append_right _ hw, hcw⟩

end PuppetC
