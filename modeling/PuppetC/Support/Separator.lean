import Mathlib.Data.List.Basic
import Mathlib.Data.List.Infix
import Mathlib.Tactic.SplitIfs

/-!
# Splitting a list at a separator

A list is split at each occurrence of a separator, from left to right. What is split is joined
again, and no part contains the separator. What is joined is split into the same parts exactly if
no part meets the separator that follows it, by containing it or by overlapping it.

## Main definitions

* `cutAt`: `strstr`, as the parts before and after the first occurrence.
* `splitBy`: the parts of a list between separators.
* `Meets`: a list contains a separator or overlaps the one that follows it.
* `SeparatedBy`: the parts of a joined list can be told apart.

## Main results

* `intercalate_splitBy`: the parts joined are the list.
* `not_isInfix_of_mem_splitBy`: no part contains the separator.
* `splitBy_intercalate_iff`: when a joined list splits into what was joined.
* `not_meets`: a list meets no separator that it neither contains nor overlaps.
-/

namespace PuppetC

variable {α : Type} [DecidableEq α]

/-- The parts of a list before and after the first occurrence of a separator. -/
def cutAt (sep : List α) : List α → Option (List α × List α)
  | [] => if sep = [] then some ([], []) else none
  | c :: cs =>
    if sep.isPrefixOf (c :: cs) then some ([], (c :: cs).drop sep.length)
    else (cutAt sep cs).map fun p ↦ (c :: p.1, p.2)

variable {sep s a b x : List α} {xs : List (List α)}

/-- What is cut is found, and it does not stand further left. -/
theorem cutAt_eq_some (h : cutAt sep s = some (a, b)) :
    s = a ++ (sep ++ b) ∧ ∀ a' b', s = a' ++ (sep ++ b') → a.length ≤ a'.length := by
  induction s generalizing a b with
  | nil =>
    rw [cutAt] at h
    split_ifs at h with hsep
    obtain ⟨rfl, rfl⟩ := Prod.mk.inj (Option.some.inj h)
    exact ⟨by rw [hsep]; rfl, fun _ _ _ ↦ Nat.zero_le _⟩
  | cons c cs ih =>
    rw [cutAt] at h
    split_ifs at h with hfound
    · obtain ⟨rfl, rfl⟩ := Prod.mk.inj (Option.some.inj h)
      obtain ⟨t, ht⟩ := List.isPrefixOf_iff_prefix.mp hfound
      refine ⟨?_, fun _ _ _ ↦ Nat.zero_le _⟩
      rw [← ht, List.drop_left, List.nil_append]
    · obtain ⟨⟨a₀, b₀⟩, hcut, heq⟩ := Option.map_eq_some_iff.mp h
      obtain ⟨rfl, rfl⟩ := Prod.mk.inj heq
      obtain ⟨hs, hfirst⟩ := ih hcut
      refine ⟨congrArg (c :: ·) hs, fun a' b' hoccurs ↦ ?_⟩
      cases a' with
      | nil => exact absurd (List.isPrefixOf_iff_prefix.mpr ⟨b', hoccurs.symm⟩) hfound
      | cons d ds => exact Nat.succ_le_succ (hfirst ds b' (List.cons.inj hoccurs).2)

theorem cutAt_eq_none_iff : cutAt sep s = none ↔ ¬sep <:+: s := by
  induction s with
  | nil => simp [cutAt, List.infix_nil]
  | cons c cs ih =>
    rw [cutAt, List.infix_cons_iff, not_or]
    split_ifs with hfound
    · exact iff_of_false (by simp) fun h ↦ h.1 (List.isPrefixOf_iff_prefix.mp hfound)
    · rw [Option.map_eq_none_iff, ih, and_iff_right]
      exact fun h ↦ hfound (List.isPrefixOf_iff_prefix.mpr h)

/-- The first occurrence is cut. -/
theorem cutAt_eq_some_of_first
    (h : ∀ a' b', a ++ (sep ++ b) = a' ++ (sep ++ b') → a.length ≤ a'.length) :
    cutAt sep (a ++ (sep ++ b)) = some (a, b) := by
  cases hcut : cutAt sep (a ++ (sep ++ b)) with
  | none => exact absurd ⟨a, b, List.append_assoc _ _ _⟩ (cutAt_eq_none_iff.mp hcut)
  | some p =>
    obtain ⟨hs, hfirst⟩ := cutAt_eq_some hcut
    have hlength : a.length = p.1.length :=
      Nat.le_antisymm (h _ _ hs) (hfirst a b rfl)
    obtain ⟨ha, hrest⟩ := List.append_inj hs hlength
    rw [ha, List.append_cancel_left hrest]

/-! ### Parts -/

/-- The parts of a list between the occurrences of a separator. -/
def splitBy (sep : List α) (hsep : sep ≠ []) (s : List α) : List (List α) :=
  match _hcut : cutAt sep s with
  | none => [s]
  | some (before, after) => before :: splitBy sep hsep after
termination_by s.length
decreasing_by
  have hpos := List.length_pos_of_ne_nil hsep
  rw [(cutAt_eq_some _hcut).1, List.length_append, List.length_append]
  omega

theorem splitBy_of_none (hsep : sep ≠ []) (h : cutAt sep s = none) :
    splitBy sep hsep s = [s] := by
  rw [splitBy]
  split <;> simp_all

theorem splitBy_of_some (hsep : sep ≠ []) (h : cutAt sep s = some (a, b)) :
    splitBy sep hsep s = a :: splitBy sep hsep b := by
  rw [splitBy]
  split <;> simp_all

theorem splitBy_ne_nil (hsep : sep ≠ []) (s : List α) : splitBy sep hsep s ≠ [] := by
  cases h : cutAt sep s with
  | none => simp [splitBy_of_none hsep h]
  | some p => simp [splitBy_of_some hsep h]

/-- The parts joined are the list. -/
theorem intercalate_splitBy (hsep : sep ≠ []) (s : List α) :
    sep.intercalate (splitBy sep hsep s) = s := by
  induction s using splitBy.induct sep hsep with
  | case1 s hcut =>
    rw [splitBy_of_none hsep hcut, List.intercalate_singleton]
  | case2 s before after hcut ih =>
    rw [splitBy_of_some hsep hcut, List.intercalate_cons_of_ne_nil (splitBy_ne_nil hsep _), ih,
      List.append_assoc]
    exact (cutAt_eq_some hcut).1.symm

/-- No part contains the separator. -/
theorem not_isInfix_of_mem_splitBy (hsep : sep ≠ []) (s : List α) :
    ∀ part ∈ splitBy sep hsep s, ¬sep <:+: part := by
  induction s using splitBy.induct sep hsep with
  | case1 s hcut =>
    rw [splitBy_of_none hsep hcut, List.forall_mem_singleton]
    exact cutAt_eq_none_iff.mp hcut
  | case2 s before after hcut ih =>
    rw [splitBy_of_some hsep hcut, List.forall_mem_cons]
    refine ⟨?_, ih⟩
    rintro ⟨u, v, rfl⟩
    -- an occurrence in the part before the first one
    obtain ⟨hs, hfirst⟩ := cutAt_eq_some hcut
    have hle := hfirst u (v ++ (sep ++ after)) (by rw [hs]; simp only [List.append_assoc])
    have hpos := List.length_pos_of_ne_nil hsep
    simp only [List.length_append] at hle
    omega

/-! ### Parts that can be told apart -/

omit [DecidableEq α]

/-- A list meets the separator that follows it: the separator occurs there before its place. -/
def Meets (sep x : List α) : Prop := ∃ a b, x ++ sep = a ++ (sep ++ b) ∧ b ≠ []

/-- The parts of a joined list can be told apart: each meets no separator that follows it, and the
last one, which none follows, contains none. -/
def SeparatedBy (sep : List α) : List (List α) → Prop
  | [] => True
  | [x] => ¬sep <:+: x
  | x :: y :: xs => ¬Meets sep x ∧ SeparatedBy sep (y :: xs)

/-- The separator after a list is the first one exactly if the list does not meet it. -/
theorem forall_occurrence_iff (rest : List α) :
    (∀ a' b', x ++ (sep ++ rest) = a' ++ (sep ++ b') → x.length ≤ a'.length) ↔ ¬Meets sep x := by
  constructor
  · rintro h ⟨a, b, hoccurs, hb⟩
    have hle := h a (b ++ rest) (by
      rw [← List.append_assoc, hoccurs]
      simp only [List.append_assoc])
    have hlength := congrArg List.length hoccurs
    have hpos := List.length_pos_of_ne_nil hb
    simp only [List.length_append] at hlength
    omega
  · intro h a' b' hoccurs
    by_contra hlt
    refine h ⟨a', b'.take (x.length - a'.length), ?_, ?_⟩
    · have htake := congrArg (List.take (x.length + sep.length)) hoccurs
      rw [← List.append_assoc, ← List.append_assoc, ← List.length_append, List.take_left,
        List.take_append, List.take_of_length_le (by simp only [List.length_append]; omega)]
        at htake
      rw [htake, List.append_assoc]
      congr 3
      simp only [List.length_append]
      omega
    · have hlength := congrArg List.length hoccurs
      simp only [List.length_append] at hlength
      rw [← List.length_pos_iff, List.length_take]
      omega

/-- A list meets no separator that it neither contains nor overlaps. -/
theorem not_meets (hcontains : ¬sep <:+: x) (hoverlaps : ∀ t, t ≠ [] → t <:+ x → ¬t <+: sep) :
    ¬Meets sep x := by
  rintro ⟨a, b, hoccurs, hb⟩
  have hlength := congrArg List.length hoccurs
  have hpos := List.length_pos_of_ne_nil hb
  simp only [List.length_append] at hlength
  have hdrop := congrArg (List.drop a.length) hoccurs
  rw [List.drop_left, List.drop_append_of_le_length (by omega)] at hdrop
  have hx : x.drop a.length <+: sep ++ b := ⟨sep, hdrop⟩
  rcases List.prefix_or_prefix_of_prefix hx (List.prefix_append sep b) with hle | hle
  · refine hoverlaps _ ?_ (List.drop_suffix _ _) hle
    rw [← List.length_pos_iff, List.length_drop]
    omega
  · exact hcontains (hle.isInfix.trans (List.drop_suffix _ _).isInfix)

/-- A list meets no separator of one element that is not in it. -/
theorem not_meets_singleton {c : α} (h : c ∉ x) : ¬Meets [c] x := by
  refine not_meets (fun hsub ↦ h (hsub.subset List.mem_cons_self)) fun t hne hsuffix hsep ↦ ?_
  obtain ⟨d, ds, rfl⟩ := List.exists_cons_of_ne_nil hne
  have hd : d = c := List.mem_singleton.mp (hsep.subset List.mem_cons_self)
  exact h (hd ▸ hsuffix.subset List.mem_cons_self)

/-- A list that meets no separator contains none. -/
theorem not_isInfix_of_not_meets (hsep : sep ≠ []) (h : ¬Meets sep x) : ¬sep <:+: x := by
  rintro ⟨a, b, rfl⟩
  refine h ⟨a, b ++ sep, by simp only [List.append_assoc], ?_⟩
  simp [hsep]

theorem separatedBy_of_forall (hsep : sep ≠ []) (h : ∀ x ∈ xs, ¬Meets sep x) :
    SeparatedBy sep xs := by
  induction xs with
  | nil => trivial
  | cons x xs ih =>
    obtain ⟨hx, hxs⟩ := List.forall_mem_cons.mp h
    cases xs with
    | nil => exact not_isInfix_of_not_meets hsep hx
    | cons y ys => exact ⟨hx, ih hxs⟩

/-- What is joined is split into the same parts exactly if these can be told apart. -/
theorem splitBy_intercalate_iff [DecidableEq α] (hsep : sep ≠ []) (hxs : xs ≠ []) :
    splitBy sep hsep (sep.intercalate xs) = xs ↔ SeparatedBy sep xs := by
  induction xs with
  | nil => exact absurd rfl hxs
  | cons x xs ih =>
    cases xs with
    | nil =>
      rw [List.intercalate_singleton, SeparatedBy, ← cutAt_eq_none_iff]
      constructor
      · intro h
        cases hcut : cutAt sep x with
        | none => rfl
        | some p =>
          rw [splitBy_of_some hsep hcut] at h
          exact absurd (List.cons.inj h).2 (splitBy_ne_nil hsep _)
      · exact splitBy_of_none hsep
    | cons y ys =>
      rw [List.intercalate_cons_cons, List.append_assoc, SeparatedBy, ← ih (List.cons_ne_nil _ _),
        ← forall_occurrence_iff (sep.intercalate (y :: ys))]
      constructor
      · intro h
        cases hcut : cutAt sep (x ++ (sep ++ sep.intercalate (y :: ys))) with
        | none => exact absurd ⟨x, _, List.append_assoc _ _ _⟩ (cutAt_eq_none_iff.mp hcut)
        | some p =>
          obtain ⟨hs, hfirst⟩ := cutAt_eq_some hcut
          rw [splitBy_of_some hsep hcut] at h
          obtain ⟨hx, hrest⟩ := List.cons.inj h
          rw [hx] at hs hfirst
          rw [← List.append_cancel_left (List.append_cancel_left hs)] at hrest
          exact ⟨hfirst, hrest⟩
      · rintro ⟨hfirst, hrest⟩
        rw [splitBy_of_some hsep (cutAt_eq_some_of_first hfirst), hrest]

end PuppetC
