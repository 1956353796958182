import Mathlib.Data.Char
import Mathlib.Data.List.TakeWhile
import Mathlib.Data.Nat.Digits.Defs
import Mathlib.Tactic.Common

/-!
# Comparing versions

`versioncmp` walks through two texts at once. What is not a letter or digit separates segments; a
segment is a run of digits or a run of letters. Segments are compared one by one: numbers by
value, letters one after the other, a number after letters, and the text with segments left over
comes last.

## Main definitions

* `versionSegmentCmp`: `version_segment_cmp`.
* `Segment`, `segments`: the runs of digits and letters of a text.

## Main results

* `versionSegmentCmp_eq_sign`: the walk compares the lists of segments lexicographically, where
  `strtol` caps the numbers.
* `versionSegmentCmp_preorder`: it is a total preorder, and two texts are equal in it exactly when
  their segments are the same, as long as no number is capped.
-/

namespace PuppetC

/-! ### The walk -/

/-- Skip what is not a letter or digit. -/
def skipSeparators (cs : List Char) : List Char := cs.dropWhile fun c ↦ !c.isAlphanum

/-- `LONG_MAX`. -/
def longMax : ℕ := 2 ^ 63 - 1

/-- `strtol` at a digit: the value of the digits, capped, and what comes after them. -/
def readLong (cs : List Char) : ℕ × List Char :=
  (min (Nat.ofDigitChars 10 (cs.takeWhile Char.isDigit) 0) longMax, cs.dropWhile Char.isDigit)

/-- Walk through letters while they are the same; the answer for letters that differ, and what is
left of both texts. -/
def compareLetters : List Char → List Char → Option ℤ × List Char × List Char
  | c :: cs, d :: ds =>
    if c.isAlpha ∧ d.isAlpha then
      if c = d then compareLetters cs ds
      else (some (if d < c then 1 else -1), c :: cs, d :: ds)
    else (none, c :: cs, d :: ds)
  | cs, ds => (none, cs, ds)

/-- A letter comes next. -/
def letterNext (cs : List Char) : Bool := cs.head?.any Char.isAlpha

/-- The answer when one of the texts has ended. -/
def compareTrailing (a b : List Char) : ℤ :=
  if skipSeparators a ≠ [] then 1 else if skipSeparators b ≠ [] then -1 else 0

theorem length_skipSeparators_le (cs : List Char) : (skipSeparators cs).length ≤ cs.length :=
  (List.dropWhile_sublist _).length_le

theorem length_dropWhile_lt {p : Char → Bool} {c : Char} (hc : p c = true) (cs : List Char) :
    ((c :: cs).dropWhile p).length < (c :: cs).length := by
  rw [List.dropWhile_cons_of_pos hc, List.length_cons]
  exact Nat.lt_succ_of_le (List.dropWhile_sublist _).length_le

@[simp] theorem skipSeparators_skipSeparators (cs : List Char) :
    skipSeparators (skipSeparators cs) = skipSeparators cs :=
  List.dropWhile_eq_self_iff.2 fun hl ↦ List.dropWhile_get_zero_not _ cs hl

theorem skipSeparators_eq_cons {cs rest : List Char} {c : Char}
    (h : skipSeparators cs = c :: rest) : c.isAlphanum ∧ (c :: rest).length ≤ cs.length := by
  refine ⟨?_, h ▸ length_skipSeparators_le cs⟩
  have hhead := List.head?_dropWhile_not (fun c ↦ !c.isAlphanum) cs
  rw [skipSeparators] at h
  simpa [h] using hhead

theorem isAlpha_of_isAlphanum {c : Char} (h : c.isAlphanum) (hdigit : ¬ c.isDigit) :
    c.isAlpha := by
  rw [Char.isAlphanum, Bool.or_eq_true] at h
  exact h.resolve_right hdigit

/-- The letters that are the same are behind the walk. -/
theorem length_compareLetters_le (cs ds : List Char) :
    (compareLetters cs ds).2.1.length ≤ cs.length ∧
      (compareLetters cs ds).2.2.length ≤ ds.length := by
  induction cs, ds using compareLetters.induct with
  | case1 cs d ds halpha ih =>
    rw [compareLetters, if_pos halpha, if_pos rfl, List.length_cons, List.length_cons]
    omega
  | case2 c cs d ds halpha hne =>
    rw [compareLetters, if_pos halpha, if_neg hne]
    exact ⟨le_rfl, le_rfl⟩
  | case3 c cs d ds halpha =>
    rw [compareLetters, if_neg halpha]
    exact ⟨le_rfl, le_rfl⟩
  | case4 cs ds h =>
    rw [compareLetters]
    · exact ⟨le_rfl, le_rfl⟩
    · exact h

/-- Letters at the start are behind the walk when no letter comes next. -/
theorem length_compareLetters_lt {c : Char} {cs ds : List Char} (hc : c.isAlpha)
    (h : letterNext (compareLetters (c :: cs) ds).2.1 = false) :
    (compareLetters (c :: cs) ds).2.1.length < (c :: cs).length := by
  refine (length_compareLetters_le (c :: cs) ds).1.lt_of_ne fun heq ↦ ?_
  cases ds with
  | nil => simp [compareLetters, letterNext, hc] at h
  | cons d ds =>
    rw [compareLetters] at h heq
    split_ifs at h heq with halpha hsame
    · have hle := (length_compareLetters_le cs ds).1
      rw [List.length_cons] at heq
      omega
    all_goals simp [letterNext, hc] at h

/-- `version_segment_cmp`. -/
def versionSegmentCmp (a b : List Char) : ℤ :=
  if a = [] ∨ b = [] then compareTrailing a b
  else
    match _ha : skipSeparators a, skipSeparators b with
    | c :: cs, d :: ds =>
      if c.isDigit ∧ d.isDigit then
        let na := readLong (c :: cs)
        let nb := readLong (d :: ds)
        if na.1 ≠ nb.1 then if nb.1 < na.1 then 1 else -1
        else versionSegmentCmp na.2 nb.2
      else if c.isDigit then 1
      else if d.isDigit then -1
      else
        let r := compareLetters (c :: cs) (d :: ds)
        match r.1 with
        | some answer => answer
        | none =>
          if letterNext r.2.1 then 1 else if letterNext r.2.2 then -1
          else versionSegmentCmp r.2.1 r.2.2
    | a', b' => compareTrailing a' b'
  termination_by a.length
  decreasing_by
    · obtain ⟨-, hle⟩ := skipSeparators_eq_cons _ha
      have hdigit : c.isDigit ∧ d.isDigit := by assumption
      exact (length_dropWhile_lt hdigit.1 cs).trans_le hle
    · obtain ⟨halnum, hle⟩ := skipSeparators_eq_cons _ha
      have hdigit : ¬ c.isDigit := by assumption
      have hnext : ¬ letterNext r.2.1 := by assumption
      exact (length_compareLetters_lt (isAlpha_of_isAlphanum halnum hdigit)
        (Bool.eq_false_of_not_eq_true hnext)).trans_le hle

/-! ### Segments -/

/-- A run of digits, by its value, or a run of letters. -/
inductive Segment where
  | letters (cs : List Char)
  | number (n : ℕ)
  deriving DecidableEq

namespace Segment

/-- Numbers come after letters. -/
def compare : Segment → Segment → Ordering
  | letters cs, letters ds => List.compareLex Ord.compare cs ds
  | letters _, number _ => .lt
  | number _, letters _ => .gt
  | number m, number n => Ord.compare m n

instance : Std.LawfulEqCmp compare where
  compare_self {s} := by
    cases s with
    | letters cs => exact @Std.ReflCmp.compare_self _ (List.compareLex Ord.compare) _ _
    | number n => exact Std.ReflOrd.compare_self (α := ℕ)
  eq_of_compare {s t} h := by
    cases s with
    | letters cs =>
      cases t with
      | letters ds => exact congrArg letters (Std.LawfulEqOrd.eq_of_compare (α := List Char) h)
      | number n => cases h
    | number m =>
      cases t with
      | letters ds => cases h
      | number n => exact congrArg number (Std.LawfulEqOrd.eq_of_compare (α := ℕ) h)

instance : Std.TransCmp compare where
  eq_swap {s t} := by
    cases s with
    | letters cs =>
      cases t with
      | letters ds => exact Std.OrientedOrd.eq_swap (α := List Char)
      | number n => rfl
    | number m =>
      cases t with
      | letters ds => rfl
      | number n => exact Std.OrientedOrd.eq_swap (α := ℕ)
  isLE_trans {s t u} hst htu := by
    cases s with
    | letters cs =>
      cases t with
      | letters ds =>
        cases u with
        | letters es => exact Std.TransOrd.isLE_trans (α := List Char) hst htu
        | number n => rfl
      | number n =>
        cases u with
        | letters es => cases htu
        | number n => rfl
    | number m =>
      cases t with
      | letters ds => cases hst
      | number n =>
        cases u with
        | letters es => cases htu
        | number l => exact Std.TransOrd.isLE_trans (α := ℕ) hst htu

/-- A segment as `strtol` reads it. -/
def cap : Segment → Segment
  | letters cs => letters cs
  | number n => number (min n longMax)

end Segment

/-- The runs of digits and of letters of a text. -/
def segments (cs : List Char) : List Segment :=
  match _h : skipSeparators cs with
  | [] => []
  | c :: rest =>
    if c.isDigit then
      .number (Nat.ofDigitChars 10 ((c :: rest).takeWhile Char.isDigit) 0) ::
        segments ((c :: rest).dropWhile Char.isDigit)
    else
      .letters ((c :: rest).takeWhile Char.isAlpha) ::
        segments ((c :: rest).dropWhile Char.isAlpha)
  termination_by cs.length
  decreasing_by
    · have hdigit : c.isDigit := by assumption
      exact (length_dropWhile_lt hdigit rest).trans_le (skipSeparators_eq_cons _h).2
    · have hdigit : ¬ c.isDigit := by assumption
      obtain ⟨halnum, hle⟩ := skipSeparators_eq_cons _h
      exact (length_dropWhile_lt (isAlpha_of_isAlphanum halnum hdigit) rest).trans_le hle

/-- The segments as they are compared. -/
def cappedSegments (cs : List Char) : List Segment := (segments cs).map Segment.cap

/-- The answer for an ordering. -/
def signOf : Ordering → ℤ
  | .lt => -1
  | .eq => 0
  | .gt => 1

/-! ### One step of the walk -/

variable {cs rest a b : List Char} {c : Char}

theorem segments_of_nil (h : skipSeparators cs = []) : segments cs = [] := by
  rw [segments]
  split
  · rfl
  · next h' => rw [h] at h'; cases h'

theorem segments_of_digit (h : skipSeparators cs = c :: rest) (hdigit : c.isDigit) :
    segments cs = .number (Nat.ofDigitChars 10 ((c :: rest).takeWhile Char.isDigit) 0) ::
      segments ((c :: rest).dropWhile Char.isDigit) := by
  rw [segments]
  split
  · next h' => rw [h] at h'; cases h'
  · next h' =>
    rw [h] at h'
    cases h'
    rw [if_pos hdigit]

theorem segments_of_letter (h : skipSeparators cs = c :: rest) (hdigit : ¬ c.isDigit) :
    segments cs = .letters ((c :: rest).takeWhile Char.isAlpha) ::
      segments ((c :: rest).dropWhile Char.isAlpha) := by
  rw [segments]
  split
  · next h' => rw [h] at h'; cases h'
  · next h' =>
    rw [h] at h'
    cases h'
    rw [if_neg hdigit]

/-- A text has no segments when nothing but separators is left of it. -/
theorem cappedSegments_eq_nil_iff : cappedSegments cs = [] ↔ skipSeparators cs = [] := by
  rw [cappedSegments, List.map_eq_nil_iff]
  cases h : skipSeparators cs with
  | nil => simp [segments_of_nil h]
  | cons c rest =>
    by_cases hdigit : c.isDigit
    · simp [segments_of_digit h hdigit]
    · simp [segments_of_letter h hdigit]

/-- How two texts compare by their segments. -/
def compareSegments (a b : List Char) : Ordering :=
  List.compareLex Segment.compare (cappedSegments a) (cappedSegments b)

theorem compareTrailing_eq_sign (h : skipSeparators a = [] ∨ skipSeparators b = []) :
    compareTrailing a b = signOf (compareSegments a b) := by
  rw [← cappedSegments_eq_nil_iff, ← cappedSegments_eq_nil_iff] at h
  simp only [compareTrailing, compareSegments, ne_eq, ← cappedSegments_eq_nil_iff]
  cases ha : cappedSegments a with
  | nil =>
    cases hb : cappedSegments b with
    | nil => rfl
    | cons t ts => rfl
  | cons s ss =>
    obtain hb := h.resolve_left (by simp [ha])
    rw [hb]
    rfl

/-- The answer after the walk through letters. -/
def lettersAnswer (r : Option ℤ × List Char × List Char) : Option ℤ :=
  match r.1 with
  | some answer => some answer
  | none => if letterNext r.2.1 then some 1 else if letterNext r.2.2 then some (-1) else none

/-- Letters are compared lexicographically; when they are the same, they are behind the walk. -/
theorem lettersAnswer_compareLetters (cs ds : List Char) :
    lettersAnswer (compareLetters cs ds) =
        (match List.compareLex Ord.compare (cs.takeWhile Char.isAlpha)
          (ds.takeWhile Char.isAlpha) with
        | .lt => some (-1)
        | .eq => none
        | .gt => some 1) ∧
      (lettersAnswer (compareLetters cs ds) = none →
        (compareLetters cs ds).2 = (cs.dropWhile Char.isAlpha, ds.dropWhile Char.isAlpha)) := by
  induction cs, ds using compareLetters.induct with
  | case1 cs d ds halpha ih =>
    rw [compareLetters, if_pos halpha, if_pos rfl]
    simpa [halpha.1, List.compareLex_cons_cons, Std.ReflOrd.compare_self] using ih
  | case2 c cs d ds halpha hne =>
    have hcompare : Ord.compare c d = if d < c then .gt else .lt := by
      change compareOfLessAndEq c d = _
      unfold compareOfLessAndEq
      rcases lt_trichotomy c d with hlt | heq | hgt
      · rw [if_pos hlt, if_neg hlt.not_gt]
      · exact absurd heq hne
      · rw [if_neg hgt.not_gt, if_neg hne, if_pos hgt]
    rw [compareLetters, if_pos halpha, if_neg hne]
    by_cases hlt : d < c
    · simp [halpha.1, halpha.2, List.compareLex_cons_cons, hcompare, hlt, lettersAnswer]
    · simp [halpha.1, halpha.2, List.compareLex_cons_cons, hcompare, hlt, lettersAnswer]
  | case3 c cs d ds halpha =>
    rw [compareLetters, if_neg halpha]
    cases hc : c.isAlpha with
    | false =>
      cases hd : d.isAlpha with
      | false => simp [hc, hd, lettersAnswer, letterNext, List.compareLex_nil_nil]
      | true => simp [hc, hd, lettersAnswer, letterNext, List.compareLex_nil_cons]
    | true =>
      have hd : d.isAlpha = false := by simpa [hc] using halpha
      simp [hc, hd, lettersAnswer, letterNext, List.compareLex_cons_nil]
  | case4 cs ds h =>
    rw [compareLetters]
    · cases cs with
      | nil =>
        cases ds with
        | nil => simp [lettersAnswer, letterNext, List.compareLex_nil_nil]
        | cons d ds =>
          cases hd : d.isAlpha with
          | false => simp [hd, lettersAnswer, letterNext, List.compareLex_nil_nil]
          | true => simp [hd, lettersAnswer, letterNext, List.compareLex_nil_cons]
      | cons c cs =>
        cases ds with
        | nil =>
          cases hc : c.isAlpha with
          | false => simp [hc, lettersAnswer, letterNext, List.compareLex_nil_nil]
          | true => simp [hc, lettersAnswer, letterNext, List.compareLex_cons_nil]
        | cons d ds => exact (h c cs d ds rfl rfl).elim
    · exact h

variable {ds : List Char} {d : Char}

/-- Two numbers are compared as `strtol` reads them. -/
theorem compareSegments_numbers (ha : skipSeparators a = c :: cs) (hb : skipSeparators b = d :: ds)
    (hc : c.isDigit) (hd : d.isDigit) :
    compareSegments a b = (compare (readLong (c :: cs)).1 (readLong (d :: ds)).1).then
      (compareSegments (readLong (c :: cs)).2 (readLong (d :: ds)).2) := by
  simp only [compareSegments, cappedSegments, segments_of_digit ha hc, segments_of_digit hb hd,
    List.map_cons, List.compareLex_cons_cons]
  rfl

/-- Two runs of letters are compared letter by letter. -/
theorem compareSegments_letters (ha : skipSeparators a = c :: cs) (hb : skipSeparators b = d :: ds)
    (hc : ¬ c.isDigit) (hd : ¬ d.isDigit) :
    compareSegments a b = (List.compareLex Ord.compare ((c :: cs).takeWhile Char.isAlpha)
      ((d :: ds).takeWhile Char.isAlpha)).then
      (compareSegments ((c :: cs).dropWhile Char.isAlpha)
        ((d :: ds).dropWhile Char.isAlpha)) := by
  simp only [compareSegments, cappedSegments, segments_of_letter ha hc, segments_of_letter hb hd,
    List.map_cons, List.compareLex_cons_cons]
  rfl

theorem versionSegmentCmp_of_end (h : skipSeparators a = [] ∨ skipSeparators b = []) :
    versionSegmentCmp a b = compareTrailing a b := by
  rw [versionSegmentCmp]
  split_ifs with hend
  · rfl
  · split
    · next ha hb => simp [ha, hb] at h
    · simp only [compareTrailing, skipSeparators_skipSeparators]

/-- One round of the walk, at a segment of each text. -/
theorem versionSegmentCmp_of_segments (ha : skipSeparators a = c :: cs)
    (hb : skipSeparators b = d :: ds) :
    versionSegmentCmp a b =
      if c.isDigit ∧ d.isDigit then
        if (readLong (c :: cs)).1 ≠ (readLong (d :: ds)).1 then
          if (readLong (d :: ds)).1 < (readLong (c :: cs)).1 then 1 else -1
        else versionSegmentCmp (readLong (c :: cs)).2 (readLong (d :: ds)).2
      else if c.isDigit then 1
      else if d.isDigit then -1
      else (lettersAnswer (compareLetters (c :: cs) (d :: ds))).getD
        (versionSegmentCmp (compareLetters (c :: cs) (d :: ds)).2.1
          (compareLetters (c :: cs) (d :: ds)).2.2) := by
  have hne : ¬ (a = [] ∨ b = []) := by
    rintro (rfl | rfl)
    · cases ha
    · cases hb
  rw [versionSegmentCmp, if_neg hne]
  split
  · next ha' hb' =>
    rw [ha] at ha'
    rw [hb] at hb'
    cases ha'
    cases hb'
    dsimp only [lettersAnswer]
    cases (compareLetters (c :: cs) (d :: ds)).1 with
    | some answer => rfl
    | none => dsimp only; split_ifs <;> rfl
  · next hnone => exact (hnone c cs d ds ha hb).elim

/-- The walk compares two texts by their segments. -/
theorem versionSegmentCmp_eq_sign (a b : List Char) :
    versionSegmentCmp a b = signOf (compareSegments a b) := by
  induction hn : a.length using Nat.strong_induction_on generalizing a b with
  | _ n ih =>
    subst hn
    cases ha : skipSeparators a with
    | nil => rw [versionSegmentCmp_of_end (.inl ha), compareTrailing_eq_sign (.inl ha)]
    | cons c cs =>
      cases hb : skipSeparators b with
      | nil => rw [versionSegmentCmp_of_end (.inr hb), compareTrailing_eq_sign (.inr hb)]
      | cons d ds =>
        obtain ⟨halnum, hle⟩ := skipSeparators_eq_cons ha
        rw [versionSegmentCmp_of_segments ha hb]
        by_cases hc : c.isDigit
        · by_cases hd : d.isDigit
          · have hlt : (readLong (c :: cs)).2.length < a.length :=
              (length_dropWhile_lt hc cs).trans_le hle
            rw [if_pos ⟨hc, hd⟩, compareSegments_numbers ha hb hc hd, ih _ hlt _ _ rfl]
            rcases lt_trichotomy (readLong (c :: cs)).1 (readLong (d :: ds)).1 with h | h | h
            · rw [if_pos h.ne, if_neg h.not_gt, Nat.compare_eq_lt.2 h]
              rfl
            · rw [if_neg (not_not.2 h), Nat.compare_eq_eq.2 h]
              rfl
            · rw [if_pos h.ne', if_pos h, Nat.compare_eq_gt.2 h]
              rfl
          · rw [if_neg (fun h ↦ hd h.2), if_pos hc]
            simp [compareSegments, cappedSegments, segments_of_digit ha hc,
              segments_of_letter hb hd, List.compareLex_cons_cons, Segment.cap, Segment.compare,
              signOf]
        · by_cases hd : d.isDigit
          · rw [if_neg (fun h ↦ hc h.1), if_neg hc, if_pos hd]
            simp [compareSegments, cappedSegments, segments_of_letter ha hc,
              segments_of_digit hb hd, List.compareLex_cons_cons, Segment.cap, Segment.compare,
              signOf]
          · obtain ⟨hanswer, hrest⟩ := lettersAnswer_compareLetters (c :: cs) (d :: ds)
            rw [if_neg (fun h ↦ hc h.1), if_neg hc, if_neg hd,
              compareSegments_letters ha hb hc hd]
            cases hletters : List.compareLex Ord.compare ((c :: cs).takeWhile Char.isAlpha)
                ((d :: ds).takeWhile Char.isAlpha) with
            | lt =>
              rw [hletters] at hanswer
              rw [hanswer]
              rfl
            | gt =>
              rw [hletters] at hanswer
              rw [hanswer]
              rfl
            | eq =>
              rw [hletters] at hanswer
              have hlt : ((c :: cs).dropWhile Char.isAlpha).length < a.length :=
                (length_dropWhile_lt (isAlpha_of_isAlphanum halnum hc) cs).trans_le hle
              rw [hanswer, hrest hanswer, Option.getD_none, ih _ hlt _ _ rfl]
              rfl

/-! ### The order of versions -/

theorem signOf_swap (o : Ordering) : signOf o.swap = -signOf o := by
  cases o <;> rfl

theorem signOf_le_zero_iff {o : Ordering} : signOf o ≤ 0 ↔ o.isLE := by
  cases o <;> decide

theorem signOf_eq_zero_iff {o : Ordering} : signOf o = 0 ↔ o = .eq := by
  cases o <;> decide

/-- `strtol` reads the numbers of a text exactly. -/
theorem cappedSegments_eq (h : ∀ n, Segment.number n ∈ segments a → n < 2 ^ 63) :
    cappedSegments a = segments a := by
  refine (List.map_congr_left fun s hs ↦ ?_).trans (List.map_id _)
  cases s with
  | letters cs => rfl
  | number n =>
    have hn := h n hs
    rw [Segment.cap, min_eq_left (by unfold longMax; omega)]
    rfl

/-- The comparison of versions is reflexive, antisymmetric, transitive and total, and two texts
are equal in it exactly when their segments are the same, as long as no number is capped. -/
theorem versionSegmentCmp_preorder :
    (∀ a, versionSegmentCmp a a = 0) ∧
    (∀ a b, versionSegmentCmp b a = -versionSegmentCmp a b) ∧
    (∀ a b c, versionSegmentCmp a b ≤ 0 → versionSegmentCmp b c ≤ 0 → versionSegmentCmp a c ≤ 0) ∧
    (∀ a b, versionSegmentCmp a b ≤ 0 ∨ versionSegmentCmp b a ≤ 0) ∧
    (∀ a b, versionSegmentCmp a b = -1 ∨ versionSegmentCmp a b = 0 ∨ versionSegmentCmp a b = 1) ∧
    (∀ a b, (∀ n, .number n ∈ segments a ++ segments b → n < 2 ^ 63) →
      (versionSegmentCmp a b = 0 ↔ segments a = segments b)) := by
  have hswap (a b : List Char) : versionSegmentCmp b a = -versionSegmentCmp a b := by
    have hcompare : List.compareLex Segment.compare (cappedSegments b) (cappedSegments a) =
        (List.compareLex Segment.compare (cappedSegments a) (cappedSegments b)).swap :=
      Std.OrientedCmp.eq_swap
    rw [versionSegmentCmp_eq_sign, versionSegmentCmp_eq_sign, ← signOf_swap, compareSegments,
      hcompare]
    rfl
  refine ⟨fun a ↦ ?_, hswap, fun a b c hab hbc ↦ ?_, fun a b ↦ ?_, fun a b ↦ ?_, fun a b h ↦ ?_⟩
  · rw [versionSegmentCmp_eq_sign, signOf_eq_zero_iff]
    exact @Std.ReflCmp.compare_self _ (List.compareLex Segment.compare) _ _
  · rw [versionSegmentCmp_eq_sign, signOf_le_zero_iff] at *
    exact @Std.TransCmp.isLE_trans _ (List.compareLex Segment.compare) _ _ _ _ hab hbc
  · rw [hswap a b]
    omega
  · rw [versionSegmentCmp_eq_sign]
    cases compareSegments a b with
    | lt => exact .inl rfl
    | eq => exact .inr (.inl rfl)
    | gt => exact .inr (.inr rfl)
  · rw [versionSegmentCmp_eq_sign, signOf_eq_zero_iff, compareSegments,
      Std.LawfulEqCmp.compare_eq_iff_eq,
      cappedSegments_eq fun n hn ↦ h n (List.mem_append_left _ hn),
      cappedSegments_eq fun n hn ↦ h n (List.mem_append_right _ hn)]

end PuppetC
