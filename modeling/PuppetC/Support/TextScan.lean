import Mathlib.Data.List.Basic
import Mathlib.Data.List.DropRight
import Mathlib.Data.List.TakeWhile
import Mathlib.Tactic.Common

/-!
# Scanning a text by position

A C function that walks through a text with pointers keeps positions in it. This file has the
loops that such functions are made of, as functions from positions to positions.

## Main definitions

* `skipWhile`: the first position in a range where a predicate fails.
* `firstFrom`: `strstr` from a position.

## Main results

* `holds_of_lt_skipWhile`: what is skipped satisfies the predicate.
* `firstFrom_spec`: what is found stands there.
-/

namespace PuppetC

variable {text : List Char} {q : Char → Bool} {i j stop : ℕ}

/-- `while (p < stop && q(*p)) p++`. -/
def skipWhile (text : List Char) (q : Char → Bool) (i stop : ℕ) : ℕ :=
  i + ((text.extract i stop).takeWhile q).length

/-- `strstr(text + i, pattern)`, as a position. -/
def firstFrom (text pattern : List Char) (i : ℕ) : Option ℕ :=
  (List.range' i (text.length + 1 - i)).find? fun j ↦ pattern.isPrefixOf (text.drop j)

/-! ### Skipping -/

theorem le_skipWhile (text : List Char) (q : Char → Bool) (i stop : ℕ) :
    i ≤ skipWhile text q i stop :=
  Nat.le_add_right _ _

theorem skipWhile_le (h : i ≤ stop) : skipWhile text q i stop ≤ stop := by
  have htake := (List.takeWhile_prefix (l := text.extract i stop) q).length_le
  have hextract : (text.extract i stop).length ≤ stop - i := by
    rw [List.extract_eq_take_drop]
    exact List.length_take_le _ _
  unfold skipWhile
  omega

/-- Everything that is skipped satisfies the predicate. -/
theorem holds_of_lt_skipWhile (hle : i ≤ j) (hlt : j < skipWhile text q i stop) :
    ∃ c, text[j]? = some c ∧ q c = true := by
  obtain ⟨k, rfl⟩ := Nat.exists_eq_add_of_le hle
  have hk : k < ((text.extract i stop).takeWhile q).length := by
    unfold skipWhile at hlt
    omega
  refine ⟨((text.extract i stop).takeWhile q)[k], ?_, ?_⟩
  · have hprefix := (List.takeWhile_prefix (l := text.extract i stop) q).getElem hk
    have hlength := lt_of_lt_of_le hk (List.takeWhile_prefix q).length_le
    have hget : (text.extract i stop)[k]? = text[i + k]? := by
      rw [List.extract_eq_take_drop] at hlength ⊢
      rw [List.length_take] at hlength
      rw [List.getElem?_take_of_lt (by omega), List.getElem?_drop]
    rw [← hget, List.getElem?_eq_getElem hlength, hprefix]
  · exact List.mem_takeWhile_imp (List.getElem_mem hk)

/-- A character that fails the predicate is not skipped. -/
theorem ne_of_lt_skipWhile {c : Char} (hc : q c = false) (hle : i ≤ j)
    (hlt : j < skipWhile text q i stop) : text[j]? ≠ some c := by
  intro h
  obtain ⟨d, hd, hq⟩ := holds_of_lt_skipWhile hle hlt
  rw [h, Option.some.injEq] at hd
  rw [← hd, hc] at hq
  cases hq

/-! ### Searching -/

/-- What is found is at or after the position, and stands there. -/
theorem firstFrom_spec {pattern : List Char} (h : firstFrom text pattern i = some j) :
    i ≤ j ∧ pattern <+: text.drop j := by
  have hmem := List.mem_of_find?_eq_some h
  have hfound := List.find?_some h
  rw [List.mem_range'_1] at hmem
  exact ⟨hmem.1, List.isPrefixOf_iff_prefix.1 hfound⟩

/-- The characters of what is found. -/
theorem getElem?_of_firstFrom {pattern : List Char} (h : firstFrom text pattern i = some j)
    {k : ℕ} (hk : k < pattern.length) : text[j + k]? = pattern[k]? := by
  obtain ⟨rest, hrest⟩ := (firstFrom_spec h).2
  rw [← List.getElem?_drop, ← hrest, List.getElem?_append_left hk]

end PuppetC
