import PuppetC.Number
import PuppetC.Strtod

/-!
# Dotted numbers read by `sscanf`

The conversions `%d.%d` and so on read one integer after the other, as far as the text has them
with dots between them. The values are the integers that the digits stand for; whether they fit
in an `int` is up to the caller.

## Main definitions

* `scanInt`, `scanDotted`: `%d`, and several of them with dots between them.
* `Digits`: digits that stand for a number.
* `NoLeadingZero`: the first digit is not a zero, unless it is the only one.

## Main results

* `scanDotted_append`: dotted numbers at the start of a text are read.
* `toDigits_ofDigitChars`: digits without a leading zero are the numeral of their value.
-/

namespace PuppetC

/-- The digits of `%d`, after the sign. -/
def scanDigits (sign : ℤ) (cs : List Char) : Option (ℤ × List Char) :=
  if cs.takeWhile Char.isDigit = [] then none
  else some (sign * Nat.ofDigitChars 10 (cs.takeWhile Char.isDigit) 0, cs.dropWhile Char.isDigit)

/-- `%d`. -/
def scanInt (cs : List Char) : Option (ℤ × List Char) :=
  match cs.dropWhile isSpaceChar with
  | '-' :: ds => scanDigits (-1) ds
  | '+' :: ds => scanDigits 1 ds
  | ds => scanDigits 1 ds

/-- `%d.%d.%d`, as far as the text goes, for as many numbers. -/
def scanDotted : ℕ → List Char → List ℤ
  | 0, _ => []
  | k + 1, cs =>
    match scanInt cs with
    | none => []
    | some (n, '.' :: rest) => n :: scanDotted k rest
    | some (n, _) => [n]

/-- Digits that stand for a number. -/
structure Digits where
  chars : List Char
  ne_nil : chars ≠ []
  isDigit : ∀ c ∈ chars, c.isDigit

/-- The value of digits. -/
def Digits.value (ds : Digits) : ℕ := Nat.ofDigitChars 10 ds.chars 0

/-- No more of a dotted list of numbers comes. -/
def EndsDotted (cs : List Char) : Prop := ∀ c ∈ cs.head?, ¬ c.isDigit ∧ c ≠ '.'

variable {rest : List Char}

theorem isSpaceChar_of_isDigit {c : Char} (h : c.isDigit) : isSpaceChar c = false := by
  rw [Char.isDigit, Bool.and_eq_true, decide_eq_true_eq, decide_eq_true_eq] at h
  have hzero : '0' ≤ c := h.1
  rw [isSpaceChar, Bool.or_eq_false_iff, Bool.and_eq_false_iff]
  refine ⟨decide_eq_false ?_, .inr (decide_eq_false fun hle ↦ ?_)⟩
  · rintro rfl
    exact absurd hzero (by decide)
  · exact absurd (Char.le_trans hzero hle) (by decide)

theorem scanInt_append (ds : Digits) (hrest : ∀ c ∈ rest.head?, ¬ c.isDigit) :
    scanInt (ds.chars ++ rest) = some ((ds.value : ℤ), rest) := by
  obtain ⟨htake, hdrop⟩ := span_digits ds.isDigit hrest
  have hscan : scanDigits 1 (ds.chars ++ rest) = some ((ds.value : ℤ), rest) := by
    rw [scanDigits, htake, hdrop, if_neg ds.ne_nil, one_mul]
    rfl
  obtain ⟨d, ds', hcons⟩ := List.exists_cons_of_ne_nil ds.ne_nil
  have hd : d.isDigit := ds.isDigit d (hcons ▸ List.mem_cons_self)
  rw [hcons, List.cons_append] at hscan ⊢
  rw [scanInt, List.dropWhile_cons_of_neg (by simp [isSpaceChar_of_isDigit hd])]
  split
  · next heq =>
    cases heq
    exact absurd hd (by decide)
  · next heq =>
    cases heq
    exact absurd hd (by decide)
  · exact hscan

/-- The numbers are read as far as the format goes. -/
theorem scanDotted_append (ds : List Digits) (d : Digits) (k : ℕ) (hk : ds.length ≤ k)
    (hrest : EndsDotted rest) :
    scanDotted (k + 1) (d.chars ++ ((ds.flatMap fun ds ↦ '.' :: ds.chars) ++ rest)) =
      (d :: ds).map fun ds ↦ (ds.value : ℤ) := by
  induction ds generalizing d k with
  | nil =>
    rw [List.flatMap_nil, List.nil_append, scanDotted,
      scanInt_append d fun c hc ↦ (hrest c hc).1]
    split
    · next heq => cases heq
    · next heq =>
      cases heq
      exact absurd rfl (hrest '.' rfl).2
    · next heq =>
      cases heq
      rfl
  | cons d' ds ih =>
    obtain ⟨k, rfl⟩ := Nat.exists_eq_succ_of_ne_zero (n := k) (by rintro rfl; simp at hk)
    have hrest' := ih d' k (by simpa using hk)
    rw [scanDotted, List.flatMap_cons, List.cons_append, List.cons_append, List.append_assoc,
      scanInt_append d (by simp)]
    change _ :: scanDotted (k + 1) _ = _
    rw [hrest', List.map_cons, List.map_cons, List.map_cons]

/-! ### Digits without a leading zero -/

/-- The first digit is not a zero, unless it is the only one. -/
def NoLeadingZero (ds : List Char) : Prop := ds.head? = some '0' → ds = ['0']

theorem noLeadingZero_toDigits (n : ℕ) : NoLeadingZero (Nat.toDigits 10 n) := by
  induction n using Nat.strong_induction_on with
  | _ n ih =>
    intro hhead
    by_cases hlt : n < 10
    · rw [Nat.toDigits_of_lt_base hlt] at hhead ⊢
      rw [List.head?_cons] at hhead
      rw [Option.some.inj hhead]
    · rw [Nat.toDigits_of_base_le (by norm_num) (by omega)] at hhead
      have hzero := ih (n / 10) (by omega) (by
        rwa [List.head?_append_of_ne_nil _ Nat.toDigits_ne_nil] at hhead)
      have hvalue := Nat.ofDigitChars_ten_toDigits (n := n / 10)
      rw [hzero] at hvalue
      change 0 = n / 10 at hvalue
      omega

/-- A digit is the character of its value. -/
theorem exists_digitChar {c : Char} (h : c.isDigit) :
    c.toNat - '0'.toNat < 10 ∧ Nat.digitChar (c.toNat - '0'.toNat) = c := by
  rw [Char.isDigit, Bool.and_eq_true, decide_eq_true_eq, decide_eq_true_eq,
    ge_iff_le, UInt32.le_iff_toNat_le, UInt32.le_iff_toNat_le] at h
  change 48 ≤ c.toNat ∧ c.toNat ≤ 57 at h
  have hlt : c.toNat - 48 < 10 := by omega
  refine ⟨hlt, Char.toNat_inj.1 ?_⟩
  change (Nat.digitChar (c.toNat - 48)).toNat = c.toNat
  rw [Nat.toNat_digitChar_of_lt_ten hlt]
  omega

/-- Digits after a number that is not zero are the last digits of its numeral. -/
theorem toDigits_ofDigitChars_append {ds : List Char} (hdigits : ∀ c ∈ ds, c.isDigit) {n : ℕ}
    (hn : 0 < n) : Nat.toDigits 10 (Nat.ofDigitChars 10 ds n) = Nat.toDigits 10 n ++ ds := by
  induction ds generalizing n with
  | nil => simp
  | cons d ds ih =>
    obtain ⟨hlt, hchar⟩ := exists_digitChar (hdigits d List.mem_cons_self)
    rw [Nat.ofDigitChars_cons, ih (fun c hc ↦ hdigits c (List.mem_cons_of_mem d hc)) (by omega),
      ← Nat.toDigits_append_toDigits (by norm_num) hn hlt, Nat.toDigits_of_lt_base hlt, hchar,
      List.append_assoc, List.singleton_append]

/-- Digits without a leading zero are the numeral of their value. -/
theorem toDigits_ofDigitChars {ds : List Char} (hne : ds ≠ []) (hdigits : ∀ c ∈ ds, c.isDigit)
    (hzero : NoLeadingZero ds) : Nat.toDigits 10 (Nat.ofDigitChars 10 ds 0) = ds := by
  obtain ⟨d, ds, rfl⟩ := List.exists_cons_of_ne_nil hne
  obtain ⟨hlt, hchar⟩ := exists_digitChar (hdigits d List.mem_cons_self)
  rw [Nat.ofDigitChars_cons, Nat.mul_zero, Nat.zero_add]
  by_cases hd : d = '0'
  · subst hd
    rw [List.cons_eq_cons.1 (hzero rfl) |>.2]
    rfl
  · have hpos : 0 < d.toNat - '0'.toNat := by
      refine Nat.pos_of_ne_zero fun heq ↦ hd ?_
      rw [← hchar, heq]
      rfl
    rw [toDigits_ofDigitChars_append (fun c hc ↦ hdigits c (List.mem_cons_of_mem d hc)) hpos,
      Nat.toDigits_of_lt_base hlt, hchar, List.singleton_append]

end PuppetC
