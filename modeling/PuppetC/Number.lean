import Mathlib.Data.Int.Log
import Mathlib.Data.List.TakeWhile
import PuppetC.Text

/-!
# Numbers read from text

`strtod` and `printf("%ld")`. A `double` is modelled by the rational number it denotes, so
`strtod` is the value of a decimal numeral, rounded to the nearest number with 53 significant
bits; overflow, the infinities and the sign of zero are left out.

## Main definitions

* `toDouble`: the nearest double.
* `decimalValue`, `strtod`: the value of a numeral, exact and as a double.
* `formatLong`: `printf("%ld", n)`.
* `IsNumeral`: texts of the shape that `printf` writes numbers in.
* `sixDigits`: the integer that `%g` writes for an integer.

## Main results

* `toDouble_intCast`: integers that fit in 53 bits, up to a power of two, are doubles.
* `strtod_formatLong`: integers up to `2 ^ 53` are read as they were written.
* `decimalValue_formatDigits`: the value of the numeral that `%g` writes for an integer.
-/

namespace PuppetC

/-! ### Doubles -/

/-- The exponent of the last bit of the double nearest to a number. -/
def lastBit (q : ℚ) : ℤ := max (Int.log 2 |q| - 52) (-1074)

/-- The nearest double. -/
def toDouble (q : ℚ) : ℚ := roundEven (q / 2 ^ lastBit q) * 2 ^ lastBit q

@[simp] theorem roundEven_intCast (n : ℤ) : roundEven n = n := by
  simp [roundEven]

theorem toDouble_of_eq {q : ℚ} {e n : ℤ} (he : lastBit q = e) (h : q = n * 2 ^ e) :
    toDouble q = q := by
  have hpow : (2 : ℚ) ^ e ≠ 0 := zpow_ne_zero e (by norm_num)
  have hdiv : q / 2 ^ e = n := by
    rw [div_eq_iff hpow]
    exact h
  rw [toDouble, he, hdiv, roundEven_intCast, ← h]

theorem log_intCast_lt {n : ℤ} {k : ℕ} (hk : 0 < k) (hn : |n| < 2 ^ k) :
    Int.log 2 |(n : ℚ)| < k := by
  by_cases h0 : n = 0
  · simpa [h0] using hk
  · have hpos : (0 : ℚ) < |(n : ℚ)| := abs_pos.2 (by exact_mod_cast h0)
    rw [← Int.lt_zpow_iff_log_lt (by norm_num) hpos, zpow_natCast]
    exact_mod_cast hn

/-- An integer with at most 53 bits before its `k` last bits, which are zero, is a double. -/
theorem toDouble_intCast {n : ℤ} (k : ℕ) (hn : |n| < 2 ^ (53 + k)) (hk : 2 ^ k ∣ n) :
    toDouble n = n := by
  obtain ⟨e, he⟩ : ∃ e, lastBit n = e := ⟨_, rfl⟩
  have hle : e ≤ k := by
    have hlog := log_intCast_lt (by omega) hn
    push_cast at hlog
    rw [← he, lastBit]
    omega
  obtain ⟨m, rfl⟩ := hk
  obtain ⟨j, hj⟩ := Int.eq_ofNat_of_zero_le (sub_nonneg.2 hle)
  refine toDouble_of_eq (n := m * 2 ^ j) he ?_
  have hsplit : (2 : ℚ) ^ k = 2 ^ j * 2 ^ e := by
    rw [← zpow_natCast, ← zpow_natCast, ← zpow_add₀ (by norm_num)]
    congr 1
    omega
  push_cast
  rw [hsplit]
  ring

/-- Integers up to `2 ^ 53` are doubles. -/
theorem toDouble_of_abs_le {n : ℤ} (hn : |n| ≤ 2 ^ 53) : toDouble n = n := by
  rcases hn.lt_or_eq with hlt | heq
  · exact toDouble_intCast 0 (by simpa using hlt) (by simp)
  · refine toDouble_intCast 1 (by rw [heq]; norm_num) ?_
    rw [← dvd_abs, heq]
    norm_num

/-! ### Decimal numerals -/

/-- The exponent after an `e`, or zero if there are no digits. -/
def exponentValue : List Char → ℤ
  | '-' :: t => -Nat.ofDigitChars 10 (t.takeWhile Char.isDigit) 0
  | '+' :: t => Nat.ofDigitChars 10 (t.takeWhile Char.isDigit) 0
  | t => Nat.ofDigitChars 10 (t.takeWhile Char.isDigit) 0

/-- The value of a decimal numeral without sign. -/
def unsignedValue (t : List Char) : ℚ :=
  let int := t.takeWhile Char.isDigit
  let rest := t.dropWhile Char.isDigit
  let frac :=
    match rest with
    | '.' :: t => t.takeWhile Char.isDigit
    | _ => []
  let rest :=
    match rest with
    | '.' :: t => t.dropWhile Char.isDigit
    | t => t
  let exponent :=
    match rest with
    | 'e' :: t => exponentValue t
    | 'E' :: t => exponentValue t
    | _ => 0
  Nat.ofDigitChars 10 (int ++ frac) 0 * tenPow (exponent - frac.length)

/-- The value of a decimal numeral. -/
def decimalValue : List Char → ℚ
  | '-' :: t => -unsignedValue t
  | '+' :: t => unsignedValue t
  | t => unsignedValue t

/-- `strtod`, on a decimal numeral. -/
def strtod (t : List Char) : ℚ := toDouble (decimalValue t)

/-- `printf("%ld", n)`. -/
def formatLong (n : ℤ) : List Char :=
  if n < 0 then '-' :: Nat.toDigits 10 n.natAbs else Nat.toDigits 10 n.natAbs

/-! ### Numerals as `printf` writes them -/

/-- A numeral: sign, digits, digits of the fraction, and the exponent with its sign. -/
structure Numeral where
  negative : Bool
  int : List Char
  frac : List Char
  exponent : Option (Bool × List Char)
  int_digits : ∀ c ∈ int, c.isDigit
  frac_digits : ∀ c ∈ frac, c.isDigit
  exponent_digits : ∀ x ∈ exponent, ∀ c ∈ x.2, c.isDigit
  int_ne_nil : int ≠ []

namespace Numeral

/-- The fraction with its point, or nothing. -/
def fracText : List Char → List Char
  | [] => []
  | ds => '.' :: ds

/-- The exponent with its letter and sign, or nothing. -/
def exponentText : Option (Bool × List Char) → List Char
  | none => []
  | some (neg, ds) => 'e' :: (if neg then '-' else '+') :: ds

/-- A numeral without its sign, as text. -/
def unsignedText (x : Numeral) : List Char :=
  x.int ++ (fracText x.frac ++ exponentText x.exponent)

/-- A numeral as text. -/
def text (x : Numeral) : List Char :=
  if x.negative then '-' :: x.unsignedText else x.unsignedText

/-- The number that an exponent denotes. -/
def exponentInt : Option (Bool × List Char) → ℤ
  | none => 0
  | some (neg, ds) => if neg then -Nat.ofDigitChars 10 ds 0 else Nat.ofDigitChars 10 ds 0

/-- The value of a numeral without its sign. -/
def magnitude (x : Numeral) : ℚ :=
  Nat.ofDigitChars 10 (x.int ++ x.frac) 0 * tenPow (exponentInt x.exponent - x.frac.length)

/-- The value of a numeral. -/
def value (x : Numeral) : ℚ := if x.negative then -x.magnitude else x.magnitude

end Numeral

/-- The digits in front of something else. -/
theorem span_digits {ds rest : List Char} (hd : ∀ c ∈ ds, c.isDigit)
    (hr : ∀ c ∈ rest.head?, ¬ c.isDigit) :
    (ds ++ rest).takeWhile Char.isDigit = ds ∧ (ds ++ rest).dropWhile Char.isDigit = rest := by
  rw [List.takeWhile_append_of_pos hd, List.dropWhile_append_of_pos hd]
  cases rest with
  | nil => simp
  | cons c rest =>
    have hc : c.isDigit = false := by simpa using hr c rfl
    simp [hc]

namespace Numeral

theorem head_exponentText (x : Option (Bool × List Char)) :
    ∀ c ∈ (exponentText x).head?, c = 'e' := by
  cases x with
  | none => simp [exponentText]
  | some x => simp [exponentText]

theorem head_rest (x : Numeral) :
    ∀ c ∈ (fracText x.frac ++ exponentText x.exponent).head?, c = '.' ∨ c = 'e' := by
  cases hf : x.frac with
  | nil =>
    intro c hc
    exact .inr (head_exponentText x.exponent c (by simpa [fracText] using hc))
  | cons d ds => simp [fracText]

theorem exponentValue_text {neg : Bool} {ds : List Char} (hd : ∀ c ∈ ds, c.isDigit) :
    exponentValue ((if neg then '-' else '+') :: ds) = exponentInt (some (neg, ds)) := by
  have hspan := (@span_digits ds [] hd (by simp)).1
  rw [List.append_nil] at hspan
  cases neg <;> simp [exponentValue, exponentInt, hspan]

theorem unsignedValue_text (x : Numeral) : unsignedValue x.unsignedText = x.magnitude := by
  have hrest : ∀ c ∈ (fracText x.frac ++ exponentText x.exponent).head?, ¬ c.isDigit := by
    intro c hc
    rcases x.head_rest c hc with rfl | rfl <;> decide
  have hexp : ∀ c ∈ (exponentText x.exponent).head?, ¬ c.isDigit := by
    intro c hc
    rw [head_exponentText x.exponent c hc]
    decide
  obtain ⟨hint, hdrop⟩ := span_digits x.int_digits hrest
  obtain ⟨hfrac, hdrop'⟩ := span_digits x.frac_digits hexp
  unfold unsignedValue unsignedText magnitude
  rw [hint, hdrop]
  have hexponent : ∀ e, x.exponent = e → (match exponentText e with
      | 'e' :: t => exponentValue t
      | 'E' :: t => exponentValue t
      | _ => 0) = exponentInt e := by
    intro e he
    cases e with
    | none => rfl
    | some y => exact exponentValue_text (x.exponent_digits y he)
  cases hf : x.frac with
  | nil =>
    cases he : x.exponent with
    | none => simp [fracText, exponentText, exponentInt]
    | some y => simp [fracText, exponentText, exponentValue_text (x.exponent_digits y he)]
  | cons d ds =>
    rw [hf] at hfrac hdrop'
    simp only [fracText, List.cons_append] at hfrac hdrop' ⊢
    rw [hfrac, hdrop', hexponent _ rfl]

/-- The value that is read from the text of a numeral. -/
theorem decimalValue_text (x : Numeral) : decimalValue x.text = x.value := by
  unfold text value
  cases hn : x.negative with
  | true => simp [decimalValue, x.unsignedValue_text]
  | false =>
    obtain ⟨c, cs, hc⟩ := List.exists_cons_of_ne_nil x.int_ne_nil
    have hdigit : c.isDigit := x.int_digits c (by simp [hc])
    have hminus : c ≠ '-' := by rintro rfl; exact absurd hdigit (by decide)
    have hplus : c ≠ '+' := by rintro rfl; exact absurd hdigit (by decide)
    have htext : x.unsignedText = c :: (cs ++ (fracText x.frac ++ exponentText x.exponent)) := by
      simp [unsignedText, hc]
    have hval : decimalValue x.unsignedText = unsignedValue x.unsignedText := by
      rw [htext]
      unfold decimalValue
      split
      · next h => exact absurd (List.cons.inj h).1 hminus
      · next h => exact absurd (List.cons.inj h).1 hplus
      · rfl
    simpa [hval] using x.unsignedValue_text

end Numeral

/-! ### Integers as text -/

theorem toDigits_digits (n : ℕ) : ∀ c ∈ Nat.toDigits 10 n, c.isDigit :=
  fun _ hc ↦ Nat.isDigit_of_mem_toDigits (by norm_num) (by norm_num) hc

theorem toDigits_ne_nil (n : ℕ) : Nat.toDigits 10 n ≠ [] := Nat.toDigits_ne_nil

theorem formatLong_ne_nil (n : ℤ) : formatLong n ≠ [] := by
  unfold formatLong
  split_ifs
  · exact List.cons_ne_nil _ _
  · exact toDigits_ne_nil _

/-- The sign and the digits of an integer. -/
theorem formatLong_eq (n : ℤ) : ∃ sign, (sign = [] ∨ sign = ['-']) ∧
    formatLong n = sign ++ Nat.toDigits 10 n.natAbs := by
  unfold formatLong
  split_ifs
  · exact ⟨['-'], Or.inr rfl, rfl⟩
  · exact ⟨[], Or.inl rfl, rfl⟩

/-- The characters of an integer. -/
theorem mem_formatLong {n : ℤ} {c : Char} (h : c ∈ formatLong n) : c = '-' ∨ c.isDigit = true := by
  obtain ⟨sign, hsign, heq⟩ := formatLong_eq n
  rw [heq, List.mem_append] at h
  rcases h with h | h
  · rcases hsign with rfl | rfl
    · cases h
    · exact Or.inl (List.mem_singleton.1 h)
  · exact Or.inr (toDigits_digits _ c h)

/-- The numeral of an integer. -/
def Numeral.ofInt (n : ℤ) : Numeral where
  negative := n < 0
  int := Nat.toDigits 10 n.natAbs
  frac := []
  exponent := none
  int_digits := toDigits_digits _
  frac_digits := by simp
  exponent_digits := by simp
  int_ne_nil := toDigits_ne_nil _

theorem Numeral.text_ofInt (n : ℤ) : (Numeral.ofInt n).text = formatLong n := by
  simp [text, ofInt, unsignedText, formatLong, fracText, exponentText]

theorem Numeral.value_ofInt (n : ℤ) : (Numeral.ofInt n).value = n := by
  have habs : ((n.natAbs : ℕ) : ℚ) = |(n : ℚ)| := by
    rw [← Int.cast_abs, Int.abs_eq_natAbs]
    rfl
  by_cases hn : n < 0
  · have hn' : (n : ℚ) < 0 := by exact_mod_cast hn
    simp [value, magnitude, ofInt, hn, exponentInt, tenPow, habs, abs_of_neg hn']
  · have hn' : (0 : ℚ) ≤ n := by exact_mod_cast not_lt.1 hn
    simp [value, magnitude, ofInt, hn, exponentInt, tenPow, habs, abs_of_nonneg hn']

/-- Integers up to `2 ^ 53` are read as they were written. -/
theorem strtod_formatLong {n : ℤ} (hn : |n| ≤ 2 ^ 53) : strtod (formatLong n) = n := by
  rw [strtod, ← Numeral.text_ofInt, Numeral.decimalValue_text, Numeral.value_ofInt,
    toDouble_of_abs_le hn]

/-! ### Six significant digits -/

theorem length_toDigits {n : ℕ} (hn : 0 < n) :
    (Nat.toDigits 10 n).length = Nat.log 10 n + 1 := by
  have hle := Nat.length_toDigits_le_iff (n := n) (k := Nat.log 10 n + 1) (b := 10) (by norm_num)
    (by omega)
  have hge := Nat.length_toDigits_le_iff (n := n) (k := Nat.log 10 n) (b := 10) (by norm_num)
  have hlt : n < 10 ^ (Nat.log 10 n + 1) := Nat.lt_pow_succ_log_self (by norm_num) n
  have hpow : 10 ^ Nat.log 10 n ≤ n := Nat.pow_log_le_self 10 (by omega)
  have h₁ := hle.2 hlt
  by_cases h0 : Nat.log 10 n = 0
  · have := List.length_pos_iff.2 (toDigits_ne_nil n)
    omega
  · have h₂ := mt (hge (by omega)).1 (by omega)
    omega

theorem toDigits_mul_pow {n : ℕ} (hn : 0 < n) (k : ℕ) :
    Nat.toDigits 10 (n * 10 ^ k) = Nat.toDigits 10 n ++ List.replicate k '0' := by
  induction k with
  | zero => simp
  | succ k ih =>
    have happend := Nat.toDigits_append_toDigits (b := 10) (n := n * 10 ^ k) (d := 0) (by norm_num)
      (by positivity) (by norm_num)
    rw [Nat.toDigits_zero, ih] at happend
    rw [List.replicate_succ', ← List.append_assoc, happend]
    congr 1
    ring

theorem digitsPadded_of_le {w n : ℕ} (h : w ≤ (Nat.toDigits 10 n).length) :
    digitsPadded w n = Nat.toDigits 10 n := by
  have hlist : (toString n).toList = Nat.toDigits 10 n := Nat.toList_repr
  rw [digitsPadded, hlist, Nat.sub_eq_zero_of_le h, List.replicate_zero, List.nil_append]

theorem digitsPadded_digits (w n : ℕ) : ∀ c ∈ digitsPadded w n, c.isDigit := by
  intro c hc
  have hlist : (toString n).toList = Nat.toDigits 10 n := Nat.toList_repr
  rw [digitsPadded, hlist, List.mem_append] at hc
  rcases hc with hc | hc
  · rw [(List.mem_replicate.1 hc).2]
    decide
  · exact toDigits_digits n c hc

theorem ofDigitChars_digitsPadded (w n : ℕ) : Nat.ofDigitChars 10 (digitsPadded w n) 0 = n := by
  have hlist : (toString n).toList = Nat.toDigits 10 n := Nat.toList_repr
  rw [digitsPadded, hlist, Nat.ofDigitChars_append, Nat.ofDigitChars_replicate_zero, Nat.mul_zero,
    Nat.ofDigitChars_ten_toDigits]

/-- Digits are those that are kept, with the zeros at their end. -/
theorem dropZeros_append (ds : List Char) :
    ∃ j, ds = dropZeros ds ++ List.replicate j '0' := by
  refine ⟨(ds.reverse.takeWhile (· = '0')).length, ?_⟩
  have hzeros : ds.reverse.takeWhile (· = '0') =
      List.replicate (ds.reverse.takeWhile (· = '0')).length '0' := by
    refine List.eq_replicate_of_mem fun c hc ↦ ?_
    simpa using List.mem_takeWhile_imp hc
  have hsplit := List.takeWhile_append_dropWhile (p := (· = '0')) (l := ds.reverse)
  rw [dropZeros, ← List.reverse_replicate, ← hzeros, ← List.reverse_append, hsplit,
    List.reverse_reverse]

theorem fraction_eq (ds : List Char) : fraction ds = Numeral.fracText (dropZeros ds) := by
  unfold fraction Numeral.fracText
  cases dropZeros ds <;> rfl

/-- The number of digits after the sixth of an integer with more than six. -/
def digitsAfterSix (n : ℕ) : ℕ := Nat.log 10 n - 5

/-- The first six digits of an integer with more than six, rounded. -/
def firstSix (n : ℕ) : ℕ := (roundEven (n / tenPow (digitsAfterSix n))).toNat

/-- The natural number that `%g` writes. -/
def sixDigitsNat (n : ℕ) : ℕ :=
  if n < 10 ^ 6 then n else firstSix n * 10 ^ digitsAfterSix n

theorem decimalExponent_natCast {n : ℕ} (hn : 0 < n) : decimalExponent n = Nat.log 10 n := by
  have hone : (1 : ℚ) ≤ n := by exact_mod_cast hn
  simp [decimalExponent, hone]

@[simp] theorem tenPow_natCast (k : ℕ) : tenPow k = 10 ^ k := by
  simp [tenPow]

theorem floor_le_roundEven (q : ℚ) : ⌊q⌋ ≤ roundEven q ∧ roundEven q ≤ ⌊q⌋ + 1 := by
  unfold roundEven
  dsimp only
  split_ifs <;> omega

/-- The digits of a number with six digits, as a numeral `d.ddd` with an exponent. -/
theorem formatPos_scientific {m e : ℕ} (hlo : 10 ^ 5 ≤ m) (hhi : m < 10 ^ 6) (he : 6 ≤ e) :
    ∃ x : Numeral, x.negative = false ∧ x.magnitude = m * 10 ^ (e - 5) ∧
      x.text = (digitsPadded 6 m).take 1 ++ fraction ((digitsPadded 6 m).drop 1) ++ ['e', '+'] ++
        digitsPadded 2 e := by
  have hlog : Nat.log 10 m = 5 := Nat.log_eq_of_pow_le_of_lt_pow hlo hhi
  have hlen : (Nat.toDigits 10 m).length = 6 := by
    rw [length_toDigits (by omega), hlog]
  rw [digitsPadded_of_le (by omega), fraction_eq]
  obtain ⟨d, ds, hds⟩ := List.exists_cons_of_ne_nil (toDigits_ne_nil m)
  have hdigits := toDigits_digits m
  obtain ⟨j, hj⟩ := dropZeros_append ds
  have hkept : ∀ c ∈ dropZeros ds, c.isDigit := fun c hc ↦
    hdigits c (by rw [hds, hj]; simp [hc])
  refine ⟨⟨false, [d], dropZeros ds, some (false, digitsPadded 2 e),
    by simpa using hdigits d (by simp [hds]), hkept,
    by simpa using digitsPadded_digits 2 e, by simp⟩, rfl, ?_, ?_⟩
  · have hvalue : Nat.ofDigitChars 10 (d :: dropZeros ds) 0 * 10 ^ j = m := by
      have h := Nat.ofDigitChars_ten_toDigits (n := m)
      rw [hds, hj, ← List.cons_append, Nat.ofDigitChars_append,
        Nat.ofDigitChars_replicate_zero] at h
      rw [mul_comm]
      exact h
    have hcount : (dropZeros ds).length + j = 5 := by
      rw [hds, hj] at hlen
      simp at hlen
      omega
    have hexp : tenPow ((e : ℤ) - (dropZeros ds).length) = 10 ^ j * 10 ^ (e - 5) := by
      rw [show (e : ℤ) - (dropZeros ds).length = ((j + (e - 5) : ℕ) : ℤ) by omega,
        tenPow_natCast, pow_add]
    simp only [Numeral.magnitude, Numeral.exponentInt, ofDigitChars_digitsPadded,
      List.singleton_append, Bool.false_eq_true, if_false]
    rw [hexp, ← mul_assoc]
    exact_mod_cast congrArg (· * (10 : ℚ) ^ (e - 5)) (congrArg (Nat.cast : ℕ → ℚ) hvalue)
  · simp [Numeral.text, Numeral.unsignedText, Numeral.exponentText, hds]

theorem tenPow_neg_natCast (k : ℕ) : tenPow (-(k : ℤ)) = 1 / 10 ^ k := by
  cases k with
  | zero => simp [tenPow]
  | succ k =>
    have hneg : ¬ 0 ≤ -((k + 1 : ℕ) : ℤ) := by omega
    rw [tenPow, if_neg hneg, neg_neg, Int.toNat_natCast]

/-- What `%g` writes for an integer with at most six digits: its digits. -/
theorem formatPos_of_lt {n : ℕ} (hn : 0 < n) (hlt : n < 10 ^ 6) :
    formatPos 6 n = Nat.toDigits 10 n := by
  have hlog : Nat.log 10 n ≤ 5 := by
    have := Nat.log_lt_of_lt_pow (b := 10) (by omega) hlt
    omega
  obtain ⟨k, hk⟩ : ∃ k, Nat.log 10 n + k = 5 := ⟨5 - Nat.log 10 n, by omega⟩
  have hscale : (n : ℚ) / tenPow ((Nat.log 10 n : ℤ) - ((6 : ℕ) - 1)) = ((n * 10 ^ k : ℕ) : ℤ) := by
    rw [show (Nat.log 10 n : ℤ) - ((6 : ℕ) - 1) = -(k : ℤ) by omega, tenPow_neg_natCast]
    push_cast
    field_simp
  have hlen : (Nat.toDigits 10 n).length = Nat.log 10 n + 1 := length_toDigits hn
  have hdigits := toDigits_mul_pow hn k
  have hpow : n < 10 ^ (Nat.log 10 n + 1) := Nat.lt_pow_succ_log_self (by norm_num) n
  have hne : n * 10 ^ k ≠ 10 ^ 6 := by
    have : n * 10 ^ k < 10 ^ (Nat.log 10 n + 1) * 10 ^ k := by gcongr
    rw [← pow_add, show Nat.log 10 n + 1 + k = 6 by omega] at this
    omega
  have hpad : digitsPadded 6 (n * 10 ^ k) = Nat.toDigits 10 n ++ List.replicate k '0' := by
    rw [digitsPadded_of_le, hdigits]
    rw [hdigits, List.length_append, List.length_replicate]
    omega
  have hzeros : fraction (List.replicate k '0') = [] := by
    simp [fraction, dropZeros]
  unfold formatPos
  simp only [decimalExponent_natCast hn, hscale, roundEven_intCast, Int.toNat_natCast, if_neg hne,
    hpad]
  rw [if_neg (by omega), if_neg (by omega), ← hlen, List.take_left, List.drop_left, hzeros,
    List.append_nil]

/-- The number after the sixth digit of an integer with more than six. -/
theorem exists_log_eq {n : ℕ} (hle : 10 ^ 6 ≤ n) :
    ∃ k, Nat.log 10 n = k + 6 ∧ digitsAfterSix n = k + 1 := by
  have hlog : 6 ≤ Nat.log 10 n := (Nat.le_log_iff_pow_le (by norm_num) (by omega)).2 hle
  refine ⟨Nat.log 10 n - 6, by omega, ?_⟩
  unfold digitsAfterSix
  omega

theorem firstSix_eq {n : ℕ} (hle : 10 ^ 6 ≤ n) :
    (firstSix n : ℤ) = roundEven ((n : ℚ) / tenPow (digitsAfterSix n)) ∧
      10 ^ 5 ≤ firstSix n ∧ firstSix n ≤ 10 ^ 6 := by
  obtain ⟨k, hk, hafter⟩ := exists_log_eq hle
  have hlo : (10 ^ 5 : ℤ) ≤ ⌊(n : ℚ) / tenPow (digitsAfterSix n)⌋ := by
    rw [hafter, tenPow_natCast, Int.le_floor, le_div_iff₀ (by positivity)]
    have := Nat.pow_log_le_self 10 (x := n) (by omega)
    rw [hk] at this
    have h : (10 : ℚ) ^ (k + 6) ≤ n := by exact_mod_cast this
    calc (((10 : ℤ) ^ 5 : ℤ) : ℚ) * 10 ^ (k + 1) = 10 ^ (k + 6) := by push_cast; ring
      _ ≤ n := h
  have hhi : ⌊(n : ℚ) / tenPow (digitsAfterSix n)⌋ < 10 ^ 6 := by
    rw [hafter, tenPow_natCast, Int.floor_lt, div_lt_iff₀ (by positivity)]
    have := Nat.lt_pow_succ_log_self (b := 10) (by norm_num) n
    rw [hk] at this
    have h : (n : ℚ) < 10 ^ (k + 6 + 1) := by exact_mod_cast this
    calc (n : ℚ) < 10 ^ (k + 6 + 1) := h
      _ = (((10 : ℤ) ^ 6 : ℤ) : ℚ) * 10 ^ (k + 1) := by push_cast; ring
  have hround := floor_le_roundEven ((n : ℚ) / tenPow (digitsAfterSix n))
  unfold firstSix
  omega

/-- `%g` writes an integer with more than six digits with an exponent. -/
theorem formatPos_eq_of_le {n : ℕ} (hle : 10 ^ 6 ≤ n) : formatPos 6 n =
    let (m, e) := if firstSix n = 10 ^ 6 then (10 ^ (6 - 1), (Nat.log 10 n : ℤ) + 1)
      else (firstSix n, (Nat.log 10 n : ℤ))
    (digitsPadded 6 m).take 1 ++ fraction ((digitsPadded 6 m).drop 1) ++ ['e', '+'] ++
      digitsPadded 2 e.natAbs := by
  obtain ⟨k, hk, hafter⟩ := exists_log_eq hle
  have hscale : (n : ℚ) / tenPow ((Nat.log 10 n : ℤ) - ((6 : ℕ) - 1)) =
      n / tenPow (digitsAfterSix n) := by
    rw [show (Nat.log 10 n : ℤ) - ((6 : ℕ) - 1) = digitsAfterSix n by omega]
  unfold formatPos
  simp only [decimalExponent_natCast (show 0 < n by omega), hscale]
  rw [← firstSix]
  by_cases h : firstSix n = 10 ^ 6
  · rw [if_pos h]
    dsimp only
    rw [if_pos (by omega), if_neg (by omega)]
  · rw [if_neg h]
    dsimp only
    rw [if_pos (by omega), if_neg (by omega)]

/-- What `%g` writes for an integer with more than six digits. -/
theorem formatPos_of_le {n : ℕ} (hle : 10 ^ 6 ≤ n) : ∃ x : Numeral, x.negative = false ∧
    x.magnitude = (firstSix n * 10 ^ digitsAfterSix n : ℕ) ∧ x.text = formatPos 6 n := by
  obtain ⟨k, hk, hafter⟩ := exists_log_eq hle
  obtain ⟨-, hlo, hhi⟩ := firstSix_eq hle
  rw [formatPos_eq_of_le hle]
  by_cases h : firstSix n = 10 ^ 6
  · obtain ⟨x, hneg, hmag, htext⟩ := formatPos_scientific (m := 10 ^ 5) (e := k + 7) (by norm_num)
      (by norm_num) (by omega)
    refine ⟨x, hneg, ?_, ?_⟩
    · rw [hmag, h, hafter]
      push_cast
      ring
    · rw [htext, if_pos h, hk]
      rfl
  · obtain ⟨x, hneg, hmag, htext⟩ := formatPos_scientific (m := firstSix n) (e := k + 6) (by omega)
      (by omega) (by omega)
    refine ⟨x, hneg, ?_, ?_⟩
    · rw [hmag, hafter]
      push_cast
      rfl
    · rw [htext, if_neg h, hk]
      rfl

/-- `%g` writes a positive integer as its digits exactly if there are at most six of them. -/
theorem formatPos_eq_toDigits_iff {n : ℕ} (hn : 0 < n) :
    formatPos 6 n = Nat.toDigits 10 n ↔ n < 10 ^ 6 := by
  refine ⟨fun heq ↦ ?_, formatPos_of_lt hn⟩
  by_contra hlt
  have hletter : 'e' ∈ formatPos 6 n := by
    rw [formatPos_eq_of_le (not_lt.1 hlt)]
    simp
  rw [heq] at hletter
  exact absurd (toDigits_digits n _ hletter) (by decide)

/-- `%g` writes an integer as `%ld` does exactly if it has at most six digits. -/
theorem formatDigits_eq_formatLong_iff (n : ℤ) :
    formatDigits 6 n = formatLong n ↔ |n| < 10 ^ 6 := by
  have habs : |n| < 10 ^ 6 ↔ n.natAbs < 10 ^ 6 := by
    rw [Int.abs_eq_natAbs]
    omega
  rw [habs]
  rcases lt_trichotomy n 0 with hn | rfl | hn
  · have hcast : -(n : ℚ) = (n.natAbs : ℕ) := by
      rw [← Int.cast_neg, ← Int.cast_natCast]
      congr 1
      omega
    have hneg : (n : ℚ) < 0 := by exact_mod_cast hn
    rw [formatDigits, if_neg hneg.ne, if_pos hneg, formatLong, if_pos hn, hcast,
      List.cons_inj_right, formatPos_eq_toDigits_iff (by omega)]
  · exact iff_of_true (by simp [formatDigits, formatLong]) (by simp)
  · have hcast : (n : ℚ) = (n.natAbs : ℕ) := by
      rw [← Int.cast_natCast]
      congr 1
      omega
    have hpos : (0 : ℚ) < n := by exact_mod_cast hn
    rw [formatDigits, if_neg hpos.ne', if_neg hpos.not_gt, formatLong, if_neg hn.not_gt, hcast,
      formatPos_eq_toDigits_iff (by omega)]

/-- The integer that `%g` writes. -/
def sixDigits (n : ℤ) : ℤ := n.sign * sixDigitsNat n.natAbs

theorem formatPos_natCast {n : ℕ} (hn : 0 < n) : ∃ x : Numeral, x.negative = false ∧
    x.magnitude = sixDigitsNat n ∧ x.text = formatPos 6 n := by
  unfold sixDigitsNat
  split_ifs with hlt
  · have hneg : (Numeral.ofInt n).negative = false := by simp [Numeral.ofInt]
    refine ⟨Numeral.ofInt n, hneg, ?_, ?_⟩
    · have hvalue := Numeral.value_ofInt n
      rw [Numeral.value, hneg] at hvalue
      exact hvalue
    · rw [Numeral.text_ofInt, formatPos_of_lt hn hlt]
      simp [formatLong]
  · exact formatPos_of_le (by omega)

/-- `%g` writes an integer as a numeral whose value is the integer with six digits. -/
theorem formatDigits_intCast (n : ℤ) :
    ∃ x : Numeral, x.value = sixDigits n ∧ x.text = formatDigits 6 n := by
  rcases lt_trichotomy n 0 with hn | rfl | hn
  · obtain ⟨x, hneg, hmag, htext⟩ := formatPos_natCast (n := n.natAbs) (by omega)
    have habs : ((n.natAbs : ℕ) : ℚ) = -(n : ℚ) := by
      rw [← Int.cast_neg, ← Int.cast_natCast]
      congr 1
      omega
    refine ⟨{ x with negative := true }, ?_, ?_⟩
    · rw [sixDigits, Int.sign_eq_neg_one_of_neg hn]
      simpa [Numeral.value, Numeral.magnitude] using hmag
    · have hlt : (n : ℚ) < 0 := by exact_mod_cast hn
      rw [formatDigits, if_neg hlt.ne, if_pos hlt, ← habs, ← htext]
      simp [Numeral.text, Numeral.unsignedText, hneg]
  · exact ⟨Numeral.ofInt 0, by simp [Numeral.value_ofInt, sixDigits], by
      rw [Numeral.text_ofInt]; simp [formatLong, formatDigits]⟩
  · obtain ⟨x, hneg, hmag, htext⟩ := formatPos_natCast (n := n.natAbs) (by omega)
    have habs : ((n.natAbs : ℕ) : ℚ) = (n : ℚ) := by
      rw [← Int.cast_natCast]
      congr 1
      omega
    refine ⟨x, ?_, ?_⟩
    · rw [sixDigits, Int.sign_eq_one_of_pos hn]
      simpa [Numeral.value, hneg] using hmag
    · have hlt : (0 : ℚ) < n := by exact_mod_cast hn
      rw [formatDigits, if_neg hlt.ne', if_neg hlt.not_gt, htext, habs]

/-- An integer is written by `%g` without loss exactly if it has at most six significant
digits. -/
theorem sixDigits_eq_self_iff (n : ℤ) :
    sixDigits n = n ↔ ∃ (m : ℕ) (k : ℕ), m < 10 ^ 6 ∧ n.natAbs = m * 10 ^ k := by
  have hnat : sixDigits n = n ↔ sixDigitsNat n.natAbs = n.natAbs := by
    by_cases h0 : n = 0
    · simp [h0, sixDigits, sixDigitsNat]
    · constructor
      · intro h
        have := congrArg Int.natAbs h
        rwa [sixDigits, Int.natAbs_mul, Int.natAbs_natCast, Int.natAbs_sign_of_ne_zero h0,
          one_mul] at this
      · intro h
        rw [sixDigits, h, Int.sign_mul_natAbs]
  rw [hnat]
  generalize n.natAbs = a
  constructor
  · intro h
    unfold sixDigitsNat at h
    split_ifs at h with hlt
    · exact ⟨a, 0, hlt, by simp⟩
    · obtain ⟨-, -, hhi⟩ := firstSix_eq (not_lt.1 hlt)
      rcases hhi.lt_or_eq with hfirst | hfirst
      · exact ⟨firstSix a, digitsAfterSix a, hfirst, h.symm⟩
      · refine ⟨10 ^ 5, digitsAfterSix a + 1, by norm_num, ?_⟩
        calc a = firstSix a * 10 ^ digitsAfterSix a := h.symm
          _ = 10 ^ 5 * 10 ^ (digitsAfterSix a + 1) := by rw [hfirst]; ring
  · rintro ⟨m, k, hm, rfl⟩
    unfold sixDigitsNat
    split_ifs with hlt
    · rfl
    · have hle : 10 ^ 6 ≤ m * 10 ^ k := not_lt.1 hlt
      obtain ⟨j, hj, hafter⟩ := exists_log_eq hle
      have hlog : Nat.log 10 (m * 10 ^ k) < 6 + k := by
        refine Nat.log_lt_of_lt_pow (by omega) ?_
        rw [pow_add]
        gcongr
      obtain ⟨i, hi⟩ : ∃ i, k = j + 1 + i := ⟨k - (j + 1), by omega⟩
      have hdiv : ((m * 10 ^ k : ℕ) : ℚ) / tenPow (digitsAfterSix (m * 10 ^ k)) =
          ((m * 10 ^ i : ℕ) : ℤ) := by
        rw [hafter, tenPow_natCast, div_eq_iff (by positivity), hi]
        push_cast
        ring
      obtain ⟨hfirst, -⟩ := firstSix_eq hle
      rw [hdiv, roundEven_intCast] at hfirst
      rw [hafter, Nat.cast_injective hfirst, hi]
      ring

/-- An integer up to `2 ^ 53` that `%g` writes is read as the integer with six digits. -/
theorem strtod_formatDigits {n : ℤ} (hn : |n| ≤ 2 ^ 53) :
    strtod (formatDigits 6 n) = sixDigits n := by
  obtain ⟨x, hvalue, htext⟩ := formatDigits_intCast n
  rw [strtod, ← htext, Numeral.decimalValue_text, hvalue]
  by_cases hlt : n.natAbs < 10 ^ 6
  · have hself : sixDigits n = n :=
      (sixDigits_eq_self_iff n).2 ⟨n.natAbs, 0, hlt, by simp⟩
    rw [hself, toDouble_of_abs_le hn]
  · have hle : 10 ^ 6 ≤ n.natAbs := not_lt.1 hlt
    obtain ⟨k, hk, hafter⟩ := exists_log_eq hle
    obtain ⟨-, -, hhi⟩ := firstSix_eq hle
    have hlog : Nat.log 10 n.natAbs < 16 := by
      refine Nat.log_lt_of_lt_pow (by omega) ?_
      have : (n.natAbs : ℤ) ≤ 2 ^ 53 := by rwa [← Int.abs_eq_natAbs]
      omega
    have hsix : sixDigitsNat n.natAbs = firstSix n.natAbs * 10 ^ (k + 1) := by
      rw [sixDigitsNat, if_neg hlt, hafter]
    refine toDouble_intCast 1 ?_ ?_
    · have hbound : firstSix n.natAbs * 10 ^ (k + 1) ≤ 10 ^ 6 * 10 ^ 10 :=
        Nat.mul_le_mul hhi (Nat.pow_le_pow_right (by norm_num) (by omega))
      have habs : |sixDigits n| ≤ ((firstSix n.natAbs * 10 ^ (k + 1) : ℕ) : ℤ) := by
        rw [sixDigits, hsix, abs_mul, Nat.abs_cast]
        exact mul_le_of_le_one_left (by positivity) (by
          rcases Int.sign_trichotomy n with h | h | h <;> simp [h])
      omega
    · rw [sixDigits, hsix, pow_one]
      refine Dvd.dvd.mul_left ?_ _
      refine Int.natCast_dvd_natCast.2 (Dvd.dvd.mul_left ?_ _)
      exact dvd_pow (by norm_num) (by omega)

end PuppetC
