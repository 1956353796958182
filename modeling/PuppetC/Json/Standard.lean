import PuppetC.Json.RoundTrip
import PuppetC.Sscanf

/-!
# Standard JSON

A reader for JSON texts as the standard has them, with exact numbers: control characters are not
allowed in strings, numbers have no leading zeros, no element is left out between commas, and
nothing but blanks follows the value.

## Main definitions

* `standardString`, `standardNumber`: the texts of strings and numbers.
* `standardValue`, `standardElements`, `standardMembers`: the values.
* `standardJson`: the value of a text.

## Main results

* `standardNumber_formatLong`: the numerals of integers are read as them.
-/

namespace PuppetC

/-! ### Strings and numbers -/

/-- A code point in UTF-8, also one above the first plane. -/
def codePointBytes (n : ℕ) : Bytes :=
  if n ≤ 0xffff then encodeUtf8 n
  else [Char.ofNat (0xf0 + n / 262144), Char.ofNat (0x80 + n / 4096 % 64),
    Char.ofNat (0x80 + n / 64 % 64), Char.ofNat (0x80 + n % 64)]

/-- Four hexadecimal digits. -/
def hexDigits4 (a b c d : Char) : Option ℕ := do
  return ((← hexDigit? a) * 4096 + (← hexDigit? b) * 256 + (← hexDigit? c) * 16 + (← hexDigit? d))

/-- The character of an escape of two characters. -/
def standardEscape (c : Char) : Option Char :=
  if c = '\x22' ∨ c = '\x5c' ∨ c = '/' then some c
  else if c = 'b' then some '\x08'
  else if c = 'f' then some '\x0c'
  else if c = 'n' then some '\n'
  else if c = 'r' then some '\r'
  else if c = 't' then some '\t'
  else none

/-- A string behind its opening quote, of which `s` has been read, and what follows it. Surrogates
come in pairs. -/
def standardString (s : Bytes) : Bytes → Option (Bytes × Bytes)
  | [] => none
  | '\x22' :: r => some (s, r)
  | '\x5c' :: 'u' :: a :: b :: c :: d :: r => do
    let n ← hexDigits4 a b c d
    if n < 0xd800 ∨ 0xe000 ≤ n then standardString (s ++ codePointBytes n) r
    else
      match r with
      | '\x5c' :: 'u' :: a :: b :: c :: d :: r => do
        let m ← hexDigits4 a b c d
        if n < 0xdc00 ∧ 0xdc00 ≤ m ∧ m < 0xe000 then
          standardString (s ++ codePointBytes (0x10000 + (n - 0xd800) * 1024 + (m - 0xdc00))) r
        else none
      | _ => none
  | '\x5c' :: e :: r => do standardString (s ++ [← standardEscape e]) r
  | c :: r => if c = '\x5c' ∨ c.toNat < 0x20 then none else standardString (s ++ [c]) r

/-- The text of a number has an integer without leading zeros, a digit behind its point, and a
digit in its exponent, if it has these. -/
def isStandardNumber (text : Bytes) : Bool :=
  let t := (readSign text).2
  let int := t.takeWhile Char.isDigit
  let (frac, t) := readFraction (t.dropWhile Char.isDigit)
  int ≠ [] && (int.head? ≠ some '0' || int = ['0']) && frac.length ≠ 1 &&
    (readExponent t).1.getLast?.all Char.isDigit

/-- A number and what follows it. -/
def standardNumber (t : Bytes) : Option (ℚ × Bytes) :=
  if isStandardNumber (readNumber t).1 then some (decimalValue (readNumber t).1, (readNumber t).2)
  else none

/-! ### Values -/

mutual

/-- A value and what follows it. Every call takes a character, so the length of the text is fuel
enough. -/
def standardValue : ℕ → Bytes → Option (Json × Bytes)
  | 0, _ => none
  | fuel + 1, t =>
    match t.dropWhile isBlank with
    | [] => none
    | c :: r =>
      if c = '\x22' then (standardString [] r).map fun x ↦ (.string x.1, x.2)
      else if c = '[' then
        if (r.dropWhile isBlank).head? = some ']' then some (.array [], (r.dropWhile isBlank).tail)
        else (standardElements fuel r).map fun x ↦ (.array x.1, x.2)
      else if c = '\x7b' then
        if (r.dropWhile isBlank).head? = some '\x7d' then
          some (.object [], (r.dropWhile isBlank).tail)
        else (standardMembers fuel [] r).map fun x ↦ (.object x.1, x.2)
      else if "true".toList.isPrefixOf (c :: r) then some (.bool true, (c :: r).drop 4)
      else if "false".toList.isPrefixOf (c :: r) then some (.bool false, (c :: r).drop 5)
      else if "null".toList.isPrefixOf (c :: r) then some (.null, (c :: r).drop 4)
      else (standardNumber (c :: r)).map fun x ↦ (.number x.1, x.2)

/-- The elements of an array that has any, and what follows it. -/
def standardElements : ℕ → Bytes → Option (List Json × Bytes)
  | 0, _ => none
  | fuel + 1, t => do
    let (v, r) ← standardValue fuel t
    match r.dropWhile isBlank with
    | ',' :: r => do
      let (vs, r) ← standardElements fuel r
      return (v :: vs, r)
    | ']' :: r => return ([v], r)
    | _ => none

/-- The members of an object that has any, with those so far, and what follows it. -/
def standardMembers : ℕ → List (Bytes × Json) → Bytes → Option (List (Bytes × Json) × Bytes)
  | 0, _, _ => none
  | fuel + 1, ms, t =>
    match t.dropWhile isBlank with
    | '\x22' :: r => do
      let (k, r) ← standardString [] r
      match r.dropWhile isBlank with
      | ':' :: r => do
        let (v, r) ← standardValue fuel r
        match r.dropWhile isBlank with
        | ',' :: r => standardMembers fuel (objectSet k v ms) r
        | '\x7d' :: r => return (objectSet k v ms, r)
        | _ => none
      | _ => none
    | _ => none

end

/-- The value of a text. -/
def standardJson (t : Bytes) : Option Json := do
  let (v, r) ← standardValue (2 * (t.length + 1)) t
  if r.all isBlank then some v else none

/-! ### Scalars -/

section Scalars

variable {c : Char} {r : Bytes} {fuel : ℕ}

theorem standardValue_string :
    standardValue (fuel + 1) ('\x22' :: r) =
      (standardString [] r).map fun x ↦ (.string x.1, x.2) := by
  rw [standardValue]
  rfl

theorem standardValue_true :
    standardValue (fuel + 1) ("true".toList ++ r) = some (.bool true, r) := by
  rw [standardValue]
  rfl

theorem standardValue_false :
    standardValue (fuel + 1) ("false".toList ++ r) = some (.bool false, r) := by
  rw [standardValue]
  rfl

theorem standardValue_null : standardValue (fuel + 1) ("null".toList ++ r) = some (.null, r) := by
  rw [standardValue]
  rfl

theorem standardValue_array : standardValue (fuel + 1) ('[' :: r) =
    if (r.dropWhile isBlank).head? = some ']' then some (.array [], (r.dropWhile isBlank).tail)
    else (standardElements fuel r).map fun x ↦ (.array x.1, x.2) := by
  rw [standardValue]
  rfl

theorem standardValue_object : standardValue (fuel + 1) ('\x7b' :: r) =
    if (r.dropWhile isBlank).head? = some '\x7d' then
      some (.object [], (r.dropWhile isBlank).tail)
    else (standardMembers fuel [] r).map fun x ↦ (.object x.1, x.2) := by
  rw [standardValue]
  rfl

/-- A number starts with a character that no other value starts with. -/
theorem standardValue_number (hblank : isBlank c = false)
    (hc : c ∉ ['\x22', '[', '\x7b', 't', 'f', 'n']) :
    standardValue (fuel + 1) (c :: r) =
      (standardNumber (c :: r)).map fun x ↦ (.number x.1, x.2) := by
  simp only [List.mem_cons, not_or] at hc
  obtain ⟨h₁, h₂, h₃, h₄, h₅, h₆, -⟩ := hc
  have hkeyword {d : Char} (ds : Bytes) (h : c ≠ d) : (d :: ds).isPrefixOf (c :: r) = false := by
    rw [List.isPrefixOf, beq_eq_false_iff_ne.2 h.symm, Bool.false_and]
  have htrue : "true".toList.isPrefixOf (c :: r) = false := hkeyword _ h₄
  have hfalse : "false".toList.isPrefixOf (c :: r) = false := hkeyword _ h₅
  have hnull : "null".toList.isPrefixOf (c :: r) = false := hkeyword _ h₆
  have hskip : (c :: r).dropWhile isBlank = c :: r :=
    List.dropWhile_cons_of_neg (by rw [hblank]; exact Bool.false_ne_true)
  rw [standardValue, hskip]
  dsimp only
  rw [if_neg h₁, if_neg h₂, if_neg h₃, htrue, hfalse, hnull]
  rfl

end Scalars

/-! ### Integers -/

theorem readSign_formatLong (n : ℤ) : (readSign (formatLong n)).2 = Nat.toDigits 10 n.natAbs := by
  rw [formatLong]
  split_ifs
  · rfl
  · obtain ⟨d, ds, hds⟩ := List.exists_cons_of_ne_nil (toDigits_ne_nil n.natAbs)
    have hd : d.isDigit := toDigits_digits n.natAbs d (hds ▸ List.mem_cons_self)
    rw [hds, readSign]
    exact fun t h ↦ by cases (List.cons.inj h).1 ▸ hd

/-- Integers are written as numbers. -/
theorem isStandardNumber_formatLong (n : ℤ) : isStandardNumber (formatLong n) = true := by
  have hend : ∀ c ∈ ([] : Bytes).head?, ¬ c.isDigit := fun c hc ↦ by cases hc
  obtain ⟨htake, hdrop⟩ := span_digits (toDigits_digits n.natAbs) hend
  rw [List.append_nil] at htake hdrop
  have hzero : (Nat.toDigits 10 n.natAbs).head? ≠ some '0' ∨ Nat.toDigits 10 n.natAbs = ['0'] := by
    by_cases h : (Nat.toDigits 10 n.natAbs).head? = some '0'
    · exact Or.inr (noLeadingZero_toDigits n.natAbs h)
    · exact Or.inl h
  rw [isStandardNumber, readSign_formatLong, htake, hdrop]
  simp only [readFraction, readExponent, Bool.and_eq_true, Bool.or_eq_true, decide_eq_true_eq]
  exact ⟨⟨⟨toDigits_ne_nil _, hzero⟩, rfl⟩, rfl⟩

/-- The numeral of an integer is read as it. -/
theorem standardNumber_formatLong (n : ℤ) {r : Bytes} (hr : Ends r) :
    standardNumber (formatLong n ++ r) = some ((n : ℚ), r) := by
  have hread := readNumber_text (Numeral.ofInt n) hr
  rw [Numeral.text_ofInt] at hread
  rw [standardNumber, hread, if_pos (isStandardNumber_formatLong n), ← Numeral.text_ofInt,
    Numeral.decimalValue_text, Numeral.value_ofInt]

theorem exists_formatLong_eq_cons (n : ℤ) :
    ∃ c cs, formatLong n = c :: cs ∧ (c = '-' ∨ c.isDigit = true) := by
  rw [formatLong]
  split_ifs
  · exact ⟨_, _, rfl, Or.inl rfl⟩
  · obtain ⟨d, ds, hds⟩ := List.exists_cons_of_ne_nil (toDigits_ne_nil n.natAbs)
    exact ⟨d, ds, hds, Or.inr (toDigits_digits n.natAbs d (hds ▸ List.mem_cons_self))⟩

theorem isBlank_of_numeral {c : Char} (hc : c = '-' ∨ c.isDigit = true) : isBlank c = false := by
  rcases hc with rfl | hdigit
  · rfl
  · by_contra hblank
    simp only [isBlank, Bool.not_eq_false, Bool.or_eq_true, decide_eq_true_eq] at hblank
    rcases hblank with ((rfl | rfl) | rfl) | rfl <;> cases hdigit

theorem standardValue_formatLong (n : ℤ) (fuel : ℕ) {r : Bytes} (hr : Ends r) :
    standardValue (fuel + 1) (formatLong n ++ r) = some (.number n, r) := by
  have hnumeral := standardNumber_formatLong n hr
  obtain ⟨c, cs, hcs, hc⟩ := exists_formatLong_eq_cons n
  have hhead : c ∉ ['\x22', '[', '\x7b', 't', 'f', 'n'] := by
    intro hmem
    simp only [List.mem_cons, List.not_mem_nil, or_false] at hmem
    rcases hmem with rfl | rfl | rfl | rfl | rfl | rfl <;> rcases hc with hc | hc <;> cases hc
  rw [hcs, List.cons_append] at hnumeral ⊢
  rw [standardValue_number (isBlank_of_numeral hc) hhead, hnumeral]
  rfl

end PuppetC
