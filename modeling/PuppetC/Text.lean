import Mathlib.Data.List.TakeWhile
import Mathlib.Data.Nat.Log
import Mathlib.Data.Rat.Floor

/-!
# C strings and numbers as text

A C string is a `String` whose characters stand for its bytes; none of them is NUL. The string of
a Puppet value has a length of its own and may hold a NUL, as what `base64` decodes does; a C
function sees what is before it. This file holds the text operations the sources share: copies
into fixed buffers, the first `::` of a qualified name, and the `%g` format. A `double` is modelled
by the rational number it denotes.

## Main definitions

* `beforeNul`: what a C function sees of a text.
* `bufferCopy`: a copy truncated to a buffer, as `strncpy` and `snprintf` make it.
* `startsWith`, `stripTop`: `strncmp` prefixes and the leading `::` of a top-scope name.
* `cutNamespace`: `strstr(s, "::")`, as the parts before and after it.
* `cutLastNamespace`: the last `::` of a qualified variable name.
* `moduleOf`: the first component of a class name.
* `truncate`: the integer a number is cut to.
* `formatG`: `printf("%g", x)`.
-/

namespace PuppetC

/-- What a C function sees of a text: the part before its first NUL. -/
def beforeNul (s : List Char) : List Char := s.takeWhile (· ≠ '\x00')

theorem nul_not_mem_beforeNul (s : List Char) : '\x00' ∉ beforeNul s := by
  intro h
  have hne := List.mem_takeWhile_imp h
  simp at hne

theorem beforeNul_eq_self_iff {s : List Char} : beforeNul s = s ↔ '\x00' ∉ s := by
  constructor
  · intro h
    rw [← h]
    exact nul_not_mem_beforeNul s
  · intro h
    refine List.takeWhile_eq_self_iff.mpr fun c hc ↦ decide_eq_true ?_
    rintro rfl
    exact h hc

/-- What a buffer of `size` bytes holds after a truncating copy of `s`. -/
def bufferCopy (size : ℕ) (s : String) : String :=
  String.ofList (s.toList.take (size - 1))

theorem bufferCopy_of_lt {n : ℕ} {s : String} (h : s.length < n) : bufferCopy n s = s := by
  have hlength : s.toList.length ≤ n - 1 := by
    rw [String.length_toList]
    omega
  rw [bufferCopy, List.take_of_length_le hlength, String.ofList_toList]

/-- `strncmp(s, p, strlen(p)) == 0`. -/
def startsWith (s p : String) : Bool :=
  p.toList.isPrefixOf s.toList

/-- `s + n`. -/
def dropChars (n : ℕ) (s : String) : String :=
  String.ofList (s.toList.drop n)

/-- A name without the leading `::` that marks the top scope. -/
def stripTop (s : String) : String :=
  if startsWith s "::" then dropChars 2 s else s

/-- The parts of a text before and after its first `::`. -/
def cutColons : List Char → Option (List Char × List Char)
  | [] => none
  | [_] => none
  | c :: d :: cs =>
    if c = ':' ∧ d = ':' then some ([], cs)
    else (cutColons (d :: cs)).map fun p ↦ (c :: p.1, p.2)

/-- `strstr(s, "::")`, as the parts of `s` before and after it. -/
def cutNamespace (s : String) : Option (String × String) :=
  (cutColons s.toList).map fun p ↦ (String.ofList p.1, String.ofList p.2)

/-- The parts of a qualified name before and after the `::` that ends at its last `:`. -/
def cutLastNamespace (s : String) : Option (String × String) :=
  let rest := s.toList.reverse.dropWhile (· ≠ ':')
  match rest with
  | _ :: ':' :: before =>
    some (String.ofList before.reverse,
      String.ofList (s.toList.reverse.takeWhile (· ≠ ':')).reverse)
  | _ => none

/-- The module of a class: its name up to the first `::`, or all of it. -/
def moduleOf (name : String) : String :=
  match cutNamespace name with
  | some (m, _) => m
  | none => name

/-- `strchr(s, c) != NULL`. -/
def hasChar (s : String) (c : Char) : Bool := s.toList.contains c

/-- `tolower` in the C locale. -/
def lowerChar (c : Char) : Char :=
  if 'A' ≤ c ∧ c ≤ 'Z' then Char.ofNat (c.toNat + 32) else c

/-- A text with every byte in lower case. -/
def lowerText (s : String) : String := String.ofList (s.toList.map lowerChar)

/-- `"%s[%s]"`: the identifier of a resource. -/
def resourceId (type title : String) : String := type ++ "[" ++ title ++ "]"

/-! ### The `%g` format -/

/-- Round half to even. -/
def roundEven (q : ℚ) : ℤ :=
  let f := ⌊q⌋
  if q - f < 1 / 2 then f else if 1 / 2 < q - f then f + 1 else if f % 2 = 0 then f else f + 1

/-- `10 ^ e` for any integer exponent. -/
def tenPow (e : ℤ) : ℚ :=
  if 0 ≤ e then (10 : ℚ) ^ e.toNat else 1 / (10 : ℚ) ^ (-e).toNat

/-- The decimal exponent of a positive rational: `10 ^ e ≤ q < 10 ^ (e + 1)`. -/
def decimalExponent (q : ℚ) : ℤ :=
  if 1 ≤ q then Nat.log 10 (q.num.toNat / q.den)
  else
    let e : ℤ := -(Nat.log 10 (q.den / q.num.toNat) : ℤ)
    if tenPow e ≤ q then e else e - 1

/-- `(long)q` and `(int)q`, for a number in the range of the type. -/
def truncate (q : ℚ) : ℤ := if q < 0 then -⌊-q⌋ else ⌊q⌋

theorem truncate_intCast (n : ℤ) : truncate n = n := by
  have hneg : ⌊-(n : ℚ)⌋ = -n := by
    rw [← Int.cast_neg, Int.floor_intCast]
  simp [truncate, hneg]

/-- Digits without the zeros at their end. -/
def dropZeros (ds : List Char) : List Char := (ds.reverse.dropWhile (· = '0')).reverse

/-- The fraction digits of a number, with their point, or nothing. -/
def fraction (ds : List Char) : List Char :=
  match dropZeros ds with
  | [] => []
  | ds' => '.' :: ds'

/-- `n` in decimal, padded with zeros to `w` digits. -/
def digitsPadded (w n : ℕ) : List Char :=
  let ds := (toString n).toList
  List.replicate (w - ds.length) '0' ++ ds

/-- `printf("%.{p}g", x)` for a positive `x`: `p` significant digits. -/
def formatPos (p : ℕ) (q : ℚ) : List Char :=
  let e₀ := decimalExponent q
  let m₀ := (roundEven (q / tenPow (e₀ - (p - 1)))).toNat
  let (m, e) := if m₀ = 10 ^ p then (10 ^ (p - 1), e₀ + 1) else (m₀, e₀)
  let ds := digitsPadded p m
  if e < -4 ∨ p ≤ e then
    ds.take 1 ++ fraction (ds.drop 1) ++ ['e', if e < 0 then '-' else '+'] ++
      digitsPadded 2 e.natAbs
  else if e < 0 then '0' :: fraction (List.replicate (-e - 1).toNat '0' ++ ds)
  else ds.take (e.toNat + 1) ++ fraction (ds.drop (e.toNat + 1))

/-- `printf("%.{p}g", x)`. -/
def formatDigits (p : ℕ) (q : ℚ) : List Char :=
  if q = 0 then ['0'] else if q < 0 then '-' :: formatPos p (-q) else formatPos p q

/-- `printf("%g", x)`. -/
def formatG (q : ℚ) : String := String.ofList (formatDigits 6 q)

end PuppetC
