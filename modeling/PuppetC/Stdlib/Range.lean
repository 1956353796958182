import Mathlib.Algebra.Group.Nat.Hom
import Mathlib.Tactic.Linarith
import PuppetC.Interp.Arithmetic
import PuppetC.Interp.Env
import PuppetC.Support.CountingLoop

/-!
# Ranges

`range` counts from one bound to the other in a `for` loop. For numbers the counter is an `int`, and
the addition that leaves the range of an `int` is undefined. For single characters the counter is a
`char`: the sum is converted back, and a sum that no `char` holds becomes another character, from
which the loop goes on. The test follows the addition, so the loop counts as intended exactly if the
counter can also hold the first number beyond the last element.

A step of zero counts as one, and a step that leads away from the other bound is turned around.

## Main definitions

* `intNext`, `charNext`: the counter's next value.
* `rangeLoop`, `rangeValue`, `funcRange`: `puppet_func_range`.
* `progression`, `firstBeyond`: the elements of a range and the number after them.
* `CountsNumbers`, `CountsCharacters`: a range is the progression, and the counter is exact.

## Main results

* `mem_progression_iff`: the elements of a progression.
* `range_inclusive`: when a range is the inclusive progression.
-/

namespace PuppetC

/-! ### The function -/

/-- The range of a `char`, which is signed. -/
def InChar (n : ℤ) : Prop := -128 ≤ n ∧ n < 128

instance (n : ℤ) : Decidable (InChar n) := inferInstanceAs (Decidable (_ ∧ _))

/-- The number of a `char`. -/
def charCode (c : Char) : ℤ := Int.bmod c.toNat 256

/-- The text of the `char` with a number. -/
def charText (n : ℤ) : String := String.singleton (Char.ofNat (n % 256).toNat)

/-- `i += step` on an `int`; undefined if no `int` holds the sum. -/
def intNext (step i : ℤ) : Option ℤ := if InInt (i + step) then some (i + step) else none

/-- `c += step` on a `char`: the sum is an `int`, converted to a `char` by dropping its high
bits. -/
def charNext (step c : ℤ) : Option ℤ := (intNext step c).map fun n ↦ Int.bmod n 256

/-- The step that the third argument gives, other than zero. -/
def stepArgument : Option Value → Option ℤ
  | some (.number x) => (toInt x).map fun step ↦ if step = 0 then 1 else step
  | _ => some 1

/-- The step in the direction from `start` to `stop`; undefined if no `int` holds it. -/
def directedStep (start stop step : ℤ) : Option ℤ :=
  if (start > stop ∧ step > 0) ∨ (start < stop ∧ step < 0) then
    if InInt (-step) then some (-step) else none
  else some step

/-- The test of the loop. -/
def insideRange (stop step i : ℤ) : Bool :=
  if step > 0 then decide (i ≤ stop) else decide (i ≥ stop)

/-- The loop from `start` to `stop`, whose counter steps by `next`: the elements of the range and
the value that leaves the loop. -/
def rangeLoop (next : ℤ → ℤ → Option ℤ) (fuel : ℕ) (start stop : ℤ) (stepVal : Option Value) :
    Option (List ℤ × ℤ) := do
  let step ← directedStep start stop (← stepArgument stepVal)
  countLoop (insideRange stop step) (next step) fuel start

/-- The character of a string of length one. -/
def singleChar : Value → Option ℤ
  | .string s =>
    match s.toList with
    | [c] => some (charCode c)
    | _ => none
  | _ => none

/-- The array that `range` returns for the values of its arguments, with the message it prints;
nothing if it goes on or a step of it is undefined. -/
def rangeValue (fuel : ℕ) (startVal endVal : Value) (stepVal : Option Value) :
    Option (Value × List Diagnostic) :=
  match startVal, endVal with
  | .number x, .number y => do
    let start ← toInt x
    let stop ← toInt y
    let (elements, _) ← rangeLoop intNext fuel start stop stepVal
    return (.array (elements.map fun i : ℤ ↦ .number i), [])
  | startVal, endVal =>
    match singleChar startVal, singleChar endVal with
    | some start, some stop => do
      let (elements, _) ← rangeLoop charNext fuel start stop stepVal
      return (.array (elements.map fun c ↦ .string (charText c)), [])
    | _, _ => some (.array [], [⟨.logError,
        "range() requires numeric or single-character string arguments"⟩])

/-- `puppet_func_range`, with at most `fuel` tests of its loop. -/
def funcRange (fuel : ℕ) : List Expr → Quiet Value
  | e₁ :: e₂ :: rest => do
    let startVal ← evalExpr e₁
    let endVal ← evalExpr e₂
    let stepVal ← match rest with
      | [] => pure none
      | e₃ :: _ => some <$> evalExpr e₃
    match rangeValue fuel startVal endVal stepVal with
    | some (v, notes) => do
      notes.forM fun d ↦ emit d.severity d.text
      return v
    | none => do
      perform .undefined
      return Value.undef
  | _ => do
    emit .logError "range() requires at least 2 arguments: start, end"
    return Value.undef

variable {lo hi : ℤ} {a b t : ℤ}

/-! ### Progressions -/

/-- The number of elements from `a` to `b` in steps of `t`. -/
def termCount (a b t : ℤ) : ℕ := (b - a).natAbs / t.natAbs + 1

/-- The numbers `a`, `a + t`, … up to the last not beyond `b`. -/
def progression (a b t : ℤ) : List ℤ := List.iterate (· + t) a (termCount a b t)

/-- The number after the last one of a progression. -/
def firstBeyond (a b t : ℤ) : ℤ := a + termCount a b t * t

/-- A step leads from `a` towards `b`. -/
def LeadsTo (a b t : ℤ) : Prop := (0 < t ∧ a ≤ b) ∨ (t < 0 ∧ b ≤ a)

theorem iterate_add_right (a t : ℤ) (k : ℕ) : (· + t)^[k] a = a + k * t := by
  rw [add_right_iterate, nsmul_eq_mul]

/-- A number of steps does not lead beyond `b` exactly if it is less than the number of elements. -/
theorem insideRange_iff_lt_termCount (h : LeadsTo a b t) (k : ℕ) :
    insideRange b t (a + k * t) = true ↔ k < termCount a b t := by
  have hpos : 0 < t.natAbs := by
    rcases h with ⟨ht, -⟩ | ⟨ht, -⟩ <;> omega
  rw [termCount, Nat.lt_succ_iff, Nat.le_div_iff_mul_le hpos, insideRange]
  rcases h with ⟨ht, hab⟩ | ⟨ht, hab⟩
  · rw [if_pos ht, decide_eq_true_iff, ← Int.ofNat_le]
    push_cast
    rw [abs_of_pos ht, abs_of_nonneg (by omega)]
    omega
  · rw [if_neg (by omega), decide_eq_true_iff, ← Int.ofNat_le]
    push_cast
    rw [abs_of_neg ht, abs_of_nonpos (by omega), mul_neg]
    omega

/-- A progression consists of the numbers that lie steps away from `a` and not beyond `b`. -/
theorem mem_progression_iff (h : LeadsTo a b t) {i : ℤ} :
    i ∈ progression a b t ↔ ∃ k : ℕ, i = a + k * t ∧ insideRange b t i = true := by
  simp only [progression, List.mem_iterate, iterate_add_right]
  constructor
  · rintro ⟨k, hk, rfl⟩
    exact ⟨k, rfl, (insideRange_iff_lt_termCount h k).mpr hk⟩
  · rintro ⟨k, rfl, hk⟩
    exact ⟨k, (insideRange_iff_lt_termCount h k).mp hk, rfl⟩

/-- If the numbers from `lo` to `hi` hold the first number of a progression and the one beyond the
last, they hold those between. -/
theorem between_of_firstBeyond (ha : lo ≤ a ∧ a < hi)
    (hlast : lo ≤ firstBeyond a b t ∧ firstBeyond a b t < hi) {k : ℕ} (hk : k < termCount a b t) :
    lo ≤ a + k * t + t ∧ a + k * t + t < hi := by
  rw [firstBeyond] at hlast
  have hsucc : ((k : ℤ) + 1) ≤ termCount a b t := by omega
  rcases le_or_gt 0 t with ht | ht
  · constructor <;> nlinarith
  · constructor <;> nlinarith

/-! ### The loop -/

/-- The size of the steps: one where it is zero or not given. -/
def givenStep (step : Option ℤ) : ℤ := if step.getD 1 = 0 then 1 else step.getD 1

/-- The step that a range is expected to count with: it leads from `a` to `b`. -/
def rangeStep (a b : ℤ) (step : Option ℤ) : ℤ :=
  if (a > b ∧ givenStep step > 0) ∨ (a < b ∧ givenStep step < 0) then -givenStep step
  else givenStep step

/-- An `int` holds the step, also after it is turned around. -/
def StepFits (a b : ℤ) (step : Option ℤ) : Prop :=
  InInt (step.getD 1) ∧ InInt (rangeStep a b step)

instance (a b : ℤ) (step : Option ℤ) : Decidable (StepFits a b step) :=
  inferInstanceAs (Decidable (_ ∧ _))

theorem leadsTo_rangeStep (a b : ℤ) (step : Option ℤ) : LeadsTo a b (rangeStep a b step) := by
  have hzero : givenStep step ≠ 0 := by
    rw [givenStep]
    split_ifs with h
    exacts [one_ne_zero, h]
  rw [LeadsTo, rangeStep]
  split_ifs <;> omega

theorem stepArgument_intCast (step : Option ℤ) :
    stepArgument (step.map fun s : ℤ ↦ .number s) =
      if InInt (step.getD 1) then some (givenStep step) else none := by
  cases step with
  | none => rfl
  | some s =>
    simp only [Option.map_some, stepArgument, toInt_intCast, Option.getD_some]
    by_cases hint : InInt s
    · rw [if_pos hint, if_pos hint]
      rfl
    · rw [if_neg hint, if_neg hint]
      rfl

/-- The step of the loop is the expected one where an `int` holds it. -/
theorem bind_stepArgument (a b : ℤ) (step : Option ℤ) :
    (stepArgument (step.map fun s : ℤ ↦ .number s)).bind (directedStep a b) =
      if StepFits a b step then some (rangeStep a b step) else none := by
  rw [stepArgument_intCast]
  by_cases hint : InInt (step.getD 1)
  · have hgiven : InInt (givenStep step) := by
      rw [givenStep]
      split_ifs
      exacts [by decide, hint]
    have hfits : StepFits a b step ↔ InInt (rangeStep a b step) := and_iff_right hint
    simp only [hfits]
    rw [if_pos hint, Option.bind_some, directedStep, rangeStep]
    by_cases hturn : (a > b ∧ givenStep step > 0) ∨ (a < b ∧ givenStep step < 0)
    · rw [if_pos hturn, if_pos hturn]
    · rw [if_neg hturn, if_neg hturn, if_pos hgiven]
  · have hfits : ¬StepFits a b step := mt And.left hint
    rw [if_neg hint, if_neg hfits, Option.bind_none]

/-- The loop counts along the progression exactly if an `int` holds the step and the counter holds
the first number beyond the last element. -/
theorem exists_rangeLoop_iff {next : ℤ → ℤ → Option ℤ}
    (hnext : ∀ t i, next t i = some (i + t) ↔ lo ≤ i + t ∧ i + t < hi) (ha : lo ≤ a ∧ a < hi)
    (step : Option ℤ) :
    (∃ fuel, rangeLoop next fuel a b (step.map fun s : ℤ ↦ .number s) =
        some (progression a b (rangeStep a b step), firstBeyond a b (rangeStep a b step))) ↔
      StepFits a b step ∧ lo ≤ firstBeyond a b (rangeStep a b step) ∧
        firstBeyond a b (rangeStep a b step) < hi := by
  have hdir := leadsTo_rangeStep a b step
  set t := rangeStep a b step
  have hloop (fuel : ℕ) : rangeLoop next fuel a b (step.map fun s : ℤ ↦ .number s) =
      if StepFits a b step then countLoop (insideRange b t) (next t) fuel a else none := by
    simp only [rangeLoop, Option.bind_eq_bind, ← Option.bind_assoc, bind_stepArgument]
    split_ifs <;> rfl
  simp only [hloop]
  by_cases hfits : StepFits a b step
  swap
  · simp [hfits]
  rw [and_iff_right hfits]
  simp only [if_pos hfits, progression]
  rw [firstBeyond, ← iterate_add_right a t (termCount a b t), exists_countLoop_iff]
  simp only [iterate_add_right, insideRange_iff_lt_termCount hdir]
  constructor
  · rintro ⟨hexact, -⟩
    have hpos : 0 < termCount a b t := Nat.succ_pos _
    obtain ⟨-, hlast⟩ := hexact (termCount a b t - 1) (by omega)
    have hsucc : a + ((termCount a b t - 1 + 1 : ℕ) : ℤ) * t =
        a + ((termCount a b t - 1 : ℕ) : ℤ) * t + t := by
      push_cast
      ring
    rw [hsucc, hnext, ← hsucc] at hlast
    exact hlast
  · intro hlast
    refine ⟨fun k hk ↦ ⟨hk, ?_⟩, ?_⟩
    · have hsucc : a + ((k + 1 : ℕ) : ℤ) * t = a + (k : ℤ) * t + t := by
        push_cast
        ring
      rw [hsucc, hnext]
      exact between_of_firstBeyond ha hlast hk
    · exact Bool.eq_false_iff.mpr fun h ↦
        absurd ((insideRange_iff_lt_termCount hdir _).mp h) (lt_irrefl _)

theorem intNext_eq_some_iff (t i : ℤ) :
    intNext t i = some (i + t) ↔ -2 ^ 31 ≤ i + t ∧ i + t < 2 ^ 31 := by
  rw [intNext]
  split_ifs with h <;> simpa [InInt] using h

theorem bmod_eq_self_iff (n : ℤ) : Int.bmod n 256 = n ↔ InChar n := by
  rw [Int.bmod, InChar]
  split_ifs <;> omega

theorem inChar_charCode (c : Char) : InChar (charCode c) :=
  ⟨Int.le_bmod (by decide), Int.bmod_lt (by decide)⟩

theorem charNext_eq_some_iff (t c : ℤ) : charNext t c = some (c + t) ↔ InChar (c + t) := by
  rw [charNext, intNext]
  split_ifs with h
  · rw [Option.map_some, Option.some_inj, bmod_eq_self_iff]
  · refine iff_of_false (by simp) fun hchar ↦ h ?_
    rw [InChar] at hchar
    rw [InInt]
    omega

/-! ### Ranges of values -/

/-- A range of numbers is the progression, and its counter takes exactly the numbers of the
progression and then the one beyond. -/
def CountsNumbers (a b : ℤ) (step : Option ℤ) : Prop :=
  ∃ fuel, rangeLoop intNext fuel a b (step.map fun s : ℤ ↦ .number s) =
      some (progression a b (rangeStep a b step), firstBeyond a b (rangeStep a b step)) ∧
    rangeValue fuel (.number a) (.number b) (step.map fun s : ℤ ↦ .number s) =
      some (.array ((progression a b (rangeStep a b step)).map fun i : ℤ ↦ .number i), [])

/-- A range of characters is the progression, and its counter takes exactly the numbers of the
progression and then the one beyond. -/
def CountsCharacters (c d : Char) (step : Option ℤ) : Prop :=
  let a := charCode c
  let b := charCode d
  ∃ fuel, rangeLoop charNext fuel a b (step.map fun s : ℤ ↦ .number s) =
      some (progression a b (rangeStep a b step), firstBeyond a b (rangeStep a b step)) ∧
    rangeValue fuel (.string (String.singleton c)) (.string (String.singleton d))
        (step.map fun s : ℤ ↦ .number s) =
      some (.array ((progression a b (rangeStep a b step)).map fun i ↦ .string (charText i)), [])

theorem countsNumbers_iff (a b : ℤ) (step : Option ℤ) : CountsNumbers a b step ↔
    InInt a ∧ InInt b ∧ StepFits a b step ∧ InInt (firstBeyond a b (rangeStep a b step)) := by
  by_cases hint : InInt a ∧ InInt b
  · rw [and_iff_right hint.1, and_iff_right hint.2]
    refine Iff.trans ?_ (exists_rangeLoop_iff intNext_eq_some_iff hint.1 step)
    refine exists_congr fun fuel ↦ and_iff_left_of_imp fun hloop ↦ ?_
    simp [rangeValue, toInt_intCast, hint, hloop]
  · refine iff_of_false ?_ fun h ↦ hint ⟨h.1, h.2.1⟩
    rintro ⟨fuel, -, hvalue⟩
    rw [not_and_or] at hint
    rcases hint with ha | hb
    · simp [rangeValue, toInt_intCast, ha] at hvalue
    · by_cases ha : InInt a <;> simp [rangeValue, toInt_intCast, ha, hb] at hvalue

theorem countsCharacters_iff (c d : Char) (step : Option ℤ) : CountsCharacters c d step ↔
    StepFits (charCode c) (charCode d) step ∧
      InChar (firstBeyond (charCode c) (charCode d)
        (rangeStep (charCode c) (charCode d) step)) := by
  refine Iff.trans ?_ (exists_rangeLoop_iff charNext_eq_some_iff (inChar_charCode c) step)
  refine exists_congr fun fuel ↦ and_iff_left_of_imp fun hloop ↦ ?_
  simp [rangeValue, singleChar, hloop]

/-- A range of integers or of characters is the inclusive progression, and its counter is exact, if
and only if the bounds are `int`s, the step is one also after it is turned around, and the counter
holds the first number beyond the last element. -/
theorem range_inclusive (step : Option ℤ) :
    (∀ a b : ℤ, CountsNumbers a b step ↔
      InInt a ∧ InInt b ∧ StepFits a b step ∧ InInt (firstBeyond a b (rangeStep a b step))) ∧
    ∀ c d : Char, CountsCharacters c d step ↔
      StepFits (charCode c) (charCode d) step ∧
        InChar (firstBeyond (charCode c) (charCode d)
          (rangeStep (charCode c) (charCode d) step)) :=
  ⟨fun a b ↦ countsNumbers_iff a b step, fun c d ↦ countsCharacters_iff c d step⟩

/-- The counter of `range(2147483646, 2147483647)` overflows after the last element. -/
theorem not_countsNumbers_maxInt : ¬CountsNumbers 2147483646 2147483647 none := by
  rw [countsNumbers_iff]
  decide

end PuppetC
