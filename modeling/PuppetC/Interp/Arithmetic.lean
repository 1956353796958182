import PuppetC.Interp.Operators
import Mathlib.Data.Int.Order.Basic

/-!
# Integer arithmetic

`%` of two numbers converts both doubles to `int`, the divisor first, and divides the integers.
The conversion of a number that no `int` holds is undefined, and so is the remainder of the least
`int` by `-1`, whose quotient no `int` holds: there the division traps. `evalMod` is the case
`PUPPET_OP_MOD` of `puppet_eval_binop` with these steps; where they are defined it is the operator
`%` of `evalBinop`, whose integers have no bound.

The remainder is right, and nothing is undefined, exactly for a divisor zero, which is diagnosed,
and for two `int`s other than the least one and `-1`.

## Main definitions

* `toInt`: `(int)x`.
* `intRem`: `%` of two `int`s.
* `evalMod`, `checkedBinop`: an operator with the conversions that it makes.
* `IntegerExact`: what is expected of the arithmetic of two integers.

## Main results

* `evalBinop_of_checkedBinop`: where no step is undefined, the operator is `evalBinop`.
* `integerExact_iff`: when the arithmetic of two integers is exact and defined.
-/

namespace PuppetC

/-! ### Machine integers -/

/-- The range of an `int`. -/
def InInt (n : ℤ) : Prop := -2 ^ 31 ≤ n ∧ n < 2 ^ 31

instance (n : ℤ) : Decidable (InInt n) := inferInstanceAs (Decidable (_ ∧ _))

/-- `(int)x`; undefined for a number whose integer part no `int` holds. -/
def toInt (x : ℚ) : Option ℤ := if InInt (truncate x) then some (truncate x) else none

/-- `a % b` of two `int`s with `b` other than zero; undefined if no `int` holds `a / b`. -/
def intRem (a b : ℤ) : Option ℤ := if InInt (a.tdiv b) then some (a.tmod b) else none

theorem toInt_intCast (n : ℤ) : toInt n = if InInt n then some n else none := by
  rw [toInt, truncate_intCast]

/-- Only the least `int` divided by `-1` has a quotient that no `int` holds. -/
theorem inInt_tdiv_iff {a b : ℤ} (ha : InInt a) (hb : b ≠ 0) :
    InInt (a.tdiv b) ↔ ¬(a = -2 ^ 31 ∧ b = -1) := by
  obtain ⟨hlow, hhigh⟩ := ha
  have hle : (a.tdiv b).natAbs ≤ a.natAbs := Int.natAbs_tdiv_le_natAbs a b
  unfold InInt
  constructor
  · rintro ⟨-, hlt⟩ ⟨rfl, rfl⟩
    exact absurd hlt (by decide)
  · intro hne
    rcases eq_or_ne b (-1) with rfl | hb1
    · rw [Int.tdiv_neg, Int.tdiv_one]
      omega
    rcases eq_or_ne b 1 with rfl | hb1'
    · rw [Int.tdiv_one]
      exact ⟨hlow, hhigh⟩
    -- a divisor beyond `1` and `-1` at least halves the magnitude
    have hhalf : (a.tdiv b).natAbs ≤ a.natAbs / 2 := by
      rw [Int.natAbs_tdiv]
      exact Nat.div_le_div_left (by omega) (by decide)
    omega

theorem intRem_eq_some_iff {a b r : ℤ} (ha : InInt a) (hb : b ≠ 0) :
    intRem a b = some r ↔ ¬(a = -2 ^ 31 ∧ b = -1) ∧ a.tmod b = r := by
  rw [intRem]
  by_cases hquot : InInt (a.tdiv b)
  · rw [if_pos hquot, Option.some_inj, and_iff_right ((inInt_tdiv_iff ha hb).mp hquot)]
  · rw [if_neg hquot]
    exact iff_of_false (by simp) fun h ↦ hquot ((inInt_tdiv_iff ha hb).mpr h.1)

/-- A remainder is smaller than the divisor, and what it leaves is a multiple of it. -/
theorem tmod_spec (a : ℤ) {b : ℤ} (hb : b ≠ 0) :
    |a.tmod b| < |b| ∧ ∃ q, a = q * b + a.tmod b := by
  refine ⟨?_, a.tdiv b, ?_⟩
  · have hnat : (a.tmod b).natAbs < b.natAbs := by
      rw [Int.natAbs_tmod]
      exact Nat.mod_lt _ (Int.natAbs_pos.mpr hb)
    rw [Int.abs_eq_natAbs, Int.abs_eq_natAbs]
    exact_mod_cast hnat
  · rw [mul_comm]
    exact (Int.mul_tdiv_add_tmod a b).symm

/-! ### Operators with their conversions -/

/-- The messages of `%` by zero. -/
def moduloByZero (left right : Value) : List Diagnostic :=
  [⟨.note, "Warning: modulo by zero"⟩, unsupportedBinop .mod left right]

/-- The messages of `/` by zero. -/
def divisionByZero (left right : Value) : List Diagnostic :=
  [⟨.note, "Warning: division by zero"⟩, unsupportedBinop .div left right]

/-- The case `PUPPET_OP_MOD` of `puppet_eval_binop`, or nothing where a conversion or the division
is undefined. The dividend is converted only if the converted divisor is not zero. -/
def evalMod : Value → Value → Option (Value × List Diagnostic)
  | left@(.number x), right@(.number y) => do
    let divisor ← toInt y
    if divisor ≠ 0 then
      let r ← intRem (← toInt x) divisor
      return (.number r, [])
    return (Value.undef, moduloByZero left right)
  | left, right => some (Value.undef, [unsupportedBinop .mod left right])

/-- `puppet_eval_binop`, or nothing where a step of it is undefined: the other operators compute
with doubles and convert nothing. -/
def checkedBinop (regexec : String → String → Bool) (op : BinOp) (left right : Value) :
    Option (Value × List Diagnostic) :=
  match op with
  | .mod => evalMod left right
  | op => some (evalBinop regexec op left right)

/-- `%` of two integers. -/
theorem evalMod_intCast (a b : ℤ) : evalMod (.number a) (.number b) =
    if b = 0 then some (Value.undef, moduloByZero (.number a) (.number b))
    else if InInt b ∧ InInt a then (intRem a b).map fun r : ℤ ↦ (Value.number r, [])
    else none := by
  simp only [evalMod, toInt_intCast]
  rcases eq_or_ne b 0 with rfl | hb
  · rfl
  rw [if_neg hb]
  by_cases hib : InInt b
  · by_cases hia : InInt a
    · rw [if_pos hib, if_pos hia, if_pos ⟨hib, hia⟩]
      cases hr : intRem a b <;> simp [hb, hr]
    · rw [if_pos hib, if_neg hia, if_neg (mt And.right hia)]
      simp [hb]
  · rw [if_neg hib, if_neg (mt And.left hib)]
    simp

/-- Where no step of an operator is undefined, it is the operator of `evalBinop`. -/
theorem evalBinop_of_checkedBinop {regexec : String → String → Bool} {op : BinOp}
    {left right : Value} {r : Value × List Diagnostic}
    (h : checkedBinop regexec op left right = some r) : evalBinop regexec op left right = r := by
  rcases eq_or_ne op .mod with rfl | hop
  · simp only [checkedBinop] at h
    cases left <;> cases right
    case number.number x y =>
      simp only [evalMod, toInt] at h
      by_cases hy : InInt (truncate y)
      · simp only [if_pos hy, Option.bind_eq_bind, Option.bind_some] at h
        by_cases hzero : truncate y = 0
        · rw [if_neg (not_not.mpr hzero)] at h
          simpa [evalBinop, hzero, moduloByZero] using h
        · rw [if_pos hzero] at h
          by_cases hx : InInt (truncate x)
          · rw [if_pos hx, Option.bind_some, intRem] at h
            split_ifs at h with hquot
            · simpa [evalBinop, hzero] using h
            · simp at h
          · rw [if_neg hx] at h
            simp at h
      · simp [if_neg hy] at h
    all_goals exact Option.some.inj h
  · have hsame : checkedBinop regexec op left right = some (evalBinop regexec op left right) := by
      cases op <;> first | rfl | exact absurd rfl hop
    exact Option.some.inj (hsame.symm.trans h)

/-! ### Exactness -/

/-- What is expected of the arithmetic of two integers: no operator has an undefined step, `%` by
another number than zero is a remainder, and `/` and `%` by zero are diagnosed and give undef. -/
structure IntegerExact (regexec : String → String → Bool) (a b : ℤ) : Prop where
  isDefined : ∀ op, (checkedBinop regexec op (.number a) (.number b)).isSome
  remainder : b ≠ 0 → ∃ r : ℤ, checkedBinop regexec .mod (.number a) (.number b) =
    some (.number r, []) ∧ |r| < |b| ∧ ∃ q, a = q * b + r
  modZero : b = 0 → ∃ notes, ⟨.note, "Warning: modulo by zero"⟩ ∈ notes ∧
    checkedBinop regexec .mod (.number a) (.number b) = some (Value.undef, notes)
  divZero : b = 0 → ∃ notes, ⟨.note, "Warning: division by zero"⟩ ∈ notes ∧
    checkedBinop regexec .div (.number a) (.number b) = some (Value.undef, notes)

/-- Division by zero is diagnosed. -/
theorem checkedBinop_div_zero (regexec : String → String → Bool) (left : ℚ) :
    checkedBinop regexec .div (.number left) (.number 0) =
      some (Value.undef, divisionByZero (.number left) (.number 0)) := by
  simp [checkedBinop, evalBinop, divisionByZero]

/-- The remainder of two integers is defined unless one of them is no `int` or their quotient is
none. -/
theorem evalMod_isSome_iff (a b : ℤ) : (evalMod (.number a) (.number b)).isSome ↔
    b = 0 ∨ (InInt a ∧ InInt b ∧ ¬(a = -2 ^ 31 ∧ b = -1)) := by
  rw [evalMod_intCast]
  split_ifs with hzero hrange
  · exact iff_of_true rfl (.inl hzero)
  · rw [Option.isSome_map, or_iff_right hzero, and_iff_right hrange.2, and_iff_right hrange.1,
      ← inInt_tdiv_iff hrange.2 hzero, intRem]
    split_ifs with hquot <;> simp [hquot]
  · exact iff_of_false (by simp) fun h ↦ (h.resolve_left hzero).elim fun ha h ↦ hrange ⟨h.1, ha⟩

/-- The arithmetic of two integers is exact and has no undefined step exactly if the divisor is
zero or both are `int`s other than the least one and `-1`. -/
theorem integerExact_iff (regexec : String → String → Bool) (a b : ℤ) :
    IntegerExact regexec a b ↔
      b = 0 ∨ (InInt a ∧ InInt b ∧ ¬(a = -2 ^ 31 ∧ b = -1)) := by
  constructor
  · intro h
    exact (evalMod_isSome_iff a b).mp (h.isDefined .mod)
  · intro h
    refine ⟨fun op ↦ ?_, fun hb ↦ ?_, ?_, ?_⟩
    · cases op
      case mod => exact (evalMod_isSome_iff a b).mpr h
      all_goals rfl
    · obtain ⟨hia, hib, hleast⟩ := h.resolve_left hb
      have hrem : intRem a b = some (a.tmod b) :=
        (intRem_eq_some_iff hia hb).mpr ⟨hleast, rfl⟩
      refine ⟨a.tmod b, ?_, tmod_spec a hb⟩
      rw [checkedBinop, evalMod_intCast, if_neg hb, if_pos ⟨hib, hia⟩, hrem]
      rfl
    · rintro rfl
      exact ⟨moduloByZero (.number a) (.number (0 : ℤ)), by simp [moduloByZero],
        (evalMod_intCast a 0).trans (if_pos rfl)⟩
    · rintro rfl
      exact ⟨divisionByZero (.number a) (.number 0), by simp [divisionByZero],
        by simpa only [Int.cast_zero] using checkedBinop_div_zero regexec a⟩

/-- A dividend of `2 ^ 31` is no `int`. -/
theorem not_integerExact_dividend : ¬∀ (regexec : String → String → Bool) (a b : ℤ),
    |a| ≤ 2 ^ 53 → |b| ≤ 2 ^ 53 → IntegerExact regexec a b := by
  intro h
  have hdefined := (h (fun _ _ ↦ false) (2 ^ 31) 7 (by decide) (by decide)).isDefined .mod
  exact absurd ((evalMod_isSome_iff _ _).mp hdefined) (by decide)

end PuppetC
