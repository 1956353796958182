import PuppetC.Catalog.Document
import PuppetC.Hiera.WholePaths
import PuppetC.Interp.Runs
import PuppetC.Number

/-!
# Integers as text

A number becomes text where it is interpolated in a string, in a message, in the document of a
catalog and in a path of hiera. Messages are written with `%ld`, which writes every integer; the
others with `%g`, which writes six digits and then an exponent. So they write an integer as its
numeral exactly if it has at most six digits.

## Main definitions

* `numeral`: the decimal numeral of an integer.
* `RendersExactly`: an integer is written as its numeral everywhere, and read back from it.

## Main results

* `returnsQuiet_interpolated_iff`: the value of a string with one interpolated expression.
* `rendersExactly_iff`: when an integer is written as its numeral.
-/

namespace PuppetC

/-- The decimal numeral of an integer. -/
def numeral (n : ℤ) : String := String.ofList (formatLong n)

theorem toString_eq_numeral (n : ℤ) : toString n = numeral n := by
  cases n with
  | ofNat m =>
    have hm : ¬(Int.ofNat m) < 0 := by simp
    rw [numeral, formatLong, if_neg hm]
    rfl
  | negSucc m => simp [numeral, formatLong, toString, Int.repr, Nat.repr]

theorem formatG_eq_numeral_iff (n : ℤ) : formatG n = numeral n ↔ |n| < 10 ^ 6 := by
  rw [formatG, numeral, String.ofList_inj, formatDigits_eq_formatLong_iff]

/-- Messages have integers as their numerals. -/
theorem displayText_intCast (n : ℤ) : displayText (.number n) = numeral n := by
  rw [displayText, truncate_intCast, if_pos rfl, toString_eq_numeral]

variable {w : World} {env env' : Env} {e : Expr}

/-! ### Interpolation -/

/-- A string with one interpolated expression. -/
theorem returnsQuiet_interpolated_iff {before after : String} {u : Value} :
    w.ReturnsQuiet (evalExpr (.interpolated [(some before, some e)] after)) env u env' ↔
      ∃ v, w.ReturnsQuiet (evalExpr e) env v env' ∧
        u = .string (before ++ v.toText ++ after) := by
  have hparts : evalParts [(some before, some e)] = (do
      let v ← evalExpr e
      return before ++ v.toText ++ "") := rfl
  rw [evalExpr, returnsQuiet_call_iff]
  change w.Returns (liftM (evalParts [(some before, some e)]) >>= fun text ↦
    pure (.string (text ++ after))) env u env' ↔ _
  rw [hparts]
  simp only [returns_bind_iff, returns_lift_iff, Prog.returns_pure_iff, returnsQuiet_bind_iff,
    String.append_empty]
  constructor
  · rintro ⟨_, _, ⟨v, _, hv, rfl, rfl⟩, rfl, rfl⟩
    exact ⟨v, hv, rfl⟩
  · rintro ⟨v, hv, rfl⟩
    exact ⟨_, env', ⟨v, env', hv, rfl, rfl⟩, rfl, rfl⟩

/-- A hash with one interpolated key. -/
theorem returnsQuiet_hash_interpolated {parts : List (Option String × Option Expr)}
    {trailing k : String} {v : Value}
    (hkey : w.ReturnsQuiet (evalExpr (.interpolated parts trailing)) env (.string k) env') :
    w.ReturnsQuiet (evalExpr (.hash [(.interpolated parts trailing, .value v)])) env
      (.hash (hashSet [] k (literalValue v).copy)) env' := by
  rw [evalExpr, returnsQuiet_call_iff]
  change w.Returns (evalEntries [] [] [(.interpolated parts trailing, .value v)] : Quiet Value) env
    _ env'
  rw [returns_lift_iff, evalEntries]
  · refine returnsQuiet_bind_iff.2 ⟨_, env', hkey, ?_⟩
    refine returnsQuiet_bind_iff.2 ⟨_, env', returnsQuiet_literal_iff.2 ⟨rfl, rfl⟩, ?_⟩
    refine returnsQuiet_bind_iff.2 ⟨_, env', returnsQuiet_read_iff.2 ⟨rfl, rfl⟩, ?_⟩
    exact Prog.returns_pure_iff.2 ⟨rfl, rfl⟩
  · intro v hv
    cases hv

theorem returnsQuiet_concatArgsToMessage {v : Value} (he : w.ReturnsQuiet (evalExpr e) env v env') :
    w.ReturnsQuiet (concatArgsToMessage [e]) env (displayText v) env' := by
  have hargs : w.ReturnsQuiet (evalAll [e]) env [v] env' :=
    returnsQuiet_bind_iff.2 ⟨v, env', he, returnsQuiet_bind_iff.2
      ⟨[], env', Prog.returns_pure_iff.2 ⟨rfl, rfl⟩, Prog.returns_pure_iff.2 ⟨rfl, rfl⟩⟩⟩
  exact returnsQuiet_bind_iff.2 ⟨[v], env', hargs, Prog.returns_pure_iff.2 ⟨by simp, rfl⟩⟩

/-! ### Text in a buffer -/

theorem appendCut_of_le {buf s : String} (h : buf.length + s.length ≤ Value.textRoom) :
    Value.appendCut buf s = buf ++ s := by
  have hroom : s.toList.length ≤ Value.textRoom - buf.length := by
    rw [String.length_toList]
    omega
  rw [Value.appendCut, List.take_of_length_le hroom, String.ofList_toList]

theorem length_numeral_le {n : ℤ} (hn : |n| < 10 ^ 6) : (numeral n).length ≤ 7 := by
  have hdigits : (Nat.toDigits 10 n.natAbs).length ≤ 6 := by
    rcases Nat.eq_zero_or_pos n.natAbs with hzero | hpos
    · rw [hzero]
      decide
    · rw [length_toDigits hpos]
      rw [Int.abs_eq_natAbs] at hn
      have hlog := Nat.log_lt_of_lt_pow (b := 10) hpos.ne' (by omega : n.natAbs < 10 ^ 6)
      omega
  rw [numeral, String.length_ofList, formatLong]
  split_ifs
  · rw [List.length_cons]
    omega
  · omega

/-- An array with one integer that is short enough. -/
theorem toText_array_number {n : ℤ} (hn : |n| < 10 ^ 6) :
    (Value.array [.number n]).toText = "[" ++ numeral n ++ "]" := by
  have hlength := length_numeral_le hn
  have hbracket : "[".length = 1 ∧ "]".length = 1 := ⟨rfl, rfl⟩
  have hopen : Value.appendCut "" "[" = "[" := by decide
  have hitem : Value.appendCut "[" (numeral n) = "[" ++ numeral n := by
    refine appendCut_of_le ?_
    rw [Value.textRoom]
    omega
  have hclose : Value.appendCut ("[" ++ numeral n) "]" = "[" ++ numeral n ++ "]" := by
    refine appendCut_of_le ?_
    rw [Value.textRoom, String.length_append]
    omega
  rw [Value.toText, Value.toTextBuffer, hopen, Value.itemsToTextBuffer, if_neg (by decide),
    if_pos rfl, Value.toTextBuffer, (formatG_eq_numeral_iff n).2 hn, hitem,
    Value.itemsToTextBuffer, hclose]

/-! ### Everywhere -/

/-- The integer is written as its numeral wherever a number becomes text, and read back from it. -/
structure RendersExactly (w : World) (n : ℤ) : Prop where
  interpolation : ∀ e env env' before after, w.ReturnsQuiet (evalExpr e) env (.number n) env' →
    w.ReturnsQuiet (evalExpr (.interpolated [(some before, some e)] after)) env
      (.string (before ++ numeral n ++ after)) env'
  items : (Value.array [.number n]).toText = "[" ++ numeral n ++ "]"
  message : ∀ e env env', w.ReturnsQuiet (evalExpr e) env (.number n) env' →
    w.ReturnsQuiet (concatArgsToMessage [e]) env (numeral n) env'
  display : displayText (.number n) = numeral n
  document : (Value.number n).jsonWriteValue = (numeral n).toList
  hieraPath : factText (.number n) = some (numeral n)
  modulePath : pathText (.number n) = some (numeral n)
  hashKey : ∀ e env env' v, w.ReturnsQuiet (evalExpr e) env (.number n) env' →
    w.ReturnsQuiet (evalExpr (.hash [(.interpolated [(some "", some e)] "", .value v)])) env
      (.hash (hashSet [] (numeral n) (literalValue v).copy)) env'
  readBack : strtod (numeral n).toList = n

/-- An integer is written as its numeral everywhere exactly if it has at most six digits. -/
theorem rendersExactly_iff (w : World) (n : ℤ) : RendersExactly w n ↔ |n| < 10 ^ 6 := by
  refine ⟨fun h ↦ (formatG_eq_numeral_iff n).1 (Option.some.inj h.hieraPath), fun hn ↦ ?_⟩
  have hformat : formatG n = numeral n := (formatG_eq_numeral_iff n).2 hn
  have htext : (Value.number n).toText = numeral n := hformat
  have hinterpolated (e : Expr) (env env' : Env) (before after : String)
      (he : w.ReturnsQuiet (evalExpr e) env (.number n) env') :
      w.ReturnsQuiet (evalExpr (.interpolated [(some before, some e)] after)) env
        (.string (before ++ numeral n ++ after)) env' :=
    returnsQuiet_interpolated_iff.2 ⟨_, he, by rw [htext]⟩
  exact
    { interpolation := hinterpolated
      items := toText_array_number hn
      message := fun e env env' he ↦ by
        simpa only [displayText_intCast] using returnsQuiet_concatArgsToMessage he
      display := displayText_intCast n
      document := by
        rw [Value.jsonWriteValue, numeral, String.toList_ofList]
        exact (formatDigits_eq_formatLong_iff n).2 hn
      hieraPath := congrArg some hformat
      modulePath := congrArg some hformat
      hashKey := fun e env env' v he ↦ by
        have hkey := hinterpolated e env env' "" "" he
        exact returnsQuiet_hash_interpolated (by simpa using hkey)
      readBack := by
        rw [numeral, String.toList_ofList]
        exact strtod_formatLong (hn.le.trans (by norm_num)) }

/-- A million is written as `1e+06`. -/
theorem not_rendersExactly_million : |(1000000 : ℤ)| < 2 ^ 53 ∧ ¬RendersExactly .bare 1000000 := by
  refine ⟨by decide, fun h ↦ ?_⟩
  have hlt := (formatG_eq_numeral_iff 1000000).1 (Option.some.inj h.hieraPath)
  exact absurd hlt (by decide)

end PuppetC
