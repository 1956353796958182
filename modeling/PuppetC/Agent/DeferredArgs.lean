import PuppetC.Agent.Resource
import PuppetC.Json.Standard
import Mathlib

/-!
# The arguments of deferred functions

The arguments of a deferred function are handed to Ruby as a JSON text. Strings get a backslash in
front of quotes and backslashes only, so control characters stand in them as they are, and nothing
is written for arrays and objects but the comma in front of them.

## Main definitions

* `joinArgs`: what is written of arguments.
* `ArgsSurvive`: the text of the arguments is a JSON text for them.
* `IsFlatArg`: the arguments that survive.

## Main results

* `standardElements_joinArgs`, `isFlatArg_of_standardElements`: which texts are read.
* `args_survive_iff`: when the arguments of a deferred function survive.
-/

namespace PuppetC

/-- What is written of an argument. -/
def argPiece (v : Json) : Bytes :=
  match argText v with
  | none => []
  | some (s, quoted) => if quoted then quotedArg s else s

/-- What is written of arguments, with commas in front of all but the first. -/
def joinArgs (first : Bool) : List Json → Bytes
  | [] => []
  | v :: vs => (if first then [] else [',']) ++ argPiece v ++ joinArgs false vs

/-- The text of arguments stays in its buffer, and its value is the arguments. -/
def ArgsSurvive (args : List Json) : Prop :=
  ∃ text, buildArgsJson (some (.array args)) = some (some text) ∧
    standardJson text = some (.array args)

/-- A value that is not a container, and has no control characters. -/
def IsFlatArg : Json → Prop
  | .string s => ∀ c ∈ s, 0x20 ≤ c.toNat
  | .number _ | .bool _ | .null => True
  | .array _ | .object _ => False

/-! ### What is written -/

section Text

variable {b b' : TextBuffer} {first : Bool} {v : Json} {vs : List Json}

theorem text_put {s : Bytes} (h : b.put s = some b') : b'.text = b.text ++ s := by
  rw [TextBuffer.put] at h
  split_ifs at h
  cases h
  rfl

theorem text_putSeparator {s : Bytes} (h : putSeparator s first b = some b') :
    b'.text = b.text ++ if first then [] else s := by
  cases first with
  | true =>
    cases h
    exact (List.append_nil _).symm
  | false => exact text_put h

theorem text_putArg (h : putArg b v = some b') : b'.text = b.text ++ argPiece v := by
  rw [putArg] at h
  rw [argPiece]
  cases hv : argText v with
  | none =>
    rw [hv] at h
    cases h
    exact (List.append_nil _).symm
  | some x =>
    rw [hv] at h
    have htext := text_put h
    exact htext

theorem text_putArgs (h : putArgs first b vs = some b') :
    b'.text = b.text ++ joinArgs first vs := by
  induction vs generalizing first b with
  | nil =>
    cases h
    exact (List.append_nil _).symm
  | cons v vs ih =>
    rw [putArgs, Option.bind_eq_bind] at h
    obtain ⟨b₁, hseparator, h⟩ := Option.bind_eq_some_iff.1 h
    obtain ⟨b₂, harg, h⟩ := Option.bind_eq_some_iff.1 h
    rw [ih h, text_putArg harg, text_putSeparator hseparator, joinArgs]
    simp only [List.append_assoc]

/-- The text of arguments, if it stays in its buffer. -/
theorem buildArgsJson_eq {text : Bytes} (h : buildArgsJson (some (.array vs)) = some (some text)) :
    text = '[' :: (joinArgs true vs ++ [']']) := by
  cases vs with
  | nil =>
    cases h
    rfl
  | cons v vs =>
    rw [buildArgsJson, Option.bind_eq_bind] at h
    · obtain ⟨b₁, hopen, h⟩ := Option.bind_eq_some_iff.1 h
      obtain ⟨b₂, hargs, h⟩ := Option.bind_eq_some_iff.1 h
      obtain ⟨b₃, hclose, h⟩ := Option.bind_eq_some_iff.1 h
      obtain ⟨text', hfinish, h⟩ := Option.bind_eq_some_iff.1 h
      cases h
      rw [TextBuffer.finish] at hfinish
      split_ifs at hfinish
      cases hfinish
      rw [text_put hclose, text_putArgs hargs, text_put hopen]
      simp [TextBuffer.empty]
    · exact fun h ↦ by cases h

theorem length_quotedArg_le (s : Bytes) : (quotedArg s).length ≤ s.length * 2 + 2 := by
  have hle : (s.flatMap fun c ↦ if c = '\x22' ∨ c = '\x5c' then ['\x5c', c] else [c]).length ≤
      s.length * 2 := by
    induction s with
    | nil => exact le_rfl
    | cons c cs ih =>
      rw [List.flatMap_cons, List.length_append, List.length_cons]
      split_ifs <;> simp only [List.length_cons, List.length_nil] <;> omega
  rw [quotedArg, List.length_append, List.length_cons, List.length_singleton]
  omega

theorem length_argPiece_le {s : Bytes} {quoted : Bool} (h : argText v = some (s, quoted)) :
    (argPiece v).length ≤ s.length * 2 + 2 := by
  rw [argPiece, h]
  cases quoted with
  | true => exact length_quotedArg_le s
  | false => exact (Nat.le_mul_of_pos_right _ Nat.two_pos).trans (Nat.le_add_right _ 2)

/-- Writing an argument that is not a container leaves room. -/
theorem putArg_isSome (hv : IsFlatArg v) : ∃ b', putArg b v = some b' ∧
    b'.text.length + 2 < b'.size := by
  obtain ⟨⟨s, quoted⟩, hs⟩ : ∃ x, argText v = some x := by
    cases v with
    | string | number | bool | null => exact ⟨_, rfl⟩
    | array | object => exact hv.elim
  have hlength := length_argPiece_le hs
  rw [argPiece, hs] at hlength
  dsimp only at hlength
  have hroom := b.lt_size_reserve (s.length * 2 + 10)
  obtain ⟨b', hput, htext, hsize⟩ := TextBuffer.put_eq_some (b := b.reserve (s.length * 2 + 10))
    (s := if quoted then quotedArg s else s) (show b.text.length + _ ≤ _ by omega)
  refine ⟨b', ?_, ?_⟩
  · rw [putArg, hs]
    exact hput
  · rw [htext, hsize, List.length_append]
    change b.text.length + _ + 2 < _
    omega

/-- Arguments that are not containers always leave room. -/
theorem putArgs_isSome (hvs : ∀ v ∈ vs, IsFlatArg v) (first : Bool)
    (hb : b.text.length + 2 < b.size) :
    ∃ b', putArgs first b vs = some b' ∧ b'.text.length + 2 < b'.size := by
  induction vs generalizing first b with
  | nil => exact ⟨b, rfl, hb⟩
  | cons v vs ih =>
    rw [List.forall_mem_cons] at hvs
    obtain ⟨b₁, hseparator⟩ : ∃ b₁, putSeparator [','] first b = some b₁ := by
      cases first with
      | true => exact ⟨b, rfl⟩
      | false =>
        obtain ⟨b₁, h, -⟩ := TextBuffer.put_eq_some (b := b) (s := [','])
          (by rw [List.length_singleton]; omega)
        exact ⟨b₁, h⟩
    obtain ⟨b₂, harg, hroom⟩ := putArg_isSome (b := b₁) hvs.1
    obtain ⟨b', hargs, hroom'⟩ := ih hvs.2 false hroom
    refine ⟨b', ?_, hroom'⟩
    rw [putArgs, hseparator, Option.bind_eq_bind, Option.bind_some, harg, Option.bind_some, hargs]

/-- The text of arguments that are not containers stays in its buffer. -/
theorem buildArgsJson_of_flat (hvs : ∀ v ∈ vs, IsFlatArg v) :
    ∃ text, buildArgsJson (some (.array vs)) = some (some text) := by
  cases vs with
  | nil => exact ⟨_, rfl⟩
  | cons v vs =>
    obtain ⟨b, hopen, htext, hsize⟩ := TextBuffer.put_eq_some
      (b := TextBuffer.empty 1024 (by omega)) (s := ['[']) (by decide)
    obtain ⟨b₁, hargs, hroom⟩ := putArgs_isSome (b := b) hvs true (by rw [htext, hsize]; decide)
    obtain ⟨b₂, hclose, htext₂, hsize₂⟩ := TextBuffer.put_eq_some (b := b₁) (s := [']'])
      (by rw [List.length_singleton]; omega)
    have hfinish : b₂.finish = some b₂.text := by
      refine if_pos ?_
      rw [htext₂, hsize₂, List.length_append, List.length_singleton]
      omega
    refine ⟨b₂.text, ?_⟩
    rw [buildArgsJson, hopen, Option.bind_eq_bind, Option.bind_some, hargs, Option.bind_some,
      hclose, Option.bind_some, hfinish]
    · rfl
    · exact fun h ↦ by cases h

end Text

/-! ### What is read -/

section Read

variable {v : Json} {vs : List Json} {r : Bytes} {c : Char}

/-- A character that is neither a quote nor a backslash is read as it is, unless it is a control
character. -/
theorem standardString_char (hquote : c ≠ '\x22') (hbackslash : c ≠ '\x5c') (s r : Bytes) :
    standardString s (c :: r) =
      if c.toNat < 0x20 then none else standardString (s ++ [c]) r := by
  rw [standardString]
  · simp [hbackslash]
  · exact hquote
  · exact fun a b c' d r' h ↦ absurd h hbackslash
  · exact fun e r' h ↦ absurd h hbackslash

theorem standardString_quotedChar (hc : c = '\x22' ∨ c = '\x5c') (s r : Bytes) :
    standardString s ('\x5c' :: c :: r) = standardString (s ++ [c]) r := by
  rcases hc with rfl | rfl <;> simp [standardString, standardEscape]

/-- A quoted string is read as it is, unless it has control characters. -/
theorem standardString_quotedArg (s acc r : Bytes) :
    standardString acc
        (s.flatMap (fun c ↦ if c = '\x22' ∨ c = '\x5c' then ['\x5c', c] else [c]) ++ '\x22' :: r) =
      if ∀ c ∈ s, 0x20 ≤ c.toNat then some (acc ++ s, r) else none := by
  induction s generalizing acc with
  | nil => simp [standardString]
  | cons c cs ih =>
    rw [List.flatMap_cons, List.append_assoc]
    by_cases hc : c = '\x22' ∨ c = '\x5c'
    · have hplain : 0x20 ≤ c.toNat := by rcases hc with rfl | rfl <;> decide
      rw [if_pos hc, List.cons_append, List.singleton_append, standardString_quotedChar hc, ih]
      simp [hplain]
    · rw [not_or] at hc
      rw [if_neg (not_or.2 hc), List.singleton_append, standardString_char hc.1 hc.2, ih]
      by_cases hplain : c.toNat < 0x20
      · rw [if_pos hplain, if_neg fun h ↦ not_lt.2 (h c List.mem_cons_self) hplain]
      · simp [hplain, not_lt.1 hplain]

theorem argPiece_string (s r : Bytes) : argPiece (.string s) ++ r = '\x22' ::
    (s.flatMap (fun c ↦ if c = '\x22' ∨ c = '\x5c' then ['\x5c', c] else [c]) ++ '\x22' :: r) := by
  change quotedArg s ++ r = _
  rw [quotedArg, List.cons_append, List.cons_append, List.append_assoc, List.singleton_append]

theorem argPiece_number {n : ℤ} (hn : |n| ≤ 2 ^ 53) : argPiece (.number n) = formatLong n := by
  have hbounds := abs_le.1 hn
  have hlo : (-2 ^ 63 : ℚ) ≤ n := by exact_mod_cast (by omega : (-2 ^ 63 : ℤ) ≤ n)
  have hhi : (n : ℚ) < 2 ^ 63 := by exact_mod_cast (by omega : n < (2 ^ 63 : ℤ))
  change numberText n = formatLong n
  rw [numberText, truncate_intCast, if_pos ⟨rfl, hlo, hhi⟩]

/-- An argument is read as it is. -/
theorem standardValue_argPiece (hv : IsFlatArg v)
    (hnumber : ∀ q : ℚ, v = .number q → ∃ n : ℤ, q = n ∧ |n| ≤ 2 ^ 53) (hr : Ends r) (fuel : ℕ) :
    standardValue (fuel + 1) (argPiece v ++ r) = some (v, r) := by
  cases v with
  | string s =>
    have hstring := (standardString_quotedArg s [] r).trans (if_pos hv)
    rw [argPiece_string, standardValue_string, hstring]
    rfl
  | number q =>
    obtain ⟨n, rfl, hn⟩ := hnumber q rfl
    rw [argPiece_number hn, standardValue_formatLong n fuel hr]
  | bool b => cases b with
    | true => exact standardValue_true
    | false => exact standardValue_false
  | null => exact standardValue_null
  | array | object => exact hv.elim

/-- What is not an argument that survives is not read in front of a comma or a bracket. -/
theorem standardValue_argPiece_eq_none (hv : ¬ IsFlatArg v) (hc : c = ',' ∨ c = ']') (r : Bytes)
    (fuel : ℕ) : standardValue fuel (argPiece v ++ c :: r) = none := by
  cases fuel with
  | zero => rfl
  | succ fuel =>
    have hend : standardValue (fuel + 1) (c :: r) = none := by
      rcases hc with rfl | rfl
      all_goals
        rw [standardValue_number rfl (by decide)]
        rfl
    cases v with
    | string s =>
      have hstring := (standardString_quotedArg s [] (c :: r)).trans (if_neg hv)
      rw [argPiece_string, standardValue_string, hstring]
      rfl
    | number | bool | null => exact absurd trivial hv
    | array | object => exact hend

/-- What follows an argument starts with a comma, or with the bracket. -/
theorem exists_joinArgs_eq_cons (vs : List Json) :
    ∃ c cs, joinArgs false vs ++ [']'] = c :: cs ∧ (c = ',' ∨ c = ']') := by
  cases vs with
  | nil => exact ⟨_, _, rfl, Or.inr rfl⟩
  | cons v vs => exact ⟨_, _, rfl, Or.inl rfl⟩

theorem joinArgs_true_cons (v : Json) (vs : List Json) :
    joinArgs true (v :: vs) ++ [']'] = argPiece v ++ (joinArgs false vs ++ [']']) := by
  rw [joinArgs, if_pos rfl, List.nil_append, List.append_assoc]

theorem joinArgs_false_cons (v : Json) (vs : List Json) :
    joinArgs false (v :: vs) ++ [']'] = ',' :: (joinArgs true (v :: vs) ++ [']']) := by
  rw [joinArgs, joinArgs]
  rfl

theorem length_le_joinArgs (vs : List Json) : vs.length ≤ (joinArgs false vs).length := by
  induction vs with
  | nil => exact le_rfl
  | cons v vs ih =>
    rw [joinArgs, List.length_append, List.length_append, List.length_cons]
    simp only [Bool.false_eq_true, if_false, List.length_singleton]
    omega

/-- The text of an argument that survives starts like a value. -/
theorem exists_argPiece_eq_cons (hv : IsFlatArg v)
    (hnumber : ∀ q : ℚ, v = .number q → ∃ n : ℤ, q = n ∧ |n| ≤ 2 ^ 53) :
    ∃ c cs, argPiece v = c :: cs ∧ isBlank c = false ∧ c ≠ ']' := by
  cases v with
  | string s => exact ⟨_, _, rfl, rfl, by decide⟩
  | number q =>
    obtain ⟨n, rfl, hn⟩ := hnumber q rfl
    obtain ⟨c, cs, hcs, hc⟩ := exists_formatLong_eq_cons n
    refine ⟨c, cs, (argPiece_number hn).trans hcs, isBlank_of_numeral hc, ?_⟩
    rintro rfl
    rcases hc with hc | hc <;> cases hc
  | bool b => cases b <;> exact ⟨_, _, rfl, rfl, by decide⟩
  | null => exact ⟨_, _, rfl, rfl, by decide⟩
  | array | object => exact hv.elim

/-- Arguments that survive are read one after the other. -/
theorem standardElements_joinArgs (hne : vs ≠ []) (hvs : ∀ v ∈ vs, IsFlatArg v)
    (hnumbers : ∀ q : ℚ, .number q ∈ vs → ∃ n : ℤ, q = n ∧ |n| ≤ 2 ^ 53) (k : ℕ) :
    standardElements (vs.length + 1 + k) (joinArgs true vs ++ [']']) = some (vs, []) := by
  induction vs with
  | nil => exact absurd rfl hne
  | cons v vs ih =>
    rw [List.forall_mem_cons] at hvs
    obtain ⟨c, cs, hcs, hc⟩ := exists_joinArgs_eq_cons vs
    have hends : Ends (joinArgs false vs ++ [']']) := by
      rw [hcs]
      rcases hc with rfl | rfl <;> exact ends_cons (by decide)
    have hvalue := standardValue_argPiece hvs.1
      (fun q hq ↦ hnumbers q (hq ▸ List.mem_cons_self)) hends (vs.length + k)
    have hfuel : (v :: vs).length + 1 + k = vs.length + k + 1 + 1 := by
      rw [List.length_cons]
      omega
    rw [hfuel, joinArgs_true_cons, standardElements, hvalue, Option.bind_eq_bind, Option.bind_some]
    cases vs with
    | nil => rfl
    | cons w ws =>
      have hrest := ih (by simp) hvs.2 fun q hq ↦ hnumbers q (List.mem_cons_of_mem _ hq)
      have hlength : (w :: ws).length + k + 1 = (w :: ws).length + 1 + k := by omega
      have hcomma : (',' :: (joinArgs true (w :: ws) ++ [']'])).dropWhile isBlank =
          ',' :: (joinArgs true (w :: ws) ++ [']']) := rfl
      rw [joinArgs_false_cons]
      dsimp only
      rw [hcomma, hlength]
      exact congrArg (fun x ↦ x.bind fun y ↦ some (v :: y.1, y.2)) hrest

/-- Arguments that are read survive. -/
theorem isFlatArg_of_standardElements {fuel : ℕ} {x : List Json × Bytes}
    (hnumbers : ∀ q : ℚ, .number q ∈ vs → ∃ n : ℤ, q = n ∧ |n| ≤ 2 ^ 53)
    (h : standardElements fuel (joinArgs true vs ++ [']']) = some x) : ∀ v ∈ vs, IsFlatArg v := by
  induction vs generalizing fuel x with
  | nil => exact fun v hv ↦ by cases hv
  | cons v vs ih =>
    obtain ⟨c, cs, hcs, hc⟩ := exists_joinArgs_eq_cons vs
    cases fuel with
    | zero => cases h
    | succ fuel =>
      rw [joinArgs_true_cons, standardElements, Option.bind_eq_bind] at h
      obtain ⟨⟨v', r⟩, hvalue, h⟩ := Option.bind_eq_some_iff.1 h
      have hv : IsFlatArg v := by
        by_contra hv
        rw [hcs, standardValue_argPiece_eq_none hv hc] at hvalue
        cases hvalue
      refine List.forall_mem_cons.2 ⟨hv, ?_⟩
      cases vs with
      | nil => exact fun v hv ↦ by cases hv
      | cons w ws =>
        have hends : Ends (joinArgs false (w :: ws) ++ [']']) := by
          rw [hcs]
          rcases hc with rfl | rfl <;> exact ends_cons (by decide)
        cases fuel with
        | zero => cases hvalue
        | succ fuel =>
          have hread := standardValue_argPiece hv
            (fun q hq ↦ hnumbers q (hq ▸ List.mem_cons_self)) hends fuel
          cases hread.symm.trans hvalue
          have hcomma : (',' :: (joinArgs true (w :: ws) ++ [']'])).dropWhile isBlank =
              ',' :: (joinArgs true (w :: ws) ++ [']']) := rfl
          rw [joinArgs_false_cons] at h
          dsimp only at h
          rw [hcomma] at h
          obtain ⟨y, hy, -⟩ := Option.bind_eq_some_iff.1 h
          exact ih (fun q hq ↦ hnumbers q (List.mem_cons_of_mem _ hq)) hy

end Read

/-- Only arguments that are no containers and have no control characters survive. -/
theorem ArgsSurvive.isFlatArg {args : List Json} (h : ArgsSurvive args)
    (hnumbers : ∀ q : ℚ, .number q ∈ args → ∃ n : ℤ, q = n ∧ |n| ≤ 2 ^ 53) :
    ∀ v ∈ args, IsFlatArg v := by
  obtain ⟨text, htext, hvalue⟩ := h
  cases args with
  | nil => exact fun v hv ↦ by cases hv
  | cons v vs =>
    rw [buildArgsJson_eq htext, standardJson, Option.bind_eq_bind] at hvalue
    obtain ⟨⟨v', r⟩, hread, hvalue⟩ := Option.bind_eq_some_iff.1 hvalue
    have hv' : v' = .array (v :: vs) := by
      dsimp only at hvalue
      split_ifs at hvalue
      exact Option.some.inj hvalue
    rw [Nat.mul_succ, standardValue_array] at hread
    split_ifs at hread
    · cases (Prod.mk.inj (Option.some.inj hread)).1.trans hv'
    · obtain ⟨x, hx, -⟩ := Option.map_eq_some_iff.1 hread
      exact isFlatArg_of_standardElements hnumbers hx

/-- The arguments of a deferred function survive exactly if none of them is an array or an object,
and no string has control characters. -/
theorem args_survive_iff (args : List Json)
    (hnumbers : ∀ q : ℚ, .number q ∈ args → ∃ n : ℤ, q = n ∧ |n| ≤ 2 ^ 53) :
    ArgsSurvive args ↔ ∀ v ∈ args, IsFlatArg v := by
  constructor
  · exact fun h ↦ h.isFlatArg hnumbers
  · intro h
    obtain ⟨text, htext⟩ := buildArgsJson_of_flat h
    refine ⟨text, htext, ?_⟩
    rw [buildArgsJson_eq htext]
    cases args with
    | nil => rfl
    | cons v vs =>
      obtain ⟨c, cs, hcs, hblank, hbracket⟩ := exists_argPiece_eq_cons (h v List.mem_cons_self)
        fun q hq ↦ hnumbers q (hq ▸ List.mem_cons_self)
      have hstart : ((joinArgs true (v :: vs) ++ [']']).dropWhile isBlank).head? ≠ some ']' := by
        rw [joinArgs_true_cons, hcs, List.cons_append,
          List.dropWhile_cons_of_neg (by simp [hblank]), List.head?_cons]
        exact fun h ↦ hbracket (Option.some.inj h)
      have hlength := length_le_joinArgs vs
      have hfuel : ∃ k, 2 * (('[' :: (joinArgs true (v :: vs) ++ [']'])).length + 1) =
          (v :: vs).length + 1 + k + 1 := by
        rw [joinArgs_true_cons]
        simp only [List.length_cons, List.length_append, List.length_nil]
        exact ⟨2 * ((argPiece v).length + (joinArgs false vs).length) + 3 - vs.length, by omega⟩
      obtain ⟨k, hk⟩ := hfuel
      have hread := standardElements_joinArgs (List.cons_ne_nil v vs) h hnumbers k
      rw [standardJson, hk, standardValue_array, if_neg hstart, hread]
      rfl

/-- A string in quotes and a number survive. -/
theorem args_survive_quotes :
    ArgsSurvive [.string "a\"b".toList, .number 7] ∧
      ∀ q : ℚ, .number q ∈ [JsonOf.string "a\"b".toList, .number (7 : ℚ)] →
        ∃ n : ℤ, q = n ∧ |n| ≤ 2 ^ 53 := by
  have hnumbers : ∀ q : ℚ, .number q ∈ [JsonOf.string "a\"b".toList, .number (7 : ℚ)] →
      ∃ n : ℤ, q = n ∧ |n| ≤ 2 ^ 53 := by
    intro q hq
    have hseven : q = 7 := by simpa using hq
    exact ⟨7, by rw [hseven]; norm_num, by norm_num⟩
  refine ⟨(args_survive_iff _ hnumbers).2 ?_, hnumbers⟩
  simp [IsFlatArg]

/-- A list in the arguments does not survive, nor a newline in a string, and the commas of many
lists leave the buffer. -/
theorem not_argsSurvive_list :
    buildArgsJson (some (.array [.number 1, .array []])) = some (some "[1,]".toList) ∧
      ¬ ArgsSurvive [.number 1, .array []] ∧ ¬ ArgsSurvive [.string ['\n']] ∧
      buildArgsJson (some (.array (List.replicate 1025 (.array [])))) = none := by
  refine ⟨by decide +kernel, fun h ↦ ?_, fun h ↦ ?_, by decide +kernel⟩
  · have hnumbers : ∀ q : ℚ, .number q ∈ [JsonOf.number (1 : ℚ), .array []] →
        ∃ n : ℤ, q = n ∧ |n| ≤ 2 ^ 53 := by
      intro q hq
      have hone : q = 1 := by simpa using hq
      exact ⟨1, by rw [hone]; norm_num, by norm_num⟩
    exact h.isFlatArg hnumbers (.array []) (by simp)
  · have hflat := h.isFlatArg (fun q hq ↦ by simp at hq) (.string ['\n']) (by simp)
    have hle := hflat '\n' List.mem_cons_self
    revert hle
    decide

end PuppetC
