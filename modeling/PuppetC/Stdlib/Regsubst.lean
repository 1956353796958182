import PuppetC.Interp.Env
import PuppetC.Support.Splice

/-!
# Substitution

`regsubst` searches the source from an offset, copies the text before the match, expands the
replacement and moves the offset to the end of the match. After a match that ends where the search
began it moves one further, without a copy of the character there; without the flag `G` it then
computes the length of the rest, from an offset that may lie beyond the source.

So every match is replaced and all else is kept exactly if no match ends where its search began,
save, with the flag, at the end of the source. There a match of no width is found, and replaced,
twice if the one before it found it already.

`regcomp` and `regexec` are parameters: a match is any span within the text that is searched.

## Main definitions

* `RegMatch`, `Regexec`: what `regexec` reports.
* `expandReplacement`: the replacement with its back references.
* `regsubstLoop`, `regsubst`, `funcRegsubst`: `puppet_func_regsubst`.
* `matches`: the spans that the searches of `regsubst` find.
* `ReplacesMatches`: each of these is replaced, once, and all else is kept.

## Main results

* `regsubst_preserves`: when `regsubst` preserves what does not match.
-/

namespace PuppetC

/-- A match in a text, with its groups. -/
structure RegMatch (text : List Char) where
  start : ℕ
  stop : ℕ
  start_le : start ≤ stop
  stop_le : stop ≤ text.length
  group : ℕ → Option (ℕ × ℕ)

/-- `regexec` on a compiled pattern: the match in a text, which is or is not at the beginning of a
line. -/
abbrev Regexec : Type := (text : List Char) → (notBol : Bool) → Option (RegMatch text)

/-- The text of a group, empty if it does not take part in the match; group 0 is the match. -/
def RegMatch.groupText {text : List Char} (m : RegMatch text) (n : ℕ) : List Char :=
  match if n = 0 then some (m.start, m.stop) else m.group n with
  | some (start, stop) => (text.take stop).drop start
  | none => []

/-- The replacement for a match: `\0` to `\9` stand for the text of a group, and another character
after a backslash for itself. -/
def expandReplacement (groupText : ℕ → List Char) : List Char → List Char
  | '\\' :: c :: cs =>
    if '0' ≤ c ∧ c ≤ '9' then groupText (c.toNat - 48) ++ expandReplacement groupText cs
    else c :: expandReplacement groupText cs
  | c :: cs => c :: expandReplacement groupText cs
  | [] => []

section Loop

variable (regexec : Regexec) (repl : List Char) (global : Bool) (src : List Char)

/-- The loop of `regsubst`; nothing if the length of the rest is computed from an offset beyond the
source. -/
def regsubstLoop (offset : ℕ) (result : List Char) : Option (List Char) :=
  if offset ≤ src.length then
    match regexec (src.drop offset) (decide (0 < offset)) with
    | none => some (result ++ src.drop offset)
    | some m =>
      let result := result ++ (src.drop offset).take m.start ++
        expandReplacement m.groupText repl
      let next := if m.stop = 0 then offset + m.stop + 1 else offset + m.stop
      if global then regsubstLoop next result
      else if next ≤ src.length then some (result ++ src.drop next)
      else none
  else some result
termination_by src.length + 1 - offset
decreasing_by split_ifs <;> omega

/-- The text that `regsubst` returns. -/
def regsubst : Option (List Char) := regsubstLoop regexec repl global src 0 []

end Loop

/-- An argument of `regsubst` as text. -/
def regsubstArgument : Value → String
  | .string s => s
  | .number x => formatG x
  | .bool b => if b then "true" else "false"
  | _ => ""

/-- A flag is given, in lower or upper case. -/
def hasFlag (flags : Option Value) (lower upper : Char) : Bool :=
  match flags with
  | some (.string s) => hasChar s lower || hasChar s upper
  | _ => false

/-- `puppet_func_regsubst`; `regcomp` compiles a pattern, regarding case or not. -/
def funcRegsubst (regcomp : String → (icase : Bool) → Option Regexec) : List Expr → Quiet Value
  | e₁ :: e₂ :: e₃ :: rest => do
    let str ← evalExpr e₁
    let pattern ← evalExpr e₂
    let repl ← evalExpr e₃
    let flags ← match rest with
      | [] => pure none
      | e₄ :: _ => some <$> evalExpr e₄
    match regcomp (regsubstArgument pattern) (hasFlag flags 'i' 'I') with
    | none => do
      emit .logError "regsubst() invalid regex pattern"
      return Value.undef
    | some regexec =>
      match regsubst regexec (regsubstArgument repl).toList (hasFlag flags 'g' 'G')
          (regsubstArgument str).toList with
      | some text => return .string (String.ofList text)
      | none => do
        perform .undefined
        return Value.undef
  | _ => do
    emit .logError "regsubst() requires 3 arguments: string, pattern, replacement"
    return Value.undef

/-! ### The matches -/

/-- A match that a search from `offset` reports, with what replaces it. -/
def RegMatch.toSpan {text : List Char} (repl : List Char) (offset : ℕ) (m : RegMatch text) :
    Span Char :=
  ⟨offset, offset + m.start, offset + m.stop, expandReplacement m.groupText repl⟩

/-- The next search begins at the offset that the loop computes. -/
theorem skip_toSpan {text : List Char} (repl : List Char) (offset : ℕ) (m : RegMatch text) :
    (m.toSpan repl offset).skip =
      if m.stop = 0 then offset + m.stop + 1 else offset + m.stop := by
  have hstays : (m.toSpan repl offset).Stays ↔ m.stop = 0 := by
    simp [Span.Stays, RegMatch.toSpan]
  simp only [Span.skip, hstays]
  rfl

section Matches

variable (regexec : Regexec) (repl : List Char) (global : Bool) (src : List Char)

/-- What the searches find from an offset on. -/
def matchesFrom (offset : ℕ) : List (Span Char) :=
  if offset ≤ src.length then
    match regexec (src.drop offset) (decide (0 < offset)) with
    | none => []
    | some m => m.toSpan repl offset :: matchesFrom (m.toSpan repl offset).skip
  else []
termination_by src.length + 1 - offset
decreasing_by
  rw [skip_toSpan]
  split_ifs <;> omega

/-- The matches that `regsubst` finds: all of them with the flag `G`, otherwise the first. -/
def regsubstMatches : List (Span Char) :=
  if global then matchesFrom regexec repl src 0 else (matchesFrom regexec repl src 0).take 1

/-- Each match is replaced, once, and all other characters are kept in order. -/
structure ReplacesMatches : Prop where
  result : regsubst regexec repl global src =
    some (splice Span.stop src 0 (regsubstMatches regexec repl global src))
  once : ((regsubstMatches regexec repl global src).map Span.place).Nodup

/-- A match ends where its search began only, with the flag `G`, at the end of the source, and there
only if no match of no width was found before. -/
def MatchesAdvance : Prop :=
  ∀ h ∈ regsubstMatches regexec repl global src, h.Stays → global = true ∧
    src.length ≤ h.origin ∧
    ∀ g ∈ regsubstMatches regexec repl global src, g.origin < h.origin → g.start < src.length

variable {regexec repl src}

/-- The searches find spans one after the other. -/
theorem inOrder_matchesFrom (offset : ℕ) :
    InOrder src offset (matchesFrom regexec repl src offset) := by
  induction offset using matchesFrom.induct regexec repl src with
  | case1 offset hle hnone =>
    rw [matchesFrom, if_pos hle, hnone]
    trivial
  | case2 offset hle m hm ih =>
    rw [matchesFrom, if_pos hle, hm]
    have hstart := m.start_le
    have hstop := m.stop_le
    rw [List.length_drop] at hstop
    refine ⟨rfl, ?_, ?_, ?_, ih⟩ <;> simp only [RegMatch.toSpan] <;> omega
  | case3 offset hgt =>
    rw [matchesFrom, if_neg hgt]
    trivial

/-- The text that is copied before a match. -/
theorem take_drop_eq (offset n : ℕ) :
    (src.drop offset).take n = (src.take (offset + n)).drop offset := by
  rw [List.drop_take, Nat.add_sub_cancel_left]

/-- With the flag `G` the loop splices its replacements into the source. -/
theorem regsubstLoop_global (offset : ℕ) (result : List Char) :
    regsubstLoop regexec repl true src offset result =
      some (result ++ splice Span.skip src offset (matchesFrom regexec repl src offset)) := by
  induction offset using matchesFrom.induct regexec repl src generalizing result with
  | case1 offset hle hnone =>
    rw [regsubstLoop, matchesFrom, if_pos hle, if_pos hle, hnone]
    rfl
  | case2 offset hle m hm ih =>
    rw [regsubstLoop, matchesFrom, if_pos hle, if_pos hle, hm]
    simp only [if_true]
    rw [← skip_toSpan repl offset m, ih, splice_cons, take_drop_eq, List.append_assoc,
      List.append_assoc, List.append_assoc]
    rfl
  | case3 offset hgt =>
    rw [regsubstLoop, matchesFrom, if_neg hgt, if_neg hgt, splice,
      List.drop_eq_nil_of_le (by omega), List.append_nil]

/-- Without the flag the loop splices the first replacement into the source, unless the next search
would begin beyond it. -/
theorem regsubstLoop_first {offset : ℕ} (hle : offset ≤ src.length) {m : RegMatch (src.drop offset)}
    (hm : regexec (src.drop offset) (decide (0 < offset)) = some m) (result : List Char) :
    regsubstLoop regexec repl false src offset result =
      if (m.toSpan repl offset).skip ≤ src.length then
        some (result ++ splice Span.skip src offset [m.toSpan repl offset])
      else none := by
  rw [regsubstLoop, if_pos hle, hm]
  simp only [Bool.false_eq_true, if_false]
  rw [← skip_toSpan repl offset m, splice_cons, take_drop_eq, splice, List.append_assoc,
    List.append_assoc, List.append_assoc]
  rfl

/-- With the flag `G` all is kept exactly if the matches advance. -/
theorem replacesMatches_global_iff :
    ReplacesMatches regexec repl true src ↔ MatchesAdvance regexec repl true src := by
  have hloop : regsubst regexec repl true src =
      some (splice Span.skip src 0 (matchesFrom regexec repl src 0)) := regsubstLoop_global 0 []
  have horder : InOrder src 0 (matchesFrom regexec repl src 0) := inOrder_matchesFrom 0
  have hiff := splice_skip_eq_and_nodup_iff horder (Nat.zero_le _)
  have hall : regsubstMatches regexec repl true src = matchesFrom regexec repl src 0 := rfl
  rw [MatchesAdvance, hall]
  simp only [true_and]
  rw [← hiff]
  constructor
  · rintro ⟨hresult, honce⟩
    exact ⟨Option.some.inj (hloop.symm.trans hresult), honce⟩
  · rintro ⟨hresult, honce⟩
    exact ⟨hloop.trans (congrArg some hresult), honce⟩

/-- Without the flag all is kept exactly if the first match does not end where the source begins. -/
theorem replacesMatches_first_iff :
    ReplacesMatches regexec repl false src ↔ MatchesAdvance regexec repl false src := by
  have hfirst : regsubstMatches regexec repl false src =
      (matchesFrom regexec repl src 0).take 1 := rfl
  cases hm : regexec (src.drop 0) (decide (0 < 0)) with
  | none =>
    have hnil : regsubstMatches regexec repl false src = [] := by
      rw [hfirst, matchesFrom, if_pos (Nat.zero_le _), hm, List.take_nil]
    refine iff_of_true ⟨?_, ?_⟩ ?_
    · rw [hnil, regsubst, regsubstLoop, if_pos (Nat.zero_le _), hm]
      rfl
    · rw [hnil]
      exact .nil
    · rw [MatchesAdvance, hnil]
      exact nofun
  | some m =>
    have hone : regsubstMatches regexec repl false src = [m.toSpan repl 0] := by
      rw [hfirst, matchesFrom, if_pos (Nat.zero_le _), hm, List.take_succ_cons, List.take_zero]
    have horder : InOrder src 0 [m.toSpan repl 0] := by
      have hall : InOrder src 0 (matchesFrom regexec repl src 0) := inOrder_matchesFrom 0
      rw [matchesFrom, if_pos (Nat.zero_le _), hm] at hall
      exact ⟨hall.1, hall.2.1, hall.2.2.1, hall.2.2.2.1, trivial⟩
    have hadvance : MatchesAdvance regexec repl false src ↔ ¬(m.toSpan repl 0).Stays := by
      simp [MatchesAdvance, hone]
    have hloop : regsubst regexec repl false src =
        if (m.toSpan repl 0).skip ≤ src.length then
          some (splice Span.skip src 0 [m.toSpan repl 0])
        else none := regsubstLoop_first (Nat.zero_le _) hm []
    rw [hadvance]
    constructor
    · rintro ⟨hresult, -⟩ hstays
      rw [hloop, hone] at hresult
      split_ifs at hresult with hskip
      have hend := (splice_skip_eq_iff horder (Nat.zero_le _)).mp (Option.some.inj hresult)
      have horigin := hend _ List.mem_cons_self hstays
      rw [Span.skip, if_pos hstays, hstays] at hskip
      omega
    · intro hstays
      have hskip : (m.toSpan repl 0).skip ≤ src.length := by
        rw [Span.skip, if_neg hstays]
        exact horder.2.2.2.1
      refine ⟨?_, ?_⟩
      · rw [hloop, hone, if_pos hskip,
          (splice_skip_eq_iff horder (Nat.zero_le _)).mpr (by simp [hstays])]
      · rw [hone]
        exact List.nodup_singleton _

end Matches

/-- `x*` on a text without `x`: a match of no width at the beginning of what is searched. -/
def matchNothing : Regexec := fun _ _ ↦ some ⟨0, 0, le_rfl, Nat.zero_le _, fun _ ↦ none⟩

end PuppetC
