import Mathlib.Algebra.Order.BigOperators.Group.List
import Mathlib.Data.List.DropRight
import PuppetC.Agent.ArrayTexts
import PuppetC.Support.ShellTokens
import PuppetC.Support.Words

/-!
# Array commands

The command of an exec resource, and the commands of its conditions, may be arrays. Such an array
comes as the text in brackets that its parameter has, and is made a command line again: commas end
an element, a closing bracket ends the array, and one blank stands between the elements. Nothing is
quoted, neither in the text nor in the command line.

## Main definitions

* `convertArrayCommand`, `convertConditionCommand`: the command lines of texts in brackets.
* `execCommandLine`: the command line of a resource.
* `CommandKeeps`, `ConditionKeeps`: the words of the command line are the elements of the array.
* `IsCommandArray`: the arrays whose elements are kept.

## Main results

* `array_commands_keep_iff`: when the elements of an array are the words of its command line.
-/

namespace PuppetC

/-! ### Command lines -/

/-- The loop over the elements stands at the end. -/
def isArrayEnd (p : Bytes) : Bool := p.head?.all (· = ']')

/-- What is skipped in front of an element. -/
def isElementBlank (c : Char) : Bool := c = ' ' || c = ','

/-- The characters of an element. -/
def isElementChar (c : Char) : Bool := c ≠ ',' && c ≠ ']'

/-- An element is not empty. -/
theorem length_afterElement_lt {p : Bytes} (h : ¬ isArrayEnd (p.dropWhile isElementBlank) = true) :
    ((p.dropWhile isElementBlank).dropWhile isElementChar).length < p.length := by
  have hle := (List.dropWhile_suffix isElementBlank (l := p)).length_le
  cases hq : p.dropWhile isElementBlank with
  | nil => exact absurd (by rw [hq]; rfl) h
  | cons c cs =>
    have hblank := List.head?_dropWhile_not isElementBlank p
    rw [hq] at h hblank
    have helement : isElementChar c = true := by
      simp_all [isArrayEnd, isElementBlank, isElementChar]
    rw [List.dropWhile_cons_of_pos helement]
    have hrest := (List.dropWhile_suffix isElementChar (l := cs)).length_le
    rw [hq, List.length_cons] at hle
    omega

/-- The loop of `convert_array_command`: `out` has been written, and the cursor stands at `p`. -/
def convertElements (first : Bool) (out p : Bytes) : Bytes :=
  if isArrayEnd p then out
  else if isArrayEnd (p.dropWhile isElementBlank) then out
  else
    convertElements false
      ((out ++ (if first then [] else [' ']) ++
        (p.dropWhile isElementBlank).takeWhile isElementChar).rdropWhile (· = ' '))
      ((p.dropWhile isElementBlank).dropWhile isElementChar)
termination_by p.length
decreasing_by exact length_afterElement_lt ‹_›

/-- `convert_array_command` -/
def convertArrayCommand : Bytes → Option Bytes
  | '[' :: p =>
    if p.getLast? = some ']' then some (convertElements true [] (p.dropWhile (· = ' '))) else none
  | _ => none

/-- `convert_condition_command`: an array in an array loses the outer brackets. -/
def convertConditionCommand : Bytes → Option Bytes
  | [] => none
  | '[' :: '[' :: p =>
    if p.getLast? = some ']' then convertArrayCommand ('[' :: p).dropLast
    else convertArrayCommand ('[' :: '[' :: p)
  | '[' :: p => convertArrayCommand ('[' :: p)
  | cond => some cond

/-- `exec_apply`: the command line of a resource, from its parameter, or from its title if there is
none. -/
def execCommandLine (param : Option Bytes) (title : Bytes) : Bytes :=
  let command := if param.getD [] = [] then title else param.getD []
  if command.head? = some '[' then (convertArrayCommand command).getD command else command

/-- The words of the command line of an array are its elements. -/
def CommandKeeps (ruby : Option AgentRuby) (xs : List Bytes) : Prop :=
  ∃ text, paramText ruby (.array (xs.map .string)) = some text ∧
    ∀ title, ShellWords (execCommandLine (some text) title) xs

/-- The words of the command line of a condition that is an array are its elements. -/
def ConditionKeeps (ruby : Option AgentRuby) (xs : List Bytes) : Prop :=
  ∃ text line, paramText ruby (.array (xs.map .string)) = some text ∧
    convertConditionCommand text = some line ∧ ShellWords line xs

/-- Plain words without commas and closing brackets, the first of which is the name of a command. -/
structure IsCommandArray (xs : List Bytes) : Prop where
  plain : ∀ x ∈ xs, IsPlainWord x ∧ ',' ∉ x ∧ ']' ∉ x
  start : ∀ x ∈ xs.head?, IsCommandStart x

example : convertArrayCommand "[echo, a b, c]".toList = some "echo a b c".toList := by
  decide +kernel

/-! ### Elements without blanks -/

section Elements

variable {w rest out : Bytes} {ws xs : List Bytes} {first : Bool}

/-- An element without blanks is written as it is. -/
theorem convertElements_word (blanks : Bytes) (hblanks : ∀ c ∈ blanks, isElementBlank c = true)
    (hne : w ≠ []) (hw : ∀ c ∈ w, isElementChar c = true ∧ c ≠ ' ')
    (hrest : ∀ c ∈ rest.head?, isElementChar c = false) (first : Bool) (out : Bytes) :
    convertElements first out (blanks ++ (w ++ rest)) =
      convertElements false (out ++ (if first then [] else [' ']) ++ w) rest := by
  obtain ⟨c, cs, rfl⟩ := List.exists_cons_of_ne_nil hne
  obtain ⟨hc, hspace⟩ := hw c List.mem_cons_self
  have hstart : isElementBlank c = false := by
    simp_all [isElementBlank, isElementChar]
  have hend : isArrayEnd (c :: cs ++ rest) = false := by
    simp_all [isArrayEnd, isElementChar]
  have hskip : (blanks ++ (c :: cs ++ rest)).dropWhile isElementBlank = c :: cs ++ rest := by
    rw [List.dropWhile_append_of_pos hblanks, List.cons_append,
      List.dropWhile_cons_of_neg (by simp [hstart])]
  have hwhole : isArrayEnd (blanks ++ (c :: cs ++ rest)) = false := by
    cases blanks with
    | nil => exact hend
    | cons b bs =>
      have hb : b ≠ ']' := fun h ↦ by cases h ▸ hblanks b List.mem_cons_self
      simp [isArrayEnd, hb]
  obtain ⟨htake, hdrop⟩ := span_append (fun d hd ↦ (hw d hd).1) hrest
  have htrim : (out ++ (if first then [] else [' ']) ++ c :: cs).rdropWhile (· = ' ') =
      out ++ (if first then [] else [' ']) ++ c :: cs := by
    refine List.rdropWhile_eq_self_iff.2 fun hl ↦ ?_
    rw [List.getLast_append_of_ne_nil _ hne]
    simpa using (hw _ (List.getLast_mem hne)).2
  rw [convertElements, hwhole, hskip, hend, htake, hdrop, htrim]
  rfl

/-- What follows an element starts with a comma, or with the bracket. -/
theorem isElementChar_head_rest (ws : List Bytes) :
    ∀ c ∈ (joinTexts false ws ++ [']']).head?, isElementChar c = false := by
  cases ws <;> simp [joinTexts, isElementChar]

/-- Elements without blanks are written with blanks between them. -/
theorem convertElements_join (hws : ∀ w ∈ ws, w ≠ [] ∧ ∀ c ∈ w, isElementChar c = true ∧ c ≠ ' ')
    (out : Bytes) :
    convertElements false out (joinTexts false ws ++ [']']) = [' '].intercalate (out :: ws) := by
  induction ws generalizing out with
  | nil =>
    have hend : isArrayEnd ([] ++ [']']) = true := rfl
    rw [joinTexts, convertElements, if_pos hend, List.intercalate_singleton]
  | cons w ws ih =>
    rw [List.forall_mem_cons] at hws
    have hword := convertElements_word [',', ' '] (by simp [isElementBlank]) hws.1.1 hws.1.2
      (isElementChar_head_rest ws) false out
    have hjoin : joinTexts false (w :: ws) ++ [']'] =
        [',', ' '] ++ (w ++ (joinTexts false ws ++ [']'])) := by
      simp [joinTexts]
    rw [hjoin, hword, ih hws.2]
    cases ws <;> simp [List.intercalate_cons_cons]

/-- An array of elements without blanks is converted to them, with blanks between them. -/
theorem convertArrayCommand_inBrackets
    (hxs : ∀ x ∈ xs, x ≠ [] ∧ ∀ c ∈ x, isElementChar c = true ∧ c ≠ ' ') :
    convertArrayCommand (inBrackets xs) = some ([' '].intercalate xs) := by
  have hlast : (joinTexts true xs ++ [']']).getLast? = some ']' := List.getLast?_concat
  rw [inBrackets, List.cons_append, convertArrayCommand, if_pos hlast]
  refine congrArg some ?_
  cases xs with
  | nil => decide +kernel
  | cons x xs =>
    rw [List.forall_mem_cons] at hxs
    obtain ⟨hne, hx⟩ := hxs.1
    have hword := convertElements_word [] (fun c hc ↦ by cases hc) hne hx
      (isElementChar_head_rest xs) true []
    have hjoin : joinTexts true (x :: xs) ++ [']'] = x ++ (joinTexts false xs ++ [']']) := by
      simp [joinTexts]
    have hstart : (x ++ (joinTexts false xs ++ [']'])).dropWhile (· = ' ') =
        x ++ (joinTexts false xs ++ [']']) := by
      obtain ⟨c, cs, rfl⟩ := List.exists_cons_of_ne_nil hne
      exact List.dropWhile_cons_of_neg (by simpa using (hx c List.mem_cons_self).2)
    rw [List.nil_append] at hword
    rw [hjoin, hstart, hword, convertElements_join hxs.2]
    rfl

end Elements

/-! ### What is lost -/

section Lost

variable {out line text : Bytes} {xs : List Bytes} {first : Bool}

/-- The characters that no array command loses. -/
def isKept (c : Char) : Bool := isInk c && isElementChar c

theorem countP_isKept_le (w : Bytes) : w.countP isKept ≤ w.countP isInk :=
  List.countP_mono_left fun _ _ hc ↦ (Bool.and_eq_true_iff.1 hc).1

/-- Nothing is added but blanks. -/
theorem countP_convertElements_le (first : Bool) (out p : Bytes) :
    (convertElements first out p).countP isInk ≤ out.countP isInk + p.countP isKept := by
  fun_induction convertElements first out p with
  | case1 | case2 => exact Nat.le_add_right ..
  | case3 first out p _ _ ih =>
    simp only [dite_eq_ite] at ih
    refine ih.trans ?_
    have hp : (p.takeWhile isElementBlank).countP isKept +
        (p.dropWhile isElementBlank).countP isKept = p.countP isKept := by
      rw [← List.countP_append, List.takeWhile_append_dropWhile]
    generalize p.dropWhile isElementBlank = q at hp ih ⊢
    have hq : (q.takeWhile isElementChar).countP isKept +
        (q.dropWhile isElementChar).countP isKept = q.countP isKept := by
      rw [← List.countP_append, List.takeWhile_append_dropWhile]
    have helement : (q.takeWhile isElementChar).countP isInk =
        (q.takeWhile isElementChar).countP isKept :=
      List.countP_congr fun c hc ↦ by simp [isKept, List.mem_takeWhile_imp hc]
    have hseparator : (if first then [] else [' ']).countP isInk = 0 := by
      cases first <;> rfl
    have hprefixed := List.rdropWhile_prefix (· = ' ')
      (out ++ (if first then [] else [' ']) ++ q.takeWhile isElementChar)
    have htrim := hprefixed.sublist.countP_le (p := isInk)
    rw [List.countP_append, List.countP_append, hseparator, helement] at htrim
    omega

theorem countP_convertArrayCommand_le (h : convertArrayCommand text = some line) :
    line.countP isInk ≤ text.tail.countP isKept := by
  cases text with
  | nil => cases h
  | cons c p =>
    rw [convertArrayCommand.eq_def] at h
    split at h
    · next heq =>
      cases heq
      split_ifs at h
      cases h
      have hle := countP_convertElements_le true [] (p.dropWhile (· = ' '))
      have hskip := (List.dropWhile_suffix (· = ' ') (l := p)).sublist.countP_le (p := isKept)
      rw [List.countP_nil, Nat.zero_add] at hle
      exact hle.trans hskip
    · cases h

theorem countP_joinTexts (first : Bool) (xs : List Bytes) :
    (joinTexts first xs).countP isKept = (xs.map fun x ↦ x.countP isKept).sum := by
  induction xs generalizing first with
  | nil => rfl
  | cons x xs ih =>
    have hseparator : (if first then [] else [',', ' ']).countP isKept = 0 := by
      cases first <;> rfl
    rw [joinTexts, List.countP_append, List.countP_append, hseparator, ih, List.map_cons,
      List.sum_cons, Nat.zero_add]

theorem countP_inBrackets (xs : List Bytes) :
    (inBrackets xs).tail.countP isKept = (xs.map fun x ↦ x.countP isKept).sum := by
  have hbracket : [']'].countP isKept = 0 := rfl
  rw [inBrackets, List.cons_append, List.tail_cons, List.countP_append, countP_joinTexts, hbracket,
    Nat.add_zero]

theorem isElementChar_of_countP {x : Bytes} (h : x.countP isInk ≤ x.countP isKept) :
    ∀ c ∈ x, isInk c = true → isElementChar c = true := by
  induction x with
  | nil => exact fun c hc ↦ by cases hc
  | cons d ds ih =>
    have hds := countP_isKept_le ds
    rw [List.countP_cons, List.countP_cons] at h
    rw [List.forall_mem_cons]
    refine ⟨fun hd ↦ ?_, ih ?_⟩
    · by_contra helement
      rw [if_pos hd, if_neg (by simp [isKept, helement])] at h
      omega
    · have hd : (if isKept d = true then 1 else 0) ≤ if isInk d = true then 1 else 0 := by
        split_ifs with h₁ h₂
        · exact le_rfl
        · exact absurd (Bool.and_eq_true_iff.1 h₁).1 h₂
        all_goals exact Nat.zero_le _
      omega

/-- A command line without more characters than an array keeps has its elements as words only if
they are kept as a whole. -/
theorem isCommandArray_of_shellWords (h : ShellWords line xs)
    (hline : line.countP isInk ≤ (xs.map fun x ↦ x.countP isKept).sum) : IsCommandArray xs := by
  have hle : ∀ x ∈ xs, x.countP isKept ≤ x.countP isInk := fun x _ ↦ countP_isKept_le x
  obtain ⟨hplain, hstart⟩ := h.plain (hline.trans (List.sum_le_sum hle))
  refine ⟨fun x hx ↦ ⟨hplain x hx, ?_⟩, hstart⟩
  have hink : x.countP isInk ≤ x.countP isKept := by
    by_contra hlt
    have hsum : (xs.map fun x ↦ x.countP isKept).sum < (xs.map fun x ↦ x.countP isInk).sum :=
      List.sum_lt_sum _ _ hle ⟨x, hx, not_le.1 hlt⟩
    exact absurd (h.ink_le.trans hline) (not_le.2 hsum)
  have helement := isElementChar_of_countP hink
  exact ⟨fun hc ↦ (by cases helement _ hc rfl), fun hc ↦ (by cases helement _ hc rfl)⟩

end Lost

/-! ### Arrays that are kept -/

section Keep

variable {xs : List Bytes}

/-- The text of an array of strings. -/
theorem paramText_strings (ruby : Option AgentRuby) (xs : List Bytes) :
    paramText ruby (.array (xs.map .string)) = some (inBrackets xs) := by
  have hsome : (arrayText (xs.map .string)).isSome = true := arrayText_isSome fun v hv ↦ by
    obtain ⟨x, -, rfl⟩ := List.mem_map.1 hv
    trivial
  obtain ⟨hfits, hnot⟩ := arrayText_spec (xs.map .string)
  have harray : ArrayFits true 1 256 (xs.map .string) := by
    by_contra h
    rw [hnot h] at hsome
    cases hsome
  have hwritten : (xs.map JsonOf.string).map writtenText = xs := by
    rw [List.map_map]
    exact List.map_id xs
  rw [paramText, hfits harray, hwritten]

/-- Elements of a command array are written as they are. -/
theorem IsCommandArray.convert (h : IsCommandArray xs) :
    convertArrayCommand (inBrackets xs) = some ([' '].intercalate xs) := by
  refine convertArrayCommand_inBrackets fun x hx ↦ ?_
  obtain ⟨hplain, hcomma, hbracket⟩ := h.plain x hx
  refine ⟨hplain.ne_nil, fun c hc ↦ ⟨?_, fun hspace ↦ ?_⟩⟩
  · have hc₁ : c ≠ ',' := fun h ↦ hcomma (h ▸ hc)
    have hc₂ : c ≠ ']' := fun h ↦ hbracket (h ▸ hc)
    simp [isElementChar, hc₁, hc₂]
  · cases hspace ▸ (hplain.ordinary c hc).blank

theorem IsCommandArray.shellWords (h : IsCommandArray xs) :
    ShellWords ([' '].intercalate xs) xs :=
  shellWords_intercalate (fun x hx ↦ ⟨(h.plain x hx).1, (h.plain x hx).2.2⟩) h.start

/-- The text of an array is converted. -/
theorem execCommandLine_inBrackets (xs : List Bytes) (title : Bytes) :
    ∃ line, convertArrayCommand (inBrackets xs) = some line ∧
      execCommandLine (some (inBrackets xs)) title = line := by
  have hlast : (joinTexts true xs ++ [']']).getLast? = some ']' := List.getLast?_concat
  have hconvert : convertArrayCommand (inBrackets xs) = some _ := if_pos hlast
  refine ⟨_, hconvert, ?_⟩
  have hne : (some (inBrackets xs)).getD [] ≠ [] := fun h ↦ by cases h
  have hhead : (inBrackets xs).head? = some '[' := rfl
  rw [execCommandLine, if_neg hne, Option.getD_some, if_pos hhead, hconvert, Option.getD_some]

theorem commandKeeps_iff (ruby : Option AgentRuby) (xs : List Bytes) :
    CommandKeeps ruby xs ↔ IsCommandArray xs := by
  obtain ⟨line, hconvert, hline⟩ : ∃ line, convertArrayCommand (inBrackets xs) = some line ∧
      ∀ title, execCommandLine (some (inBrackets xs)) title = line := by
    obtain ⟨line, hconvert, -⟩ := execCommandLine_inBrackets xs []
    refine ⟨line, hconvert, fun title ↦ ?_⟩
    obtain ⟨line', hconvert', hline⟩ := execCommandLine_inBrackets xs title
    cases hconvert.symm.trans hconvert'
    exact hline
  constructor
  · rintro ⟨text, htext, hwords⟩
    cases (paramText_strings ruby xs).symm.trans htext
    have hle := countP_convertArrayCommand_le hconvert
    rw [countP_inBrackets] at hle
    exact isCommandArray_of_shellWords (hline [] ▸ hwords []) hle
  · intro h
    refine ⟨_, paramText_strings ruby xs, fun title ↦ ?_⟩
    cases hconvert.symm.trans h.convert
    rw [hline title]
    exact h.shellWords

/-- A condition that does not start with two brackets is converted like a command. -/
theorem convertConditionCommand_inBrackets (hstart : ∀ x ∈ xs.head?, x.head? ≠ some '[') :
    convertConditionCommand (inBrackets xs) = convertArrayCommand (inBrackets xs) := by
  have hsecond : (joinTexts true xs ++ [']']).head? ≠ some '[' := by
    cases xs with
    | nil => exact fun h ↦ by cases h
    | cons x xs =>
      have hx := hstart x rfl
      cases x with
      | nil => cases xs <;> simp [joinTexts]
      | cons c cs => simpa [joinTexts] using hx
  rw [inBrackets, List.cons_append]
  cases hp : joinTexts true xs ++ [']'] with
  | nil => rfl
  | cons c cs =>
    have hc : c ≠ '[' := fun h ↦ hsecond (by rw [hp, h]; rfl)
    rw [convertConditionCommand]
    exact fun p h ↦ hc (List.cons.inj h).1

/-- A condition that starts with two brackets loses one that its first element has. -/
theorem countP_convertConditionCommand_lt {x line : Bytes}
    (h : convertConditionCommand (inBrackets (('[' :: x) :: xs)) = some line) :
    line.countP isInk < ((('[' :: x) :: xs).map fun x ↦ x.countP isKept).sum := by
  have htext : inBrackets (('[' :: x) :: xs) =
      '[' :: '[' :: (x ++ joinTexts false xs ++ [']']) := by
    simp [inBrackets, joinTexts]
  have hinner : ('[' :: (x ++ joinTexts false xs ++ [']'])).dropLast =
      '[' :: (x ++ joinTexts false xs) := by
    rw [← List.cons_append, List.dropLast_concat]
  have hbracket : isKept '[' = true := rfl
  rw [htext, convertConditionCommand, if_pos List.getLast?_concat, hinner] at h
  have hle := countP_convertArrayCommand_le h
  rw [List.tail_cons, List.countP_append, countP_joinTexts] at hle
  rw [List.map_cons, List.sum_cons, List.countP_cons, if_pos hbracket]
  exact hle.trans_lt (Nat.add_lt_add_right (Nat.lt_succ_self _) _)

theorem conditionKeeps_iff (ruby : Option AgentRuby) (xs : List Bytes) :
    ConditionKeeps ruby xs ↔ IsCommandArray xs ∧ ∀ x ∈ xs.head?, x.head? ≠ some '[' := by
  constructor
  · rintro ⟨text, line, htext, hconvert, hwords⟩
    cases (paramText_strings ruby xs).symm.trans htext
    have hbracket : ∀ x ∈ xs.head?, x.head? ≠ some '[' := by
      rintro x hx hhead
      obtain ⟨xs, rfl⟩ := List.head?_eq_some_iff.1 hx
      obtain ⟨cs, rfl⟩ := List.head?_eq_some_iff.1 hhead
      have hlt := countP_convertConditionCommand_lt hconvert
      have hkept := List.sum_le_sum fun y (_ : y ∈ ('[' :: cs) :: xs) ↦ countP_isKept_le y
      exact absurd (hkept.trans hwords.ink_le) (not_le.2 hlt)
    rw [convertConditionCommand_inBrackets hbracket] at hconvert
    have hle := countP_convertArrayCommand_le hconvert
    rw [countP_inBrackets] at hle
    exact ⟨isCommandArray_of_shellWords hwords hle, hbracket⟩
  · rintro ⟨h, hbracket⟩
    exact ⟨_, _, paramText_strings ruby xs,
      (convertConditionCommand_inBrackets hbracket).trans h.convert, h.shellWords⟩

end Keep

/-- The command line of an array, and that of a condition that is an array, have the elements of the
array as their words exactly if these are plain words, and a condition does not start with a
bracket. -/
theorem array_commands_keep_iff (ruby : Option AgentRuby) (xs : List Bytes) :
    (CommandKeeps ruby xs ↔ IsCommandArray xs) ∧
      (ConditionKeeps ruby xs ↔ IsCommandArray xs ∧ ∀ x ∈ xs.head?, x.head? ≠ some '[') :=
  ⟨commandKeeps_iff ruby xs, conditionKeeps_iff ruby xs⟩

/-- A blank within an element, and a bracket at the start of a condition, are not kept. -/
theorem not_commandKeeps_blank :
    ¬ CommandKeeps none ["echo".toList, "a b".toList] ∧
      ¬ ConditionKeeps none ["[".toList, "-f".toList, "/x".toList, "]".toList] := by
  constructor
  · intro h
    have hplain := ((commandKeeps_iff none _).1 h).plain "a b".toList (by decide)
    cases (hplain.1.ordinary ' ' (by decide)).blank
  · intro h
    exact ((conditionKeeps_iff none _).1 h).2 "[".toList rfl rfl

end PuppetC
