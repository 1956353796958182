import PuppetC.Stdlib.SplitJoin

/-!
# Shell words

`shell_escape` encloses a text in apostrophes unless all its characters are safe, and writes an
apostrophe of the text as `'\''`. `shell_join` joins escaped texts with spaces, and `shell_split`
splits a text at blanks outside quotes. By the rules of the shell the joined text consists of the
words that were joined, each escaped text of one. But `shell_split` does not know the backslash: it
keeps it and takes the apostrophe after it for a quote. So it gives the words back exactly if none
of them has an apostrophe. No word of the shell has a NUL, and `shell_join` drops what follows one.

## Main definitions

* `shellEscape`, `shellJoin`, `shellSplit`: the functions on texts.
* `funcShellEscape`, `funcShellJoin`, `funcShellSplit`: the functions.
* `posixWords`, `commandWords`: the words of a simple command by the rules of the shell.
* `QuotesFaithfully`: what is expected of the three functions.

## Main results

* `posixWords_joinEscaped`: the shell reads back what is joined.
* `shell_quoting`: when the three functions are faithful.
-/

namespace PuppetC

/-! ### The functions -/

/-- A character that the shell takes for itself. -/
def isSafeChar (c : Char) : Bool :=
  ('a' ≤ c ∧ c ≤ 'z') ∨ ('A' ≤ c ∧ c ≤ 'Z') ∨ ('0' ≤ c ∧ c ≤ '9') ∨ c = '-' ∨ c = '_' ∨ c = '.' ∨
    c = '/' ∨ c = ':'

/-- A character within apostrophes; an apostrophe ends them and begins them again. -/
def quoteChar (c : Char) : List Char := if c = '\'' then ['\'', '\\', '\'', '\''] else [c]

/-- `shell_escape_string`. -/
def shellEscape (input : List Char) : List Char :=
  if input = [] then ['\'', '\'']
  else if input.all isSafeChar then input
  else '\'' :: (input.flatMap quoteChar ++ ['\''])

/-- The text that `shell_join` builds from texts; `strlen` gives the lengths of the escaped ones. -/
def shellJoin (words : List (List Char)) : List Char :=
  List.intercalate [' '] (words.map fun word ↦ beforeNul (shellEscape word))

/-- The blanks of `shell_split`. -/
def isShellBlank (c : Char) : Bool := c = ' ' ∨ c = '\t'

/-- The inner loop of `shell_split`: the token, and the text after it. -/
def shellToken : Option Char → List Char → List Char → List Char × List Char
  | _, token, [] => (token, [])
  | none, token, c :: cs =>
    if isShellBlank c then (token, c :: cs)
    else if c = '"' ∨ c = '\'' then shellToken (some c) token cs
    else shellToken none (token ++ [c]) cs
  | some quote, token, c :: cs =>
    if c = quote then shellToken none token cs
    else shellToken (some quote) (token ++ [c]) cs

theorem length_shellToken_le (quote : Option Char) (token p : List Char) :
    (shellToken quote token p).2.length ≤ p.length := by
  induction p generalizing quote token with
  | nil => cases quote <;> exact le_rfl
  | cons c cs ih =>
    cases quote with
    | none =>
      rw [shellToken]
      split_ifs
      · exact le_rfl
      · exact (ih _ _).trans (Nat.le_succ _)
      · exact (ih _ _).trans (Nat.le_succ _)
    | some q =>
      rw [shellToken]
      split_ifs <;> exact (ih _ _).trans (Nat.le_succ _)

/-- A token that does not begin with a blank takes its first character. -/
theorem length_shellToken_lt {c : Char} (hc : isShellBlank c = false) (token cs : List Char) :
    (shellToken none token (c :: cs)).2.length < (c :: cs).length := by
  rw [shellToken, hc, if_neg Bool.false_ne_true]
  split_ifs <;> exact Nat.lt_succ_of_le (length_shellToken_le _ _ _)

/-- The tokens that `shell_split` finds. -/
def shellSplit (p : List Char) : List (List Char) :=
  match _hrest : p.dropWhile isShellBlank with
  | [] => []
  | c :: cs => (shellToken none [] (c :: cs)).1 :: shellSplit (shellToken none [] (c :: cs)).2
termination_by p.length
decreasing_by
  have hc : isShellBlank c = false := by
    have hhead := List.head?_dropWhile_not isShellBlank p
    rw [_hrest] at hhead
    exact hhead
  exact (length_shellToken_lt hc [] cs).trans_le (_hrest ▸ (List.dropWhile_sublist _).length_le)

/-- The text that `shell_escape` returns for a value. -/
def shellEscapeValue (v : Value) : String := String.ofList (shellEscape (displayText v).toList)

/-- The text that `shell_join` returns for the items of an array. -/
def shellJoinItems (items : List Value) : String :=
  String.ofList (shellJoin (items.map fun v ↦ (displayText v).toList))

/-- The items of the array that `shell_split` returns. -/
def shellSplitItems (s : String) : List Value :=
  (shellSplit (beforeNul s.toList)).map fun token ↦ .string (String.ofList token)

/-- `puppet_func_shell_escape`. -/
def funcShellEscape : List Expr → Quiet Value
  | [] => return .string "''"
  | arg :: _ => return .string (shellEscapeValue (← evalExpr arg))

/-- `puppet_func_shell_join`. -/
def funcShellJoin : List Expr → Quiet Value
  | [] => do
    emit .logError "shell_join() requires 1 argument (array)"
    return .string ""
  | arg :: _ => do
    match ← evalExpr arg with
    | .array items => return .string (shellJoinItems items)
    | _ => do
      emit .logError "shell_join() argument must be an array"
      return .string ""

/-- `puppet_func_shell_split`. -/
def funcShellSplit : List Expr → Quiet Value
  | [] => do
    emit .logError "shell_split() requires 1 argument"
    return Value.undef
  | arg :: _ => do
    match ← evalExpr arg with
    | .string s => return .array (shellSplitItems s)
    | _ => return Value.undef

/-! ### The words of the shell -/

/-- Where the shell stands in a word: outside quotes, after a backslash there, within apostrophes,
within quotation marks, after a backslash there. -/
inductive Quoting where
  | unquoted
  | escaped
  | single
  | double
  | doubleEscaped

/-- Characters that outside quotes mean more to the shell than themselves: operators, expansions,
patterns, comments, assignments and the end of the command. -/
def isShellSpecial (c : Char) : Bool := "|&;<>()$`*?[#~=%\n".toList.contains c

/-- The words of a simple command, if it consists of words without expansions and patterns. `word`
is the part of a word that has been read, if one has begun. -/
def posixWords : Quoting → Option (List Char) → List Char → Option (List (List Char))
  | .unquoted, word, [] => some word.toList
  | .unquoted, word, c :: cs =>
    if c = ' ' ∨ c = '\t' then (posixWords .unquoted none cs).map (word.toList ++ ·)
    else if c = '\'' then posixWords .single (some (word.getD [])) cs
    else if c = '"' then posixWords .double (some (word.getD [])) cs
    else if c = '\\' then posixWords .escaped word cs
    else if isShellSpecial c then none
    else posixWords .unquoted (some (word.getD [] ++ [c])) cs
  | .escaped, word, c :: cs =>
    if c = '\n' then posixWords .unquoted word cs
    else posixWords .unquoted (some (word.getD [] ++ [c])) cs
  | .single, word, c :: cs =>
    if c = '\'' then posixWords .unquoted word cs
    else posixWords .single (some (word.getD [] ++ [c])) cs
  | .double, word, c :: cs =>
    if c = '"' then posixWords .unquoted word cs
    else if c = '\\' then posixWords .doubleEscaped word cs
    else if "$`".toList.contains c then none
    else posixWords .double (some (word.getD [] ++ [c])) cs
  | .doubleEscaped, word, c :: cs =>
    if c = '\n' then posixWords .double word cs
    else if "$`\"\\".toList.contains c then posixWords .double (some (word.getD [] ++ [c])) cs
    else posixWords .double (some (word.getD [] ++ ['\\', c])) cs
  | .escaped, _, [] | .single, _, [] | .double, _, [] | .doubleEscaped, _, [] => none

/-- The words of a command, which has no NUL. -/
def commandWords (text : List Char) : Option (List (List Char)) :=
  if text.contains '\x00' then none else posixWords .unquoted none text

/-! ### Reading back what is escaped -/

theorem ne_of_isSafeChar {c d : Char} (h : isSafeChar c = true) (hd : isSafeChar d = false) :
    c ≠ d := by
  rintro rfl
  exact Bool.false_ne_true (hd.symm.trans h)

/-- A safe character has no meaning to the shell. -/
theorem shell_of_isSafeChar {c : Char} (h : isSafeChar c = true) :
    isShellBlank c = false ∧ c ≠ '\'' ∧ c ≠ '"' ∧ c ≠ '\\' ∧ isShellSpecial c = false := by
  refine ⟨?_, ne_of_isSafeChar h rfl, ne_of_isSafeChar h rfl, ne_of_isSafeChar h rfl, ?_⟩
  · rw [isShellBlank, decide_eq_false_iff_not, not_or]
    exact ⟨ne_of_isSafeChar h rfl, ne_of_isSafeChar h rfl⟩
  · have hall : "|&;<>()$`*?[#~=%\n".toList.all (fun d ↦ !isSafeChar d) = true := rfl
    rw [isShellSpecial, Bool.eq_false_iff, ne_eq, List.contains_iff_mem]
    intro hmem
    have hsafe := List.all_eq_true.mp hall c hmem
    rw [h] at hsafe
    exact Bool.false_ne_true hsafe

theorem posixWords_safe {x : List Char} (h : ∀ c ∈ x, isSafeChar c = true) (w rest : List Char) :
    posixWords .unquoted (some w) (x ++ rest) = posixWords .unquoted (some (w ++ x)) rest := by
  induction x generalizing w with
  | nil => rw [List.nil_append, List.append_nil]
  | cons c cs ih =>
    obtain ⟨hc, hcs⟩ := List.forall_mem_cons.mp h
    obtain ⟨hblank, hquote, hdouble, hslash, hspecial⟩ := shell_of_isSafeChar hc
    rw [isShellBlank, decide_eq_false_iff_not] at hblank
    rw [List.cons_append, posixWords, if_neg hblank, if_neg hquote, if_neg hdouble,
      if_neg hslash, hspecial, if_neg Bool.false_ne_true, Option.getD_some, ih hcs,
      List.append_assoc, List.singleton_append]

/-- The text within apostrophes, with its own apostrophes written out, is read back. -/
theorem posixWords_quoted (x w rest : List Char) :
    posixWords .single (some w) (x.flatMap quoteChar ++ '\'' :: rest) =
      posixWords .unquoted (some (w ++ x)) rest := by
  induction x generalizing w with
  | nil => rw [List.flatMap_nil, List.nil_append, List.append_nil, posixWords, if_pos rfl]
  | cons c cs ih =>
    rw [List.flatMap_cons, List.append_assoc, quoteChar]
    by_cases hquote : c = '\''
    · -- the apostrophes end, an escaped one follows, and they begin again
      rw [if_pos hquote, hquote]
      calc posixWords .single (some w)
            (['\'', '\\', '\'', '\''] ++ (cs.flatMap quoteChar ++ '\'' :: rest))
          = posixWords .single (some (w ++ ['\''])) (cs.flatMap quoteChar ++ '\'' :: rest) := rfl
        _ = posixWords .unquoted (some (w ++ '\'' :: cs)) rest := by
          rw [ih, List.append_assoc, List.singleton_append]
    · rw [if_neg hquote, List.singleton_append, posixWords, if_neg hquote, Option.getD_some, ih,
        List.append_assoc, List.singleton_append]

/-- An escaped text is one word, the text. -/
theorem posixWords_shellEscape (x rest : List Char) :
    posixWords .unquoted none (shellEscape x ++ rest) = posixWords .unquoted (some x) rest := by
  rw [shellEscape]
  split_ifs with hempty hsafe
  · rw [hempty]
    rfl
  · rw [List.all_eq_true] at hsafe
    cases x with
    | nil => exact absurd rfl hempty
    | cons c cs =>
      obtain ⟨hc, hcs⟩ := List.forall_mem_cons.mp hsafe
      obtain ⟨hblank, hquote, hdouble, hslash, hspecial⟩ := shell_of_isSafeChar hc
      rw [isShellBlank, decide_eq_false_iff_not] at hblank
      rw [List.cons_append, posixWords, if_neg hblank, if_neg hquote, if_neg hdouble,
        if_neg hslash, hspecial, if_neg Bool.false_ne_true]
      exact posixWords_safe hcs [c] rest
  · rw [List.cons_append, List.append_assoc, List.singleton_append]
    exact posixWords_quoted x [] rest

/-- Escaped texts with spaces between them. -/
def joinEscaped (words : List (List Char)) : List Char :=
  List.intercalate [' '] (words.map shellEscape)

theorem joinEscaped_cons_cons (x y : List Char) (xs : List (List Char)) :
    joinEscaped (x :: y :: xs) = shellEscape x ++ ' ' :: joinEscaped (y :: xs) := by
  rw [joinEscaped, List.map_cons, List.map_cons, List.intercalate_cons_cons, List.append_assoc,
    List.singleton_append]
  rfl

theorem joinEscaped_singleton (x : List Char) : joinEscaped [x] = shellEscape x :=
  List.intercalate_singleton

/-- The words of a joined text are those that were joined. -/
theorem posixWords_joinEscaped (xs : List (List Char)) :
    posixWords .unquoted none (joinEscaped xs) = some xs := by
  induction xs with
  | nil => rfl
  | cons x xs ih =>
    cases xs with
    | nil =>
      rw [joinEscaped_singleton, ← List.append_nil (shellEscape x), posixWords_shellEscape]
      rfl
    | cons y ys =>
      rw [joinEscaped_cons_cons, posixWords_shellEscape, posixWords, if_pos (.inl rfl), ih]
      rfl

/-! ### Splitting what is joined -/

/-- A token takes the text of safe characters before it. -/
theorem shellToken_safe {x : List Char} (h : ∀ c ∈ x, isSafeChar c = true)
    (token rest : List Char) :
    shellToken none token (x ++ rest) = shellToken none (token ++ x) rest := by
  induction x generalizing token with
  | nil => rw [List.nil_append, List.append_nil]
  | cons c cs ih =>
    obtain ⟨hc, hcs⟩ := List.forall_mem_cons.mp h
    obtain ⟨hblank, hquote, hdouble, -, -⟩ := shell_of_isSafeChar hc
    rw [List.cons_append, shellToken, hblank, if_neg Bool.false_ne_true,
      if_neg (not_or.mpr ⟨hdouble, hquote⟩), ih hcs, List.append_assoc, List.singleton_append]

/-- Within apostrophes a token takes everything up to the next one. -/
theorem shellToken_quoted {x : List Char} (h : '\'' ∉ x) (token rest : List Char) :
    shellToken (some '\'') token (x ++ '\'' :: rest) = shellToken none (token ++ x) rest := by
  induction x generalizing token with
  | nil => rw [List.nil_append, List.append_nil, shellToken, if_pos rfl]
  | cons c cs ih =>
    rw [List.mem_cons, not_or] at h
    obtain ⟨hc, hcs⟩ := h
    rw [List.cons_append, shellToken, if_neg (Ne.symm hc), ih hcs, List.append_assoc,
      List.singleton_append]

theorem flatMap_quoteChar_eq {x : List Char} (h : '\'' ∉ x) : x.flatMap quoteChar = x := by
  induction x with
  | nil => rfl
  | cons c cs ih =>
    rw [List.mem_cons, not_or] at h
    obtain ⟨hc, hcs⟩ := h
    rw [List.flatMap_cons, ih hcs, quoteChar, if_neg (Ne.symm hc), List.singleton_append]

/-- An escaped text without an apostrophe is the text of one token. -/
theorem shellToken_shellEscape {x : List Char} (h : '\'' ∉ x) (rest : List Char) :
    shellToken none [] (shellEscape x ++ rest) = shellToken none x rest := by
  rw [shellEscape]
  split_ifs with hempty hsafe
  · rw [hempty]
    rfl
  · exact shellToken_safe (List.all_eq_true.mp hsafe) [] rest
  · rw [flatMap_quoteChar_eq h, List.cons_append, List.append_assoc, List.singleton_append]
    exact shellToken_quoted h [] rest

theorem shellSplit_eq (p : List Char) : shellSplit p =
    match p.dropWhile isShellBlank with
    | [] => []
    | c :: cs => (shellToken none [] (c :: cs)).1 ::
      shellSplit (shellToken none [] (c :: cs)).2 := by
  rw [shellSplit]
  split <;> simp [*]

/-- An escaped text does not begin with a blank. -/
theorem dropWhile_shellEscape (x rest : List Char) :
    (shellEscape x ++ rest).dropWhile isShellBlank = shellEscape x ++ rest := by
  have hhead : ∃ c cs, shellEscape x = c :: cs ∧ isShellBlank c = false := by
    rw [shellEscape]
    split_ifs with hempty hsafe
    · exact ⟨_, _, rfl, rfl⟩
    · cases x with
      | nil => exact absurd rfl hempty
      | cons c cs =>
        exact ⟨c, cs, rfl, (shell_of_isSafeChar (List.all_eq_true.mp hsafe c (by simp))).1⟩
    · exact ⟨_, _, rfl, rfl⟩
  obtain ⟨c, cs, hx, hc⟩ := hhead
  rw [hx, List.cons_append, List.dropWhile_cons_of_neg (by rw [hc]; exact Bool.false_ne_true)]

/-- The tokens begin with the first of the texts that are joined. -/
theorem shellSplit_shellEscape (x rest : List Char) :
    shellSplit (shellEscape x ++ rest) =
      (shellToken none [] (shellEscape x ++ rest)).1 ::
        shellSplit (shellToken none [] (shellEscape x ++ rest)).2 := by
  rw [shellSplit_eq, dropWhile_shellEscape]
  have hne : shellEscape x ++ rest ≠ [] := by
    rw [shellEscape]
    split_ifs with hempty hsafe
    · simp
    · simp [hempty]
    · simp
  cases h : shellEscape x ++ rest with
  | nil => exact absurd h hne
  | cons c cs => rfl

theorem shellSplit_space (p : List Char) : shellSplit (' ' :: p) = shellSplit p := by
  rw [shellSplit_eq, shellSplit_eq p]
  rfl

/-- Texts without apostrophes are given back. -/
theorem shellSplit_joinEscaped {xs : List (List Char)} (h : ∀ x ∈ xs, '\'' ∉ x) :
    shellSplit (joinEscaped xs) = xs := by
  induction xs with
  | nil =>
    rw [shellSplit_eq]
    rfl
  | cons x xs ih =>
    obtain ⟨hx, hxs⟩ := List.forall_mem_cons.mp h
    cases xs with
    | nil =>
      rw [joinEscaped_singleton, ← List.append_nil (shellEscape x), shellSplit_shellEscape,
        shellToken_shellEscape hx, shellToken, shellSplit_eq]
      rfl
    | cons y ys =>
      have hspace : isShellBlank ' ' = true := rfl
      rw [joinEscaped_cons_cons, shellSplit_shellEscape, shellToken_shellEscape hx, shellToken,
        if_pos hspace, shellSplit_space, ih hxs]

/-! ### Counting backslashes -/

/-- No backslash is lost in a token. -/
theorem count_shellToken {quote : Option Char} (hquote : quote ≠ some '\\')
    (token p : List Char) :
    (shellToken quote token p).1.count '\\' + (shellToken quote token p).2.count '\\' =
      token.count '\\' + p.count '\\' := by
  induction p generalizing quote token with
  | nil => cases quote <;> rfl
  | cons c cs ih =>
    have happend : (token ++ [c]).count '\\' + cs.count '\\' =
        token.count '\\' + (c :: cs).count '\\' := by
      rw [List.count_append, List.count_cons, List.count_cons, List.count_nil]
      omega
    cases quote with
    | none =>
      rw [shellToken]
      split_ifs with hblank hopen
      · rfl
      · have hne : c ≠ '\\' := by
          rintro rfl
          exact absurd hopen (by decide)
        rw [ih (by simpa using hne), List.count_cons_of_ne hne]
      · rw [ih hquote, happend]
    | some q =>
      rw [shellToken]
      split_ifs with hclose
      · have hne : c ≠ '\\' := fun hc ↦ hquote (by rw [← hclose, hc])
        rw [ih (by simp), List.count_cons_of_ne hne]
      · rw [ih hquote, happend]

theorem count_dropWhile_isShellBlank (p : List Char) :
    (p.dropWhile isShellBlank).count '\\' = p.count '\\' := by
  induction p with
  | nil => rfl
  | cons c cs ih =>
    rw [List.dropWhile_cons]
    split_ifs with hblank
    · have hne : c ≠ '\\' := by
        rintro rfl
        exact absurd hblank (by decide)
      rw [ih, List.count_cons_of_ne hne]
    · rfl

/-- The tokens have all backslashes of the text. -/
theorem count_shellSplit (p : List Char) : (shellSplit p).flatten.count '\\' = p.count '\\' := by
  induction p using shellSplit.induct with
  | case1 p hnil =>
    rw [shellSplit_eq, hnil, ← count_dropWhile_isShellBlank p, hnil]
    rfl
  | case2 p c cs hcons ih =>
    have hnone : (none : Option Char) ≠ some '\\' := by simp
    have htoken := count_shellToken hnone [] (c :: cs)
    rw [shellSplit_eq, hcons, ← count_dropWhile_isShellBlank p, hcons]
    change ((shellToken none [] (c :: cs)).1 ++
      (shellSplit (shellToken none [] (c :: cs)).2).flatten).count '\\' = _
    rw [List.count_append, ih, htoken, List.count_nil, Nat.zero_add]

/-- An apostrophe that is escaped brings one backslash. -/
theorem count_shellEscape (x : List Char) :
    (shellEscape x).count '\\' = x.count '\\' + x.count '\'' := by
  have hquoted : (x.flatMap quoteChar).count '\\' = x.count '\\' + x.count '\'' := by
    induction x with
    | nil => rfl
    | cons c cs ih =>
      rw [List.flatMap_cons, List.count_append, ih, quoteChar, List.count_cons, List.count_cons]
      by_cases hquote : c = '\''
      · rw [if_pos hquote, hquote]
        simp
        omega
      · rw [if_neg hquote, List.count_cons, List.count_nil]
        simp [hquote]
        omega
  rw [shellEscape]
  split_ifs with hempty hsafe
  · rw [hempty]
    rfl
  · have hnone : x.count '\'' = 0 := List.count_eq_zero.mpr fun hmem ↦
      (shell_of_isSafeChar (List.all_eq_true.mp hsafe _ hmem)).2.1 rfl
    rw [hnone, Nat.add_zero]
  · rw [List.count_cons_of_ne (by decide), List.count_append, hquoted,
      List.count_cons_of_ne (by decide), List.count_nil, Nat.add_zero]

theorem count_joinEscaped (xs : List (List Char)) :
    (joinEscaped xs).count '\\' = xs.flatten.count '\\' + xs.flatten.count '\'' := by
  induction xs with
  | nil => rfl
  | cons x xs ih =>
    rw [List.flatten_cons, List.count_append, List.count_append]
    cases xs with
    | nil =>
      rw [joinEscaped_singleton, count_shellEscape]
      rfl
    | cons y ys =>
      rw [joinEscaped_cons_cons, List.count_append, List.count_cons_of_ne (by decide), ih,
        count_shellEscape]
      omega

/-- What is joined is given back exactly if no text has an apostrophe. -/
theorem shellSplit_joinEscaped_iff (xs : List (List Char)) :
    shellSplit (joinEscaped xs) = xs ↔ ∀ x ∈ xs, '\'' ∉ x := by
  refine ⟨fun h x hx hmem ↦ ?_, shellSplit_joinEscaped⟩
  have hcount := count_shellSplit (joinEscaped xs)
  rw [h, count_joinEscaped] at hcount
  have hzero : xs.flatten.count '\'' = 0 := by omega
  exact List.count_eq_zero.mp hzero (List.mem_flatten_of_mem hx hmem)

/-! ### Faithful quoting -/

/-- What is expected of the functions on an array of strings: the shell reads the joined text as
the strings and each escaped string as one word, and the joined text splits into the strings. -/
structure QuotesFaithfully (xs : List String) : Prop where
  words : commandWords (shellJoinItems (xs.map .string)).toList = some (xs.map String.toList)
  word : ∀ x ∈ xs, commandWords (shellEscapeValue (.string x)).toList = some [x.toList]
  tokens : shellSplitItems (shellJoinItems (xs.map .string)) = xs.map .string

/-- An escaped text has a NUL exactly if the text has one. -/
theorem nul_mem_shellEscape_iff {x : List Char} : '\x00' ∈ shellEscape x ↔ '\x00' ∈ x := by
  have hquoted : '\x00' ∈ x.flatMap quoteChar ↔ '\x00' ∈ x := by
    rw [List.mem_flatMap]
    constructor
    · rintro ⟨c, hc, hmem⟩
      rw [quoteChar] at hmem
      split_ifs at hmem with hquote
      · simp at hmem
      · rwa [List.mem_singleton.mp hmem]
    · intro hmem
      exact ⟨_, hmem, by simp [quoteChar]⟩
  rw [shellEscape]
  split_ifs with hempty hsafe
  · simp [hempty]
  · rfl
  · simp [hquoted]

theorem shellJoin_eq {xs : List (List Char)} (h : ∀ x ∈ xs, '\x00' ∉ x) :
    shellJoin xs = joinEscaped xs := by
  rw [shellJoin, joinEscaped]
  congr 1
  exact List.map_congr_left fun x hx ↦
    beforeNul_eq_self_iff.mpr (mt nul_mem_shellEscape_iff.mp (h x hx))

theorem nul_not_mem_joinEscaped {xs : List (List Char)} (h : ∀ x ∈ xs, '\x00' ∉ x) :
    '\x00' ∉ joinEscaped xs :=
  nul_not_mem_intercalate (by simp) (List.forall_mem_map.mpr fun x hx ↦
    mt nul_mem_shellEscape_iff.mp (h x hx))

theorem commandWords_eq {text : List Char} (h : '\x00' ∉ text) :
    commandWords text = posixWords .unquoted none text := by
  rw [commandWords, List.contains_eq_mem, decide_eq_false h, if_neg Bool.false_ne_true]

/-- The joined text of strings without NULs. -/
theorem toList_shellJoinItems {xs : List String} (h : ∀ x ∈ xs, hasChar x '\x00' = false) :
    (shellJoinItems (xs.map .string)).toList = joinEscaped (xs.map String.toList) := by
  rw [shellJoinItems, String.toList_ofList, List.map_map]
  exact shellJoin_eq (List.forall_mem_map.mpr fun x hx ↦ hasChar_eq_false_iff.mp (h x hx))

/-- Strings without NULs are given back exactly if they have no apostrophes. -/
theorem shellSplitItems_eq_iff {xs : List String} (h : ∀ x ∈ xs, hasChar x '\x00' = false) :
    shellSplitItems (shellJoinItems (xs.map .string)) = xs.map .string ↔
      ∀ x ∈ xs, hasChar x '\'' = false := by
  have hinj : Function.Injective fun token : List Char ↦ Value.string (String.ofList token) :=
    fun _ _ h ↦ String.ofList_injective (Value.string.inj h)
  have hstrings : xs.map Value.string =
      (xs.map String.toList).map fun token ↦ Value.string (String.ofList token) := by
    simp only [List.map_map, Function.comp_def, String.ofList_toList]
  have hseen : beforeNul (joinEscaped (xs.map String.toList)) =
      joinEscaped (xs.map String.toList) :=
    beforeNul_eq_self_iff.mpr (nul_not_mem_joinEscaped (List.forall_mem_map.mpr fun x hx ↦
      hasChar_eq_false_iff.mp (h x hx)))
  rw [shellSplitItems, toList_shellJoinItems h, hseen, hstrings, hinj.list_map.eq_iff,
    shellSplit_joinEscaped_iff, List.forall_mem_map]
  simp only [hasChar_eq_false_iff]

/-- An escaped text that is one word has no NUL. -/
theorem hasChar_nul_of_commandWords {x : String}
    (h : commandWords (shellEscapeValue (.string x)).toList = some [x.toList]) :
    hasChar x '\x00' = false := by
  rw [hasChar_eq_false_iff, ← nul_mem_shellEscape_iff]
  intro hmem
  rw [shellEscapeValue, String.toList_ofList, commandWords, List.contains_eq_mem,
    decide_eq_true (by exact hmem), if_pos rfl] at h
  cases h

/-- Shell quoting is faithful exactly for strings without apostrophes and NULs; the shell itself
reads any strings without NULs back. -/
theorem shell_quoting (xs : List String) :
    QuotesFaithfully xs ↔ ∀ x ∈ xs, hasChar x '\x00' = false ∧ hasChar x '\'' = false := by
  constructor
  · intro h
    have hnul : ∀ x ∈ xs, hasChar x '\x00' = false := fun x hx ↦
      hasChar_nul_of_commandWords (h.word x hx)
    exact fun x hx ↦ ⟨hnul x hx, (shellSplitItems_eq_iff hnul).mp h.tokens x hx⟩
  · intro h
    have hnul : ∀ x ∈ xs, hasChar x '\x00' = false := fun x hx ↦ (h x hx).1
    refine ⟨?_, fun x hx ↦ ?_, (shellSplitItems_eq_iff hnul).mpr fun x hx ↦ (h x hx).2⟩
    · rw [toList_shellJoinItems hnul, commandWords_eq, posixWords_joinEscaped]
      exact nul_not_mem_joinEscaped (List.forall_mem_map.mpr fun x hx ↦
        hasChar_eq_false_iff.mp (hnul x hx))
    · rw [shellEscapeValue, String.toList_ofList, commandWords_eq,
        ← List.append_nil (shellEscape _), posixWords_shellEscape]
      · rfl
      · exact mt nul_mem_shellEscape_iff.mp (hasChar_eq_false_iff.mp (hnul x hx))

/-- `shell_split(shell_join(["it's"]))` keeps the backslash. -/
theorem not_quotesFaithfully_apostrophe : ¬QuotesFaithfully ["it's"] := by
  intro h
  have hnone := (shellSplitItems_eq_iff (by decide)).mp h.tokens "it's" (by simp)
  exact absurd hnone (by decide)

end PuppetC
