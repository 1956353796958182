import Mathlib.Algebra.BigOperators.Group.List.Basic
import Mathlib.Algebra.Order.Ring.Nat
import Mathlib.Tactic.Common
import PuppetC.Support.Words

/-!
# The tokens of a shell command

How a POSIX shell cuts a text into words and operators, and takes the quotes off the words. Texts
whose words depend on more than the text (expansions and patterns) have no tokens here.

## Main definitions

* `ShellToken`, `shellTokens`: tokens, and the tokens of a text.
* `ShellWords`: a text consists of the words of a simple command without redirections.

## Main results

* `shellWords_intercalate`: plain words with blanks between them are the words of their text.
* `ShellWords.plain`: if a text has no more characters than its words, they are plain.
-/

namespace PuppetC

/-- Where the shell stands in a text: outside quotes, after a backslash there, within apostrophes,
within quotation marks, after a backslash there, in a comment. -/
inductive ShellMode where
  | plain
  | escaped
  | single
  | double
  | doubleEscaped
  | comment
  deriving DecidableEq

/-- A word, and whether part of it was quoted, or an operator character. -/
inductive ShellToken where
  | word (text : List Char) (quoted : Bool)
  | operator (c : Char)
  deriving DecidableEq

/-- The text of a word. -/
def ShellToken.word? : ShellToken → Option (List Char)
  | .word w _ => some w
  | .operator _ => none

/-- What stands between words. -/
def isTokenBlank (c : Char) : Bool := c = ' ' || c = '\t'

/-- The characters of operators, with the end of a line. -/
def isShellOperator (c : Char) : Bool := "|&;<>()\n".toList.contains c

/-- The characters of expansions and patterns, and the NUL. -/
def isShellActive (c : Char) : Bool := "$`*?\x00".toList.contains c

/-- The token of a word that has begun, if one has. -/
def begunWord : Option (List Char × Bool) → List ShellToken
  | none => []
  | some w => [.word w.1 w.2]

/-- A word with one more character. -/
def extendWord (word : Option (List Char × Bool)) (c : Char) (quoted : Bool) : List Char × Bool :=
  match word with
  | none => ([c], quoted)
  | some w => (w.1 ++ [c], w.2 || quoted)

/-- A word with a quote. -/
def quoteWord (word : Option (List Char × Bool)) : List Char × Bool :=
  match word with
  | none => ([], true)
  | some w => (w.1, true)

/-- The tokens of a text. `word` is the part of a word that has been read, if one has begun. -/
def shellTokens : ShellMode → Option (List Char × Bool) → List Char → Option (List ShellToken)
  | .plain, word, [] => some (begunWord word)
  | .plain, word, c :: cs =>
    if isTokenBlank c then (shellTokens .plain none cs).map (begunWord word ++ ·)
    else if c = '\'' then shellTokens .single (some (quoteWord word)) cs
    else if c = '"' then shellTokens .double (some (quoteWord word)) cs
    else if c = '\\' then shellTokens .escaped word cs
    else if isShellOperator c then
      (shellTokens .plain none cs).map (begunWord word ++ .operator c :: ·)
    else if isShellActive c then none
    else if word = none ∧ c = '#' then shellTokens .comment none cs
    else if word = none ∧ c = '~' then none
    else if c = '[' ∧ ']' ∈ cs then none
    else shellTokens .plain (some (extendWord word c false)) cs
  | .escaped, word, c :: cs =>
    if c = '\n' then shellTokens .plain word cs
    else shellTokens .plain (some (extendWord word c true)) cs
  | .single, word, c :: cs =>
    if c = '\'' then shellTokens .plain word cs
    else shellTokens .single (some (extendWord word c true)) cs
  | .double, word, c :: cs =>
    if c = '"' then shellTokens .plain word cs
    else if c = '\\' then shellTokens .doubleEscaped word cs
    else if c = '$' ∨ c = '`' then none
    else shellTokens .double (some (extendWord word c true)) cs
  | .doubleEscaped, word, c :: cs =>
    if c = '\n' then shellTokens .double word cs
    else if "$`\"\\".toList.contains c then
      shellTokens .double (some (extendWord word c true)) cs
    else shellTokens .double (some (extendWord (some (extendWord word '\\' true)) c true)) cs
  | .comment, word, c :: cs =>
    if c = '\n' then (shellTokens .plain none cs).map (.operator c :: ·)
    else shellTokens .comment word cs
  | .comment, _, [] => some []
  | .escaped, _, [] | .single, _, [] | .double, _, [] | .doubleEscaped, _, [] => none

/-- The words that start a compound command, or end one. -/
def shellReserved : List (List Char) :=
  ["!", "\x7b", "\x7d", "case", "do", "done", "elif", "else", "esac", "fi", "for", "if", "in",
    "then", "until", "while"].map String.toList

/-- A word that sets a variable in front of a command. -/
def isShellAssignment (w : List Char) : Bool :=
  let name := w.takeWhile (· ≠ '=')
  w.contains '=' && name.all (fun c ↦ c.isAlphanum || c = '_') &&
    !(name.head?.any Char.isDigit) && !name.isEmpty

/-- The first word is the name of a command. -/
def IsCommandStart (w : List Char) : Prop := w ∉ shellReserved ∧ isShellAssignment w = false

/-- A text consists of the words of a simple command. -/
def ShellWords (text : List Char) (words : List (List Char)) : Prop :=
  ∃ tokens, shellTokens .plain none text = some tokens ∧
    tokens.map ShellToken.word? = words.map some ∧
    ∀ w, tokens.head? = some (.word w false) → IsCommandStart w

/-! ### Words and quotes -/

section Words

variable {x rest : List Char} {word : Option (List Char × Bool)} {w : List Char × Bool} {c : Char}

/-- A character that means itself in a word. -/
structure IsOrdinary (c : Char) : Prop where
  blank : isTokenBlank c = false
  apostrophe : c ≠ '\''
  quotation : c ≠ '"'
  backslash : c ≠ '\\'
  operator : isShellOperator c = false
  active : isShellActive c = false

/-- An ordinary character goes on a word. -/
theorem shellTokens_ordinary (hc : IsOrdinary c) (hstart : word = none → c ≠ '#' ∧ c ≠ '~')
    (hbracket : c = '[' → ']' ∉ rest) :
    shellTokens .plain word (c :: rest) =
      shellTokens .plain (some (extendWord word c false)) rest := by
  rw [shellTokens, if_neg (by simp [hc.blank]), if_neg hc.apostrophe, if_neg hc.quotation,
    if_neg hc.backslash, if_neg (by simp [hc.operator]), if_neg (by simp [hc.active]),
    if_neg fun h ↦ (hstart h.1).1 h.2, if_neg fun h ↦ (hstart h.1).2 h.2,
    if_neg fun h ↦ hbracket h.1 h.2]

/-- Ordinary characters go on a word. -/
theorem shellTokens_ordinaries (hx : ∀ c ∈ x, IsOrdinary c) (hbracket : '[' ∈ x → ']' ∉ x ++ rest)
    (w : List Char × Bool) :
    shellTokens .plain (some w) (x ++ rest) = shellTokens .plain (some (w.1 ++ x, w.2)) rest := by
  induction x generalizing w with
  | nil => rw [List.nil_append, List.append_nil]
  | cons c x ih =>
    rw [List.forall_mem_cons] at hx
    have hstep : shellTokens .plain (some w) (c :: (x ++ rest)) =
        shellTokens .plain (some (extendWord (some w) c false)) (x ++ rest) :=
      shellTokens_ordinary hx.1 (fun h ↦ (by cases h)) fun hc h ↦
        hbracket (hc ▸ List.mem_cons_self) (List.mem_cons_of_mem _ h)
    have hrest := ih hx.2 fun h h' ↦
      hbracket (List.mem_cons_of_mem _ h) (List.mem_cons_of_mem _ h')
    rw [List.cons_append, hstep, hrest]
    simp [extendWord]

/-- Ordinary characters are a word. -/
theorem shellTokens_word (rest : List Char) (hx : ∀ c ∈ x, IsOrdinary c) (hne : x ≠ [])
    (hstart : x.head? ≠ some '#' ∧ x.head? ≠ some '~') (hbracket : '[' ∈ x → ']' ∉ x ++ rest) :
    shellTokens .plain none (x ++ rest) = shellTokens .plain (some (x, false)) rest := by
  obtain ⟨c, x, rfl⟩ := List.exists_cons_of_ne_nil hne
  rw [List.forall_mem_cons] at hx
  have hstep : shellTokens .plain none (c :: (x ++ rest)) =
      shellTokens .plain (some (extendWord none c false)) (x ++ rest) :=
    shellTokens_ordinary hx.1
      (fun _ ↦ ⟨fun h ↦ hstart.1 (congrArg some h), fun h ↦ hstart.2 (congrArg some h)⟩)
      fun hc h ↦ hbracket (hc ▸ List.mem_cons_self) (List.mem_cons_of_mem _ h)
  have hrest := shellTokens_ordinaries hx.2 (fun h h' ↦
    hbracket (List.mem_cons_of_mem _ h) (List.mem_cons_of_mem _ h')) (extendWord none c false)
  rw [List.cons_append, hstep, hrest]
  rfl

end Words

/-! ### Quotes cost characters -/

/-- What words are made of, if they are not quoted. -/
def isInk (c : Char) : Bool := !isTokenBlank c

/-- The characters of a token that are not blanks. -/
def ShellToken.ink : ShellToken → ℕ
  | .word w _ => w.countP isInk
  | .operator _ => 1

/-- The characters of a word that has begun. -/
def wordInk (word : Option (List Char × Bool)) : ℕ := word.elim 0 fun w ↦ w.1.countP isInk

/-- A word that unquoted characters make. -/
structure IsPlainWord (w : List Char) : Prop where
  ne_nil : w ≠ []
  ordinary : ∀ c ∈ w, IsOrdinary c
  head : w.head? ≠ some '#' ∧ w.head? ≠ some '~'

section Ink

variable {mode : ShellMode} {word : Option (List Char × Bool)} {text : List Char} {c : Char}
  {tokens : List ShellToken}

@[simp]
theorem wordInk_none : wordInk none = 0 := rfl

@[simp]
theorem sum_ink_begunWord (word : Option (List Char × Bool)) :
    ((begunWord word).map ShellToken.ink).sum = wordInk word := by
  cases word <;> simp [begunWord, ShellToken.ink, wordInk]

@[simp]
theorem wordInk_extendWord (word : Option (List Char × Bool)) (c : Char) (quoted : Bool) :
    wordInk (some (extendWord word c quoted)) = wordInk word + if isInk c then 1 else 0 := by
  cases word <;> simp [extendWord, wordInk, List.countP_cons]

@[simp]
theorem wordInk_quoteWord (word : Option (List Char × Bool)) :
    wordInk (some (quoteWord word)) = wordInk word := by
  cases word <;> rfl

/-- Words have no more characters than their text; a backslash within quotation marks may still
belong to a word. -/
theorem ink_tokens_le (h : shellTokens mode word text = some tokens) :
    (tokens.map ShellToken.ink).sum ≤
      wordInk word + (if mode = .doubleEscaped then 1 else 0) + text.countP isInk := by
  fun_induction shellTokens mode word text generalizing tokens with
  | case1 word =>
    cases h
    exact (sum_ink_begunWord word).le
  | case2 word c cs hc ih =>
    obtain ⟨ts, hts, rfl⟩ := Option.map_eq_some_iff.1 h
    have hle := ih hts
    simp only [List.map_append, List.sum_append, sum_ink_begunWord, List.countP_cons,
      wordInk_none] at hle ⊢
    omega
  | case6 word c cs hc _ _ _ _ ih =>
    obtain ⟨ts, hts, rfl⟩ := Option.map_eq_some_iff.1 h
    have hle := ih hts
    have hink : isInk c = true := by simp [isInk, hc]
    simp only [List.map_append, List.sum_append, sum_ink_begunWord, List.countP_cons, List.map_cons,
      List.sum_cons, ShellToken.ink, hink, wordInk_none, if_true] at hle ⊢
    omega
  | case23 word cs ih =>
    obtain ⟨ts, hts, rfl⟩ := Option.map_eq_some_iff.1 h
    have hle := ih hts
    have hink : isInk '\n' = true := rfl
    simp only [List.map_cons, List.sum_cons, ShellToken.ink, List.countP_cons, hink, wordInk_none,
      if_true, reduceCtorEq, if_false] at hle ⊢
    omega
  | case25 word =>
    cases h
    exact Nat.zero_le _
  | case17 word cs _ ih =>
    have hle := ih h
    have hink : isInk '\\' = true := rfl
    simp only [List.countP_cons, hink, if_true] at hle ⊢
    omega
  | case22 word c cs _ _ ih =>
    have hle := ih h
    have hink : isInk '\\' = true := rfl
    simp only [wordInk_extendWord, List.countP_cons, hink, if_true, reduceCtorEq,
      if_false] at hle ⊢
    omega
  | _ =>
    first
      | cases h
      | rename_i ih
        have hle := ih h
        simp [List.countP_cons] at hle ⊢
        omega

/-- A quote, or the mark of a comment, is lost. -/
theorem lost_ink {word' : Option (List Char × Bool)} (hc : isInk c = true)
    (hmode : mode ≠ .doubleEscaped) (hsame : wordInk word' ≤ wordInk word)
    (h : shellTokens mode word' text = some tokens) :
    ¬ wordInk word + (c :: text).countP isInk ≤ (tokens.map ShellToken.ink).sum := by
  have hle := ink_tokens_le h
  rw [if_neg hmode] at hle
  rw [List.countP_cons, if_pos hc]
  omega

/-- If no character is lost, then nothing was quoted. -/
theorem plainWords_of_ink (h : shellTokens .plain word text = some tokens)
    (hink : wordInk word + text.countP isInk ≤ (tokens.map ShellToken.ink).sum)
    (hword : ∀ w ∈ word, w.2 = false ∧ IsPlainWord w.1) {w : List Char} {quoted : Bool}
    (hw : ShellToken.word w quoted ∈ tokens) : quoted = false ∧ IsPlainWord w := by
  have hbegun (word : Option (List Char × Bool))
      (hword : ∀ w ∈ word, w.2 = false ∧ IsPlainWord w.1)
      (hw : ShellToken.word w quoted ∈ begunWord word) : quoted = false ∧ IsPlainWord w := by
    cases word with
    | none => cases hw
    | some w' =>
      cases List.mem_singleton.1 hw
      exact hword w' rfl
  have hnone : ∀ w ∈ (none : Option (List Char × Bool)), w.2 = false ∧ IsPlainWord w.1 :=
    fun w hw ↦ by cases hw
  induction text generalizing word tokens with
  | nil =>
    cases h
    exact hbegun word hword hw
  | cons c cs ih =>
    rw [shellTokens] at h
    split_ifs at h with hblank hsingle hdouble hescape hoperator hactive hcomment htilde hbracket
    · obtain ⟨ts, hts, rfl⟩ := Option.map_eq_some_iff.1 h
      rw [List.map_append, List.sum_append, sum_ink_begunWord, List.countP_cons,
        if_neg (by simp [isInk, hblank])] at hink
      rcases List.mem_append.1 hw with hw | hw
      · exact hbegun word hword hw
      · exact ih hts (by rw [wordInk_none]; omega) hnone hw
    · subst hsingle
      exact absurd hink (lost_ink rfl (fun h ↦ by cases h) (wordInk_quoteWord word).le h)
    · subst hdouble
      exact absurd hink (lost_ink rfl (fun h ↦ by cases h) (wordInk_quoteWord word).le h)
    · subst hescape
      exact absurd hink (lost_ink rfl (fun h ↦ by cases h) le_rfl h)
    · obtain ⟨ts, hts, rfl⟩ := Option.map_eq_some_iff.1 h
      rw [List.map_append, List.sum_append, sum_ink_begunWord, List.countP_cons,
        if_pos (by simp [isInk, hblank]), List.map_cons, List.sum_cons, ShellToken.ink] at hink
      rcases List.mem_append.1 hw with hw | hw
      · exact hbegun word hword hw
      · exact ih hts (by rw [wordInk_none]; omega) hnone
          ((List.mem_cons.1 hw).resolve_left fun h ↦ by cases h)
    · obtain ⟨rfl, rfl⟩ := hcomment
      exact absurd hink (lost_ink rfl (fun h ↦ by cases h) le_rfl h)
    · refine ih h ?_ (fun w' hw' ↦ ?_) hw
      · rw [wordInk_extendWord, if_pos (by simp [isInk, hblank])]
        rw [List.countP_cons, if_pos (by simp [isInk, hblank])] at hink
        omega
      · have hc : IsOrdinary c :=
          ⟨by simpa using hblank, hsingle, hdouble, hescape, by simpa using hoperator,
            by simpa using hactive⟩
        cases hw'
        cases word with
        | none =>
          exact ⟨rfl, by simp [extendWord], fun d hd ↦ List.mem_singleton.1 hd ▸ hc,
            fun h ↦ hcomment ⟨rfl, Option.some.inj h⟩, fun h ↦ htilde ⟨rfl, Option.some.inj h⟩⟩
        | some w' =>
          obtain ⟨hquoted, hplain⟩ := hword w' rfl
          refine ⟨by simp [extendWord, hquoted], by simp [extendWord], fun d hd ↦ ?_, ?_⟩
          · exact (List.mem_append.1 hd).elim (hplain.ordinary d) fun h ↦
              List.mem_singleton.1 h ▸ hc
          · have hhead : (w'.1 ++ [c]).head? = w'.1.head? := by
              rw [List.head?_append, List.head?_eq_some_head hplain.ne_nil]
              rfl
            rw [extendWord, hhead]
            exact hplain.head

end Ink

/-! ### Texts without quotes -/

section Plain

variable {text : List Char} {words : List (List Char)}

/-- Plain words with blanks between them are read as they are. -/
theorem shellTokens_intercalate (hwords : ∀ w ∈ words, IsPlainWord w ∧ ']' ∉ w) :
    shellTokens .plain none ([' '].intercalate words) =
      some (words.map fun w ↦ .word w false) := by
  induction words with
  | nil => rfl
  | cons w ws ih =>
    rw [List.forall_mem_cons] at hwords
    obtain ⟨⟨hplain, hbracket⟩, hrest⟩ := hwords
    cases ws with
    | nil =>
      have hword := shellTokens_word [] hplain.ordinary hplain.ne_nil hplain.head
        fun _ ↦ by rwa [List.append_nil]
      rw [List.append_nil] at hword
      rw [List.intercalate_singleton, hword]
      rfl
    | cons w' ws =>
      have hbrackets : ']' ∉ [' '].intercalate (w' :: ws) :=
        notMem_intercalate (by decide) fun v hv ↦ (hrest v hv).2
      have hword := shellTokens_word (' ' :: [' '].intercalate (w' :: ws)) hplain.ordinary
        hplain.ne_nil hplain.head fun _ h ↦ (List.mem_append.1 h).elim hbracket fun h ↦
          hbrackets ((List.mem_cons.1 h).resolve_left (by decide))
      have hblank : isTokenBlank ' ' = true := rfl
      rw [List.intercalate_cons_cons, List.append_assoc, List.singleton_append, hword, shellTokens,
        if_pos hblank, ih hrest]
      rfl

/-- Plain words with blanks between them are the words of their text. -/
theorem shellWords_intercalate (hwords : ∀ w ∈ words, IsPlainWord w ∧ ']' ∉ w)
    (hstart : ∀ w ∈ words.head?, IsCommandStart w) :
    ShellWords ([' '].intercalate words) words := by
  refine ⟨_, shellTokens_intercalate hwords, ?_, fun w hw ↦ hstart w ?_⟩
  · rw [List.map_map]
    rfl
  · cases words with
    | nil => cases hw
    | cons w' ws =>
      cases hw
      exact rfl

/-- Words are tokens with the same characters. -/
theorem map_ink_words {tokens : List ShellToken}
    (h : tokens.map ShellToken.word? = words.map some) :
    tokens.map ShellToken.ink = words.map fun w ↦ w.countP isInk := by
  induction tokens generalizing words with
  | nil =>
    rw [List.map_nil, eq_comm, List.map_eq_nil_iff] at h
    rw [h]
    rfl
  | cons t ts ih =>
    cases words with
    | nil => cases h
    | cons w ws =>
      obtain ⟨ht, hts⟩ := List.cons.inj h
      cases t with
      | word v quoted =>
        cases ht
        rw [List.map_cons, List.map_cons, ih hts, ShellToken.ink]
      | operator c => cases ht

/-- Words have no more characters than their text. -/
theorem ShellWords.ink_le (h : ShellWords text words) :
    (words.map fun w ↦ w.countP isInk).sum ≤ text.countP isInk := by
  obtain ⟨tokens, htokens, hmap, -⟩ := h
  have hle := ink_tokens_le htokens
  rw [map_ink_words hmap, wordInk_none, if_neg (fun h ↦ by cases h)] at hle
  simpa using hle

/-- If a text has no more characters than its words, then nothing was quoted. -/
theorem ShellWords.plain (h : ShellWords text words)
    (hink : text.countP isInk ≤ (words.map fun w ↦ w.countP isInk).sum) :
    (∀ w ∈ words, IsPlainWord w) ∧ ∀ w ∈ words.head?, IsCommandStart w := by
  obtain ⟨tokens, htokens, hmap, hstart⟩ := h
  have hsum := congrArg List.sum (map_ink_words hmap)
  have hplain {w : List Char} {quoted : Bool} (hw : ShellToken.word w quoted ∈ tokens) :
      quoted = false ∧ IsPlainWord w :=
    plainWords_of_ink htokens (by rw [wordInk_none]; omega) (fun w hw ↦ by cases hw) hw
  constructor
  · intro w hw
    obtain ⟨t, ht, hword⟩ := List.mem_map.1 (hmap ▸ List.mem_map_of_mem hw)
    cases t with
    | word v quoted =>
      cases hword
      exact (hplain ht).2
    | operator c => cases hword
  · intro w hw
    have hhead := congrArg List.head? hmap
    rw [List.head?_map, List.head?_map, hw] at hhead
    obtain ⟨t, ht, hword⟩ := Option.map_eq_some_iff.1 hhead
    cases t with
    | word v quoted =>
      cases hword
      obtain ⟨rfl, -⟩ := hplain (List.mem_of_mem_head? ht)
      exact hstart _ ht
    | operator c => cases hword

end Plain

end PuppetC
