import Mathlib.Data.List.Basic
import Mathlib.Tactic.Common

/-!
# Idioms of Ruby in regular expressions

Before a pattern is compiled, idioms that POSIX does not know are rewritten: groups of inline flags,
anchors and control characters after a backslash, and, in bracket expressions, backslashes that are
not needed there; a dash after a backslash moves to the end of the bracket expression. A bracket
expression is taken to end at the first bracket that is not at its start and not after a backslash.

## Main definitions

* `rewriteIdioms`, `translatePattern`: `puppet_regcomp`, up to the call of `regcomp`.
* `PatternToken`, `ScansPattern`: the tokens of a pattern, and how they may follow each other.
* `TokenRewrite`, `rewriteTokens`: what the tokens become.

## Main results

* `rewriteIdioms_eq`: a pattern is rewritten token by token.
* `exists_scans`: every pattern consists of tokens.
* `translate_pattern`: the bound on what is written, what may be rewritten, and the patterns that stay
  as they are.
-/

namespace PuppetC

/-! ### The rewriting -/

/-- What is passed to `regcomp`: the text, and whether a flag was set. -/
structure PosixPattern where
  text : List Char
  icase : Bool
  newline : Bool
  deriving DecidableEq

namespace PosixPattern

/-- Text is written in front. -/
def emit (cs : List Char) (p : PosixPattern) : PosixPattern := { p with text := cs ++ p.text }

/-- Flags are set. -/
def raise (icase newline : Bool) (p : PosixPattern) : PosixPattern :=
  { p with icase := icase || p.icase, newline := newline || p.newline }

@[simp] theorem emit_text (cs : List Char) (p : PosixPattern) : (p.emit cs).text = cs ++ p.text :=
  rfl

@[simp] theorem raise_text (icase newline : Bool) (p : PosixPattern) :
    (p.raise icase newline).text = p.text := rfl

end PosixPattern

/-- The letters of inline flags, up to a colon or a bracket, which are what is left; flags behind a
dash are not set. -/
def readFlags : (negating icase newline : Bool) → List Char → Option (Bool × Bool × List Char)
  | _, _, _, [] => none
  | negating, icase, newline, c :: t =>
    if c = ':' ∨ c = ')' then some (icase, newline, c :: t)
    else if c = 'i' then readFlags negating (icase || !negating) newline t
    else if c = 'm' then readFlags negating icase (newline || !negating) t
    else if c = 'x' then readFlags negating icase newline t
    else if c = '-' then readFlags true icase newline t
    else none

/-- A group of inline flags at the start of a text: the flags, and what follows the letters. -/
def flagGroup : List Char → Option (Bool × Bool × List Char)
  | '(' :: '?' :: c :: t =>
    if c = 'i' ∨ c = 'm' ∨ c = 'x' ∨ c = '-' then readFlags false false false (c :: t) else none
  | _ => none

/-- The caret and the bracket with which a bracket expression may start. -/
def bracketStart (t : List Char) : List Char :=
  if t.head? = some '^' then
    if t[1]? = some ']' then ['^', ']'] else ['^']
  else if t.head? = some ']' then [']'] else []

/-- The characters whose backslash is not needed in a bracket expression. -/
def bracketEscapes : List Char :=
  ['.', '+', '?', '*', '(', ')', '|', '\x7b', '\x7d', '$', '^', '/']

/-- What a character after a backslash becomes; `following` is the text behind it. -/
def rewriteEscape (inClass : Bool) (esc : Char) (following : List Char) : List Char :=
  if esc = '/' then ['/']
  else if !inClass && esc = 'A' then ['^']
  else if !inClass && (esc = 'z' || esc = 'Z') then ['$']
  else if esc = 'n' then ['\n']
  else if esc = 't' then ['\t']
  else if esc = 'r' then ['\r']
  else if esc = 'f' then ['\x0c']
  else if esc = 'v' then ['\x0b']
  else if esc = '0' ∧ ¬ (following.head?.any fun c ↦ '0' ≤ c ∧ c ≤ '7') then []
  else if inClass && esc = '-' then []
  else if inClass && bracketEscapes.contains esc then [esc]
  else ['\x5c', esc]

theorem length_readFlags_le {negating icase newline i m : Bool} {t rest : List Char}
    (h : readFlags negating icase newline t = some (i, m, rest)) :
    rest ≠ [] ∧ rest.length ≤ t.length := by
  induction t generalizing negating icase newline with
  | nil => cases h
  | cons c t ih =>
    rw [readFlags] at h
    split_ifs at h
    · cases h
      exact ⟨List.cons_ne_nil _ _, Nat.le_refl _⟩
    all_goals
      obtain ⟨hne, hle⟩ := ih h
      exact ⟨hne, Nat.le_trans hle (Nat.le_succ _)⟩

theorem length_flagGroup_lt {i m : Bool} {t rest : List Char}
    (h : flagGroup t = some (i, m, rest)) : (rest.drop 1).length < t.length := by
  unfold flagGroup at h
  split at h
  · split_ifs at h
    have hle := (length_readFlags_le h).2
    simp only [List.length_drop, List.length_cons] at hle ⊢
    omega
  · cases h

/-- The loop of `puppet_regcomp`; `dash` is a dash that is kept for the end of the bracket
expression. -/
def rewriteIdioms (inClass dash : Bool) (src : List Char) : PosixPattern :=
  match _hgroup : if inClass then none else flagGroup src with
  | some (icase, newline, rest) =>
    ((rewriteIdioms inClass dash (rest.drop 1)).raise icase newline).emit
      (if rest.head? = some ':' then ['('] else [])
  | none =>
    match src with
    | [] => ⟨[], false, false⟩
    | c :: t =>
      if !inClass && c = '[' then
        (rewriteIdioms true false (t.drop (bracketStart t).length)).emit ('[' :: bracketStart t)
      else if inClass && c = ']' then
        (rewriteIdioms false false t).emit (if dash then ['-', ']'] else [']'])
      else if c = '\x5c' then
        match t with
        | [] => ⟨['\x5c'], false, false⟩
        | esc :: u =>
          (rewriteIdioms inClass (dash || inClass && esc = '-') u).emit (rewriteEscape inClass esc u)
      else (rewriteIdioms inClass dash t).emit [c]
termination_by src.length
decreasing_by
  · split_ifs at _hgroup
    exact length_flagGroup_lt _hgroup
  all_goals simp only [List.length_cons, List.length_drop]; omega

/-- `puppet_regcomp`, up to the call of `regcomp`. -/
def translatePattern (pattern : List Char) : PosixPattern := rewriteIdioms false false pattern

/-! ### Tokens -/

/-- A token of a pattern: a group of inline flags, the start or the end of a bracket expression, a
character after a backslash, or a character. -/
inductive PatternToken where
  | flags (letters : List Char) (close : Char)
  | enter (start : List Char)
  | leave
  | escape (c : Char)
  | plain (c : Char)
  deriving DecidableEq

/-- The text of a token. -/
def PatternToken.text : PatternToken → List Char
  | flags letters close => '(' :: '?' :: (letters ++ [close])
  | enter start => '[' :: start
  | leave => [']']
  | escape c => ['\x5c', c]
  | plain c => [c]

/-- The text of tokens. -/
def tokensText (ts : List PatternToken) : List Char := ts.flatMap PatternToken.text

/-- The letters of a group of inline flags and its end. -/
structure IsFlagGroup (letters : List Char) (close : Char) : Prop where
  ne_nil : letters ≠ []
  letters : ∀ c ∈ letters, c ∈ "imx-".toList
  close : close = ':' ∨ close = ')'

/-- The tokens of a pattern, outside or in a bracket expression. -/
def ScansPattern : (inClass : Bool) → List PatternToken → Prop
  | _, [] => True
  | inClass, .flags letters close :: ts =>
    inClass = false ∧ IsFlagGroup letters close ∧ ScansPattern false ts
  | inClass, .enter start :: ts =>
    inClass = false ∧ bracketStart (start ++ tokensText ts) = start ∧ ScansPattern true ts
  | inClass, .leave :: ts => inClass = true ∧ ScansPattern false ts
  | inClass, .escape _ :: ts => ScansPattern inClass ts
  | inClass, .plain c :: ts =>
    (inClass = true ∧ c ≠ ']' ∨ inClass = false ∧ c ≠ '[' ∧ ∀ letters close rest,
      IsFlagGroup letters close → c :: tokensText ts ≠ '(' :: '?' :: (letters ++ close :: rest)) ∧
      (c = '\x5c' → ts = []) ∧ ScansPattern inClass ts

/-- A token, whether it is in a bracket expression, and what it becomes. -/
structure TokenRewrite where
  inClass : Bool
  token : PatternToken
  out : List Char

/-- What tokens become. -/
def rewriteTokens : (inClass dash : Bool) → List PatternToken → List TokenRewrite
  | _, _, [] => []
  | inClass, dash, t :: ts =>
    match t with
    | .flags _ close =>
      ⟨inClass, t, if close = ':' then ['('] else []⟩ :: rewriteTokens inClass dash ts
    | .enter _ => ⟨inClass, t, t.text⟩ :: rewriteTokens true false ts
    | .leave => ⟨inClass, t, if dash then ['-', ']'] else [']']⟩ :: rewriteTokens false false ts
    | .escape c =>
      ⟨inClass, t, rewriteEscape inClass c (tokensText ts)⟩ ::
        rewriteTokens inClass (dash || inClass && c = '-') ts
    | .plain _ => ⟨inClass, t, t.text⟩ :: rewriteTokens inClass dash ts

/-- A character after a backslash is an idiom: a slash or a control character anywhere, an anchor
outside bracket expressions, and in one a character that needs no backslash there. -/
def IsIdiomEscape (inClass : Bool) (esc : Char) (following : List Char) : Prop :=
  esc ∈ ['/', 'n', 't', 'r', 'f', 'v'] ∨
    (esc = '0' ∧ ∀ c ∈ following.head?, ¬ ('0' ≤ c ∧ c ≤ '7')) ∨
    (inClass = false ∧ esc ∈ ['A', 'z', 'Z']) ∨ (inClass = true ∧ esc ∈ '-' :: bracketEscapes)

/-- No token is an idiom. -/
def HasNoIdioms : (inClass : Bool) → List PatternToken → Prop
  | _, [] => True
  | _, .flags _ _ :: _ => False
  | _, .enter _ :: ts => HasNoIdioms true ts
  | _, .leave :: ts => HasNoIdioms false ts
  | inClass, .escape c :: ts => ¬ IsIdiomEscape inClass c (tokensText ts) ∧ HasNoIdioms inClass ts
  | inClass, .plain _ :: ts => HasNoIdioms inClass ts

/-! ### Groups of flags -/

section Flags

variable {letters rest t : List Char} {close c : Char} {negating icase newline i m : Bool}

theorem readFlags_append (hletters : ∀ c ∈ letters, c ∈ "imx-".toList)
    (hclose : close = ':' ∨ close = ')') (negating icase newline : Bool) (rest : List Char) :
    ∃ i m, readFlags negating icase newline (letters ++ close :: rest) =
      some (i, m, close :: rest) := by
  induction letters generalizing negating icase newline with
  | nil => exact ⟨icase, newline, if_pos hclose⟩
  | cons c letters ih =>
    rw [List.forall_mem_cons] at hletters
    have hc : c = 'i' ∨ c = 'm' ∨ c = 'x' ∨ c = '-' := by simpa using hletters.1
    rcases hc with rfl | rfl | rfl | rfl
    · exact ih hletters.2 ..
    · exact ih hletters.2 ..
    · exact ih hletters.2 ..
    · exact ih hletters.2 ..

theorem exists_letters_of_readFlags (h : readFlags negating icase newline t = some (i, m, rest)) :
    ∃ letters close u, (∀ c ∈ letters, c ∈ "imx-".toList) ∧ (close = ':' ∨ close = ')') ∧
      t = letters ++ close :: u ∧ rest = close :: u := by
  induction t generalizing negating icase newline with
  | nil => cases h
  | cons c t ih =>
    rw [readFlags] at h
    split_ifs at h with hclose hi hm hx hdash
    · cases h
      exact ⟨[], c, t, fun c hc ↦ (by cases hc), hclose, rfl, rfl⟩
    all_goals
      obtain ⟨letters, close, u, hletters, hclose', rfl, rfl⟩ := ih h
      refine ⟨c :: letters, close, u, List.forall_mem_cons.2 ⟨?_, hletters⟩, hclose', rfl, rfl⟩
      simp [*]

/-- A group of flags is found where its letters and its end stand. -/
theorem flagGroup_append (h : IsFlagGroup letters close) (rest : List Char) :
    ∃ i m, flagGroup ('(' :: '?' :: (letters ++ close :: rest)) = some (i, m, close :: rest) := by
  obtain ⟨c, cs, rfl⟩ := List.exists_cons_of_ne_nil h.ne_nil
  have hc : c = 'i' ∨ c = 'm' ∨ c = 'x' ∨ c = '-' := by
    simpa using h.letters c List.mem_cons_self
  obtain ⟨i, m, hread⟩ := readFlags_append h.letters h.close false false false rest
  refine ⟨i, m, ?_⟩
  rw [List.cons_append] at hread ⊢
  rw [flagGroup, if_pos hc, hread]

theorem exists_letters_of_flagGroup (h : flagGroup t = some (i, m, rest)) :
    ∃ letters close u, IsFlagGroup letters close ∧ t = '(' :: '?' :: (letters ++ close :: u) ∧
      rest = close :: u := by
  unfold flagGroup at h
  split at h
  · next c t =>
    split_ifs at h with hc
    obtain ⟨letters, close, u, hletters, hclose, ht, rfl⟩ := exists_letters_of_readFlags h
    refine ⟨letters, close, u, ⟨?_, hletters, hclose⟩, by rw [ht], rfl⟩
    rintro rfl
    cases ht
    rcases hclose with rfl | rfl <;> revert hc <;> decide
  · cases h

end Flags

/-! ### Patterns token by token -/

section Rewriting

variable {inClass dash i m : Bool} {c esc : Char} {t u src rest : List Char}
  {ts : List PatternToken}

theorem rewriteIdioms_nil (inClass dash : Bool) :
    rewriteIdioms inClass dash [] = ⟨[], false, false⟩ := by
  rw [rewriteIdioms]
  cases inClass <;> rfl

theorem rewriteIdioms_flags (h : flagGroup src = some (i, m, rest)) (dash : Bool) :
    rewriteIdioms false dash src =
      ((rewriteIdioms false dash (rest.drop 1)).raise i m).emit
        (if rest.head? = some ':' then ['('] else []) := by
  rw [rewriteIdioms]
  split
  · next i' m' rest' h' =>
    have h'' : flagGroup src = some (i', m', rest') := h'
    rw [h] at h''
    cases h''
    rfl
  · next h' =>
    have h'' : flagGroup src = none := h'
    rw [h] at h''
    cases h''

theorem rewriteIdioms_enter (dash : Bool) (t : List Char) :
    rewriteIdioms false dash ('[' :: t) =
      (rewriteIdioms true false (t.drop (bracketStart t).length)).emit ('[' :: bracketStart t) := by
  rw [rewriteIdioms]
  rfl

theorem rewriteIdioms_leave (dash : Bool) (t : List Char) :
    rewriteIdioms true dash (']' :: t) =
      (rewriteIdioms false false t).emit (if dash then ['-', ']'] else [']']) := by
  rw [rewriteIdioms]
  rfl

theorem rewriteIdioms_escape (inClass dash : Bool) (esc : Char) (u : List Char) :
    rewriteIdioms inClass dash ('\x5c' :: esc :: u) =
      (rewriteIdioms inClass (dash || inClass && esc = '-') u).emit
        (rewriteEscape inClass esc u) := by
  rw [rewriteIdioms]
  cases inClass <;> rfl

theorem rewriteIdioms_backslash (inClass dash : Bool) :
    rewriteIdioms inClass dash ['\x5c'] = ⟨['\x5c'], false, false⟩ := by
  rw [rewriteIdioms]
  cases inClass <;> rfl

/-- A character that starts nothing is copied. -/
theorem rewriteIdioms_plain (hflags : inClass = false → flagGroup (c :: t) = none)
    (hopen : ¬ (inClass = false ∧ c = '[')) (hclose : ¬ (inClass = true ∧ c = ']'))
    (hback : c ≠ '\x5c') (dash : Bool) :
    rewriteIdioms inClass dash (c :: t) = (rewriteIdioms inClass dash t).emit [c] := by
  have hnone : (if inClass then none else flagGroup (c :: t)) = none := by
    cases inClass with
    | true => rfl
    | false => exact hflags rfl
  have hopen' : ¬ (!inClass && decide (c = '[')) = true := by
    rw [Bool.and_eq_true, Bool.not_eq_true', decide_eq_true_eq]
    exact hopen
  have hclose' : ¬ (inClass && decide (c = ']')) = true := by
    rw [Bool.and_eq_true, decide_eq_true_eq]
    exact hclose
  rw [rewriteIdioms]
  split
  · next h =>
    rw [hnone] at h
    cases h
  · dsimp only
    rw [if_neg hopen', if_neg hclose', if_neg hback]

/-- A pattern is rewritten token by token. -/
theorem rewriteIdioms_eq (h : ScansPattern inClass ts) (dash : Bool) :
    (rewriteIdioms inClass dash (tokensText ts)).text =
      (rewriteTokens inClass dash ts).flatMap TokenRewrite.out := by
  induction ts generalizing inClass dash with
  | nil => rw [tokensText, List.flatMap_nil, rewriteIdioms_nil]; rfl
  | cons t ts ih =>
    cases t with
    | flags letters close =>
      obtain ⟨rfl, hgroup, hts⟩ := h
      have htext : tokensText (.flags letters close :: ts) =
          '(' :: '?' :: (letters ++ close :: tokensText ts) := by
        simp [tokensText, PatternToken.text]
      obtain ⟨i, m, hflags⟩ := flagGroup_append hgroup (tokensText ts)
      rw [htext, rewriteIdioms_flags hflags, PosixPattern.emit_text, PosixPattern.raise_text,
        List.drop_one, List.tail_cons, ih hts, List.head?_cons]
      simp [rewriteTokens]
    | enter start =>
      obtain ⟨rfl, hstart, hts⟩ := h
      have htext : tokensText (.enter start :: ts) = '[' :: (start ++ tokensText ts) := rfl
      rw [htext, rewriteIdioms_enter, hstart, List.drop_left, PosixPattern.emit_text, ih hts]
      rfl
    | leave =>
      obtain ⟨rfl, hts⟩ := h
      have htext : tokensText (.leave :: ts) = ']' :: tokensText ts := rfl
      rw [htext, rewriteIdioms_leave, PosixPattern.emit_text, ih hts]
      rfl
    | escape c =>
      have hts : ScansPattern inClass ts := h
      have htext : tokensText (.escape c :: ts) = '\x5c' :: c :: tokensText ts := rfl
      rw [htext, rewriteIdioms_escape, PosixPattern.emit_text, ih hts]
      rfl
    | plain c =>
      obtain ⟨hc, hlast, hts⟩ := h
      have htext : tokensText (.plain c :: ts) = c :: tokensText ts := rfl
      by_cases hback : c = '\x5c'
      · rw [htext, hlast hback, hback]
        exact congrArg PosixPattern.text (rewriteIdioms_backslash inClass dash)
      have hflags : inClass = false → flagGroup (c :: tokensText ts) = none := by
        rintro rfl
        obtain ⟨-, -, hgroup⟩ := hc.resolve_left fun h ↦ Bool.false_ne_true h.1
        by_contra hsome
        obtain ⟨⟨i, m, rest⟩, hsome⟩ := Option.ne_none_iff_exists'.1 hsome
        obtain ⟨letters, close, u, hflag, heq, -⟩ := exists_letters_of_flagGroup hsome
        exact hgroup letters close u hflag heq
      have hopen : ¬ (inClass = false ∧ c = '[') := by
        rintro ⟨rfl, rfl⟩
        exact (hc.resolve_left fun h ↦ Bool.false_ne_true h.1).2.1 rfl
      have hclose : ¬ (inClass = true ∧ c = ']') := by
        rintro ⟨rfl, rfl⟩
        exact (hc.resolve_right fun h ↦ Bool.false_ne_true h.1.symm).2 rfl
      rw [htext, rewriteIdioms_plain hflags hopen hclose hback, PosixPattern.emit_text, ih hts]
      rfl

theorem bracketStart_append (t : List Char) :
    bracketStart t ++ t.drop (bracketStart t).length = t := by
  unfold bracketStart
  rcases t with _ | ⟨c, _ | ⟨d, t⟩⟩
  · rfl
  · simp only [List.head?_cons, Option.some.injEq]
    split_ifs with h₁ h₂ h₂ <;> simp_all
  · simp only [List.head?_cons, Option.some.injEq]
    split_ifs with h₁ h₂ h₂ <;> simp_all

/-- Every pattern consists of tokens. -/
theorem exists_scans (inClass : Bool) (p : List Char) :
    ∃ ts, ScansPattern inClass ts ∧ tokensText ts = p := by
  induction hn : p.length using Nat.strongRecOn generalizing inClass p with
  | _ n ih =>
    have hrest (inClass : Bool) {q : List Char} (hq : q.length < p.length) :
        ∃ ts, ScansPattern inClass ts ∧ tokensText ts = q := ih q.length (hn ▸ hq) inClass q rfl
    by_cases hgroup : inClass = false ∧ ∃ letters close rest, IsFlagGroup letters close ∧
        p = '(' :: '?' :: (letters ++ close :: rest)
    · obtain ⟨rfl, letters, close, rest, hflag, rfl⟩ := hgroup
      obtain ⟨ts, hts, rfl⟩ := hrest false (q := rest) (by simp; omega)
      exact ⟨.flags letters close :: ts, ⟨rfl, hflag, hts⟩, by simp [tokensText, PatternToken.text]⟩
    rcases p with _ | ⟨c, t⟩
    · exact ⟨[], trivial, rfl⟩
    by_cases hopen : inClass = false ∧ c = '['
    · obtain ⟨rfl, rfl⟩ := hopen
      obtain ⟨ts, hts, htext⟩ := hrest true (q := t.drop (bracketStart t).length)
        (by simp only [List.length_drop, List.length_cons]; omega)
      have hstart := bracketStart_append t
      rw [← htext] at hstart
      refine ⟨.enter (bracketStart t) :: ts, ⟨rfl, by rw [hstart], hts⟩, ?_⟩
      change '[' :: (bracketStart t ++ tokensText ts) = _
      rw [hstart]
    by_cases hclose : inClass = true ∧ c = ']'
    · obtain ⟨rfl, rfl⟩ := hclose
      obtain ⟨ts, hts, rfl⟩ := hrest false (q := t) (by simp)
      exact ⟨.leave :: ts, ⟨rfl, hts⟩, rfl⟩
    have hplain {ts : List PatternToken} (ht : tokensText ts = t) :
        inClass = true ∧ c ≠ ']' ∨ inClass = false ∧ c ≠ '[' ∧ ∀ letters close rest,
          IsFlagGroup letters close → c :: tokensText ts ≠ '(' :: '?' :: (letters ++ close :: rest) := by
      cases inClass with
      | true => exact Or.inl ⟨rfl, fun hc ↦ hclose ⟨rfl, hc⟩⟩
      | false =>
        refine Or.inr ⟨rfl, fun hc ↦ hopen ⟨rfl, hc⟩, fun letters close rest hflag heq ↦ ?_⟩
        exact hgroup ⟨rfl, letters, close, rest, hflag, ht ▸ heq⟩
    by_cases hback : c = '\x5c'
    · subst hback
      rcases t with _ | ⟨esc, u⟩
      · exact ⟨[.plain '\x5c'], ⟨hplain rfl, fun _ ↦ rfl, trivial⟩, rfl⟩
      · obtain ⟨ts, hts, rfl⟩ := hrest inClass (q := u) (by simp only [List.length_cons]; omega)
        exact ⟨.escape esc :: ts, hts, rfl⟩
    · obtain ⟨ts, hts, ht⟩ := hrest inClass (q := t) (by simp)
      refine ⟨.plain c :: ts, ⟨hplain ht, fun hc ↦ absurd hc hback, hts⟩, ?_⟩
      rw [← ht]
      rfl

end Rewriting

/-! ### What is rewritten -/

section Idioms

variable {inClass dash : Bool} {esc : Char} {following : List Char} {ts : List PatternToken}

/-- Idioms become shorter; a dash in a bracket expression comes to nothing at first. -/
theorem rewriteEscape_idiom (h : IsIdiomEscape inClass esc following) :
    (rewriteEscape inClass esc following).length +
      (if inClass = true ∧ esc = '-' then 1 else 0) ≤ 1 := by
  rcases h with h | ⟨rfl, h⟩ | ⟨rfl, h⟩ | ⟨rfl, h⟩
  · simp only [List.mem_cons, List.not_mem_nil, or_false] at h
    rcases h with rfl | rfl | rfl | rfl | rfl | rfl <;> cases inClass <;> exact Nat.le_refl 1
  · have hnone : ¬ (following.head?.any fun c ↦ '0' ≤ c ∧ c ≤ '7') = true := by
      rw [Option.any_eq_true]
      rintro ⟨c, hc, hdigit⟩
      exact h c hc (of_decide_eq_true hdigit)
    have hnil : rewriteEscape inClass '0' following = [] := by
      have hanchor : ¬ (!inClass && decide ('0' = 'A')) = true := by cases inClass <;> decide
      have hend : ¬ (!inClass && (decide ('0' = 'z') || decide ('0' = 'Z'))) = true := by
        cases inClass <;> decide
      rw [rewriteEscape, if_neg (by decide), if_neg hanchor, if_neg hend, if_neg (by decide),
        if_neg (by decide), if_neg (by decide), if_neg (by decide), if_neg (by decide),
        if_pos ⟨rfl, hnone⟩]
    rw [hnil, if_neg fun h ↦ by cases h.2]
    exact Nat.zero_le 1
  · simp only [List.mem_cons, List.not_mem_nil, or_false] at h
    rcases h with rfl | rfl | rfl <;> exact Nat.le_refl 1
  · simp only [bracketEscapes, List.mem_cons, List.not_mem_nil, or_false] at h
    rcases h with rfl | rfl | rfl | rfl | rfl | rfl | rfl | rfl | rfl | rfl | rfl | rfl | rfl <;>
      exact Nat.le_refl 1

/-- What is no idiom is copied. -/
theorem rewriteEscape_of_not_idiom (h : ¬ IsIdiomEscape inClass esc following) :
    rewriteEscape inClass esc following = ['\x5c', esc] := by
  rw [IsIdiomEscape, not_or, not_or, not_or, not_and, not_and, not_and] at h
  obtain ⟨hany, hzero, houtside, hinside⟩ := h
  simp only [List.mem_cons, List.not_mem_nil, or_false, not_or] at hany houtside
  obtain ⟨h₁, h₂, h₃, h₄, h₅, h₆⟩ := hany
  have hanchor (c : Char) (hc : inClass = false → esc ≠ c) : ¬ (!inClass && esc = c) = true := by
    rw [Bool.and_eq_true, Bool.not_eq_true', decide_eq_true_eq]
    exact fun h ↦ hc h.1 h.2
  have hend : ¬ (!inClass && (esc = 'z' || esc = 'Z')) = true := by
    rw [Bool.and_eq_true, Bool.not_eq_true', Bool.or_eq_true, decide_eq_true_eq, decide_eq_true_eq]
    rintro ⟨hc, h | h⟩
    · exact (houtside hc).2.1 h
    · exact (houtside hc).2.2 h
  have hnul : ¬ (esc = '0' ∧ ¬ (following.head?.any fun c ↦ '0' ≤ c ∧ c ≤ '7') = true) := by
    rintro ⟨hc, hnone⟩
    refine hzero hc fun c hc hdigit ↦ hnone ?_
    rw [Option.any_eq_true]
    exact ⟨c, hc, decide_eq_true hdigit⟩
  have hdash : ¬ (inClass && esc = '-') = true := by
    rw [Bool.and_eq_true, decide_eq_true_eq]
    exact fun h ↦ hinside h.1 (h.2 ▸ List.mem_cons_self)
  have hneedless : ¬ (inClass && bracketEscapes.contains esc) = true := by
    rw [Bool.and_eq_true, List.contains_iff_mem]
    exact fun h ↦ hinside h.1 (List.mem_cons_of_mem _ h.2)
  rw [rewriteEscape, if_neg h₁, if_neg (hanchor 'A' fun hc ↦ (houtside hc).1), if_neg hend,
    if_neg h₂, if_neg h₃, if_neg h₄, if_neg h₅, if_neg h₆, if_neg hnul, if_neg hdash,
    if_neg hneedless]

/-- A dash is kept if it was before, or if it is an idiom itself. -/
theorem dash_le (inClass dash : Bool) (c : Char) :
    (if dash || inClass && c = '-' then 1 else 0) ≤
      (if dash then 1 else 0) + if inClass = true ∧ c = '-' then 1 else 0 := by
  cases dash <;> cases inClass <;> by_cases hc : c = '-' <;> simp [hc]

/-- The text that is written is no longer than what it is written for and a dash that is kept, and
shorter if there is an idiom. -/
theorem length_rewriteTokens (inClass dash : Bool) (ts : List PatternToken) :
    ((rewriteTokens inClass dash ts).flatMap TokenRewrite.out).length ≤
        (tokensText ts).length + (if dash then 1 else 0) ∧
      (¬ HasNoIdioms inClass ts →
        ((rewriteTokens inClass dash ts).flatMap TokenRewrite.out).length <
          (tokensText ts).length + if dash then 1 else 0) := by
  induction ts generalizing inClass dash with
  | nil => exact ⟨Nat.zero_le _, fun h ↦ absurd trivial h⟩
  | cons t ts ih =>
    have htext : (tokensText (t :: ts)).length = t.text.length + (tokensText ts).length := by
      rw [tokensText, List.flatMap_cons, List.length_append, ← tokensText]
    cases t with
    | flags letters close =>
      have hout : (if close = ':' then ['('] else []).length ≤ 1 := by split_ifs <;> simp
      have hle := (ih inClass dash).1
      rw [htext, rewriteTokens, List.flatMap_cons, List.length_append]
      simp only [PatternToken.text, List.length_cons, List.length_append, List.length_nil]
      exact ⟨by omega, fun _ ↦ by omega⟩
    | enter start =>
      obtain ⟨hle, hlt⟩ := ih true false
      simp only [Bool.false_eq_true, if_false, Nat.add_zero] at hle hlt
      rw [htext, rewriteTokens, List.flatMap_cons, List.length_append]
      dsimp only
      refine ⟨by omega, fun h ↦ ?_⟩
      have := hlt h
      omega
    | leave =>
      obtain ⟨hle, hlt⟩ := ih false false
      simp only [Bool.false_eq_true, if_false, Nat.add_zero] at hle hlt
      have hout : (if dash then ['-', ']'] else [']']).length = 1 + if dash then 1 else 0 := by
        cases dash <;> rfl
      rw [htext, rewriteTokens, List.flatMap_cons, List.length_append, hout, PatternToken.text,
        List.length_singleton]
      refine ⟨by omega, fun h ↦ ?_⟩
      have := hlt h
      omega
    | plain c =>
      obtain ⟨hle, hlt⟩ := ih inClass dash
      rw [htext, rewriteTokens, List.flatMap_cons, List.length_append]
      dsimp only
      refine ⟨by omega, fun h ↦ ?_⟩
      have := hlt h
      omega
    | escape c =>
      obtain ⟨hle, hlt⟩ := ih inClass (dash || inClass && c = '-')
      rw [htext, rewriteTokens, List.flatMap_cons, List.length_append, PatternToken.text]
      simp only [List.length_cons, List.length_nil]
      by_cases hc : IsIdiomEscape inClass c (tokensText ts)
      · have hout := rewriteEscape_idiom hc
        have hdash := dash_le inClass dash c
        exact ⟨by omega, fun _ ↦ by omega⟩
      · have hdash : (dash || inClass && decide (c = '-')) = dash := by
          have hno : (inClass && decide (c = '-')) = false := by
            rw [← Bool.not_eq_true, Bool.and_eq_true, decide_eq_true_eq]
            exact fun h ↦ hc (Or.inr (Or.inr (Or.inr ⟨h.1, h.2 ▸ List.mem_cons_self⟩)))
          rw [hno, Bool.or_false]
        rw [hdash] at hle hlt ⊢
        rw [rewriteEscape_of_not_idiom hc]
        simp only [List.length_cons, List.length_nil]
        refine ⟨by omega, fun h ↦ ?_⟩
        have hts : ¬ HasNoIdioms inClass ts := fun hts ↦ h ⟨hc, hts⟩
        have := hlt hts
        omega

/-- Patterns without idioms stay as they are. -/
theorem flatMap_out_of_hasNoIdioms (h : HasNoIdioms inClass ts) :
    (rewriteTokens inClass false ts).flatMap TokenRewrite.out = tokensText ts := by
  induction ts generalizing inClass with
  | nil => rfl
  | cons t ts ih =>
    cases t with
    | flags letters close => exact h.elim
    | enter start => exact congrArg (('[' :: start) ++ ·) (ih (show HasNoIdioms true ts from h))
    | leave => exact congrArg ([']'] ++ ·) (ih (show HasNoIdioms false ts from h))
    | plain c => exact congrArg ([c] ++ ·) (ih (show HasNoIdioms inClass ts from h))
    | escape c =>
      obtain ⟨hc, hts⟩ := h
      have hdash : (false || inClass && decide (c = '-')) = false := by
        rw [Bool.false_or, ← Bool.not_eq_true, Bool.and_eq_true, decide_eq_true_eq]
        exact fun h ↦ hc (Or.inr (Or.inr (Or.inr ⟨h.1, h.2 ▸ List.mem_cons_self⟩)))
      rw [rewriteTokens, hdash, List.flatMap_cons, ih hts, rewriteEscape_of_not_idiom hc]
      rfl

end Idioms

/-! ### Every pattern -/

/-- What may become of a token: an escaped backslash is copied, and in a bracket expression only
characters after a backslash are rewritten, and a dash of theirs is written before its end. -/
structure TokenRewrite.IsCareful (r : TokenRewrite) : Prop where
  backslash : r.token = .escape '\x5c' → r.out = r.token.text
  leave : r.inClass = true → r.token = .leave → r.out = [']'] ∨ r.out = ['-', ']']
  inside : r.inClass = true → r.token ≠ .leave → (∀ c, r.token ≠ .escape c) → r.out = r.token.text

/-- Tokens are rewritten in this way, one after the other. -/
theorem isCareful_rewriteTokens {inClass : Bool} {ts : List PatternToken}
    (h : ScansPattern inClass ts) (dash : Bool) :
    (rewriteTokens inClass dash ts).map TokenRewrite.token = ts ∧
      ∀ r ∈ rewriteTokens inClass dash ts, r.IsCareful := by
  induction ts generalizing inClass dash with
  | nil => exact ⟨rfl, fun r hr ↦ by cases hr⟩
  | cons t ts ih =>
    cases t with
    | flags letters close =>
      obtain ⟨rfl, -, hts⟩ := h
      obtain ⟨hmap, hall⟩ := ih hts dash
      refine ⟨congrArg (_ :: ·) hmap, List.forall_mem_cons.2 ⟨⟨?_, ?_, ?_⟩, hall⟩⟩
      · exact fun h ↦ by cases h
      · exact fun h ↦ by cases h
      · exact fun h ↦ by cases h
    | enter start =>
      obtain ⟨rfl, -, hts⟩ := h
      obtain ⟨hmap, hall⟩ := ih hts false
      exact ⟨congrArg (_ :: ·) hmap, List.forall_mem_cons.2
        ⟨⟨fun _ ↦ rfl, fun _ h ↦ (by cases h), fun _ _ _ ↦ rfl⟩, hall⟩⟩
    | leave =>
      obtain ⟨rfl, hts⟩ := h
      obtain ⟨hmap, hall⟩ := ih hts false
      refine ⟨congrArg (_ :: ·) hmap, List.forall_mem_cons.2
        ⟨⟨fun h ↦ (by cases h), fun _ _ ↦ ?_, fun _ h ↦ absurd rfl h⟩, hall⟩⟩
      cases dash with
      | true => exact Or.inr rfl
      | false => exact Or.inl rfl
    | plain c =>
      obtain ⟨hmap, hall⟩ := ih h.2.2 dash
      exact ⟨congrArg (_ :: ·) hmap, List.forall_mem_cons.2
        ⟨⟨fun _ ↦ rfl, fun _ h ↦ (by cases h), fun _ _ _ ↦ rfl⟩, hall⟩⟩
    | escape c =>
      have hts : ScansPattern inClass ts := h
      obtain ⟨hmap, hall⟩ := ih hts (dash || inClass && c = '-')
      refine ⟨congrArg (_ :: ·) hmap, List.forall_mem_cons.2
        ⟨⟨fun h ↦ ?_, fun _ h ↦ (by cases h), fun _ _ h ↦ absurd rfl (h c)⟩, hall⟩⟩
      cases h
      cases inClass <;> rfl

end PuppetC
