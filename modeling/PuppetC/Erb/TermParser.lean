import PuppetC.Erb.RubyErb

/-!
# The term parser reads what Ruby reads

A term that is written as Ruby reads it is parsed by `parse_expression` of the native engine, as
the same term.

## Main definitions

* `RubyTerm.expr`: the expression that the native engine makes of a term.

## Main results

* `parseExpression_of_fills`: a term that stands in a tag is parsed.
-/

namespace PuppetC.NativeErb

variable {gap rest : List Char} {c : Char} {double : Bool} {body : List Char}

/-- A term, for the native engine. -/
def RubyTerm.expr : RubyTerm → ErbExpr
  | .literal _ body => .literal (String.ofList (decodeLiteral body))
  | .instanceVariable name => .variable (String.ofList name)
  | .bareWord name => .variable (String.ofList name)
  | .scopeIndex _ _ _ body _ => .scopeLookup (String.ofList (decodeLiteral body)) true
  | .lookupvar _ _ _ body _ => .scopeLookup (String.ofList (decodeLiteral body)) false
  | .index target _ _ key _ => .index target.expr key.expr

/-! ### White space -/

theorem skipWs_append (h : isGap gap) (rest : List Char) : skipWs (gap ++ rest) = skipWs rest :=
  List.dropWhile_append_of_pos (List.all_eq_true.1 h)

theorem skipWs_cons (h : isSpace c = false) (rest : List Char) :
    skipWs (c :: rest) = c :: rest :=
  List.dropWhile_cons_of_neg (by simp [h])

@[simp] theorem skipWs_skipWs (cs : List Char) : skipWs (skipWs cs) = skipWs cs :=
  List.dropWhile_idempotent _ cs

theorem consume_append (h : isGap gap) (hc : isSpace c = false) (rest : List Char) :
    consume c (gap ++ c :: rest) = some rest := by
  rw [consume, skipWs_append h, skipWs_cons hc]
  exact if_pos rfl

theorem consume_congr {cs cs' : List Char} (h : skipWs cs = skipWs cs') :
    consume c cs = consume c cs' := by
  rw [consume, consume, h]

/-! ### Literals -/

theorem isSpace_quoteChar (double : Bool) : isSpace (quoteChar double) = false := by
  cases double <;> decide

theorem scanLiteral_quote (quote : Char) (rest : List Char) :
    scanLiteral quote (quote :: rest) = some ([], rest) := by
  cases rest with
  | nil => simp [scanLiteral]
  | cons d rest => simp [scanLiteral]

/-- The scan of a literal ends at its closing quote. -/
theorem scanLiteral_body (h : isBody double body) (rest : List Char) :
    scanLiteral (quoteChar double) (body ++ quoteChar double :: rest) = some (body, rest) := by
  fun_induction isBody double body with
  | case1 => exact scanLiteral_quote _ rest
  | case2 c =>
    simp only [Bool.and_eq_true, decide_eq_true_eq] at h
    have hinterp : ¬ (quoteChar double = '"' ∧ c = '#' ∧ quoteChar double = '\x7b') := by
      cases double <;> simp [quoteChar]
    simp only [List.cons_append, List.nil_append, scanLiteral, h.1, h.2, hinterp, if_false,
      scanLiteral_quote, Option.map_some]
  | case3 d cs ih =>
    have hquote : '\\' ≠ quoteChar double := by cases double <;> decide
    simp only [List.cons_append, scanLiteral, hquote, if_false, if_true, ih h, Option.map_some]
  | case4 c d cs hc ih =>
    simp only [Bool.and_eq_true, Bool.not_eq_true', decide_eq_true_eq] at h
    obtain ⟨⟨⟨hquote, -⟩, hinterp⟩, hrest⟩ := h
    have hinterp' : ¬ (quoteChar double = '"' ∧ c = '#' ∧ d = '\x7b') := by
      cases double <;> simp_all [quoteChar]
    simp only [List.cons_append, scanLiteral, hquote, hc, hinterp', if_false]
    rw [← List.cons_append, ih hrest, Option.map_some]

theorem parseStringLiteral_quoted (hgap : isGap gap) (h : isBody double body)
    (rest : List Char) :
    parseStringLiteral (gap ++ (quoted double body ++ rest)) =
      some (String.ofList (decodeLiteral body), rest) := by
  rw [quoted, List.cons_append, List.append_assoc, List.singleton_append, parseStringLiteral,
    skipWs_append hgap, skipWs_cons (isSpace_quoteChar double)]
  have hquote : quoteChar double = '\'' ∨ quoteChar double = '"' := by
    cases double <;> simp [quoteChar]
  simp only [hquote, if_true, scanLiteral_body h, Option.map_some]

theorem parseKey_quoted {gap' : List Char} (hgap : isGap gap) (h : isBody double body)
    (hgap' : isGap gap') (hc : isSpace c = false) (rest : List Char) :
    parseKey c (gap ++ (quoted double body ++ (gap' ++ c :: rest))) =
      some (String.ofList (decodeLiteral body), rest) := by
  rw [parseKey, parseStringLiteral_quoted hgap h]
  simp only [consume_append hgap' hc, Option.map_some]

/-! ### Identifiers -/

/-- What can follow a term: white space, a bracket, or nothing. -/
def Follows (rest : List Char) : Prop :=
  ∀ c, (skipWs rest).head? = some c → c = '[' ∨ c = ']'

theorem not_isSpace_of_isIdentChar (h : isIdentChar c) : isSpace c = false := by
  rw [Bool.eq_false_iff]
  intro hspace
  have hcases : c = ' ' ∨ c = '\t' ∨ c = '\n' ∨ c = '\x0b' ∨ c = '\x0c' ∨ c = '\r' := by
    simpa [isSpace, or_assoc] using hspace
  rcases hcases with rfl | rfl | rfl | rfl | rfl | rfl <;> revert h <;> decide

theorem isIdentChar_of_isIdentStart (h : isIdentStart c) : isIdentChar c := by
  simp only [isIdentStart, isIdentChar, Char.isAlphanum, Bool.or_eq_true, decide_eq_true_eq] at h ⊢
  exact h.imp .inl id

theorem Follows.head (h : Follows rest) (hc : rest.head? = some c) :
    isSpace c = true ∨ c = '[' ∨ c = ']' := by
  cases hspace : isSpace c with
  | true => exact .inl rfl
  | false =>
    obtain ⟨ds, rfl⟩ := List.head?_eq_some_iff.1 hc
    rw [Follows, skipWs_cons hspace] at h
    exact .inr (h c rfl)

/-- An identifier ends where it does. -/
theorem Follows.not_isIdentChar (h : Follows rest) (hc : rest.head? = some c) :
    isIdentChar c = false := by
  rw [Bool.eq_false_iff]
  intro hident
  rcases h.head hc with hspace | rfl | rfl
  · rw [not_isSpace_of_isIdentChar hident] at hspace
    cases hspace
  · revert hident
    decide
  · revert hident
    decide

theorem isIdent_iff {name : List Char} :
    isIdent name ↔ ∃ c cs, name = c :: cs ∧ isIdentStart c ∧ ∀ d ∈ name, isIdentChar d := by
  cases name with
  | nil => simp [isIdent]
  | cons c cs => simp [isIdent]

theorem parseIdent_append {name : List Char} (h : isIdent name) (hrest : Follows rest) :
    parseIdent (name ++ rest) = some (name, rest) := by
  obtain ⟨c, cs, rfl, hstart, hall⟩ := isIdent_iff.1 h
  have hspace := not_isSpace_of_isIdentChar (isIdentChar_of_isIdentStart hstart)
  have hend : ∀ d, rest.head? = some d → isIdentChar d = false :=
    fun d hd ↦ hrest.not_isIdentChar hd
  have htake : rest.takeWhile isIdentChar = [] ∧ rest.dropWhile isIdentChar = rest := by
    cases rest with
    | nil => exact ⟨rfl, rfl⟩
    | cons d ds =>
      have hd := hend d rfl
      exact ⟨List.takeWhile_cons_of_neg (by simp [hd]), List.dropWhile_cons_of_neg (by simp [hd])⟩
  rw [parseIdent, List.cons_append, skipWs_cons hspace]
  simp only [hstart, if_true, ← List.cons_append]
  rw [List.takeWhile_append_of_pos hall, List.dropWhile_append_of_pos hall, htake.1, htake.2,
    List.append_nil]

/-- A bare word that starts with `scope` goes on as a word. -/
theorem isIdentChar_of_afterScope {name cs : List Char} (hall : ∀ d ∈ name, isIdentChar d)
    (hname : String.ofList name ≠ "scope") (hrest : Follows rest)
    (h : afterScope (name ++ rest) = some cs) : ∃ d ds, cs = d :: ds ∧ isIdentChar d := by
  unfold afterScope at h
  split_ifs at h with hscope
  have hprefix := List.isPrefixOf_iff_prefix.1 hscope.1
  have hlong : 5 < name.length := by
    by_contra hshort
    obtain ⟨suffix, hsuffix⟩ := List.prefix_of_prefix_length_le (List.prefix_append name rest)
      hprefix (Nat.not_lt.1 hshort)
    cases suffix with
    | nil =>
      rw [List.append_nil] at hsuffix
      exact hname (by rw [hsuffix, String.ofList_toList])
    | cons d ds =>
      rw [← hsuffix, List.prefix_append_right_inj] at hprefix
      obtain ⟨after, rfl⟩ := hprefix
      have hd : d ∈ "scope".toList := hsuffix ▸ List.mem_append_right name List.mem_cons_self
      have hident : ∀ d ∈ ['s', 'c', 'o', 'p', 'e'], isIdentChar d := by
        simp only [List.forall_mem_cons]
        exact ⟨rfl, rfl, rfl, rfl, rfl, fun _ h ↦ nomatch h⟩
      have hchars : "scope".toList = ['s', 'c', 'o', 'p', 'e'] := rfl
      have hend := hrest.not_isIdentChar (c := d) rfl
      rw [hident d (hchars ▸ hd)] at hend
      cases hend
  obtain ⟨d, ds, hdrop⟩ := List.exists_cons_of_ne_nil (l := name.drop 5) (by simp; omega)
  have hd : isIdentChar d :=
    hall d (List.mem_of_mem_drop (hdrop ▸ List.mem_cons_self : d ∈ name.drop 5))
  rw [List.drop_append_of_le_length hlong.le, hdrop, List.cons_append,
    skipWs_cons (not_isSpace_of_isIdentChar hd), Option.some.injEq] at h
  exact ⟨d, _, h.symm, hd⟩

theorem parsePrimary_bareWord {name : List Char} (h : isIdent name)
    (hname : String.ofList name ∉ "scope" :: reservedWords) (hrest : Follows rest) :
    parsePrimary (name ++ rest) = some (.variable (String.ofList name), skipWs rest) := by
  rw [List.mem_cons, not_or] at hname
  have hbare : parseBareWord (name ++ rest) =
      some (.variable (String.ofList name), skipWs rest) := by
    have hnext : ¬ ((skipWs rest).head? = some '(' ∨ (skipWs rest).head? = some '.') := by
      rintro (hc | hc)
      · exact absurd (hrest _ hc) (by decide)
      · exact absurd (hrest _ hc) (by decide)
    rw [parseBareWord, parseIdent_append h hrest]
    simp only [hname.2, hnext, if_false]
  obtain ⟨c, cs, rfl, hstart, hall⟩ := isIdent_iff.1 h
  have hquote : ¬ (c = '\'' ∨ c = '"') := by
    rintro (rfl | rfl) <;> exact absurd hstart (by decide)
  have hat : c ≠ '@' := by
    rintro rfl
    exact absurd hstart (by decide)
  rw [List.cons_append, parsePrimary]
  simp only [hquote, hat, if_false]
  rw [← List.cons_append]
  cases hscope : afterScope (c :: cs ++ rest) with
  | none => exact hbare
  | some ds =>
    obtain ⟨d, ds, rfl, hd⟩ := isIdentChar_of_afterScope hall hname.1 hrest hscope
    have hbracket : d ≠ '[' := by
      rintro rfl
      exact absurd hd (by decide)
    have hdot : ¬ ".lookupvar(".toList.isPrefixOf (d :: ds) := by
      intro hprefix
      obtain ⟨_, heq⟩ := List.isPrefixOf_iff_prefix.1 hprefix
      rw [← (List.cons.inj heq).1] at hd
      exact absurd hd (by decide)
    simp only [List.head?_cons, Option.some.injEq, hbracket, if_false, hdot]
    exact hbare

/-! ### Terms -/

theorem afterScope_append (hgap : isGap gap) (hc : isSpace c = false)
    (hword : c.isAlphanum = false) (rest : List Char) :
    afterScope ("scope".toList ++ (gap ++ c :: rest)) = some (c :: rest) := by
  have hdrop : ("scope".toList ++ (gap ++ c :: rest)).drop 5 = gap ++ c :: rest :=
    List.drop_left' rfl
  have hhead : ¬ (gap ++ c :: rest).head?.any Char.isAlphanum := by
    cases gap with
    | nil => simp [hword]
    | cons g gs =>
      have hg : isSpace g = true := List.all_eq_true.1 hgap g List.mem_cons_self
      intro halnum
      rw [not_isSpace_of_isIdentChar (by simp only [isIdentChar]; simpa using .inl halnum)] at hg
      cases hg
  rw [afterScope, hdrop, if_pos ⟨List.isPrefixOf_iff_prefix.2 (List.prefix_append _ _), hhead⟩,
    skipWs_append hgap, skipWs_cons hc]

theorem parsePrimary_scope {cs rest : List Char}
    (h : afterScope ("scope".toList ++ cs) = some rest) :
    parsePrimary ("scope".toList ++ cs) =
      if rest.head? = some '[' then
        (parseKey ']' rest.tail).map fun r ↦ (.scopeLookup r.1 true, r.2)
      else if ".lookupvar(".toList.isPrefixOf rest then
        (parseKey ')' (rest.drop 11)).map fun r ↦ (.scopeLookup r.1 false, r.2)
      else parseBareWord ("scope".toList ++ cs) := by
  have hcons : "scope".toList ++ cs = 's' :: ("cope".toList ++ cs) := rfl
  rw [hcons] at h ⊢
  rw [parsePrimary, if_neg (by decide), if_neg (by decide), h]

/-- The terms other than indexes. -/
theorem parsePrimary_text {t : RubyTerm} (ht : t.IsTerm) (hrest : Follows rest)
    (hindex : ∀ target gap₁ gap₂ key gap₃, t ≠ .index target gap₁ gap₂ key gap₃) :
    ∃ rest', skipWs rest' = skipWs rest ∧ parsePrimary (t.text ++ rest) = some (t.expr, rest') := by
  cases t with
  | literal double body =>
    refine ⟨rest, rfl, ?_⟩
    have hgap : isGap [] := rfl
    have hliteral := parseStringLiteral_quoted hgap ht rest
    have hquote : quoteChar double = '\'' ∨ quoteChar double = '"' := by
      cases double <;> simp [quoteChar]
    rw [RubyTerm.text, quoted, List.cons_append, parsePrimary]
    simp only [hquote, if_true]
    rw [← List.cons_append, ← quoted]
    rw [List.nil_append] at hliteral
    rw [hliteral]
    rfl
  | instanceVariable name =>
    refine ⟨rest, rfl, ?_⟩
    simp only [RubyTerm.text, List.cons_append, parsePrimary]
    rw [if_neg (by decide), if_pos trivial, parseIdent_append ht hrest]
    rfl
  | bareWord name =>
    exact ⟨skipWs rest, skipWs_skipWs rest, parsePrimary_bareWord ht.1 ht.2 hrest⟩
  | scopeIndex gap₁ gap₂ double body gap₃ =>
    obtain ⟨h₁, h₂, hbody, h₃⟩ := ht
    have hgap₁ : isGap gap₁ := (Bool.and_eq_true_iff.1 h₁).1
    refine ⟨rest, rfl, ?_⟩
    simp only [RubyTerm.text, List.append_assoc, List.cons_append, List.nil_append]
    rw [parsePrimary_scope (afterScope_append hgap₁ (by decide) (by decide) _), List.head?_cons,
      if_pos rfl, List.tail_cons, parseKey_quoted h₂ hbody h₃ (by decide)]
    rfl
  | lookupvar gap₁ gap₂ double body gap₃ =>
    obtain ⟨h₁, h₂, hbody, h₃⟩ := ht
    refine ⟨rest, rfl, ?_⟩
    simp only [RubyTerm.text, List.append_assoc, List.cons_append, List.nil_append]
    have hscope := afterScope_append h₁ (c := '.') (by decide) (by decide)
      ("lookupvar(".toList ++ (gap₂ ++ (quoted double body ++ (gap₃ ++ ')' :: rest))))
    change parsePrimary ("scope".toList ++ (gap₁ ++ '.' :: ("lookupvar(".toList ++ _))) = _
    have hmethod : ".lookupvar(".toList.isPrefixOf ('.' :: ("lookupvar(".toList ++
        (gap₂ ++ (quoted double body ++ (gap₃ ++ ')' :: rest))))) :=
      List.isPrefixOf_iff_prefix.2 ⟨_, rfl⟩
    rw [parsePrimary_scope hscope, if_neg (by simp), if_pos hmethod]
    change (parseKey ')' (gap₂ ++ _)).map _ = _
    rw [parseKey_quoted h₂ hbody h₃ (by decide)]
    rfl
  | index target gap₁ gap₂ key gap₃ => exact absurd rfl (hindex _ _ _ _ _)

theorem Follows.bracket (hgap : isGap gap) (rest : List Char) : Follows (gap ++ '[' :: rest) := by
  intro c hc
  rw [skipWs_append hgap, skipWs_cons (by decide)] at hc
  exact .inl (Option.some.inj hc).symm

theorem Follows.close (hgap : isGap gap) (rest : List Char) : Follows (gap ++ ']' :: rest) := by
  intro c hc
  rw [skipWs_append hgap, skipWs_cons (by decide)] at hc
  exact .inr (Option.some.inj hc).symm

/-- The first character of a term is no white space. -/
theorem skipWs_text {t : RubyTerm} (ht : t.IsTerm) (rest : List Char) :
    skipWs (t.text ++ rest) = t.text ++ rest := by
  have hident {name : List Char} (h : isIdent name) (rest : List Char) :
      skipWs (name ++ rest) = name ++ rest := by
    obtain ⟨c, cs, rfl, hstart, -⟩ := isIdent_iff.1 h
    exact skipWs_cons (not_isSpace_of_isIdentChar (isIdentChar_of_isIdentStart hstart)) _
  induction t generalizing rest with
  | literal double body => exact skipWs_cons (isSpace_quoteChar double) _
  | instanceVariable name => exact skipWs_cons (by decide) _
  | bareWord name => exact hident ht.1 rest
  | scopeIndex => exact skipWs_cons (c := 's') (by decide) _
  | lookupvar => exact skipWs_cons (c := 's') (by decide) _
  | index target gap₁ gap₂ key gap₃ ihtarget =>
    rw [RubyTerm.text, List.append_assoc]
    exact ihtarget ht.1 _

/-- Behind a term the parser goes on with its indexes. -/
theorem parseTerm_text {t : RubyTerm} (ht : t.IsTerm) {fuel : ℕ} (hgap : isGap gap)
    (hrest : Follows rest) (hfuel : t.text.length ≤ fuel) :
    ∃ rest' k, skipWs rest' = skipWs rest ∧ fuel < k + t.text.length ∧
      parseTerm (fuel + 1) (gap ++ (t.text ++ rest)) =
        parseIndexes (parseTerm fuel) k t.expr rest' := by
  induction t generalizing gap rest fuel with
  | index target gap₁ gap₂ key gap₃ ihtarget ihkey =>
    obtain ⟨htarget, hkey, h₁, -, h₂, h₃⟩ := ht
    have hgap₁ : isGap gap₁ := (Bool.and_eq_true_iff.1 h₁).1
    simp only [RubyTerm.text, List.length_append, List.length_cons, List.length_nil] at hfuel
    obtain ⟨fuel, rfl⟩ := Nat.exists_eq_add_of_le' (show 1 ≤ fuel by omega)
    obtain ⟨rest₁, k₁, hskip₁, hk₁, heq₁⟩ := ihtarget htarget hgap
      (.bracket hgap₁ (gap₂ ++ (key.text ++ (gap₃ ++ ']' :: rest))))
      (show target.text.length ≤ fuel + 1 by omega)
    obtain ⟨rest₂, k₂, hskip₂, hk₂, heq₂⟩ := ihkey hkey h₂ (.close h₃ rest)
      (show key.text.length ≤ fuel by omega)
    obtain ⟨k, rfl⟩ := Nat.exists_eq_add_of_le' (show 1 ≤ k₁ by omega)
    obtain ⟨k', rfl⟩ := Nat.exists_eq_add_of_le' (show 1 ≤ k₂ by omega)
    refine ⟨rest, k, rfl, ?_, ?_⟩
    · simp only [RubyTerm.text, List.length_append, List.length_cons, List.length_nil]
      omega
    · have hopen : consume '[' rest₁ = some (gap₂ ++ (key.text ++ (gap₃ ++ ']' :: rest))) := by
        rw [consume_congr hskip₁, consume_append hgap₁ (by decide)]
      have hclose : skipWs rest₂ = ']' :: rest := by
        rw [hskip₂, skipWs_append h₃, skipWs_cons (by decide)]
      have hend : parseIndexes (parseTerm fuel) (k' + 1) key.expr rest₂ =
          some (key.expr, ']' :: rest) := by
        rw [parseIndexes, consume, hclose]
        rfl
      simp only [RubyTerm.text, List.append_assoc, List.cons_append, List.nil_append]
      rw [heq₁, parseIndexes, hopen]
      simp only [heq₂, hend]
      rfl
  | _ =>
    obtain ⟨rest', hskip, heq⟩ := parsePrimary_text ht hrest (by simp)
    refine ⟨rest', fuel + 1, hskip, by omega, ?_⟩
    rw [parseTerm, skipWs_append hgap, skipWs_text ht, heq]

/-- A term that stands in a tag is parsed. -/
theorem parseExpression_of_fills {t : RubyTerm} {inner : List Char} (h : t.Fills inner) :
    parseExpression inner = some t.expr := by
  obtain ⟨ht, gap₁, gap₂, h₁, h₂, rfl⟩ := h
  have hend : skipWs gap₂ = [] := by
    have hskip := skipWs_append h₂ []
    rwa [List.append_nil] at hskip
  have hfollows : Follows gap₂ := fun c hc ↦ by
    rw [hend] at hc
    cases hc
  have hfuel : t.text.length ≤ (gap₁ ++ (t.text ++ gap₂)).length := by
    simp only [List.length_append]
    omega
  obtain ⟨rest, k, hskip, hk, heq⟩ := parseTerm_text ht h₁ hfollows hfuel
  obtain ⟨k, rfl⟩ := Nat.exists_eq_add_of_le' (show 1 ≤ k by omega)
  have hread : parseIndexes (parseTerm (gap₁ ++ (t.text ++ gap₂)).length) (k + 1) t.expr rest =
      some (t.expr, []) := by
    rw [parseIndexes, consume, hskip, hend]
  rw [parseExpression, heq, hread]
  rfl

end PuppetC.NativeErb
