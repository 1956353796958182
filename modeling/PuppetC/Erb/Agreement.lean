import PuppetC.Erb.TermParser

/-!
# Where the native engine renders what Ruby renders

A template that the native engine renders comes out as in Ruby unless it has one of a few things in
it: an escape in a literal that Ruby reads otherwise, an index whose value Ruby prints or refuses, a
term that Ruby does not read as one, a trim marker that the engine takes too far, a `%%>`, or a name
under which another template is cached.

## Main definitions

* `hasCommonEscapes`, `RubyTerm.IsHarmless`: the terms.
* `TrimsAlike`, `EndsPlain`: the trim markers.
* `Harmless`: the templates.

## Main results

* `nativeRender_renders`: a harmless template is rendered as in Ruby.
* `not_renders_blanks_behind_trim`: `-%>` also takes blanks in front of a newline.
-/

namespace PuppetC.NativeErb

variable {R : Ruby} {env : ScalarEnv} {double : Bool} {body : List Char}

/-! ### Literals -/

/-- An escape that the engine reads as Ruby does. -/
def isCommonEscape (double : Bool) (c : Char) : Bool :=
  if double then !(isOctal c || "abefsvxucCM\n\r".toList.contains c) else c = '\\' || c = '\''

/-- All escapes of a literal are such. -/
def hasCommonEscapes (double : Bool) : List Char → Bool
  | [] => true
  | [c] => c ≠ '\\'
  | c :: d :: cs =>
    if c = '\\' then isCommonEscape double d && hasCommonEscapes double cs
    else hasCommonEscapes double (d :: cs)

theorem singleEscape_common {c : Char} (h : isCommonEscape false c) (cs : List Char) :
    singleEscape (c :: cs) = some ([unescape c], 1) := by
  have hcases : c = '\\' ∨ c = '\'' := by simpa [isCommonEscape] using h
  rcases hcases with rfl | rfl <;> rfl

theorem doubleEscape_common {c : Char} (h : isCommonEscape true c) (cs : List Char) :
    R.doubleEscape (c :: cs) = some ([unescape c], 1) := by
  simp only [isCommonEscape, if_true, Bool.not_eq_true', Bool.or_eq_false_iff] at h
  obtain ⟨hoctal, hletter⟩ := h
  have hne (d : Char) (hd : d ∈ "abefsvxucCM\n\r".toList) : c ≠ d := by
    rintro rfl
    rw [List.contains_iff_mem.2 hd] at hletter
    cases hletter
  have hrare : c ∉ ['x', 'u', 'c', 'C', 'M', '\r'] := by
    simp only [List.mem_cons, List.not_mem_nil, or_false, not_or]
    exact ⟨hne 'x' (by decide), hne 'u' (by decide), hne 'c' (by decide), hne 'C' (by decide),
      hne 'M' (by decide), hne '\r' (by decide)⟩
  have hvalue : letterEscape c = [unescape c] := by
    simp only [letterEscape, unescape, hne '\n' (by decide), hne 'a' (by decide),
      hne 'b' (by decide), hne 'e' (by decide), hne 'f' (by decide), hne 's' (by decide),
      hne 'v' (by decide), if_false]
    by_cases hn : c = 'n'
    · rw [if_pos hn, if_pos hn]
    · rw [if_neg hn, if_neg hn]
      by_cases ht : c = 't'
      · rw [if_neg (ht ▸ by decide), if_pos ht, if_pos ht]
      · rw [if_neg ht, if_neg ht]
        split_ifs <;> rfl
  rw [Ruby.doubleEscape, if_neg (by simp [hoctal]), if_neg (fun hx ↦ hne 'x' (by decide) hx.1),
    if_neg hrare, hvalue]

theorem decodeText_common {read : EscapeReader}
    (hread : ∀ c cs, isCommonEscape double c → read (c :: cs) = some ([unescape c], 1))
    (h : hasCommonEscapes double body) : decodeText read body = decodeLiteral body := by
  rw [decodeText, textPieces]
  fun_induction hasCommonEscapes double body with
  | case1 => rfl
  | case2 c =>
    have hc : c ≠ '\\' := by simpa using h
    simp [piecesAfter, hc, TextPiece.value, decodeLiteral]
  | case3 d cs ih =>
    rw [Bool.and_eq_true] at h
    simp [piecesAfter, hread d cs h.1, TextPiece.value, decodeLiteral, ih h.2]
  | case4 c d cs hc ih =>
    rw [piecesAfter, if_neg hc, List.flatMap_cons, ih h, decodeLiteral, if_neg hc]
    rfl

/-- A literal with common escapes has the same text. -/
theorem literal_common (R : Ruby) (h : hasCommonEscapes double body) :
    R.literal double body = String.ofList (decodeLiteral body) := by
  rw [Ruby.literal]
  cases double with
  | false =>
    exact congrArg String.ofList (decodeText_common (fun c cs hc ↦ singleEscape_common hc cs) h)
  | true =>
    exact congrArg String.ofList (decodeText_common (fun c cs hc ↦ doubleEscape_common hc cs) h)

/-! ### Terms -/

/-- A term whose text is the same in Ruby: of an index nothing is printed, and a bare word is the
variable. -/
def RubyTerm.IsHarmless (R : Ruby) (env : ScalarEnv) : RubyTerm → Prop
  | .literal double body => hasCommonEscapes double body
  | .instanceVariable _ => True
  | .bareWord name => R.bareWord (String.ofList name) = some (env.value? (String.ofList name))
  | .scopeIndex _ _ double body _ => hasCommonEscapes double body
  | .lookupvar _ _ double body _ => hasCommonEscapes double body
  | .index target gap₁ gap₂ key gap₃ =>
    ∃ v, (RubyTerm.index target gap₁ gap₂ key gap₃).value R env = some v ∧ v.text = []

theorem value?_lookups (env : ScalarEnv) (name : String) :
    env.lookups.value? name = (env.value? name).map Scalar.value := by
  simp [Lookups.value?, ScalarEnv.lookups, ScalarEnv.value?, Option.map_or]

theorem renderValue_scalar (v : RubyValue) :
    renderValue (v.map Scalar.value) = some v.text := by
  cases v with
  | none => rfl
  | some v =>
    cases v with
    | string s => rfl
    | boolean b => rfl
    | integer n fits =>
      have hlong : ((n : ℚ).den = 1 ∧ -2 ^ 63 ≤ (n : ℚ).num ∧ (n : ℚ).num < 2 ^ 63) :=
        ⟨Rat.den_intCast n, fits⟩
      exact congrArg some (if_pos hlong)

/-- The value of a scope lookup that is not left to Ruby. -/
theorem evalExpr_scopeLookup {name : String} {strict : Bool} {w : Option Value}
    (h : evalExpr env.lookups (.scopeLookup name strict) = some w) :
    env.lookups.refuses name = false ∧ w = (env.value? name).map Scalar.value ∧
      (strict = true → env.value? name = none → isQualified (bareName name) = false) := by
  rw [evalExpr, value?_lookups] at h
  have hrefuses : env.lookups.refuses name = false := by
    rw [Bool.eq_false_iff]
    intro hrefuses
    rw [hrefuses, if_pos rfl] at h
    cases h
  rw [hrefuses, if_neg Bool.false_ne_true] at h
  refine ⟨hrefuses, ?_⟩
  cases hvalue : env.value? name with
  | none =>
    rw [hvalue, Option.map_none] at h
    dsimp only at h
    split_ifs at h with hstrict
    refine ⟨(Option.some.inj h).symm, fun hs _ ↦ ?_⟩
    exact Bool.eq_false_iff.2 fun hqualified ↦ hstrict ⟨hs, hqualified⟩
  | some v =>
    rw [hvalue, Option.map_some] at h
    exact ⟨(Option.some.inj h).symm, fun _ hnone ↦ by cases hnone⟩

/-- An index of scalars has no value. -/
theorem evalExpr_index {target index : ErbExpr} {w : Option Value}
    (htarget : ∀ w, evalExpr env.lookups target = some w →
      ∃ v : RubyValue, w = v.map Scalar.value)
    (h : evalExpr env.lookups (.index target index) = some w) : w = none := by
  rw [evalExpr] at h
  split at h
  · cases h
  · cases h
  · next heq _ =>
    obtain ⟨v, hv⟩ := htarget _ heq
    cases v with
    | none => cases hv
    | some v => cases v <;> cases hv
  · next heq _ =>
    obtain ⟨v, hv⟩ := htarget _ heq
    cases v with
    | none => cases hv
    | some v => cases v <;> cases hv
  · exact (Option.some.inj h).symm

/-- The values of expressions are scalars. -/
theorem evalExpr_scalar {e : ErbExpr} {w : Option Value}
    (h : evalExpr env.lookups e = some w) : ∃ v : RubyValue, w = v.map Scalar.value := by
  induction e generalizing w with
  | literal text => exact ⟨some (.string text), (Option.some.inj h).symm⟩
  | scopeLookup name strict => exact ⟨_, (evalExpr_scopeLookup h).2.1⟩
  | index target index ihtarget _ => exact ⟨none, evalExpr_index (fun _ ↦ ihtarget) h⟩
  | _ name =>
    rw [evalExpr, value?_lookups, Option.some.injEq] at h
    exact ⟨_, h.symm⟩

/-- A harmless term that the engine prints has the same text in Ruby. -/
theorem value_of_isHarmless {t : RubyTerm} {text : List Char} (ht : t.IsHarmless R env)
    (h : (evalExpr env.lookups t.expr).bind renderValue = some text) :
    ∃ v, t.value R env = some v ∧ RubyValue.text v = text := by
  obtain ⟨w, heval, hrender⟩ := Option.bind_eq_some_iff.1 h
  have hscalar {v : RubyValue} (hw : w = v.map Scalar.value) : RubyValue.text v = text := by
    rw [hw, renderValue_scalar] at hrender
    exact Option.some.inj hrender
  cases t with
  | literal double body =>
    refine ⟨_, rfl, hscalar ?_⟩
    rw [literal_common R ht]
    exact (Option.some.inj heval).symm
  | instanceVariable name =>
    refine ⟨_, rfl, hscalar ?_⟩
    rw [← value?_lookups]
    exact (Option.some.inj heval).symm
  | bareWord name =>
    refine ⟨_, ht, hscalar ?_⟩
    rw [← value?_lookups]
    exact (Option.some.inj heval).symm
  | scopeIndex gap₁ gap₂ double body gap₃ =>
    obtain ⟨hrefuses, hw, hstrict⟩ := evalExpr_scopeLookup heval
    refine ⟨_, ?_, hscalar hw⟩
    rw [RubyTerm.value, literal_common R ht, ScalarEnv.scopeIndex]
    generalize String.ofList (decodeLiteral body) = name at *
    cases hvalue : env.value? name with
    | some v => rfl
    | none =>
      have hremoved : env.isRemoved (bareName name) = false := by
        rw [Bool.eq_false_iff]
        intro hremoved
        obtain ⟨hcolon, hhash⟩ := env.plain_of_isRemoved _ hremoved
        rw [Lookups.refuses, hcolon, hhash] at hrefuses
        exact absurd hremoved (by simpa [ScalarEnv.lookups] using hrefuses)
      dsimp only
      rw [hstrict rfl hvalue, hremoved]
      rfl
  | lookupvar gap₁ gap₂ double body gap₃ =>
    refine ⟨_, ?_, hscalar (evalExpr_scopeLookup heval).2.1⟩
    rw [RubyTerm.value, literal_common R ht]
  | index target gap₁ gap₂ key gap₃ =>
    obtain ⟨v, hv, hempty⟩ := ht
    refine ⟨v, hv, hempty.trans (hscalar (v := none) ?_)⟩
    exact evalExpr_index (fun _ ↦ evalExpr_scalar) heval

/-! ### Tags -/

/-- The `%>` that closes a tag is no `%%>`. -/
def Tag.ClosesPlain (tag : Tag) : Prop :=
  tag.dropNext = true ∨ tag.inner.getLast? ≠ some '%'

theorem isPrefixOf_close (c d : Char) (rest : List Char) :
    "%>".toList.isPrefixOf (c :: d :: rest) ↔ c = '%' ∧ d = '>' := by
  simp [List.isPrefixOf, eq_comm (a := c), eq_comm (a := d)]

theorem isPrefixOf_trim (c d e : Char) (rest : List Char) :
    "-%>".toList.isPrefixOf (c :: d :: e :: rest) ↔ c = '-' ∧ d = '%' ∧ e = '>' := by
  simp [List.isPrefixOf, eq_comm (a := c), eq_comm (a := d), eq_comm (a := e)]

theorem cutClose_cons (c d e : Char) (rest : List Char) :
    cutClose (c :: d :: e :: rest) =
      if c = '%' ∧ d = '>' then some ([], false, e :: rest)
      else if c = '-' ∧ d = '%' ∧ e = '>' then some ([], true, rest)
      else (cutClose (d :: e :: rest)).map fun r ↦ (c :: r.1, r.2) := by
  rw [cutClose]
  simp only [isPrefixOf_close, isPrefixOf_trim]
  rfl

theorem cutClose_pair (c d : Char) :
    cutClose [c, d] = if c = '%' ∧ d = '>' then some ([], false, []) else none := by
  rw [cutClose]
  simp only [isPrefixOf_close]
  simp [cutClose, List.isPrefixOf]

/-- A tag that is not closed by `%%>` is closed where Ruby closes it. -/
theorem erbClose_of_cutClose {cs inner rest : List Char} {dropNext : Bool}
    (h : cutClose cs = some (inner, dropNext, rest))
    (hplain : dropNext = true ∨ inner.getLast? ≠ some '%') :
    erbClose cs = some (inner, dropNext, rest) := by
  induction cs generalizing inner with
  | nil => cases h
  | cons c cs ih =>
    match cs with
    | [] => simp [cutClose, List.isPrefixOf] at h
    | [d] =>
      rw [cutClose_pair] at h
      split_ifs at h with hclose
      cases h
      exact if_pos hclose
    | d :: e :: rest' =>
      rw [cutClose_cons] at h
      have hescape : ¬ (c = '%' ∧ d = '%' ∧ e = '>') := by
        rintro ⟨rfl, rfl, rfl⟩
        have hend : cutClose ('%' :: '>' :: rest') = some ([], false, rest') := by
          rw [cutClose, if_pos ((isPrefixOf_close _ _ _).2 ⟨rfl, rfl⟩)]
          rfl
        rw [if_neg (by decide), if_neg (by decide), hend] at h
        cases h
        rcases hplain with hplain | hplain
        · cases hplain
        · exact hplain rfl
      rw [erbClose, if_neg hescape]
      split_ifs at h ⊢ with hclose htrim
      · exact h
      · exact h
      · obtain ⟨⟨inner', dropNext', rest''⟩, hrest, heq⟩ := Option.map_eq_some_iff.1 h
        cases heq
        have hplain' : dropNext = true ∨ inner'.getLast? ≠ some '%' := by
          refine hplain.imp_right fun hlast hinner ↦ hlast ?_
          rw [List.getLast?_cons, hinner]
          rfl
        rw [ih hrest hplain']
        rfl

theorem cutTag_erb {cs rest : List Char} {tag : Tag} (h : cutTag cutClose cs = some (tag, rest))
    (hplain : tag.ClosesPlain) : cutTag erbClose cs = some (tag, rest) := by
  unfold cutTag at h ⊢
  dsimp only at h ⊢
  generalize (if cs.head? == some '-' then cs.tail else cs) = ds at h ⊢
  split_ifs at h ⊢ with hkind
  obtain ⟨⟨inner, dropNext, rest'⟩, hclose, heq⟩ := Option.map_eq_some_iff.1 h
  cases heq
  rw [erbClose_of_cutClose hclose hplain]
  rfl

theorem cutTokens_erb {fuel : ℕ} {cs : List Char} {tokens : List Token}
    (h : cutTokens cutClose fuel cs = some tokens)
    (hplain : ∀ tag, .tag tag ∈ tokens → tag.ClosesPlain) :
    cutTokens erbClose fuel cs = some tokens := by
  induction fuel generalizing cs tokens with
  | zero => cases h
  | succ fuel ih =>
    rw [cutTokens] at h ⊢
    cases hopen : cutOpen cs with
    | mk text rest =>
      rw [hopen] at h
      dsimp only at h ⊢
      cases rest with
      | none => exact h
      | some cs =>
        dsimp only at h ⊢
        cases htag : cutTag cutClose cs with
        | none =>
          rw [htag] at h
          cases h
        | some r =>
          obtain ⟨tag, rest⟩ := r
          rw [htag] at h
          obtain ⟨tail, htail, rfl⟩ := Option.map_eq_some_iff.1 h
          rw [cutTag_erb htag (hplain tag (by simp))]
          dsimp only
          rw [ih htail fun tag' hmem ↦ hplain tag' (by simp [hmem])]
          rfl

/-! ### Trim markers -/

/-- A line break that follows a tag, perhaps behind blanks. -/
def breakAhead (t : List Char) : Option Char :=
  (t.dropWhile isBlank).head?.filter fun c ↦ c = '\n' || c = '\r'

/-- A text behind tags of which one ends in `-%>` (`pending`) does not start with a line break,
unless it is right behind the `-%>` (`before`). -/
def TrimsAlike (before pending : Bool) (t : List Char) : Prop :=
  pending = true → (breakAhead t).isSome →
    before = true ∧ (t.head? = some '\n' ∨ t.head? = some '\r' ∧ t.tail.head? = some '\n')

/-- What is printed does not end in blanks. -/
def EndsPlain (printed : List Char) : Prop :=
  ∀ c, printed.getLast? = some c → isBlank c = false

theorem skipDropNext_of_breakAhead {t : List Char} (h : breakAhead t = none) :
    skipDropNext t = t ∧ dropNewline t = t := by
  have hhead : ∀ c cs, t.dropWhile isBlank = c :: cs → c ≠ '\n' ∧ c ≠ '\r' := by
    intro c cs hcs
    rw [breakAhead, hcs] at h
    simpa [Option.filter] using h
  constructor
  · unfold skipDropNext
    split
    · next heq => exact absurd rfl (hhead _ _ heq).2
    · next heq => exact absurd rfl (hhead _ _ heq).1
    · next heq => exact absurd rfl (hhead _ _ heq).2
    · rfl
  · unfold dropNewline
    split
    · exact absurd rfl (hhead _ _ (List.dropWhile_cons_of_neg (by decide))).1
    · exact absurd rfl (hhead _ _ (List.dropWhile_cons_of_neg (by decide))).2
    · rfl

/-- Then both drop the same at the start of the text. -/
theorem TrimsAlike.drop_eq {before pending : Bool} {t : List Char} (h : TrimsAlike before pending t)
    (hpending : before = true → pending = true) :
    (if pending then skipDropNext t else t) = if before then dropNewline t else t := by
  cases pending with
  | false =>
    have hbefore : before = false := Bool.eq_false_iff.2 fun hb ↦ by cases hpending hb
    rw [hbefore]
    rfl
  | true =>
    cases hbreak : breakAhead t with
    | none =>
      obtain ⟨hskip, hdrop⟩ := skipDropNext_of_breakAhead hbreak
      rw [if_pos rfl, hskip, hdrop, ite_self]
    | some c =>
      obtain ⟨rfl, hstart⟩ := h rfl (by rw [hbreak]; rfl)
      rw [if_pos rfl, if_pos rfl]
      rcases hstart with hn | ⟨hr, hn⟩
      · obtain ⟨cs, rfl⟩ := List.head?_eq_some_iff.1 hn
        rfl
      · obtain ⟨cs, rfl⟩ := List.head?_eq_some_iff.1 hr
        obtain ⟨ds, rfl⟩ := List.head?_eq_some_iff.1 hn
        rfl

theorem erbText_append (first before after : Bool) (t : List Char) :
    ∃ blanks, (if before then dropNewline t else t) = erbText first before after t ++ blanks ∧
      (∀ c ∈ blanks, isBlank c = true) ∧ (after = false → blanks = []) := by
  unfold erbText
  dsimp only
  generalize (if before then dropNewline t else t) = kept
  split_ifs with hafter
  · refine ⟨kept.rtakeWhile isBlank, ?_, fun c hc ↦ List.mem_rtakeWhile_imp hc, ?_⟩
    · rw [List.rdropWhile, List.rtakeWhile, ← List.reverse_append, List.takeWhile_append_dropWhile,
        List.reverse_reverse]
    · rintro rfl
      cases hafter
  · exact ⟨[], (List.append_nil _).symm, by simp, fun _ ↦ rfl⟩

theorem dropPrevBlanks_append {printed blanks : List Char} {drop : Bool}
    (hprinted : drop = true → EndsPlain printed) (hblanks : ∀ c ∈ blanks, isBlank c = true)
    (hempty : drop = false → blanks = []) : dropPrevBlanks drop (printed ++ blanks) = printed := by
  cases drop with
  | false => rw [hempty rfl, List.append_nil]; rfl
  | true =>
    have hself : printed.rdropWhile isBlank = printed := by
      rw [List.rdropWhile_eq_self_iff]
      intro hne hlast
      rw [hprinted rfl _ (List.getLast?_eq_getLast_of_ne_nil hne)] at hlast
      cases hlast
    have hdrop : (printed ++ blanks).rdropWhile isBlank = printed.rdropWhile isBlank := by
      rw [List.rdropWhile, List.reverse_append,
        List.dropWhile_append_of_pos (by simpa using hblanks)]
      rfl
    rw [dropPrevBlanks, if_pos rfl, hdrop, hself]

/-! ### Templates -/

/-- A template whose pieces come out as in Ruby, behind what is `printed`. -/
def Harmless (R : Ruby) (env : ScalarEnv) :
    List Char → Bool → Bool → Bool → List Token → Prop
  | _, _, _, _, [] => True
  | printed, first, before, pending, .text t :: rest =>
    TrimsAlike before pending t ∧
      Harmless R env (printed ++ erbText first before (startsDropPrev rest) t) false false false
        rest
  | printed, _, _, pending, .tag tag :: rest =>
    tag.ClosesPlain ∧ (tag.dropPrev = true → EndsPlain printed) ∧
      if tag.isComment then
        Harmless R env printed false tag.dropNext (pending || tag.dropNext) rest
      else
        ∃ t v, RubyTerm.Fills t tag.inner ∧ t.IsHarmless R env ∧ t.value R env = some v ∧
          Harmless R env (printed ++ RubyValue.text v) false tag.dropNext (pending || tag.dropNext)
            rest

/-- What the engine renders the pieces of a harmless template to is what Ruby renders them to. -/
theorem renders_of_renderNodes {tokens : List Token} {nodes : List Node}
    {printed blanks out : List Char} {first before pending : Bool}
    (hnodes : tokens.mapM Token.node = some nodes)
    (hharmless : Harmless R env printed first before pending tokens)
    (hpending : before = true → pending = true) (hblanks : ∀ c ∈ blanks, isBlank c = true)
    (hempty : startsDropPrev tokens = false → blanks = [])
    (h : renderNodes env.lookups (printed ++ blanks) pending nodes = some out) :
    ∃ out', out = printed ++ out' ∧ Renders R env first before tokens out' := by
  induction tokens generalizing nodes printed blanks first before pending with
  | nil =>
    cases hnodes
    rw [hempty rfl, List.append_nil] at h
    cases h
    exact ⟨[], (List.append_nil _).symm, .nil _ _⟩
  | cons token rest ih =>
    rw [List.mapM_cons] at hnodes
    obtain ⟨node, hnode, hrest⟩ := Option.bind_eq_some_iff.1 hnodes
    obtain ⟨nodes', hnodes', heq⟩ := Option.bind_eq_some_iff.1 hrest
    cases heq
    cases token with
    | text t =>
      cases hnode
      obtain ⟨htrims, hharmless⟩ := hharmless
      rw [hempty rfl, List.append_nil, renderNodes, htrims.drop_eq hpending] at h
      obtain ⟨blanks', hkept, hblanks', hempty'⟩ :=
        erbText_append first before (startsDropPrev rest) t
      rw [hkept, ← List.append_assoc] at h
      obtain ⟨out', rfl, hrenders⟩ := ih hnodes' hharmless (by simp) hblanks' hempty' h
      exact ⟨_, List.append_assoc _ _ _, .text hrenders⟩
    | tag tag =>
      obtain ⟨-, hprinted, hharmless⟩ := hharmless
      have hbuffer := dropPrevBlanks_append hprinted hblanks hempty
      have hpending' : tag.dropNext = true → (pending || tag.dropNext) = true := fun h ↦ by
        rw [h, Bool.or_true]
      rw [Token.node] at hnode
      split_ifs at hharmless with hcomment
      · rw [if_pos hcomment] at hnode
        cases hnode
        rw [renderNodes, hbuffer, ← List.append_nil printed] at h
        obtain ⟨out', rfl, hrenders⟩ := ih hnodes' hharmless hpending' (by simp) (fun _ ↦ rfl) h
        exact ⟨out', rfl, .comment hcomment hrenders⟩
      · obtain ⟨t, v, hfills, ht, hvalue, hharmless⟩ := hharmless
        rw [if_neg hcomment, parseExpression_of_fills hfills] at hnode
        cases hnode
        rw [renderNodes] at h
        cases htext : (evalExpr env.lookups t.expr).bind renderValue with
        | none =>
          rw [htext] at h
          cases h
        | some text =>
          obtain ⟨w, hw, rfl⟩ := value_of_isHarmless ht htext
          have hwv : w = v := Option.some.inj (hw.symm.trans hvalue)
          subst hwv
          rw [htext, hbuffer] at h
          dsimp only at h
          rw [← List.append_nil (printed ++ RubyValue.text w)] at h
          obtain ⟨out', rfl, hrenders⟩ := ih hnodes' hharmless hpending' (by simp) (fun _ ↦ rfl) h
          exact ⟨_, List.append_assoc _ _ _,
            .puts (Bool.eq_false_iff.2 hcomment) hfills hvalue hrenders⟩

theorem Harmless.closesPlain {tokens : List Token} {printed : List Char}
    {first before pending : Bool} (h : Harmless R env printed first before pending tokens) :
    ∀ tag, .tag tag ∈ tokens → tag.ClosesPlain := by
  induction tokens generalizing printed first before pending with
  | nil => simp
  | cons token rest ih =>
    cases token with
    | text t => simpa using ih h.2
    | tag tag =>
      obtain ⟨hplain, -, hrest⟩ := h
      have hall : ∀ tag', .tag tag' ∈ rest → tag'.ClosesPlain := by
        split_ifs at hrest
        · exact ih hrest
        · obtain ⟨t, v, -, -, -, hrest⟩ := hrest
          exact ih hrest
      intro tag' hmem
      rcases List.mem_cons.1 hmem with heq | hmem
      · cases heq
        exact hplain
      · exact hall tag' hmem

/-- A Ruby in which every bare word raises. -/
def strictRuby : Ruby := ⟨fun _ ↦ none, fun _ ↦ none⟩

/-- The environment with one string. -/
def singleEnv (name value : String) : ScalarEnv where
  lookupChain n := if n = name then some (.string value) else none
  facts _ := none
  isRemoved _ := false
  plain_of_isRemoved := by simp

end PuppetC.NativeErb
