import PuppetC.Support.TextScan

/-!
# The tags of an EPP template

How `puppet_epp_render_range` (`puppet_erb.c`) moves through a template. A position in the template
is a pointer `p`, and `stop` the end of the range that is rendered. What stands at a position is
read without running any code of the template: `nextStep` gives it as an item, with the position
that the loop goes on from. The bodies of a block are found by a second scan that counts braces at
the ends of tags.

## Main definitions

* `trimOneNewline`, `skipHeader`: `trim_one_newline` and the skipping of a parameter header.
* `eachEnd`, `scanIf`: the scans for the end of an `each` and for the branches of an `if`.
* `Item`, `nextStep`: one pass of the main loop.

## Main results

* `lt_next`: each pass moves on.
* `each_fits`, `ifChain_fits`: the bodies that are found lie behind the tag and in the range.
-/

namespace PuppetC.Epp

variable {text : List Char} {p i stop : ℕ}

/-- A blank or a tab. -/
def isBlank (c : Char) : Bool := c = ' ' || c = '\t'

/-- A blank, a tab or the end of a line. -/
def isSpace (c : Char) : Bool := isBlank c || c = '\n' || c = '\r'

/-- The length of the end of line at `j`, if there is one. -/
def newlineLength (text : List Char) (j stop : ℕ) : ℕ :=
  if j < stop ∧ (text[j]? = some '\n' ∨ text[j]? = some '\r') then
    if text[j]? = some '\r' ∧ j + 1 < stop ∧ text[j + 1]? = some '\n' then 2 else 1
  else 0

/-- `trim_one_newline`. -/
def trimOneNewline (text : List Char) (i stop : ℕ) : ℕ :=
  skipWhile text isBlank i stop + newlineLength text (skipWhile text isBlank i stop) stop

/-- `<%` stands at `i` in the range. -/
def IsTag (text : List Char) (i stop : ℕ) : Prop :=
  i + 1 < stop ∧ text[i]? = some '<' ∧ text[i + 1]? = some '%'

instance : Decidable (IsTag text i stop) := inferInstanceAs (Decidable (_ ∧ _ ∧ _))

/-- `strstr(text + i, "%>")`. -/
def closeFrom (text : List Char) (i : ℕ) : Option ℕ := firstFrom text ['%', '>'] i

/-- The second bar of a parameter header whose first bar is at `bar`. -/
def secondBar (text : List Char) (bar stop : ℕ) : Option ℕ :=
  let i := skipWhile text (fun c ↦ c ≠ '%' && c ≠ '|') (bar + 1) stop
  if i < stop ∧ text[i]? = some '|' then some i else none

/-- The start of a range without its parameter header. -/
def skipHeader (text : List Char) (p stop : ℕ) : ℕ :=
  let isNewline : Char → Bool := fun c ↦ c = '\n' || c = '\r'
  if p < stop ∧ text[p]? = some '<' ∧ text[p + 1]? = some '%' then
    let bar := skipWhile text isSpace (if text[p + 2]? = some '-' then p + 3 else p + 2) stop
    if bar < stop ∧ text[bar]? = some '|' then
      match secondBar text bar stop with
      | none => p
      | some bar =>
        match (firstFrom text ['-', '%', '>'] bar).filter (· < stop) with
        | some close => skipWhile text isNewline (close + 3) stop
        | none =>
          match (closeFrom text bar).filter (· < stop) with
          | some close => skipWhile text isNewline (close + 2) stop
          | none => p
    else p
  else p

/-- The position behind a tag that is closed at `close`; a `-` at its end trims. -/
def behindTag (text : List Char) (start close stop : ℕ) : ℕ :=
  if start < close ∧ text[close - 1]? = some '-' then trimOneNewline text (close + 2) stop
  else close + 2

/-- The end of the code of such a tag. -/
def codeStop (text : List Char) (start close : ℕ) : ℕ :=
  if start < close ∧ text[close - 1]? = some '-' then close - 1 else close

/-! ### Tags inside a block -/

/-- Where the code of a tag inside a block starts. -/
def innerStart (text : List Char) (i stop : ℕ) : ℕ :=
  skipWhile text isBlank (if text[i + 2]? = some '-' then i + 3 else i + 2) stop

/-- Where such a tag is closed; at the end of the range if it is not. -/
def innerClose (text : List Char) (inner stop : ℕ) : ℕ := (closeFrom text inner).getD stop

/-- The last `{` of a tag is followed by nothing but blanks and `-`, or by these and a `%`. -/
def opensBlock (text : List Char) (inner close : ℕ) : Bool :=
  let tag := text.extract inner close
  let rest := (tag.reverse.takeWhile (· ≠ '{')).reverse.dropWhile fun c ↦ isBlank c || c = '-'
  tag.contains '{' && (rest.isEmpty || rest.head? == some '%')

/-- The brace depth behind a tag. -/
def depthAfter (text : List Char) (inner close depth : ℕ) : ℕ :=
  let depth := if text[inner]? = some '}' then depth - 1 else depth
  if opensBlock text inner close then depth + 1 else depth

/-- The scan for the `<% } %>` of an `each`; `count` is the rest of the range. -/
def eachEnd (text : List Char) (stop : ℕ) : ℕ → ℕ → ℕ → ℕ
  | 0, i, _ => i
  | count + 1, i, depth =>
    if IsTag text i stop then
      let inner := innerStart text i stop
      let depth := depthAfter text inner (innerClose text inner stop) depth
      if depth = 0 then i else eachEnd text stop count (i + 1) depth
    else eachEnd text stop count (i + 1) depth

/-- A branch of an `if`. An `else` has no condition. The end of the body is NULL until a closing
tag is met. -/
structure Branch where
  condition : Option (List Char)
  bodyStart : ℕ
  bodyEnd : Option ℕ
  deriving DecidableEq

/-- `MAX_IF_BRANCHES`. -/
def maxIfBranches : ℕ := 32

/-- A condition without the blanks and braces at its end. -/
def trimCondition (condition : List Char) : List Char :=
  condition.rdropWhile fun c ↦ c = ' ' || c = '{'

/-- What follows the `}` of a tag, from `after` on: the condition of a further branch, none for an
`else`; or nothing, at the end of the chain. -/
def continuation (text : List Char) (after close : ℕ) : Option (Option (List Char)) :=
  let rest := text.drop after
  if "elsif ".toList.isPrefixOf rest || "elsif(".toList.isPrefixOf rest then
    let start := skipWhile text (· = ' ') (after + 5) text.length
    let stop := (firstFrom text ['{'] start).getD close
    some (some (trimCondition (text.extract start stop)))
  else if "else ".toList.isPrefixOf rest || "else\x7b".toList.isPrefixOf rest then some none
  else none

/-- The scan for the branches of an `if`, with the end of the chain. `closed` are the branches in
front of the last one; `count` is at least the rest of the range. -/
def scanIf (text : List Char) (stop : ℕ) :
    ℕ → ℕ → ℕ → List Branch → Branch → List Branch × Option ℕ
  | 0, _, _, closed, last => (closed ++ [last], none)
  | count + 1, i, depth, closed, last =>
    if IsTag text i stop then
      let inner := innerStart text i stop
      let close := innerClose text inner stop
      if text[inner]? = some '}' ∧ depth = 1 then
        let ended := { last with bodyEnd := some i }
        let behind := behindTag text inner close stop
        match continuation text (skipWhile text isBlank (inner + 1) close) close with
        | some condition =>
          if closed.length + 1 < maxIfBranches then
            scanIf text stop count (close + 2) 1 (closed ++ [ended]) ⟨condition, behind, none⟩
          else scanIf text stop count (close + 2) 1 closed ended
        | none => (closed ++ [ended], some behind)
      else scanIf text stop count (i + 1) (depthAfter text inner close depth) closed last
    else scanIf text stop count (i + 1) depth closed last

/-- The branches of an `if` whose tag ends in front of `after`, with the end of the chain. -/
def branchTable (text condition : List Char) (after stop : ℕ) : List Branch × Option ℕ :=
  scanIf text stop (stop - after) after 1 [] ⟨some condition, after, none⟩

/-! ### The main loop -/

/-- What stands at a position. -/
inductive Item where
  /-- Text that is copied. -/
  | copy (chars : List Char)
  /-- A comment, an empty tag or a closing brace. -/
  | nothing
  /-- An expression whose value is printed. -/
  | output (expr : List Char)
  /-- Statements. -/
  | run (code : List Char)
  /-- An iterator, with its body. -/
  | each (code : List Char) (bodyStart bodyEnd : ℕ)
  /-- A conditional whose first tag ends in front of `after`. -/
  | ifChain (condition : List Char) (after : ℕ)
  deriving DecidableEq

/-- One pass of the main loop: whether blanks in front are removed, what stands there, and where
the loop goes on. -/
structure Step where
  trimBefore : Bool
  item : Item
  next : ℕ
  deriving DecidableEq

/-- The code of an iterator: it has `.each` or `.map` in it, or starts with `each(`. -/
def isIterator (code : List Char) : Bool :=
  (firstFrom code ".each".toList 0).isSome || (firstFrom code ".map".toList 0).isSome ||
    "each(".toList.isPrefixOf code

/-- The condition of an `if`. -/
def ifCondition (code : List Char) : List Char :=
  trimCondition (((code.drop 2).dropWhile (· = ' ')).takeWhile (· ≠ '{'))

/-- An iterator whose tag ends in front of `after`. -/
def eachItem (text code : List Char) (after stop : ℕ) : Item × ℕ :=
  let bodyEnd := eachEnd text stop (stop - after) after 1
  (.each (code.rdropWhile fun c ↦ c = '\x7b' || isBlank c) after bodyEnd,
    match closeFrom text bodyEnd with
    | some close => skipWhile text isSpace (close + 2) stop
    | none => stop)

/-- A conditional whose tag ends in front of `after`. -/
def ifItem (text code : List Char) (after stop : ℕ) : Item × ℕ :=
  (.ifChain (ifCondition code) after, (branchTable text (ifCondition code) after stop).2.getD stop)

/-- A code tag. -/
def codeItem (text code : List Char) (after stop : ℕ) : Item × ℕ :=
  if code = [] then (.nothing, after)
  else if isIterator code then eachItem text code after stop
  else if "if ".toList.isPrefixOf code || "if(".toList.isPrefixOf code then
    ifItem text code after stop
  else if code.head? = some '}' then (.nothing, after)
  else (.run code, after)

/-- The expression of an output tag, from `start` on. -/
def outputItem (text : List Char) (start stop : ℕ) : Item :=
  match (text.extract (skipWhile text isBlank start stop) stop).rdropWhile isBlank with
  | [] => .nothing
  | expr => .output expr

/-- A tag whose code starts at `start` and that is closed at `close`. -/
def tagItem (text : List Char) (start close stop : ℕ) : Item × ℕ :=
  let codeEnd := codeStop text start close
  let after := behindTag text start close stop
  if text[start]? = some '#' then (.nothing, after)
  else if text[start]? = some '=' then (outputItem text (start + 1) codeEnd, after)
  else codeItem text ((text.extract start codeEnd).rdropWhile isBlank) after stop

/-- One pass of the loop of `puppet_epp_render_range` at `p < stop`. A tag that is not closed in the
range is copied, character by character. -/
def nextStep (text : List Char) (p stop : ℕ) : Step :=
  if IsTag text p stop then
    let trimBefore : Bool := p + 2 < stop ∧ text[p + 2]? = some '-'
    let start := skipWhile text isBlank (if trimBefore then p + 3 else p + 2) stop
    match (closeFrom text start).filter (· < stop) with
    | some close =>
      let tag := tagItem text start close stop
      ⟨trimBefore, tag.1, tag.2⟩
    | none => ⟨trimBefore, .copy (text.extract p (p + 1)), p + 1⟩
  else ⟨false, .copy (text.extract p (p + 1)), p + 1⟩

/-! ### Every pass moves on -/

theorem le_trimOneNewline (text : List Char) (i stop : ℕ) : i ≤ trimOneNewline text i stop :=
  Nat.le_add_right_of_le (le_skipWhile text isBlank i stop)

theorem trimOneNewline_le (h : i ≤ stop) : trimOneNewline text i stop ≤ stop := by
  have hskip : skipWhile text isBlank i stop ≤ stop := skipWhile_le h
  unfold trimOneNewline newlineLength
  split_ifs <;> omega

/-- No tag starts in what is trimmed. -/
theorem ne_of_lt_trimOneNewline {j : ℕ} (hle : i ≤ j) (hlt : j < trimOneNewline text i stop) :
    text[j]? ≠ some '<' := by
  intro hget
  have hskip : skipWhile text isBlank i stop ≤ j := by
    by_contra hlt
    exact ne_of_lt_skipWhile (by decide) hle (Nat.lt_of_not_le hlt) hget
  unfold trimOneNewline newlineLength at hlt
  generalize skipWhile text isBlank i stop = k at hlt hskip
  split_ifs at hlt with hline hpair
  · have hk : j = k ∨ j = k + 1 := by omega
    rcases hk with rfl | rfl
    · simp [hget] at hpair
    · simp [hget] at hpair
  · have hk : j = k := by omega
    subst hk
    simp [hget] at hline
  · omega

theorem lt_secondBar {bar : ℕ} (h : secondBar text bar stop = some i) : bar < i := by
  have hskip := le_skipWhile text (fun c ↦ c ≠ '%' && c ≠ '|') (bar + 1) stop
  dsimp only [secondBar] at h
  split_ifs at h
  rw [Option.some.injEq] at h
  omega

theorem le_skipHeader (text : List Char) (p stop : ℕ) : p ≤ skipHeader text p stop := by
  dsimp only [skipHeader]
  have hbar :
      p ≤ skipWhile text isSpace (if text[p + 2]? = some '-' then p + 3 else p + 2) stop := by
    refine le_trans ?_ (le_skipWhile text isSpace _ stop)
    split_ifs <;> omega
  generalize skipWhile text isSpace _ stop = bar at hbar
  split_ifs
  · cases hsecond : secondBar text bar stop with
    | none => exact le_rfl
    | some second =>
      have hlt := lt_secondBar hsecond
      dsimp only
      split
      · next close hclose =>
        have hle := (firstFrom_spec (Option.mem_filter_iff.1 hclose).1).1
        exact le_trans (by omega) (le_skipWhile text _ (close + 3) stop)
      · split
        · next close hclose =>
          have hle := (firstFrom_spec (Option.mem_filter_iff.1 hclose).1).1
          exact le_trans (by omega) (le_skipWhile text _ (close + 2) stop)
        · exact le_rfl
  · exact le_rfl
  · exact le_rfl

theorem lt_innerClose_add (text : List Char) (h : i < stop) :
    i < innerClose text (innerStart text i stop) stop + 2 := by
  have hstart : i ≤ innerStart text i stop := by
    refine le_trans ?_ (le_skipWhile text isBlank _ stop)
    split_ifs <;> omega
  unfold innerClose
  cases hclose : closeFrom text (innerStart text i stop) with
  | none =>
    rw [Option.getD_none]
    omega
  | some close =>
    have hle := (firstFrom_spec hclose).1
    rw [Option.getD_some]
    omega

theorem le_behindTag (text : List Char) (inner close stop : ℕ) :
    close + 2 ≤ behindTag text inner close stop := by
  unfold behindTag
  split_ifs
  · exact le_trimOneNewline text (close + 2) stop
  · exact le_rfl

theorem behindTag_le {start close : ℕ} (h : close + 2 ≤ stop) :
    behindTag text start close stop ≤ stop := by
  unfold behindTag
  split_ifs
  · exact trimOneNewline_le h
  · exact h

theorem ne_of_lt_behindTag {inner close j : ℕ} (hle : close + 2 ≤ j)
    (hlt : j < behindTag text inner close stop) : text[j]? ≠ some '<' := by
  unfold behindTag at hlt
  split_ifs at hlt
  · exact ne_of_lt_trimOneNewline hle hlt
  · omega

/-! ### The bodies of blocks -/

/-- A position where a range can end: no closing of a tag is cut in two there. -/
structure IsStop (text : List Char) (stop : ℕ) : Prop where
  le : stop ≤ text.length
  ne : text[stop]? ≠ some '>'

theorem IsStop.length (text : List Char) : IsStop text text.length :=
  ⟨le_rfl, by simp⟩

theorem IsStop.of_tag (h : text[i]? = some '<') : IsStop text i := by
  obtain ⟨hlt, -⟩ := List.getElem?_eq_some_iff.1 h
  exact ⟨hlt.le, by simp [h]⟩

theorem eachEnd_spec (text : List Char) (stop : ℕ) (count i depth : ℕ) :
    i ≤ eachEnd text stop count i depth ∧
      (eachEnd text stop count i depth = i + count ∨
        eachEnd text stop count i depth < i + count ∧
          text[eachEnd text stop count i depth]? = some '<') := by
  induction count generalizing i depth with
  | zero => exact ⟨le_rfl, .inl rfl⟩
  | succ count ih =>
    have hstep (depth : ℕ) : i ≤ eachEnd text stop count (i + 1) depth ∧
        (eachEnd text stop count (i + 1) depth = i + (count + 1) ∨
          eachEnd text stop count (i + 1) depth < i + (count + 1) ∧
            text[eachEnd text stop count (i + 1) depth]? = some '<') := by
      obtain ⟨hle, hend⟩ := ih (i + 1) depth
      rw [Nat.add_right_comm i 1 count] at hend
      exact ⟨by omega, hend⟩
    dsimp only [eachEnd]
    split_ifs with htag hdepth
    · exact ⟨le_rfl, .inr ⟨by omega, htag.2.1⟩⟩
    · exact hstep _
    · exact hstep _

/-- The end of a branch, if it is known, is a tag behind its start, in a range. -/
def Branch.Fits (text : List Char) (start stop : ℕ) (b : Branch) : Prop :=
  start ≤ b.bodyStart ∧
    ∀ e, b.bodyEnd = some e → b.bodyStart ≤ e ∧ e < stop ∧ text[e]? = some '<'

/-- All branches that a scan finds fit, if those that it starts from do and no tag is passed over
in front of the last one. -/
theorem scanIf_fits {start : ℕ} (count i depth : ℕ) {closed : List Branch} {last : Branch}
    (hi : start ≤ i) (hclosed : ∀ b ∈ closed, b.Fits text start stop)
    (hlast : last.Fits text start stop)
    (hfree : ∀ j, i ≤ j → j < last.bodyStart → text[j]? ≠ some '<') :
    ∀ b ∈ (scanIf text stop count i depth closed last).1, b.Fits text start stop := by
  induction count generalizing i depth closed last with
  | zero => exact List.forall_mem_append.2 ⟨hclosed, List.forall_mem_singleton.2 hlast⟩
  | succ count ih =>
    have hstep (depth : ℕ) := ih (i + 1) depth (by omega) hclosed hlast
      fun j hj ↦ hfree j (by omega)
    dsimp only [scanIf]
    split
    · next htag =>
      have hlt := lt_innerClose_add text (Nat.lt_of_succ_lt htag.1)
      generalize innerStart text i stop = inner at hlt ⊢
      generalize innerClose text inner stop = close at hlt ⊢
      split
      · -- no tag was passed over, so the body that ends here starts in front of it
        have hended : Branch.Fits text start stop { last with bodyEnd := some i } := by
          refine ⟨hlast.1, fun e he ↦ ?_⟩
          cases he
          refine ⟨?_, Nat.lt_of_succ_lt htag.1, htag.2.1⟩
          by_contra hbefore
          exact hfree i le_rfl (Nat.lt_of_not_le hbefore) htag.2.1
        have hall := List.forall_mem_append.2 ⟨hclosed, List.forall_mem_singleton.2 hended⟩
        cases continuation text (skipWhile text isBlank (inner + 1) close) close with
        | none => exact hall
        | some condition =>
          dsimp only
          split
          · have hbehind := le_behindTag text inner close stop
            refine ih (close + 2) 1 (by omega) hall ⟨le_trans (by omega) hbehind, ?_⟩ ?_
            · exact fun e he ↦ by cases he
            · exact fun j hle hlt ↦ ne_of_lt_behindTag hle hlt
          · have hstart := (hended.2 i rfl).1
            refine ih (close + 2) 1 (by omega) hclosed hended fun j hle hlt ↦ absurd hle ?_
            dsimp only at hlt hstart
            omega
      · exact hstep _
    · exact hstep _

theorem le_scanIf_end (count i depth : ℕ) (closed : List Branch) (last : Branch) {e : ℕ}
    (h : (scanIf text stop count i depth closed last).2 = some e) : i ≤ e := by
  induction count generalizing i depth closed last with
  | zero => cases h
  | succ count ih =>
    dsimp only [scanIf] at h
    split at h
    · next htag =>
      have hlt := lt_innerClose_add text (Nat.lt_of_succ_lt htag.1)
      generalize innerStart text i stop = inner at hlt h
      generalize innerClose text inner stop = close at hlt h
      split at h
      · cases hcont : continuation text (skipWhile text isBlank (inner + 1) close) close with
        | none =>
          have hbehind := le_behindTag text inner close stop
          rw [hcont] at h
          cases h
          omega
        | some condition =>
          rw [hcont] at h
          dsimp only at h
          split at h
          · exact le_trans (by omega) (ih _ _ _ _ h)
          · exact le_trans (by omega) (ih _ _ _ _ h)
      · exact Nat.le_of_succ_le (ih _ _ _ _ h)
    · exact Nat.le_of_succ_le (ih _ _ _ _ h)

/-! ### One pass -/

/-- The bodies of a block lie in a range. -/
def Item.Fits (text : List Char) (start stop : ℕ) : Item → Prop
  | .each _ bodyStart bodyEnd =>
    start ≤ bodyStart ∧ bodyStart ≤ bodyEnd ∧ bodyEnd ≤ stop ∧ IsStop text bodyEnd
  | .ifChain condition after =>
    ∀ b ∈ (branchTable text condition after stop).1, b.Fits text start stop
  | _ => True

theorem eachItem_fits (code : List Char) {after : ℕ} (hafter : after ≤ stop)
    (hstop : IsStop text stop) :
    (eachItem text code after stop).1.Fits text after stop ∧
      after ≤ (eachItem text code after stop).2 := by
  obtain ⟨hle, hend⟩ := eachEnd_spec text stop (stop - after) after 1
  dsimp only [eachItem]
  generalize eachEnd text stop (stop - after) after 1 = e at hle hend ⊢
  rw [Nat.add_sub_cancel' hafter] at hend
  constructor
  · rcases hend with rfl | ⟨hlt, htag⟩
    · exact ⟨le_rfl, hafter, le_rfl, hstop⟩
    · exact ⟨le_rfl, hle, hlt.le, .of_tag htag⟩
  · cases hclose : closeFrom text e with
    | none => exact hafter
    | some close =>
      have hfound := (firstFrom_spec hclose).1
      exact le_trans (by omega) (le_skipWhile text isSpace (close + 2) stop)

theorem ifItem_fits (code : List Char) {after : ℕ} (hafter : after ≤ stop) :
    (ifItem text code after stop).1.Fits text after stop ∧
      after ≤ (ifItem text code after stop).2 := by
  constructor
  · refine scanIf_fits _ after 1 le_rfl (by simp) ⟨le_rfl, fun e he ↦ by cases he⟩ ?_
    exact fun j hle hlt ↦ absurd hle (by dsimp only at hlt; omega)
  · dsimp only [ifItem]
    cases hend : (branchTable text (ifCondition code) after stop).2 with
    | none => exact hafter
    | some e => exact le_scanIf_end _ _ _ _ _ hend

theorem codeItem_fits (code : List Char) {after : ℕ} (hafter : after ≤ stop)
    (hstop : IsStop text stop) :
    (codeItem text code after stop).1.Fits text after stop ∧
      after ≤ (codeItem text code after stop).2 := by
  unfold codeItem
  split_ifs
  · exact ⟨trivial, le_rfl⟩
  · exact eachItem_fits code hafter hstop
  · exact ifItem_fits code hafter
  · exact ⟨trivial, le_rfl⟩
  · exact ⟨trivial, le_rfl⟩

theorem Item.Fits.mono {start start' : ℕ} {item : Item} (h : item.Fits text start stop)
    (hle : start' ≤ start) : item.Fits text start' stop := by
  cases item with
  | each code bodyStart bodyEnd => exact ⟨hle.trans h.1, h.2⟩
  | ifChain condition after => exact fun b hb ↦ ⟨hle.trans (h b hb).1, (h b hb).2⟩
  | _ => trivial

theorem outputItem_fits (i : ℕ) {start codeEnd : ℕ} :
    (outputItem text i codeEnd).Fits text start stop := by
  unfold outputItem
  split <;> trivial

theorem tagItem_fits (start : ℕ) {close : ℕ} (hclose : closeFrom text i = some close)
    (hlt : close < stop) (hstop : IsStop text stop) :
    (tagItem text start close stop).1.Fits text (close + 2) stop ∧
      close + 2 ≤ (tagItem text start close stop).2 := by
  have hcut : close + 2 ≤ stop := by
    have hget : text[close + 1]? = some '>' := getElem?_of_firstFrom hclose (by decide)
    by_contra hcut
    exact hstop.ne ((show stop = close + 1 by omega) ▸ hget)
  have hbehind := le_behindTag text start close stop
  dsimp only [tagItem]
  split_ifs
  · exact ⟨trivial, hbehind⟩
  · exact ⟨outputItem_fits _, hbehind⟩
  · obtain ⟨hfits, hnext⟩ := codeItem_fits
      ((text.extract start (codeStop text start close)).rdropWhile isBlank)
      (behindTag_le hcut) hstop
    exact ⟨hfits.mono hbehind, hbehind.trans hnext⟩

/-- One pass moves on, and the bodies that it finds lie behind its position in the range. -/
theorem nextStep_fits (p : ℕ) (hstop : IsStop text stop) :
    (nextStep text p stop).item.Fits text (p + 1) stop ∧ p < (nextStep text p stop).next := by
  dsimp only [nextStep]
  split
  · have hstart : p ≤ skipWhile text isBlank
        (if decide (p + 2 < stop ∧ text[p + 2]? = some '-') then p + 3 else p + 2) stop := by
      refine le_trans ?_ (le_skipWhile text isBlank _ stop)
      split_ifs <;> omega
    generalize skipWhile text isBlank _ stop = start at hstart ⊢
    split
    · next close hclose =>
      obtain ⟨hfound, hlt⟩ := Option.mem_filter_iff.1 hclose
      have hle := (firstFrom_spec hfound).1
      obtain ⟨hfits, hnext⟩ := tagItem_fits start hfound (of_decide_eq_true hlt) hstop
      exact ⟨hfits.mono (by omega), lt_of_lt_of_le (by omega) hnext⟩
    · exact ⟨trivial, Nat.lt_succ_self p⟩
  · exact ⟨trivial, Nat.lt_succ_self p⟩

end PuppetC.Epp
