import PuppetC.Agent.Resource

/-!
# The texts of arrays

A parameter that is an array becomes a text in brackets, with commas between the elements; an
array among the elements becomes such a text in a buffer of 1024 bytes first. There only strings
that leave ten bytes are copied, and everything else is left out. The separators are written
without a look at the sizes, so they may run past the end of a buffer.

## Main definitions

* `joinTexts`, `inBrackets`: texts with commas between them, and in brackets.
* `rowCursor`, `ArrayFits`: how far the loops get in the buffers, from lengths alone.
* `RowShown`: nothing is left out of a nested array.
* `ParamRight`: the text of an array is right.

## Main results

* `arrayText_eq_ite`: what is written, if the buffers are large enough.
* `params_right_iff`: when the texts of the parameters of a resource are right.
-/

namespace PuppetC

/-! ### Texts in brackets -/

/-- Texts with separators between them, and one in front unless they are the first. -/
def joinTexts (first : Bool) : List Bytes → Bytes
  | [] => []
  | t :: ts => (if first then [] else [',', ' ']) ++ t ++ joinTexts false ts

/-- Texts in brackets. -/
def inBrackets (ts : List Bytes) : Bytes := '[' :: joinTexts true ts ++ [']']

/-- The text of a string, a number or a truth value; an integer is its numeral. -/
def scalarShown : Json → Bytes
  | .string s => s
  | .number q => if q = truncate q then formatLong (truncate q) else numberText q
  | .bool b => boolText b
  | _ => []

/-- The text that an array should have: all elements of all its arrays are shown, if these are
strings, numbers and truth values. -/
def Shows (vs : List Json) (text : Bytes) : Prop :=
  ∀ rows : List (List Json), vs = rows.map JsonOf.array → (∀ row ∈ rows, ∀ e ∈ row, IsScalar e) →
    text = inBrackets (rows.map fun row ↦ inBrackets (row.map scalarShown))

/-- No buffer is left, and all elements are shown. -/
def ParamRight (ruby : Option AgentRuby) (vs : List Json) : Prop :=
  ∃ text, paramText ruby (.array vs) = some text ∧ Shows vs text

/-! ### Nested arrays -/

/-- What is copied of an element of a nested array. -/
def copiedText (pos : ℕ) : Json → Bytes
  | .string s => if pos + s.length + 10 < 1024 then s else []
  | _ => []

/-- The position behind a separator. -/
def afterSeparator (first : Bool) (pos : ℕ) : ℕ := if first then pos else pos + 2

/-- How far the loop over a nested array gets: two bytes for a separator, and what is copied. -/
def rowCursor : Bool → ℕ → List Json → ℕ
  | _, pos, [] => pos
  | first, pos, e :: es =>
    rowCursor false
      (afterSeparator first pos + (copiedText (afterSeparator first pos) e).length) es

/-- What is copied of the elements of a nested array. -/
def rowTexts : Bool → ℕ → List Json → List Bytes
  | _, _, [] => []
  | first, pos, e :: es =>
    copiedText (afterSeparator first pos) e ::
      rowTexts false
        (afterSeparator first pos + (copiedText (afterSeparator first pos) e).length) es

/-- The length of the text of an element that has one. -/
def elementLength : Json → Option ℕ
  | .string s => some s.length
  | .number q => some (numberText q).length
  | .bool b => some (boolText b).length
  | .array row => some (rowCursor true 1 row + 1)
  | .null | .object _ => none

/-- The separators of a nested array stay in its buffer, with the end of the text. -/
def RowFits : Json → Prop
  | .array row => rowCursor true 1 row + 1 < 1024
  | _ => True

/-- The size of the buffer of an array when an element is written: it is doubled for every element
that has a text until more than ten bytes are left behind it. -/
def grownSize (v : Json) (pos size : ℕ) : ℕ :=
  match elementLength v with
  | none => size
  | some n => TextBuffer.doubled (pos + (n + 10)) (pos + (n + 10)) size

/-- The loop over an array stays in its buffer of `size` bytes, with the end of the text. -/
def ArrayFits : Bool → ℕ → ℕ → List Json → Prop
  | _, pos, size, [] => pos + 1 < size
  | first, pos, size, v :: vs =>
    afterSeparator first pos ≤ size ∧ RowFits v ∧
      ArrayFits false (afterSeparator first pos + (elementLength v).getD 0)
        (grownSize v (afterSeparator first pos) size) vs

/-- All elements are strings, and those that are not empty leave ten bytes. -/
def RowShown : Bool → ℕ → List Json → Prop
  | _, _, [] => True
  | first, pos, .string s :: es =>
    (s = [] ∨ afterSeparator first pos + s.length + 10 < 1024) ∧
      RowShown false (afterSeparator first pos + s.length) es
  | _, _, _ :: _ => False

section Row

variable {b : TextBuffer} {first : Bool} {e : Json}

theorem put_eq_none {s : Bytes} (h : b.size < b.text.length + s.length) : b.put s = none :=
  dif_neg (Nat.not_le.2 h)

theorem rowCursor_eq (first : Bool) (pos : ℕ) (es : List Json) :
    rowCursor first pos es = pos + (joinTexts first (rowTexts first pos es)).length := by
  induction es generalizing first pos with
  | nil => rfl
  | cons e es ih =>
    rw [rowCursor, ih, rowTexts, joinTexts, List.length_append, List.length_append, afterSeparator]
    cases first <;> simp <;> omega

theorem le_rowCursor (first : Bool) (pos : ℕ) (es : List Json) : pos ≤ rowCursor first pos es := by
  rw [rowCursor_eq]
  exact Nat.le_add_right ..

/-- Writing a separator. -/
theorem putSeparator_eq (h : afterSeparator first b.text.length ≤ b.size) :
    ∃ b', putSeparator [',', ' '] first b = some b' ∧ b'.size = b.size ∧
      b'.text = b.text ++ if first then [] else [',', ' '] := by
  cases first with
  | true => exact ⟨b, rfl, rfl, (List.append_nil _).symm⟩
  | false =>
    obtain ⟨b', hput, htext, hsize⟩ := TextBuffer.put_eq_some (s := [',', ' ']) h
    exact ⟨b', hput, hsize, htext⟩

theorem putSeparator_eq_none (h : b.size < afterSeparator first b.text.length) :
    putSeparator [',', ' '] first b = none := by
  cases first with
  | true => exact absurd b.fits (Nat.not_le.2 h)
  | false => exact put_eq_none h

theorem length_append_separator (b : TextBuffer) (first : Bool) :
    (b.text ++ if first then [] else [',', ' ']).length = afterSeparator first b.text.length := by
  cases first <;> simp [afterSeparator]

/-- What is copied always fits. -/
theorem putNestedElement_eq (hsize : b.size = 1024) :
    ∃ b', putNestedElement b e = some b' ∧ b'.size = 1024 ∧
      b'.text = b.text ++ copiedText b.text.length e := by
  cases e with
  | string s =>
    rw [putNestedElement, copiedText]
    split_ifs with h
    · obtain ⟨b', hput, htext, hsize'⟩ := TextBuffer.put_eq_some (b := b) (s := s) (by omega)
      exact ⟨b', hput, hsize'.trans hsize, htext⟩
    · exact ⟨b, rfl, hsize, (List.append_nil _).symm⟩
  | _ => exact ⟨b, rfl, hsize, (List.append_nil _).symm⟩

/-- The loop over a nested array stays in the buffer as long as its cursor does. -/
theorem putNested_spec (first : Bool) (b : TextBuffer) (es : List Json) (hsize : b.size = 1024) :
    if rowCursor first b.text.length es ≤ 1024 then
      ∃ b', putNested first b es = some b' ∧ b'.size = 1024 ∧
        b'.text = b.text ++ joinTexts first (rowTexts first b.text.length es)
    else putNested first b es = none := by
  induction es generalizing first b with
  | nil =>
    rw [rowCursor, if_pos (hsize ▸ b.fits)]
    exact ⟨b, rfl, hsize, (List.append_nil _).symm⟩
  | cons e es ih =>
    rw [rowCursor, putNested, rowTexts, joinTexts]
    by_cases hsep : afterSeparator first b.text.length ≤ b.size
    · obtain ⟨b₁, hput₁, hsize₁, htext₁⟩ := putSeparator_eq hsep
      obtain ⟨b₂, hput₂, hsize₂, htext₂⟩ := putNestedElement_eq (e := e) (hsize₁.trans hsize)
      have hlength₁ : b₁.text.length = afterSeparator first b.text.length := by
        rw [htext₁, length_append_separator]
      have hlength₂ : b₂.text.length = afterSeparator first b.text.length +
          (copiedText (afterSeparator first b.text.length) e).length := by
        rw [htext₂, List.length_append, hlength₁]
      have hrest := ih false b₂ hsize₂
      rw [hput₁, Option.bind_eq_bind, Option.bind_some, hput₂, Option.bind_some]
      rw [hlength₁] at htext₂
      rw [← hlength₂]
      by_cases hfits : rowCursor false b₂.text.length es ≤ 1024
      · rw [if_pos hfits] at hrest ⊢
        obtain ⟨b', hb', hsize', htext'⟩ := hrest
        refine ⟨b', hb', hsize', ?_⟩
        rw [htext', htext₂, htext₁]
        simp only [List.append_assoc]
      · rw [if_neg hfits] at hrest ⊢
        exact hrest
    · have hcursor : ¬ rowCursor false (afterSeparator first b.text.length +
          (copiedText (afterSeparator first b.text.length) e).length) es ≤ 1024 := by
        have hle := le_rowCursor false (afterSeparator first b.text.length +
          (copiedText (afterSeparator first b.text.length) e).length) es
        omega
      rw [if_neg hcursor, putSeparator_eq_none (by omega)]
      rfl

/-- The text of a nested array, if its separators stay in the buffer. -/
theorem elementText_array (row : List Json) :
    elementText (.array row) =
      if rowCursor true 1 row + 1 < 1024 then some (some (inBrackets (rowTexts true 1 row)))
      else none := by
  obtain ⟨b, hput, htext, hsize⟩ := TextBuffer.put_eq_some
    (b := TextBuffer.empty 1024 (by omega)) (s := ['[']) (by decide)
  have hlength : b.text.length = 1 := by
    rw [htext]
    rfl
  have hspec := putNested_spec true b row hsize
  rw [hlength] at hspec
  rw [elementText, hput, Option.bind_eq_bind, Option.bind_some]
  split_ifs at hspec with hcursor
  · obtain ⟨b₁, hput₁, hsize₁, htext₁⟩ := hspec
    have hlength₁ : b₁.text.length = rowCursor true 1 row := by
      rw [htext₁, List.length_append, hlength, rowCursor_eq]
    rw [hput₁, Option.bind_some]
    split_ifs with hfits
    · obtain ⟨b₂, hput₂, htext₂, hsize₂⟩ := TextBuffer.put_eq_some (b := b₁) (s := [']'])
        (by rw [List.length_singleton]; omega)
      have hfinish : b₂.finish = some b₂.text := by
        refine if_pos ?_
        rw [htext₂, hsize₂, List.length_append, List.length_singleton]
        omega
      rw [hput₂, Option.bind_some, hfinish, htext₂, htext₁, htext]
      rfl
    · by_cases hone : b₁.text.length + 1 ≤ b₁.size
      · obtain ⟨b₂, hput₂, htext₂, hsize₂⟩ := TextBuffer.put_eq_some (b := b₁) (s := [']']) hone
        have hfinish : b₂.finish = none := by
          refine if_neg ?_
          rw [htext₂, hsize₂, List.length_append, List.length_singleton]
          omega
        rw [hput₂, Option.bind_some, hfinish]
        rfl
      · rw [put_eq_none (by rw [List.length_singleton]; omega)]
        rfl
  · rw [hspec, if_neg (by omega)]
    rfl

end Row

/-! ### Arrays -/

section Array

variable {b : TextBuffer} {first : Bool} {v : Json}

/-- What is written of an element of an array. -/
def writtenText : Json → Bytes
  | .string s => s
  | .number q => numberText q
  | .bool b => boolText b
  | .array row => inBrackets (rowTexts true 1 row)
  | .null | .object _ => []

theorem length_inBrackets (ts : List Bytes) :
    (inBrackets ts).length = 1 + (joinTexts true ts).length + 1 := by
  rw [inBrackets, List.length_append, List.length_cons, List.length_singleton]
  omega

/-- An element has a text unless a nested array leaves its buffer. -/
theorem elementText_of_fits (h : RowFits v) :
    elementText v = some ((elementLength v).map fun _ ↦ writtenText v) ∧
      ∀ n ∈ elementLength v, (writtenText v).length = n := by
  cases v with
  | array row =>
    refine ⟨(elementText_array row).trans (if_pos h), fun n hn ↦ ?_⟩
    cases hn
    rw [writtenText, length_inBrackets, rowCursor_eq]
  | null | object => exact ⟨rfl, fun n hn ↦ by cases hn⟩
  | string | number | bool =>
    refine ⟨rfl, fun n hn ↦ ?_⟩
    cases hn
    rfl

theorem elementText_eq_none (h : ¬ RowFits v) : elementText v = none := by
  cases v with
  | array row => exact (elementText_array row).trans (if_neg h)
  | null | object | string | number | bool => exact absurd trivial h

/-- Writing an element of an array. -/
theorem putElement_spec (b : TextBuffer) (h : RowFits v) :
    ∃ b', putElement b v = some b' ∧ b'.text = b.text ++ writtenText v ∧
      b'.text.length = b.text.length + (elementLength v).getD 0 ∧
      b'.size = grownSize v b.text.length b.size := by
  obtain ⟨helement, hwritten⟩ := elementText_of_fits h
  rw [putElement, helement, grownSize]
  cases hn : elementLength v with
  | none =>
    have hnil : writtenText v = [] := by
      cases v <;> first | rfl | cases hn
    exact ⟨b, rfl, by rw [hnil, List.append_nil], rfl, rfl⟩
  | some n =>
    have hlength := hwritten n hn
    have hreserve := b.lt_size_reserve (n + 10)
    obtain ⟨b', hput, htext, hsize⟩ := TextBuffer.put_eq_some (b := b.reserve (n + 10))
      (s := writtenText v) (show b.text.length + _ ≤ _ by omega)
    refine ⟨b', ?_, htext, ?_, hsize⟩
    · rw [← hlength] at hput
      exact hput
    · rw [htext, List.length_append, hlength]
      rfl

/-- The loop over an array stays in the buffer exactly if the lengths say so. -/
theorem putElements_spec (vs : List Json) (first : Bool) (b : TextBuffer) :
    (ArrayFits first b.text.length b.size vs →
      ∃ b', putElements first b vs = some b' ∧ b'.text.length + 1 < b'.size ∧
        b'.text = b.text ++ joinTexts first (vs.map writtenText)) ∧
    (¬ ArrayFits first b.text.length b.size vs →
      ∀ b', putElements first b vs = some b' → ¬ b'.text.length + 1 < b'.size) := by
  induction vs generalizing first b with
  | nil =>
    refine ⟨fun h ↦ ⟨b, rfl, h, (List.append_nil _).symm⟩, fun h b' hb' ↦ ?_⟩
    cases hb'
    exact h
  | cons v vs ih =>
    rw [putElements, List.map_cons, joinTexts, ArrayFits]
    by_cases hsep : afterSeparator first b.text.length ≤ b.size
    · obtain ⟨b₁, hput₁, hsize₁, htext₁⟩ := putSeparator_eq hsep
      have hlength₁ : b₁.text.length = afterSeparator first b.text.length := by
        rw [htext₁, length_append_separator]
      rw [hput₁, Option.bind_eq_bind, Option.bind_some, ← hlength₁, ← hsize₁]
      by_cases hrow : RowFits v
      · obtain ⟨b₂, hput₂, htext₂, hlength₂, hsize₂⟩ := putElement_spec b₁ hrow
        obtain ⟨hfits, hnot⟩ := ih false b₂
        rw [hput₂, Option.bind_some, ← hlength₂, ← hsize₂]
        refine ⟨fun h ↦ ?_, fun h ↦ hnot fun hrest ↦ h ⟨b₁.fits, hrow, hrest⟩⟩
        obtain ⟨b', hb', hroom, htext'⟩ := hfits h.2.2
        refine ⟨b', hb', hroom, ?_⟩
        rw [htext', htext₂, htext₁]
        simp only [List.append_assoc]
      · rw [putElement, elementText_eq_none hrow]
        exact ⟨fun h ↦ absurd h.2.1 hrow, fun _ b' hb' ↦ by cases hb'⟩
    · rw [putSeparator_eq_none (by omega)]
      exact ⟨fun h ↦ absurd h.1 hsep, fun _ b' hb' ↦ by cases hb'⟩

/-- The text of an array, if the buffers are large enough. -/
theorem arrayText_spec (vs : List Json) :
    (ArrayFits true 1 256 vs → arrayText vs = some (inBrackets (vs.map writtenText))) ∧
      (¬ ArrayFits true 1 256 vs → arrayText vs = none) := by
  obtain ⟨b, hput, htext, hsize⟩ := TextBuffer.put_eq_some
    (b := TextBuffer.empty 256 (by omega)) (s := ['[']) (by decide)
  have hlength : b.text.length = 1 := by
    rw [htext]
    rfl
  have hspec := putElements_spec vs true b
  rw [hlength, hsize] at hspec
  obtain ⟨hfits, hnot⟩ := hspec
  rw [arrayText, hput, Option.bind_eq_bind, Option.bind_some]
  constructor
  · intro h
    obtain ⟨b₁, hput₁, hroom, htext₁⟩ := hfits h
    obtain ⟨b₂, hput₂, htext₂, hsize₂⟩ := TextBuffer.put_eq_some (b := b₁) (s := [']'])
      (by rw [List.length_singleton]; omega)
    have hfinish : b₂.finish = some b₂.text := by
      refine if_pos ?_
      rw [htext₂, hsize₂, List.length_append, List.length_singleton]
      exact hroom
    rw [hput₁, Option.bind_some, hput₂, Option.bind_some, hfinish, htext₂, htext₁, htext]
    rfl
  · intro h
    cases hput₁ : putElements true b vs with
    | none => rfl
    | some b₁ =>
      have hroom := hnot h b₁ hput₁
      rw [Option.bind_some]
      by_cases hone : b₁.text.length + 1 ≤ b₁.size
      · obtain ⟨b₂, hput₂, htext₂, hsize₂⟩ := TextBuffer.put_eq_some (b := b₁) (s := [']']) hone
        have hfinish : b₂.finish = none := by
          refine if_neg ?_
          rw [htext₂, hsize₂, List.length_append, List.length_singleton]
          exact hroom
        rw [hput₂, Option.bind_some, hfinish]
      · rw [put_eq_none (by rw [List.length_singleton]; omega)]
        rfl

end Array

/-! ### What is shown -/

section Shown

variable {e : Json} {row : List Json} {rows : List (List Json)}

theorem digitsPadded_ne_nil (w n : ℕ) : digitsPadded w n ≠ [] := by
  have hlist : (toString n).toList = Nat.toDigits 10 n := Nat.toList_repr
  rw [digitsPadded, hlist]
  exact List.append_ne_nil_of_right_ne_nil _ (toDigits_ne_nil n)

theorem formatPos_ne_nil (p : ℕ) (q : ℚ) : formatPos p q ≠ [] := by
  unfold formatPos
  dsimp only
  generalize (if _ = 10 ^ p then _ else _ : ℕ × ℤ) = digits
  obtain ⟨m, e⟩ := digits
  dsimp only
  split_ifs
  · simp
  · simp
  · exact List.cons_ne_nil _ _
  · refine List.append_ne_nil_of_left_ne_nil ?_ _
    rw [Ne, List.take_eq_nil_iff, not_or]
    exact ⟨Nat.succ_ne_zero _, digitsPadded_ne_nil p m⟩

theorem formatDigits_ne_nil (p : ℕ) (q : ℚ) : formatDigits p q ≠ [] := by
  unfold formatDigits
  split_ifs
  · exact List.cons_ne_nil _ _
  · exact List.cons_ne_nil _ _
  · exact formatPos_ne_nil p q

theorem numberText_ne_nil (q : ℚ) : numberText q ≠ [] := by
  unfold numberText
  split_ifs
  · exact formatLong_ne_nil _
  · exact formatDigits_ne_nil 6 q

/-- Only an empty string has an empty text. -/
theorem scalarShown_pos (he : IsScalar e) (hstring : ∀ s, e ≠ .string s) :
    0 < (scalarShown e).length := by
  cases e with
  | string s => exact absurd rfl (hstring s)
  | number q =>
    rw [scalarShown, List.length_pos_iff]
    split_ifs
    · exact formatLong_ne_nil _
    · exact numberText_ne_nil q
  | bool b => cases b <;> decide
  | null | array | object => exact he.elim

theorem length_joinTexts_cons (first : Bool) (t : Bytes) (ts : List Bytes) :
    (joinTexts first (t :: ts)).length =
      (if first then 0 else 2) + t.length + (joinTexts false ts).length := by
  rw [joinTexts, List.length_append, List.length_append]
  cases first <;> rfl

/-- What is copied is as long as what should be shown exactly if nothing is left out. -/
theorem length_rowTexts (hrow : ∀ e ∈ row, IsScalar e) (first : Bool) (pos : ℕ) :
    (joinTexts first (rowTexts first pos row)).length ≤
        (joinTexts first (row.map scalarShown)).length ∧
      ((joinTexts first (rowTexts first pos row)).length =
          (joinTexts first (row.map scalarShown)).length ↔ RowShown first pos row) := by
  induction row generalizing first pos with
  | nil => exact ⟨le_rfl, iff_of_true rfl trivial⟩
  | cons e es ih =>
    rw [List.forall_mem_cons] at hrow
    rw [rowTexts, List.map_cons, length_joinTexts_cons, length_joinTexts_cons]
    obtain ⟨hle, hiff⟩ := ih hrow.2 false
      (afterSeparator first pos + (copiedText (afterSeparator first pos) e).length)
    have hleft (hcopied : copiedText (afterSeparator first pos) e = [])
        (hshown : 0 < (scalarShown e).length) (hnot : ¬ RowShown first pos (e :: es)) :
        (if first then 0 else 2) + (copiedText (afterSeparator first pos) e).length +
              (joinTexts false (rowTexts false (afterSeparator first pos +
                (copiedText (afterSeparator first pos) e).length) es)).length ≤
            (if first then 0 else 2) + (scalarShown e).length +
              (joinTexts false (es.map scalarShown)).length ∧
          ((if first then 0 else 2) + (copiedText (afterSeparator first pos) e).length +
                (joinTexts false (rowTexts false (afterSeparator first pos +
                  (copiedText (afterSeparator first pos) e).length) es)).length =
              (if first then 0 else 2) + (scalarShown e).length +
                (joinTexts false (es.map scalarShown)).length ↔ RowShown first pos (e :: es)) := by
      rw [hcopied] at hle ⊢
      rw [List.length_nil] at hle ⊢
      exact ⟨by omega, iff_of_false (by omega) hnot⟩
    cases e with
    | string s =>
      by_cases hfits : afterSeparator first pos + s.length + 10 < 1024
      · have hcopied : copiedText (afterSeparator first pos) (.string s) = s := if_pos hfits
        rw [hcopied] at hle hiff ⊢
        rw [RowShown, ← hiff, scalarShown]
        refine ⟨by omega, ?_⟩
        rw [Nat.add_left_cancel_iff]
        exact (and_iff_right (Or.inr hfits)).symm
      · have hcopied : copiedText (afterSeparator first pos) (.string s) = [] := if_neg hfits
        by_cases hs : s = []
        · subst hs
          rw [hcopied] at hle hiff ⊢
          rw [RowShown, ← hiff, scalarShown]
          refine ⟨by omega, ?_⟩
          rw [Nat.add_left_cancel_iff]
          exact (and_iff_right (Or.inl rfl)).symm
        · refine hleft hcopied (List.length_pos_iff.2 hs) fun h ↦ ?_
          rw [RowShown] at h
          rcases h.1 with h | h
          · exact hs h
          · exact hfits h
    | number q => exact hleft rfl (scalarShown_pos hrow.1 nofun) id
    | bool b => exact hleft rfl (scalarShown_pos hrow.1 nofun) id
    | null | array | object => exact hrow.1.elim

/-- Where nothing is left out, everything is copied. -/
theorem rowTexts_eq {first : Bool} {pos : ℕ} (h : RowShown first pos row) :
    rowTexts first pos row = row.map scalarShown := by
  induction row generalizing first pos with
  | nil => rfl
  | cons e es ih =>
    cases e with
    | string s =>
      rw [RowShown] at h
      have hcopied : copiedText (afterSeparator first pos) (.string s) = s := by
        rw [copiedText]
        split_ifs with hfits
        · rfl
        · exact (h.1.resolve_right hfits).symm
      rw [rowTexts, hcopied, ih h.2]
      rfl
    | number | bool | null | array | object => exact h.elim

/-- Texts with separators are the same only if their parts are as long, where none is longer. -/
theorem length_eq_of_joinTexts {α : Type} {f g : α → Bytes} {xs : List α} (first : Bool)
    (hle : ∀ x ∈ xs, (f x).length ≤ (g x).length) :
    (joinTexts first (xs.map f)).length ≤ (joinTexts first (xs.map g)).length ∧
      ((joinTexts first (xs.map f)).length = (joinTexts first (xs.map g)).length →
        ∀ x ∈ xs, (f x).length = (g x).length) := by
  induction xs generalizing first with
  | nil => exact ⟨le_rfl, fun _ x hx ↦ absurd hx List.not_mem_nil⟩
  | cons x xs ih =>
    rw [List.forall_mem_cons] at hle
    obtain ⟨hrest, heq⟩ := ih false hle.2
    rw [List.map_cons, List.map_cons, length_joinTexts_cons, length_joinTexts_cons]
    refine ⟨by omega, fun h ↦ List.forall_mem_cons.2 ⟨by omega, heq (by omega)⟩⟩

/-- All elements of arrays of strings, numbers and truth values are shown exactly if they are
strings that fit. -/
theorem inBrackets_rows_iff (hrows : ∀ row ∈ rows, ∀ e ∈ row, IsScalar e) :
    inBrackets (rows.map fun row ↦ writtenText (.array row)) =
        inBrackets (rows.map fun row ↦ inBrackets (row.map scalarShown)) ↔
      ∀ row ∈ rows, RowShown true 1 row := by
  have hlength (row : List Json) (hrow : row ∈ rows) :=
    length_rowTexts (hrows row hrow) true 1
  constructor
  · intro h row hrow
    have hle : ∀ row ∈ rows, (writtenText (.array row)).length ≤
        (inBrackets (row.map scalarShown)).length := fun row hrow ↦ by
      rw [writtenText, length_inBrackets, length_inBrackets]
      have hrowle := (hlength row hrow).1
      omega
    have htotal : (joinTexts true (rows.map fun row ↦ writtenText (.array row))).length =
        (joinTexts true (rows.map fun row ↦ inBrackets (row.map scalarShown))).length := by
      have htotal := congrArg List.length h
      rw [length_inBrackets, length_inBrackets] at htotal
      omega
    have heq := (length_eq_of_joinTexts true hle).2 htotal row hrow
    rw [writtenText, length_inBrackets, length_inBrackets] at heq
    exact (hlength row hrow).2.1 (by omega)
  · intro h
    refine congrArg inBrackets (List.map_congr_left fun row hrow ↦ ?_)
    rw [writtenText, rowTexts_eq (h row hrow)]

end Shown

/-- The text of an array is right exactly if the separators of all its elements, also of those
that are left out, find room, and the arrays of an array of arrays have strings only, which fit. -/
theorem paramRight_iff (ruby : Option AgentRuby) (vs : List Json) :
    ParamRight ruby vs ↔
      ArrayFits true 1 256 vs ∧
        ∀ rows : List (List Json), vs = rows.map JsonOf.array →
          (∀ row ∈ rows, ∀ e ∈ row, IsScalar e) → ∀ row ∈ rows, RowShown true 1 row := by
  obtain ⟨hfits, hnot⟩ := arrayText_spec vs
  have hrows {rows : List (List Json)} (hvs : vs = rows.map JsonOf.array) :
      vs.map writtenText = rows.map fun row ↦ writtenText (.array row) := by
    rw [hvs, List.map_map]
    rfl
  rw [ParamRight, paramText]
  constructor
  · rintro ⟨text, htext, hshows⟩
    have harray : ArrayFits true 1 256 vs := by
      by_contra h
      rw [hnot h] at htext
      cases htext
    refine ⟨harray, fun rows hvs hscalar ↦ (inBrackets_rows_iff hscalar).1 ?_⟩
    rw [hfits harray] at htext
    rw [← hshows rows hvs hscalar, ← Option.some.inj htext, hrows hvs]
  · rintro ⟨harray, hshown⟩
    refine ⟨_, hfits harray, fun rows hvs hscalar ↦ ?_⟩
    rw [hrows hvs, (inBrackets_rows_iff hscalar).2 (hshown rows hvs hscalar)]

/-- The texts of all arrays among the parameters of a resource are right exactly if their lengths
and kinds of elements are those of `paramRight_iff`. -/
theorem params_right_iff (ruby : Option AgentRuby) (params : List (Bytes × Json)) :
    (∀ key vs, (key, .array vs) ∈ params → ParamRight ruby vs) ↔
      ∀ key vs, (key, .array vs) ∈ params → ArrayFits true 1 256 vs ∧
        ∀ rows : List (List Json), vs = rows.map JsonOf.array →
          (∀ row ∈ rows, ∀ e ∈ row, IsScalar e) → ∀ row ∈ rows, RowShown true 1 row :=
  forall₂_congr fun _ vs ↦ imp_congr_right fun _ ↦ paramRight_iff ruby vs

/-- A number in a nested array is left out, and separators of many nulls leave the buffer. -/
theorem not_paramRight_number :
    arrayText [.array [.number 1]] = some "[[]]".toList ∧
      ¬ ParamRight none [.array [.number 1]] ∧
      arrayText (List.replicate 200 .null) = none ∧
      ¬ ParamRight none (List.replicate 200 .null) := by
  have hnumber : arrayText [.array [.number 1]] = some "[[]]".toList := by decide +kernel
  have hnulls : arrayText (List.replicate 200 .null) = none := by decide +kernel
  refine ⟨hnumber, ?_, hnulls, ?_⟩
  · rintro ⟨text, htext, hshows⟩
    rw [paramText, hnumber] at htext
    cases htext
    have hscalar : ∀ row ∈ [[JsonOf.number (1 : ℚ)]], ∀ e ∈ row, IsScalar e := by
      simp [IsScalar]
    have hwhole := congrArg List.length (hshows [[.number 1]] rfl hscalar)
    revert hwhole
    decide +kernel
  · rintro ⟨text, htext, -⟩
    rw [paramText, hnulls] at htext
    cases htext

end PuppetC
