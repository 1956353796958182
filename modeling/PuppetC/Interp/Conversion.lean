import PuppetC.Number
import PuppetC.Support.BoundedWriter
import PuppetC.Value.Look
import PuppetC.Interp.NumberText

/-!
# Conversion of values to text

A value is converted to text in a buffer of a fixed size. `puppet_value_to_string_buffer` checks
what it writes against the room that is left, but a number advances the cursor by its whole length
also where `snprintf` cut it, and a boolean or a separator that has no room is left out while
shorter texts may follow. `puppet_value_to_display_string` looks at the room before an item only:
an item that goes past the end makes the next size wrap around, and an array without room for
another item is closed with a mark.

## Main definitions

* `Value.toStringBuffer`: `puppet_value_to_string_buffer`.
* `Value.parts`: the parts a value is written in.
* `Value.toDisplayString`: `puppet_value_to_display_string`.
* `Value.displayRender`: the whole text it stands for.
* `Value.DisplayFits`: the items of an array that is shown leave room.

## Main results

* `Value.toStringBuffer_eq_foldl`: a value is written part by part.
* `Value.convertsWithin_iff`, `Value.displaysWithin_iff`: when a conversion stays inside its buffer
  and gives a beginning of the whole text.
* `Value.toTextBuffer_eq_toStringBuffer`, `Value.toDisplayString_eq_displayText`: values whose text
  has room are converted as the evaluation and its messages have it.
* `string_conversion`: when both conversions stay inside their buffers.
-/

namespace PuppetC

open BoundedWriter

namespace Value

/-! ### The string buffer -/

mutual

/-- `puppet_value_to_string_buffer`. -/
def toStringBuffer (maxLen : ℕ) (w : Writer Char) : Value → Writer Char
  | .undef | .regexp _ | .deferred .. => w
  | .string s => if maxLen ≤ w.pos then w else w.put '\x00' maxLen (.cut s.toList)
  | .number n =>
    -- the cursor advances by what `snprintf` would have written
    if maxLen ≤ w.pos then w else w.put '\x00' maxLen (.counted (formatG n).toList)
  | .bool b =>
    if maxLen ≤ w.pos then w
    else w.put '\x00' maxLen (.whole (if b then "true" else "false").toList)
  | .array items =>
    if maxLen ≤ w.pos then w
    else
      (itemsToStringBuffer maxLen (w.put '\x00' maxLen (.whole ['['])) true items).put '\x00' maxLen
        (.whole [']'])
  | .hash entries =>
    if maxLen ≤ w.pos then w
    else
      (entriesToStringBuffer maxLen (w.put '\x00' maxLen (.whole ['{'])) true entries).put '\x00'
        maxLen (.whole ['}'])

/-- The loop of `puppet_value_to_string_buffer` over the items of an array. -/
def itemsToStringBuffer (maxLen : ℕ) (w : Writer Char) (first : Bool) : List Value → Writer Char
  | [] => w
  | v :: vs =>
    if maxLen ≤ w.pos then w
    else
      let w := if first then w else w.put '\x00' maxLen (.whole [',', ' '])
      itemsToStringBuffer maxLen (toStringBuffer maxLen w v) false vs

/-- The loops of `puppet_value_to_string_buffer` over the buckets of a hash. -/
def entriesToStringBuffer (maxLen : ℕ) (w : Writer Char) (first : Bool) :
    List (String × Value) → Writer Char
  | [] => w
  | (k, v) :: es =>
    if maxLen ≤ w.pos then w
    else
      let w := if first then w else w.put '\x00' maxLen (.whole [',', ' '])
      let w := w.put '\x00' maxLen (.cut (beforeNul k.toList))
      let w := w.put '\x00' maxLen (.whole [' ', '=', '>', ' '])
      entriesToStringBuffer maxLen (toStringBuffer maxLen w v) false es

end

/-- The separator before an item or entry that is not the first. -/
def separatorParts (first : Bool) : List (Portion Char) :=
  if first then [] else [.whole [',', ' ']]

mutual

/-- The parts a value is written in. -/
def parts : Value → List (Portion Char)
  | .undef | .regexp _ | .deferred .. => []
  | .string s => [.cut s.toList]
  | .number n => [.counted (formatG n).toList]
  | .bool b => [.whole (if b then "true" else "false").toList]
  | .array items => .whole ['['] :: itemParts true items ++ [.whole [']']]
  | .hash entries => .whole ['{'] :: entryParts true entries ++ [.whole ['}']]

/-- The parts of the items of an array. -/
def itemParts (first : Bool) : List Value → List (Portion Char)
  | [] => []
  | v :: vs => separatorParts first ++ parts v ++ itemParts false vs

/-- The parts of the entries of a hash. -/
def entryParts (first : Bool) : List (String × Value) → List (Portion Char)
  | [] => []
  | (k, v) :: es =>
    separatorParts first ++ .cut (beforeNul k.toList) :: .whole [' ', '=', '>', ' '] :: parts v ++
      entryParts false es

end

variable {maxLen : ℕ} {w : Writer Char}

theorem foldl_separatorParts (first : Bool) :
    (separatorParts first).foldl (Writer.put '\x00' maxLen) w =
      if first then w else w.put '\x00' maxLen (.whole [',', ' ']) := by
  cases first <;> rfl

/-- Parts are written as if there were no test for room first. -/
theorem ite_foldl_put (ps : List (Portion Char)) :
    (if maxLen ≤ w.pos then w else ps.foldl (Writer.put '\x00' maxLen) w) =
      ps.foldl (Writer.put '\x00' maxLen) w := by
  split_ifs with hroom
  · exact (foldl_put_of_le hroom ps).symm
  · rfl

/-- A value is written part by part: where there is no room, no part would be written. -/
theorem toStringBuffer_eq_foldl (v : Value) (w : Writer Char) :
    toStringBuffer maxLen w v = v.parts.foldl (Writer.put '\x00' maxLen) w := by
  induction v using induct generalizing w with
  | undef => rw [toStringBuffer, parts, List.foldl_nil]
  | bool b => exact ite_foldl_put (bool b).parts
  | string s => exact ite_foldl_put (string s).parts
  | number n => exact ite_foldl_put (number n).parts
  | regexp pattern => rw [toStringBuffer, parts, List.foldl_nil]
  | deferred f args ih => rw [toStringBuffer, parts, List.foldl_nil]
  | array items ih =>
    have hitems : ∀ first w, itemsToStringBuffer maxLen w first items =
        (itemParts first items).foldl (Writer.put '\x00' maxLen) w := by
      induction items with
      | nil => exact fun first w ↦ by rw [itemsToStringBuffer, itemParts, List.foldl_nil]
      | cons v vs ihs =>
        intro first w
        rw [itemsToStringBuffer, ← ite_foldl_put, itemParts, List.foldl_append, List.foldl_append,
          foldl_separatorParts, ← ih v List.mem_cons_self,
          ← ihs fun u hu ↦ ih u (List.mem_cons_of_mem v hu)]
    rw [toStringBuffer, ← ite_foldl_put, hitems, parts, List.foldl_append, List.foldl_cons,
      List.foldl_cons, List.foldl_nil]
  | hash entries ih =>
    have hentries : ∀ first w, entriesToStringBuffer maxLen w first entries =
        (entryParts first entries).foldl (Writer.put '\x00' maxLen) w := by
      induction entries with
      | nil => exact fun first w ↦ by rw [entriesToStringBuffer, entryParts, List.foldl_nil]
      | cons e es ihs =>
        intro first w
        rw [entriesToStringBuffer, ← ite_foldl_put, entryParts, List.foldl_append,
          List.foldl_append, foldl_separatorParts, List.foldl_cons, List.foldl_cons,
          ← ih e List.mem_cons_self, ← ihs fun u hu ↦ ih u (List.mem_cons_of_mem e hu)]
    rw [toStringBuffer, ← ite_foldl_put, hentries, parts, List.foldl_append, List.foldl_cons,
      List.foldl_cons, List.foldl_nil]

/-- The whole text of a value in a string. -/
def rendering (v : Value) : List Char := fullText v.parts

/-- The conversion of a value keeps its cursor within the buffer, and the text it leaves there, up
to the first null character, is a beginning of the whole text. -/
def ConvertsWithin (maxLen : ℕ) (v : Value) : Prop :=
  (toStringBuffer maxLen ⟨[], 0⟩ v).pos ≤ maxLen ∧
    beforeNul (toStringBuffer maxLen ⟨[], 0⟩ v).text <+: v.rendering

/-- A conversion stays inside its buffer exactly if the parts of the value fit. -/
theorem convertsWithin_iff (v : Value) (maxLen : ℕ) :
    v.ConvertsWithin maxLen ↔ Fits '\x00' maxLen v.parts := by
  rw [ConvertsWithin, toStringBuffer_eq_foldl, pos_foldl_put_le_iff (Nat.zero_le maxLen),
    text_foldl_put, List.nil_append, Nat.sub_zero]
  exact within_and_prefix_iff maxLen v.parts

/-- A value whose text is shorter than the buffer is converted as a whole. -/
theorem text_toStringBuffer_of_lt {v : Value} (h : v.rendering.length < maxLen) :
    (toStringBuffer maxLen ⟨[], 0⟩ v).text = v.rendering := by
  rw [toStringBuffer_eq_foldl, text_foldl_put, List.nil_append, Nat.sub_zero, emit_eq_fullText h,
    rendering]

/-! ### The display string -/

/-- The size of the buffer of `puppet_value_to_display_string`. -/
def displaySize : ℕ := 1024

end Value

/-- The buffer of `puppet_value_to_display_string`: its text, and the offset. -/
structure DisplayBuffer where
  text : List Char
  offset : ℕ

/-- `offset += snprintf(buffer + offset, sizeof(buffer) - offset, s)`. The size wraps around if the
offset is past the end. -/
def DisplayBuffer.print (b : DisplayBuffer) (s : List Char) : Option DisplayBuffer :=
  if Value.displaySize < b.offset then none
  else some ⟨b.text ++ s.take (Value.displaySize - b.offset - 1), b.offset + s.length⟩

/-- The end of an array: the mark if there is no room for another item, and the bracket. -/
def DisplayBuffer.close (b : DisplayBuffer) (items : List Value) : Option (List Char) := do
  let b ←
    if items ≠ [] ∧ displayRoom ≤ b.offset then b.print [',', ' ', '.', '.', '.'] else some b
  let b ← b.print [']']
  return b.text

namespace Value

mutual

/-- `puppet_value_to_display_string`; `none` if a size wraps around. -/
def toDisplayString : Value → Option (List Char)
  | .undef => some "undef".toList
  | .bool b => some (if b then "true" else "false").toList
  | .string s => some (beforeNul s.toList)
  | .number x =>
    some ((if (truncate x : ℚ) = x then formatLong (truncate x) else (formatFixed x).toList).take
      (displaySize - 1))
  | .array items => do
    let b ← (⟨[], 0⟩ : DisplayBuffer).print ['[']
    let b ← itemsToDisplayString b true items
    b.close items
  | .hash _ => some "\x7bhash with 16 entries\x7d".toList
  | .regexp _ | .deferred .. => some "(unknown)".toList

/-- The loop of `puppet_value_to_display_string` over the items of an array. -/
def itemsToDisplayString (b : DisplayBuffer) (first : Bool) : List Value → Option DisplayBuffer
  | [] => some b
  | v :: vs =>
    if displayRoom ≤ b.offset then some b
    else do
      let b ← if first then some b else b.print [',', ' ']
      let s ← toDisplayString v
      let b ← b.print s
      itemsToDisplayString b false vs

end

/-- The separator before an item that is not the first. -/
def displaySeparator (first : Bool) : List Char := if first then [] else [',', ' ']

mutual

/-- The whole text `puppet_value_to_display_string` stands for. -/
def displayRender : Value → List Char
  | .undef => "undef".toList
  | .bool b => (if b then "true" else "false").toList
  | .string s => beforeNul s.toList
  | .number x => if (truncate x : ℚ) = x then formatLong (truncate x) else (formatFixed x).toList
  | .array items => '[' :: displayRenderItems true items ++ [']']
  | .hash _ => "\x7bhash with 16 entries\x7d".toList
  | .regexp _ | .deferred .. => "(unknown)".toList

/-- The whole text of the items of an array. -/
def displayRenderItems (first : Bool) : List Value → List Char
  | [] => []
  | v :: vs => displaySeparator first ++ displayRender v ++ displayRenderItems false vs

end

/-- A value whose text is shown as a whole. -/
def ShownWhole : Value → Prop
  | .number x => (number x).displayRender.length < displaySize
  | .array items => (array items).displayRender.length ≤ displayRoom
  | _ => True

/-- The mark and the bracket, as far as there is room for them. -/
def displayMark (offset : ℕ) : List Char :=
  [',', ' ', '.', '.', '.', ']'].take (displaySize - 1 - offset)

/-- Items that are shown from an offset on are shown as a whole, and they leave room at the end;
an item that there is no room for is spelled as the mark in its place. -/
def ItemsFit (offset : ℕ) (first : Bool) : List Value → Prop
  | [] => offset < displayRoom
  | v :: vs =>
    if displayRoom ≤ offset then
      offset < displayRoom + 6 ∧
        displayMark offset <+: displayRenderItems first (v :: vs) ++ [']']
    else
      v.ShownWhole ∧
        ItemsFit (offset + (displaySeparator first).length + v.displayRender.length) false vs

/-- The items of an array that is shown leave room. -/
def DisplayFits : Value → Prop
  | .array items => ItemsFit 1 true items
  | _ => True

/-- A value is shown without a size that wraps around, and the text is a beginning of the whole
text. -/
def DisplaysWithin (v : Value) : Prop := ∃ t, v.toDisplayString = some t ∧ t <+: v.displayRender

end Value

/-! ### Printing to the buffer -/

namespace DisplayBuffer

open Value

variable {b : DisplayBuffer} {s : List Char} {items : List Value}

theorem print_of_le (h : b.offset ≤ displaySize) (s : List Char) :
    b.print s = some ⟨b.text ++ s.take (displaySize - b.offset - 1), b.offset + s.length⟩ :=
  if_neg (not_lt.2 h)

theorem print_of_lt (h : b.offset + s.length < displaySize) :
    b.print s = some ⟨b.text ++ s, b.offset + s.length⟩ := by
  rw [print_of_le (by omega), List.take_of_length_le (by omega)]

/-- Two texts are printed like one, unless the first goes past the end. -/
theorem print_bind_print (h : b.offset ≤ displaySize) (s t : List Char) :
    ((b.print s).bind fun b ↦ b.print t) =
      if displaySize < b.offset + s.length then none else b.print (s ++ t) := by
  rw [print_of_le h, Option.bind_some]
  split_ifs with hsize
  · exact if_pos hsize
  · have hroom : displaySize - (b.offset + s.length) - 1 =
        displaySize - b.offset - 1 - s.length := by
      omega
    rw [print_of_le (not_lt.1 hsize), print_of_le h, List.take_append, List.length_append, hroom,
      List.append_assoc, Nat.add_assoc]

theorem close_of_lt (h : b.offset < displayRoom) (items : List Value) :
    b.close items = some (b.text ++ [']']) := by
  have hmark : ¬ (items ≠ [] ∧ displayRoom ≤ b.offset) := fun hand ↦ absurd hand.2 (not_le.2 h)
  have hsize : displayRoom < displaySize := by decide
  have hprint : b.print [']'] = some ⟨b.text ++ [']'], b.offset + 1⟩ :=
    print_of_lt (by rw [List.length_singleton]; omega)
  rw [close, if_neg hmark]
  simp only [Option.bind_eq_bind, Option.bind_some, hprint]
  rfl

theorem close_of_room_le (hitems : items ≠ []) (h : displayRoom ≤ b.offset) :
    b.close items =
      ((b.print [',', ' ', '.', '.', '.']).bind fun b ↦ b.print [']']).map text := by
  rw [close, if_pos ⟨hitems, h⟩]
  cases b.print [',', ' ', '.', '.', '.'] with
  | none => rfl
  | some b =>
    simp only [Option.bind_eq_bind, Option.bind_some]
    cases b.print [']'] <;> rfl

/-- An array is closed with the mark, as far as there is room for it. -/
theorem close_of_mark (hitems : items ≠ []) (hroom : displayRoom ≤ b.offset)
    (h : b.offset < displayRoom + 6) :
    b.close items = some (b.text ++ displayMark b.offset) := by
  change b.offset < 1020 at h
  have hoffset : b.offset ≤ displaySize := by change b.offset ≤ 1024; omega
  have hsize : ¬ displaySize < b.offset + [',', ' ', '.', '.', '.'].length := by
    change ¬ 1024 < b.offset + 5
    omega
  rw [close_of_room_le hitems hroom, print_bind_print hoffset, if_neg hsize, print_of_le hoffset,
    displayMark, Nat.sub_right_comm]
  rfl

/-- Past the mark the size wraps around. -/
theorem close_of_le (hitems : items ≠ []) (h : displayRoom + 6 ≤ b.offset) :
    b.close items = none := by
  change 1020 ≤ b.offset at h
  rw [close_of_room_le hitems (by change 1014 ≤ b.offset; omega)]
  by_cases hoffset : b.offset ≤ displaySize
  · have hsize : displaySize < b.offset + [',', ' ', '.', '.', '.'].length := by
      change 1024 < b.offset + 5
      omega
    rw [print_bind_print hoffset, if_pos hsize]
    rfl
  · have hprint : b.print [',', ' ', '.', '.', '.'] = none := if_pos (not_le.1 hoffset)
    rw [hprint]
    rfl

end DisplayBuffer

namespace Value

/-! ### Items that are shown -/

variable {b : DisplayBuffer} {first : Bool} {vs : List Value}

theorem itemsToDisplayString_of_le (h : displayRoom ≤ b.offset) :
    itemsToDisplayString b first vs = some b := by
  cases vs with
  | nil => rfl
  | cons v vs => exact if_pos h

/-- The buffer after the separator before an item. -/
def afterSeparator (b : DisplayBuffer) (first : Bool) : DisplayBuffer where
  text := b.text ++ displaySeparator first
  offset := b.offset + (displaySeparator first).length

theorem itemsToDisplayString_cons (h : b.offset < displayRoom) (v : Value) :
    itemsToDisplayString b first (v :: vs) = v.toDisplayString.bind fun s ↦
      ((afterSeparator b first).print s).bind fun b ↦ itemsToDisplayString b false vs := by
  rw [itemsToDisplayString, if_neg (not_le.2 h)]
  cases first with
  | true =>
    have hafter : afterSeparator b true = b := by simp [afterSeparator, displaySeparator]
    rw [hafter]
    rfl
  | false =>
    have hprint : b.print [',', ' '] = some (afterSeparator b false) := by
      change b.offset < 1014 at h
      exact DisplayBuffer.print_of_lt (by change b.offset + 2 < 1024; omega)
    simp only [Bool.false_eq_true, if_false, Option.bind_eq_bind, hprint, Option.bind_some]

theorem offset_afterSeparator_le (first : Bool) (h : b.offset < displayRoom) :
    (afterSeparator b first).offset ≤ displayRoom + 1 := by
  have hlength : (displaySeparator first).length ≤ 2 := by cases first <;> decide
  change b.offset + (displaySeparator first).length ≤ displayRoom + 1
  omega

/-- The buffer after an item. -/
def afterItem (b : DisplayBuffer) (first : Bool) (s : List Char) : DisplayBuffer where
  text := (afterSeparator b first).text ++ s
  offset := (afterSeparator b first).offset + s.length

/-- An item is printed as a whole, or the buffer is full. -/
theorem exists_print_item (first : Bool) (h : b.offset < displayRoom) (s : List Char) :
    ∃ b', (afterSeparator b first).print s = some b' ∧
      b'.offset = (afterItem b first s).offset ∧
      (b'.offset < displayRoom + 6 → b' = afterItem b first s) := by
  have hoffset := offset_afterSeparator_le first h
  change (afterSeparator b first).offset ≤ 1015 at hoffset
  refine ⟨_, DisplayBuffer.print_of_le (by change _ ≤ 1024; omega) s, rfl, fun hlt ↦ ?_⟩
  change (afterSeparator b first).offset + s.length < 1020 at hlt
  rw [List.take_of_length_le (by change _ ≤ 1024 - _ - 1; omega), afterItem]

/-- Does a buffer hold its text as far as it can be closed? -/
def Sound (b : DisplayBuffer) : Prop := b.offset < displayRoom + 6 → b.text.length = b.offset

theorem sound_afterItem (h : b.offset < displayRoom) (hb : Sound b) (s : List Char) :
    Sound (afterItem b first s) := by
  intro _
  have hlength := hb (by omega)
  simp only [afterItem, afterSeparator, List.length_append, hlength]

/-- A value is shown as a whole, or its text takes all the room there is, or no text is shown. -/
def ShowsText (v : Value) : Prop :=
  (v.ShownWhole → v.toDisplayString = some v.displayRender) ∧
    (¬ v.ShownWhole → ∀ t, v.toDisplayString = some t → displayRoom + 6 ≤ t.length)

theorem shownWhole_of_length_le {v : Value} (h : v.displayRender.length ≤ displayRoom) :
    v.ShownWhole := by
  cases v with
  | array items => exact h
  | number x => exact h.trans_lt (by decide)
  | _ => trivial

/-- Items that leave room are printed as a whole. -/
theorem itemsToDisplayString_of_lt (hvs : ∀ v ∈ vs, ShowsText v)
    (h : b.offset + (displayRenderItems first vs).length < displayRoom) :
    itemsToDisplayString b first vs = some ⟨b.text ++ displayRenderItems first vs,
      b.offset + (displayRenderItems first vs).length⟩ := by
  induction vs generalizing b first with
  | nil => simp [itemsToDisplayString, displayRenderItems]
  | cons v vs ih =>
    rw [displayRenderItems, List.length_append, List.length_append] at h
    have hwhole : v.ShownWhole := shownWhole_of_length_le (by omega)
    obtain ⟨b', hprint, hoffset, hb'⟩ :=
      exists_print_item first (by omega : b.offset < displayRoom) v.displayRender
    have hafter : (afterItem b first v.displayRender).offset =
      b.offset + (displaySeparator first).length + v.displayRender.length := rfl
    obtain rfl := hb' (by omega)
    rw [itemsToDisplayString_cons (by omega), (hvs v List.mem_cons_self).1 hwhole,
      Option.bind_some, hprint, Option.bind_some,
      ih (fun u hu ↦ hvs u (List.mem_cons_of_mem v hu)) (by omega)]
    simp [afterItem, afterSeparator, displayRenderItems, Nat.add_assoc]

/-- Items that leave no room fill the buffer. -/
theorem displayRoom_le_of_itemsToDisplayString {b' : DisplayBuffer} (hb : Sound b)
    (hvs : ∀ v ∈ vs, ShowsText v)
    (h : displayRoom ≤ b.offset + (displayRenderItems first vs).length)
    (hrun : itemsToDisplayString b first vs = some b') :
    displayRoom ≤ b'.offset ∧ Sound b' := by
  induction vs generalizing b first with
  | nil =>
    obtain rfl := Option.some.inj hrun
    exact ⟨h, hb⟩
  | cons v vs ih =>
    by_cases hroom : displayRoom ≤ b.offset
    · obtain rfl := Option.some.inj ((itemsToDisplayString_of_le hroom).symm.trans hrun)
      exact ⟨hroom, hb⟩
    · rw [not_le] at hroom
      rw [itemsToDisplayString_cons hroom] at hrun
      cases hshow : v.toDisplayString with
      | none =>
        rw [hshow] at hrun
        cases hrun
      | some s =>
        obtain ⟨b'', hprint, hoffset, hb''⟩ := exists_print_item first hroom s
        rw [hshow, Option.bind_some, hprint, Option.bind_some] at hrun
        have hafter : (afterItem b first s).offset =
          b.offset + (displaySeparator first).length + s.length := rfl
        by_cases hfull : displayRoom + 6 ≤ b''.offset
        · obtain rfl := Option.some.inj
            ((itemsToDisplayString_of_le (by omega)).symm.trans hrun)
          exact ⟨by omega, fun hlt ↦ by omega⟩
        · obtain rfl := hb'' (by omega)
          have hwhole : v.ShownWhole := by
            by_contra hnot
            have hlong := (hvs v List.mem_cons_self).2 hnot s hshow
            omega
          have hs : s = v.displayRender :=
            Option.some.inj (hshow.symm.trans ((hvs v List.mem_cons_self).1 hwhole))
          rw [displayRenderItems, List.length_append, List.length_append, ← hs] at h
          exact ih (sound_afterItem hroom hb s)
            (fun u hu ↦ hvs u (List.mem_cons_of_mem v hu)) (by omega) hrun

theorem toDisplayString_array (items : List Value) :
    toDisplayString (array items) =
      (itemsToDisplayString ⟨['['], 1⟩ true items).bind fun b ↦ b.close items := by
  have hprint : (⟨[], 0⟩ : DisplayBuffer).print ['['] = some ⟨['['], 1⟩ := rfl
  rw [toDisplayString]
  simp only [Option.bind_eq_bind, hprint, Option.bind_some]

theorem length_displayRender_array (items : List Value) :
    (array items).displayRender.length = 1 + (displayRenderItems true items).length + 1 := by
  change ('[' :: displayRenderItems true items ++ [']']).length = _
  rw [List.length_append, List.length_cons, List.length_singleton]
  omega

/-- Every value is shown as a whole, or its text takes all the room there is. -/
theorem showsText (v : Value) : v.ShowsText := by
  induction v using induct with
  | undef => exact ⟨fun _ ↦ rfl, fun h ↦ absurd trivial h⟩
  | bool b => exact ⟨fun _ ↦ rfl, fun h ↦ absurd trivial h⟩
  | string s => exact ⟨fun _ ↦ rfl, fun h ↦ absurd trivial h⟩
  | regexp pattern => exact ⟨fun _ ↦ rfl, fun h ↦ absurd trivial h⟩
  | deferred f args ih => exact ⟨fun _ ↦ rfl, fun h ↦ absurd trivial h⟩
  | hash entries ih => exact ⟨fun _ ↦ rfl, fun h ↦ absurd trivial h⟩
  | number x =>
    refine ⟨fun h ↦ congrArg some (List.take_of_length_le (Nat.le_sub_one_of_lt h)),
      fun h t ht ↦ ?_⟩
    have hlong : 1024 ≤ (number x).displayRender.length := not_lt.1 h
    obtain rfl := Option.some.inj ht
    rw [List.length_take]
    change 1020 ≤ min 1023 (number x).displayRender.length
    omega
  | array items ih =>
    by_cases hitems : items = []
    · subst hitems
      exact ⟨fun _ ↦ rfl, fun h ↦ absurd (by decide : (2 : ℕ) ≤ displayRoom) h⟩
    rw [ShowsText, toDisplayString_array]
    constructor
    · intro hwhole
      change (array items).displayRender.length ≤ displayRoom at hwhole
      rw [length_displayRender_array] at hwhole
      have hroom : 1 + (displayRenderItems true items).length < displayRoom := by omega
      rw [itemsToDisplayString_of_lt ih hroom, Option.bind_some,
        DisplayBuffer.close_of_lt (b := ⟨_, _⟩) hroom]
      rfl
    · intro hbroken t ht
      change ¬ (array items).displayRender.length ≤ displayRoom at hbroken
      rw [length_displayRender_array] at hbroken
      obtain ⟨b, hrun, hclose⟩ := Option.bind_eq_some_iff.1 ht
      obtain ⟨hroom, hsound⟩ := displayRoom_le_of_itemsToDisplayString
        (fun _ ↦ rfl : Sound ⟨['['], 1⟩) ih (by change displayRoom ≤ 1 + _; omega) hrun
      by_cases hfull : displayRoom + 6 ≤ b.offset
      · rw [DisplayBuffer.close_of_le hitems hfull] at hclose
        cases hclose
      · have hlength := hsound (by omega)
        rw [DisplayBuffer.close_of_mark hitems hroom (by omega)] at hclose
        obtain rfl := Option.some.inj hclose
        rw [List.length_append, displayMark, List.length_take, hlength]
        change 1014 ≤ b.offset at hroom
        change 1020 ≤ b.offset + min (1023 - b.offset) 6
        change ¬ 1020 ≤ b.offset at hfull
        omega

/-! ### Arrays that are shown -/

variable {items : List Value}

/-- Without room for another item the array is closed with the mark, if there is room for it. -/
theorem exists_close_iff (hitems : items ≠ []) (h : displayRoom ≤ b.offset) (u : List Char) :
    (∃ t, b.close items = some t ∧ t <+: b.text ++ u) ↔
      b.offset < displayRoom + 6 ∧ displayMark b.offset <+: u := by
  by_cases hfull : b.offset < displayRoom + 6
  · rw [DisplayBuffer.close_of_mark hitems h hfull, and_iff_right hfull]
    simp only [Option.some.injEq, exists_eq_left', List.prefix_append_right_inj]
  · rw [DisplayBuffer.close_of_le hitems (not_lt.1 hfull)]
    exact iff_of_false (fun ⟨_, heq, _⟩ ↦ nomatch heq) fun hand ↦ hfull hand.1

theorem not_itemsFit_of_le {offset : ℕ} (h : displayRoom + 6 ≤ offset) :
    ¬ ItemsFit offset first vs := by
  intro hfit
  cases vs with
  | nil =>
    change offset < displayRoom at hfit
    omega
  | cons v vs =>
    rw [ItemsFit, if_pos (by omega)] at hfit
    exact absurd hfit.1 (not_lt.2 h)

theorem not_displayMark_prefix {offset : ℕ} (h : offset < displayRoom + 6) :
    ¬ displayMark offset <+: [']'] := by
  intro hprefix
  have hlength := hprefix.length_le
  rw [displayMark, List.length_take] at hlength
  change offset < 1020 at h
  change min (1023 - offset) 6 ≤ 1 at hlength
  omega

/-- The items of an array are shown without a size that wraps around, as a beginning of the whole
text, exactly if they fit. -/
theorem exists_close_items_iff (hitems : items ≠ []) :
    (∃ t, ((itemsToDisplayString b first vs).bind fun b ↦ b.close items) = some t ∧
      t <+: b.text ++ (displayRenderItems first vs ++ [']'])) ↔ ItemsFit b.offset first vs := by
  induction vs generalizing b first with
  | nil =>
    rw [itemsToDisplayString, Option.bind_some, displayRenderItems, List.nil_append, ItemsFit]
    by_cases hroom : displayRoom ≤ b.offset
    · rw [exists_close_iff hitems hroom]
      exact iff_of_false (fun hand ↦ not_displayMark_prefix hand.1 hand.2) (not_lt.2 hroom)
    · rw [DisplayBuffer.close_of_lt (not_le.1 hroom)]
      exact iff_of_true ⟨_, rfl, List.prefix_rfl⟩ (not_le.1 hroom)
  | cons v vs ih =>
    rw [ItemsFit]
    by_cases hroom : displayRoom ≤ b.offset
    · rw [itemsToDisplayString_of_le hroom, Option.bind_some, if_pos hroom,
        exists_close_iff hitems hroom]
    rw [if_neg hroom]
    rw [not_le] at hroom
    -- an item that goes past the end leaves no room for the mark
    have hfull : ∀ s, displayRoom + 6 ≤ (afterItem b first s).offset →
        ∀ t, v.toDisplayString = some s →
          ((itemsToDisplayString b first (v :: vs)).bind fun b ↦ b.close items) ≠ some t := by
      intro s hlong t hshow
      obtain ⟨b', hprint, hoffset, -⟩ := exists_print_item first hroom s
      rw [itemsToDisplayString_cons hroom, hshow, Option.bind_some, hprint, Option.bind_some,
        itemsToDisplayString_of_le (by omega), Option.bind_some,
        DisplayBuffer.close_of_le hitems (by omega)]
      exact nofun
    by_cases hwhole : v.ShownWhole
    · rw [and_iff_right hwhole]
      have hshow := (showsText v).1 hwhole
      by_cases hlong : displayRoom + 6 ≤ (afterItem b first v.displayRender).offset
      · exact iff_of_false (fun ⟨t, hrun, _⟩ ↦ hfull _ hlong t hshow hrun)
          (not_itemsFit_of_le hlong)
      · obtain ⟨b', hprint, hoffset, hb'⟩ :=
          exists_print_item first hroom v.displayRender
        obtain rfl := hb' (by omega)
        rw [itemsToDisplayString_cons hroom, hshow, Option.bind_some, hprint, Option.bind_some]
        have htext : b.text ++ (displayRenderItems first (v :: vs) ++ [']']) =
            (afterItem b first v.displayRender).text ++ (displayRenderItems false vs ++ [']']) := by
          simp only [displayRenderItems, afterItem, afterSeparator, List.append_assoc]
        rw [htext]
        exact ih
    · refine iff_of_false (fun ⟨t, hrun, _⟩ ↦ ?_) fun hand ↦ hwhole hand.1
      cases hshow : v.toDisplayString with
      | none =>
        rw [itemsToDisplayString_cons hroom, hshow] at hrun
        cases hrun
      | some s =>
        have hlong := (showsText v).2 hwhole s hshow
        exact hfull s (hlong.trans (Nat.le_add_left _ _)) t hshow hrun

/-- A value is shown without a size that wraps around, as a beginning of the whole text, exactly if
the items of an array leave room. -/
theorem displaysWithin_iff (v : Value) : v.DisplaysWithin ↔ v.DisplayFits := by
  cases v with
  | array items =>
    by_cases hitems : items = []
    · subst hitems
      refine iff_of_true ⟨['[', ']'], rfl, List.prefix_rfl⟩ ?_
      rw [DisplayFits, ItemsFit]
      decide
    · rw [DisplaysWithin, toDisplayString_array]
      exact exists_close_items_iff hitems
  | number x => exact iff_of_true ⟨_, rfl, List.take_prefix _ _⟩ trivial
  | _ => exact iff_of_true ⟨_, rfl, List.prefix_rfl⟩ trivial

/-! ### Conversions with room -/

/-- The strings and keys of a value have no null character. -/
inductive NulFree : Value → Prop where
  | undef : NulFree undef
  | bool (b : Bool) : NulFree (bool b)
  | string {s : String} (h : '\x00' ∉ s.toList) : NulFree (string s)
  | number (n : ℚ) : NulFree (number n)
  | array {items : List Value} (h : ∀ v ∈ items, NulFree v) : NulFree (array items)
  | hash {entries : List (String × Value)} (hkeys : ∀ e ∈ entries, '\x00' ∉ e.1.toList)
      (h : ∀ e ∈ entries, NulFree e.2) : NulFree (hash entries)
  | regexp (pattern : String) : NulFree (regexp pattern)
  | deferred (f : String) (args : List Value) : NulFree (deferred f args)

theorem toList_appendCut {buf s : String} (h : buf.toList.length + s.toList.length ≤ textRoom) :
    (appendCut buf s).toList = buf.toList ++ s.toList := by
  have hroom : s.toList.length ≤ textRoom - buf.length := by
    rw [← String.length_toList]
    omega
  rw [appendCut, String.toList_append, String.toList_ofList, List.take_of_length_le hroom]

theorem toList_appendWhole {buf s : String} (h : buf.toList.length + s.toList.length ≤ textRoom) :
    (appendWhole buf s).toList = buf.toList ++ s.toList := by
  rw [appendWhole, if_pos (by simpa only [String.length_toList] using h), String.toList_append]

theorem toList_separated (buf : String) (first : Bool)
    (h : buf.toList.length + (fullText (separatorParts first)).length ≤ textRoom) :
    (if first then buf else appendWhole buf ", ").toList =
      buf.toList ++ fullText (separatorParts first) := by
  cases first with
  | true => exact (List.append_nil _).symm
  | false => exact toList_appendWhole h

/-- A value is converted as a whole where there is room for its text. -/
def ConvertsWhole (v : Value) : Prop :=
  ∀ buf : String, buf.toList.length + v.rendering.length ≤ textRoom →
    (toTextBuffer buf v).toList = buf.toList ++ v.rendering

theorem toList_itemsToTextBuffer (first : Bool) {vs : List Value} (buf : String)
    (hvs : ∀ v ∈ vs, v.ConvertsWhole)
    (h : buf.toList.length + (fullText (itemParts first vs)).length < textRoom) :
    (itemsToTextBuffer buf first vs).toList = buf.toList ++ fullText (itemParts first vs) := by
  induction vs generalizing first buf with
  | nil => exact (List.append_nil _).symm
  | cons v vs ih =>
    rw [itemParts, fullText_append, fullText_append, List.length_append, List.length_append] at h
    have hseparated := toList_separated buf first (by omega)
    have hv := hvs v List.mem_cons_self (if first then buf else appendWhole buf ", ") (by
      rw [hseparated, List.length_append, rendering]
      omega)
    have hroom : ¬ textRoom ≤ buf.length := by
      rw [← String.length_toList]
      omega
    rw [itemsToTextBuffer, if_neg hroom, ih _ _ fun u hu ↦ hvs u (List.mem_cons_of_mem v hu), hv,
      hseparated, itemParts, fullText_append, fullText_append, rendering]
    · simp only [List.append_assoc]
    · rw [hv, hseparated, List.length_append, List.length_append, rendering]
      omega

theorem toList_entriesToTextBuffer (first : Bool) {es : List (String × Value)} (buf : String)
    (hkeys : ∀ e ∈ es, '\x00' ∉ e.1.toList) (hes : ∀ e ∈ es, e.2.ConvertsWhole)
    (h : buf.toList.length + (fullText (entryParts first es)).length < textRoom) :
    (entriesToTextBuffer buf first es).toList = buf.toList ++ fullText (entryParts first es) := by
  induction es generalizing first buf with
  | nil => exact (List.append_nil _).symm
  | cons e es ih =>
    obtain ⟨k, v⟩ := e
    have hkey : beforeNul k.toList = k.toList :=
      beforeNul_eq_self_iff.2 (hkeys (k, v) List.mem_cons_self)
    rw [entryParts, hkey, fullText_append, fullText_append, fullText_cons, fullText_cons] at h ⊢
    simp only [Portion.text, List.length_append, List.length_cons, List.length_nil] at h
    have hseparated := toList_separated buf first (by omega)
    generalize hstart : (if first then buf else appendWhole buf ", ") = start at hseparated
    have hcut : (appendCut start k).toList = start.toList ++ k.toList :=
      toList_appendCut (by rw [hseparated, List.length_append]; omega)
    have harrow : (appendWhole (appendCut start k) " => ").toList =
        (appendCut start k).toList ++ [' ', '=', '>', ' '] :=
      toList_appendWhole (by
        rw [hcut, hseparated, List.length_append, List.length_append]
        change _ + 4 ≤ _
        omega)
    have hv := hes (k, v) List.mem_cons_self (appendWhole (appendCut start k) " => ") (by
      rw [harrow, hcut, hseparated, rendering]
      simp only [List.length_append, List.length_cons, List.length_nil]
      omega)
    have hroom : ¬ textRoom ≤ buf.length := by
      rw [← String.length_toList]
      omega
    rw [entriesToTextBuffer, if_neg hroom, hstart,
      ih _ _ (fun u hu ↦ hkeys u (List.mem_cons_of_mem _ hu))
        (fun u hu ↦ hes u (List.mem_cons_of_mem _ hu)), hv, harrow, hcut, hseparated, rendering]
    · simp [Portion.text]
    · rw [hv, harrow, hcut, hseparated, rendering]
      simp only [List.length_append, List.length_cons, List.length_nil]
      omega

/-- A value without null characters is converted as a whole where there is room for its text. -/
theorem NulFree.convertsWhole {v : Value} (hv : v.NulFree) : v.ConvertsWhole := by
  induction hv with
  | undef => exact fun buf _ ↦ (List.append_nil _).symm
  | regexp pattern => exact fun buf _ ↦ (List.append_nil _).symm
  | deferred f args => exact fun buf _ ↦ (List.append_nil _).symm
  | bool b =>
    intro buf h
    rw [rendering, parts, fullText_cons, fullText_nil, List.append_nil] at h ⊢
    exact toList_appendWhole h
  | string _ =>
    intro buf h
    rw [rendering, parts, fullText_cons, fullText_nil, List.append_nil] at h ⊢
    exact toList_appendCut h
  | number n =>
    intro buf h
    rw [rendering, parts, fullText_cons, fullText_nil, List.append_nil] at h ⊢
    exact toList_appendCut h
  | @array items _ ih =>
    intro buf h
    rw [rendering, parts, fullText_append, fullText_cons, fullText_cons, fullText_nil,
      List.append_nil] at h ⊢
    simp only [Portion.text, List.length_append, List.length_cons, List.length_nil] at h
    have hopen : (appendCut buf "[").toList = buf.toList ++ ['['] :=
      toList_appendCut (by change _ + 1 ≤ _; omega)
    have hitems := toList_itemsToTextBuffer true (appendCut buf "[") ih (by
      rw [hopen, List.length_append, List.length_singleton]
      omega)
    rw [toTextBuffer, toList_appendCut, hitems, hopen]
    · simp [Portion.text]
    · rw [hitems, hopen]
      simp only [List.length_append, List.length_cons, List.length_nil]
      change _ + 1 ≤ _
      omega
  | @hash entries hkeys _ ih =>
    intro buf h
    rw [rendering, parts, fullText_append, fullText_cons, fullText_cons, fullText_nil,
      List.append_nil] at h ⊢
    simp only [Portion.text, List.length_append, List.length_cons, List.length_nil] at h
    have hopen : (appendCut buf "\x7b").toList = buf.toList ++ ['{'] :=
      toList_appendCut (by change _ + 1 ≤ _; omega)
    have hentries := toList_entriesToTextBuffer true (appendCut buf "\x7b") hkeys ih (by
      rw [hopen, List.length_append, List.length_singleton]
      omega)
    rw [toTextBuffer, toList_appendCut, hentries, hopen]
    · simp [Portion.text]
    · rw [hentries, hopen]
      simp only [List.length_append, List.length_cons, List.length_nil]
      change _ + 1 ≤ _
      omega

/-- The buffer that the texts of arrays and hashes are taken from. -/
theorem toTextBuffer_eq_toStringBuffer {v : Value} (hv : v.NulFree)
    (h : v.rendering.length < textRoom) :
    toTextBuffer "" v = String.ofList (toStringBuffer textRoom ⟨[], 0⟩ v).text := by
  rw [← String.ofList_toList (s := toTextBuffer "" v), hv.convertsWhole "" (by
    rw [String.toList_empty, List.length_nil]
    omega), text_toStringBuffer_of_lt h]
  rfl

/-! ### Texts of messages with room -/

/-- A value is shown as a whole where its text is short. -/
def DisplaysWhole (v : Value) : Prop :=
  v.displayRender.length ≤ displayRoom → (displayText v).toList = v.displayRender

theorem toList_displayItems (buf : String) (hvs : ∀ v ∈ vs, v.DisplaysWhole)
    (h : buf.toList.length + (displayRenderItems false vs).length < displayRoom) :
    (displayItems buf vs).toList = buf.toList ++ (displayRenderItems false vs ++ [']']) := by
  induction vs generalizing buf with
  | nil =>
    have hroom : ¬ displayRoom ≤ buf.length := by
      rw [← String.length_toList]
      omega
    rw [displayItems, if_neg hroom, String.toList_append]
    rfl
  | cons v vs ih =>
    simp only [displayRenderItems, List.length_append] at h
    have hroom : ¬ displayRoom ≤ buf.length := by
      rw [← String.length_toList]
      omega
    have hv := hvs v List.mem_cons_self (by omega)
    have hbuf : (buf ++ ", " ++ displayText v).toList =
        buf.toList ++ (displaySeparator false ++ v.displayRender) := by
      rw [String.toList_append, String.toList_append, hv, List.append_assoc]
      rfl
    rw [displayItems, if_neg hroom, ih _ fun u hu ↦ hvs u (List.mem_cons_of_mem v hu), hbuf]
    · simp only [displayRenderItems, List.append_assoc]
    · rw [hbuf, List.length_append, List.length_append]
      omega

/-- In messages a value without null characters is shown as a whole where its text is short. -/
theorem NulFree.displaysWhole {v : Value} (hv : v.NulFree) : v.DisplaysWhole := by
  induction hv with
  | undef => exact fun _ ↦ rfl
  | bool b => cases b <;> exact fun _ ↦ rfl
  | regexp pattern => exact fun _ ↦ rfl
  | deferred f args => exact fun _ ↦ rfl
  | hash _ _ ih => exact fun _ ↦ rfl
  | string hnul => exact fun _ ↦ (beforeNul_eq_self_iff.2 hnul).symm
  | number n =>
    intro _
    change _ = if (truncate n : ℚ) = n then formatLong (truncate n) else (formatFixed n).toList
    rw [displayText, toString_eq_numeral, numeral]
    split_ifs with hlong
    · exact String.toList_ofList
    · rfl
  | @array items _ ih =>
    intro h
    rw [length_displayRender_array] at h
    cases items with
    | nil => rfl
    | cons v vs =>
      simp only [displayRenderItems, displaySeparator, if_true, List.nil_append,
        List.length_append] at h
      have hv := ih v List.mem_cons_self (by omega)
      have hopen : ("[" ++ displayText v).toList = '[' :: v.displayRender := by
        rw [String.toList_append, hv]
        rfl
      have hitems := toList_displayItems ("[" ++ displayText v)
        (fun u hu ↦ ih u (List.mem_cons_of_mem v hu)) (by
          rw [hopen, List.length_cons]
          omega)
      have hlength : (displayItems ("[" ++ displayText v) vs).length < 1024 := by
        rw [← String.length_toList, hitems, hopen]
        simp only [List.length_append, List.length_cons, List.length_nil]
        change 1 + _ + 1 ≤ 1014 at h
        omega
      rw [displayText, bufferCopy_of_lt hlength, hitems, hopen]
      exact (List.append_assoc ('[' :: v.displayRender) _ _).symm

/-- The text of a value in a message. -/
theorem toDisplayString_eq_displayText {v : Value} (hv : v.NulFree)
    (h : v.displayRender.length ≤ displayRoom) :
    v.toDisplayString = some (displayText v).toList := by
  rw [(showsText v).1 (shownWhole_of_length_le h), hv.displaysWhole h]

end Value

end PuppetC
