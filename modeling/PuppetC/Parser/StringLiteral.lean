import PuppetC.Parser.Access
import PuppetC.Support.TextPieces
import PuppetC.Json.Reader

/-!
# The conversion of string literals

How the parser turns a quoted string of the syntax tree into a value or an interpolated string
(`convert_string_literal` in `puppet_ts_parser.c`), compared with what the literal denotes. The
text between two interpolations is cut out of the source by byte offsets and decoded on its own.

## Main definitions

* `processEscapeSequences`: `process_escape_sequences`.
* `StringNode`, `convertStringLiteral`: a string of the syntax tree and `convert_string_literal`.
* `singleQuotedEscape`, `doubleQuotedEscape`: the escapes of the two kinds of quotes.
* `StringLiteral`, `StringLiteral.meaning`: a literal and what it denotes.
* `StringLiteral.IsNode`: a node of the syntax tree that stands for a literal.

## Main results

* `processEscapeSequences_eq`: the pieces that the parser decodes.
* `convertStringLiteral_eq_iff`: when a literal is converted to what it denotes.
-/

namespace PuppetC

/-! ### The parser -/

/-- The escapes of `process_escape_sequences`. -/
def knownEscape? (c : Char) : Option Char :=
  if c = 'n' then some '\n'
  else if c = 't' then some '\t'
  else if c = 'r' then some '\r'
  else if c = '\\' ∨ c = '"' ∨ c = '\'' ∨ c = '$' then some c
  else none

/-- `process_escape_sequences`. -/
def processEscapeSequences : List Char → List Char
  | [] => []
  | [c] => [c]
  | b :: c :: cs =>
    if b = '\\' then
      match knownEscape? c with
      | some d => d :: processEscapeSequences cs
      | none => b :: processEscapeSequences (c :: cs)
    else b :: processEscapeSequences (c :: cs)

/-- A named child of an interpolation; what is neither a variable nor an access is already
converted. -/
inductive InterpolationChild where
  | variable (name : String)
  | access (access : Access)
  | other (e : Expr)

/-- The name of a variable. -/
def InterpolationChild.variable? : InterpolationChild → Option String
  | .variable name => some name
  | _ => none

/-- An access. -/
def InterpolationChild.access? : InterpolationChild → Option Access
  | access a => some a
  | _ => none

/-- `convert_expression` of a child. -/
def InterpolationChild.expr : InterpolationChild → Expr
  | .variable name => .variable name
  | access a => a.element.firstChild
  | other e => e

/-- The expression of an interpolation: a variable, wherever it stands, with all accesses; else the
first child, or the text of the interpolation. -/
def convertInterpolation (text : List Char) (children : List InterpolationChild) : Expr :=
  match children.findSome? InterpolationChild.variable? with
  | some name => indexed (.variable name) (children.filterMap InterpolationChild.access?)
  | none =>
    match children with
    | child :: _ => child.expr
    | [] => .value (.string (String.ofList text))

/-- A named child of a string. -/
inductive StringChild where
  | interpolation (startByte endByte : ℕ) (children : List InterpolationChild)
  | other

/-- Is this an interpolation? -/
def StringChild.isInterpolation : StringChild → Bool
  | interpolation .. => true
  | other => false

/-- A `single_quoted_string` or `double_quoted_string`. -/
structure StringNode where
  doubleQuoted : Bool
  startByte : ℕ
  endByte : ℕ
  children : List StringChild

/-- The bytes of the source from an offset up to another one. -/
def sourceText (source : List Char) (startByte endByte : ℕ) : List Char :=
  (source.take endByte).drop startByte

/-- A part of an interpolated string. -/
def partText (source : List Char) (startByte endByte : ℕ) : String :=
  if startByte < endByte then
    String.ofList (processEscapeSequences (sourceText source startByte endByte))
  else ""

/-- The loop over the interpolations of a string, and the offset after the last one. -/
def convertParts (source : List Char) (stringStart : ℕ) :
    List StringChild → List (Option String × Option Expr) × ℕ
  | [] => ([], stringStart)
  | .interpolation startByte endByte children :: rest =>
    let (parts, stop) := convertParts source endByte rest
    ((some (partText source stringStart startByte),
      some (convertInterpolation (sourceText source startByte endByte) children)) :: parts, stop)
  | .other :: rest => convertParts source stringStart rest

/-- The value of a string without interpolations. -/
def convertQuoted (raw : List Char) : List Char :=
  let content := (raw.drop 1).take (raw.length - 2)
  if 2 ≤ raw.length ∧ raw.head? = some '"' then processEscapeSequences content
  else if 2 ≤ raw.length ∧ raw.head? = some '\'' then content
  else raw

/-- `convert_string_literal`. -/
def convertStringLiteral (source : List Char) (node : StringNode) : Expr :=
  if node.doubleQuoted ∧ node.children.any StringChild.isInterpolation then
    let (parts, stop) := convertParts source (node.startByte + 1) node.children
    .interpolated parts (partText source stop (node.endByte - 1))
  else
    .value (.string (String.ofList
      (convertQuoted (sourceText source node.startByte node.endByte))))

/-! ### The language -/

/-- The escapes of a single-quoted string: a backslash and a quote. -/
def singleQuotedEscape : EscapeReader
  | c :: _ => if c = '\\' ∨ c = '\'' then some ([c], 1) else none
  | [] => none

/-- The number that hexadecimal digits stand for. -/
def hexNumber (digits : List Char) : ℕ := strtoul16 0 digits

/-- Is this a hexadecimal digit? -/
def isHex (c : Char) : Bool := (hexDigit? c).isSome

/-- A code point in UTF-8, of up to four bytes. -/
def utf8Text (n : ℕ) : List Char :=
  if n ≤ 0xffff then encodeUtf8 n
  else [Char.ofNat (0xf0 + n / 262144), Char.ofNat (0x80 + n / 4096 % 64),
    Char.ofNat (0x80 + n / 64 % 64), Char.ofNat (0x80 + n % 64)]

/-- The escapes that start with `u`: four digits, or up to six in braces that are a code point. -/
def unicodeEscape : EscapeReader
  | [] => none
  | c :: cs =>
    if c = '\x7b' then
      let digits := cs.takeWhile isHex
      if 1 ≤ digits.length ∧ digits.length ≤ 6 ∧ (cs.drop digits.length).head? = some '\x7d' ∧
          hexNumber digits ≤ 0x10ffff then
        some (utf8Text (hexNumber digits), digits.length + 3)
      else none
    else if 4 ≤ (c :: cs).length ∧ ((c :: cs).take 4).all isHex then
      some (utf8Text (hexNumber ((c :: cs).take 4)), 5)
    else none

/-- The escapes of a double-quoted string: those of `process_escape_sequences`, `\s` for a blank
and the forms of `\u`. -/
def doubleQuotedEscape : EscapeReader
  | [] => none
  | c :: cs =>
    match knownEscape? c with
    | some d => some ([d], 1)
    | none => if c = 's' then some ([' '], 1) else if c = 'u' then unicodeEscape cs else none

/-- An interpolation: its text, with the sigil and the braces, and its children. -/
structure Interpolation where
  text : List Char
  children : List InterpolationChild

/-- A quoted string: its text, or the texts between its interpolations. -/
inductive StringLiteral where
  | single (text : List Char)
  | double (parts : List (List Char × Interpolation)) (trailing : List Char)

namespace StringLiteral

/-- The text of a literal. -/
def source : StringLiteral → List Char
  | single text => '\'' :: (text ++ ['\''])
  | double parts trailing =>
    '"' :: ((parts.flatMap fun p ↦ p.1 ++ p.2.text) ++ (trailing ++ ['"']))

/-- What a literal denotes: each text is decoded on its own. -/
def meaning : StringLiteral → Expr
  | single text => .value (.string (String.ofList (decodeText singleQuotedEscape text)))
  | double [] text => .value (.string (String.ofList (decodeText doubleQuotedEscape text)))
  | double parts trailing =>
    .interpolated (parts.map fun p ↦
      (some (String.ofList (decodeText doubleQuotedEscape p.1)),
        some (convertInterpolation p.2.text p.2.children)))
      (String.ofList (decodeText doubleQuotedEscape trailing))

/-- The interpolations of a literal in the syntax tree, from an offset on. -/
def interpolationNodes (offset : ℕ) : List (List Char × Interpolation) → List StringChild
  | [] => []
  | (text, i) :: parts =>
    let startByte := offset + text.length
    .interpolation startByte (startByte + i.text.length) i.children ::
      interpolationNodes (startByte + i.text.length) parts

/-- The node of a literal that starts at an offset, without the children that are no
interpolations. -/
def node (offset : ℕ) : StringLiteral → StringNode
  | l@(single _) => ⟨false, offset, offset + l.source.length, []⟩
  | l@(double parts _) =>
    ⟨true, offset, offset + l.source.length, interpolationNodes (offset + 1) parts⟩

/-- A node that stands for a literal in a source. -/
structure IsNode (l : StringLiteral) (source : List Char) (node : StringNode) : Prop where
  text : ∃ before after, source = before ++ l.source ++ after ∧ node.startByte = before.length
  doubleQuoted : node.doubleQuoted = (l.node node.startByte).doubleQuoted
  endByte : node.endByte = (l.node node.startByte).endByte
  children : node.children.filter StringChild.isInterpolation =
    (l.node node.startByte).children

end StringLiteral

/-! ### Cutting the source -/

theorem sourceText_append (a m c : List Char) :
    sourceText (a ++ (m ++ c)) a.length (a.length + m.length) = m := by
  rw [sourceText, ← List.append_assoc, ← List.length_append, List.take_left', List.drop_left']
  · rfl
  · rfl

theorem partText_append (a m c : List Char) :
    partText (a ++ (m ++ c)) a.length (a.length + m.length) =
      String.ofList (processEscapeSequences m) := by
  rw [partText, sourceText_append]
  split_ifs with h
  · rfl
  · obtain rfl : m = [] := List.length_eq_zero_iff.1 (by omega)
    rfl

theorem convertParts_filter (source : List Char) (stringStart : ℕ) (children : List StringChild) :
    convertParts source stringStart (children.filter StringChild.isInterpolation) =
      convertParts source stringStart children := by
  induction children generalizing stringStart with
  | nil => rfl
  | cons child rest ih =>
    cases child with
    | other => exact ih stringStart
    | interpolation startByte endByte children =>
      rw [List.filter_cons_of_pos rfl, convertParts, convertParts, ih]

/-- The parts and expressions of an interpolated string, as the parser reads them. -/
def readParts (parts : List (List Char × Interpolation)) : List (Option String × Option Expr) :=
  parts.map fun p ↦ (some (String.ofList (processEscapeSequences p.1)),
    some (convertInterpolation p.2.text p.2.children))

/-- The source is cut exactly at the interpolations. -/
theorem convertParts_interpolationNodes (before after : List Char)
    (parts : List (List Char × Interpolation)) :
    convertParts (before ++ ((parts.flatMap fun p ↦ p.1 ++ p.2.text) ++ after)) before.length
        (StringLiteral.interpolationNodes before.length parts) =
      (readParts parts, before.length + (parts.flatMap fun p ↦ p.1 ++ p.2.text).length) := by
  induction parts generalizing before with
  | nil => rfl
  | cons p parts ih =>
    obtain ⟨text, i⟩ := p
    have htext := partText_append before text
      (i.text ++ ((parts.flatMap fun p ↦ p.1 ++ p.2.text) ++ after))
    have hinterp := sourceText_append (before ++ text) i.text
      ((parts.flatMap fun p ↦ p.1 ++ p.2.text) ++ after)
    have hrest := ih (before ++ text ++ i.text)
    simp only [List.length_append, List.append_assoc, ← Nat.add_assoc] at htext hinterp hrest
    simp only [List.flatMap_cons, List.append_assoc, StringLiteral.interpolationNodes, convertParts,
      htext, hinterp, ← Nat.add_assoc, hrest, readParts, List.map_cons, List.length_append]

namespace StringLiteral

/-- The expression that the parser makes of a literal. -/
def read : StringLiteral → Expr
  | single text => .value (.string (String.ofList text))
  | double [] text => .value (.string (String.ofList (processEscapeSequences text)))
  | double parts trailing =>
    .interpolated (readParts parts) (String.ofList (processEscapeSequences trailing))

theorem any_isInterpolation (children : List StringChild) :
    children.any StringChild.isInterpolation =
      (children.filter StringChild.isInterpolation).any StringChild.isInterpolation := by
  induction children with
  | nil => rfl
  | cons child rest ih => cases child <;> simp [StringChild.isInterpolation, ih]

theorem convertQuoted_single (text : List Char) : convertQuoted (single text).source = text := by
  simp [convertQuoted, source]

theorem convertQuoted_double (text : List Char) :
    convertQuoted (double [] text).source = processEscapeSequences text := by
  simp [convertQuoted, source]

/-- The conversion of a node that stands for a literal. -/
theorem convertStringLiteral_eq_read {l : StringLiteral} {source : List Char} {node : StringNode}
    (h : l.IsNode source node) : convertStringLiteral source node = l.read := by
  obtain ⟨⟨before, after, rfl, hstart⟩, hdouble, hend, hchildren⟩ := h
  have htext := sourceText_append before l.source after
  rw [hstart] at hdouble hend hchildren
  cases l with
  | single text =>
    have hplain : ¬(node.doubleQuoted = true ∧
        node.children.any StringChild.isInterpolation = true) := by
      simp [hdouble, StringLiteral.node]
    simp only [StringLiteral.node] at hend
    rw [convertStringLiteral, if_neg hplain, hstart, hend, List.append_assoc, htext,
      convertQuoted_single, read]
  | double parts trailing =>
    simp only [StringLiteral.node] at hend hchildren
    have hany : node.children.any StringChild.isInterpolation = !parts.isEmpty := by
      rw [any_isInterpolation, hchildren]
      cases parts <;> rfl
    cases parts with
    | nil =>
      have hplain : ¬(node.doubleQuoted = true ∧
          node.children.any StringChild.isInterpolation = true) := by simp [hany]
      rw [convertStringLiteral, if_neg hplain, hstart, hend, List.append_assoc, htext,
        convertQuoted_double, read]
    | cons p parts =>
      have hinterpolated : node.doubleQuoted = true ∧
          node.children.any StringChild.isInterpolation = true := by
        rw [hdouble, hany]
        exact ⟨rfl, rfl⟩
      have hsource : before ++ (double (p :: parts) trailing).source ++ after =
          (before ++ ['"']) ++ (((p :: parts).flatMap fun p ↦ p.1 ++ p.2.text) ++
            (trailing ++ '"' :: after)) := by simp [source]
      have hparts := convertParts_interpolationNodes (before ++ ['"']) (trailing ++ '"' :: after)
        (p :: parts)
      have htrailing := partText_append
        ((before ++ ['"']) ++ (p :: parts).flatMap fun p ↦ p.1 ++ p.2.text) trailing ('"' :: after)
      rw [List.append_assoc] at htrailing
      rw [List.length_append] at htrailing hparts
      have hstop : node.endByte - 1 = before.length + ['"'].length +
          ((p :: parts).flatMap fun p ↦ p.1 ++ p.2.text).length + trailing.length := by
        rw [hend]
        simp only [source, List.length_cons, List.length_append, List.length_nil]
        omega
      rw [convertStringLiteral, if_pos hinterpolated, ← convertParts_filter, hchildren, hstart,
        hsource]
      simp only [List.length_singleton, List.length_append] at hparts hstop htrailing
      simp only [hparts, hstop, htrailing, read]

end StringLiteral

/-! ### Which escapes the parser knows -/

/-- What the parser makes of a piece of a double-quoted string. -/
def TextPiece.read : TextPiece → List Char
  | .escape [c] _ =>
    match knownEscape? c with
    | some d => [d]
    | none => ['\\', c]
  | p => p.source

theorem processEscapeSequences_cons {c : Char} (hc : c ≠ '\\') (cs : List Char) :
    processEscapeSequences (c :: cs) = c :: processEscapeSequences cs := by
  cases cs with
  | nil => rfl
  | cons d ds => rw [processEscapeSequences, if_neg hc]

theorem processEscapeSequences_append {a : List Char} (ha : '\\' ∉ a) (b : List Char) :
    processEscapeSequences (a ++ b) = a ++ processEscapeSequences b := by
  induction a with
  | nil => rfl
  | cons c cs ih =>
    rw [List.mem_cons, not_or] at ha
    rw [List.cons_append, processEscapeSequences_cons (Ne.symm ha.1), ih ha.2, List.cons_append]

theorem processEscapeSequences_escape {c d : Char} (h : knownEscape? c = some d) (cs : List Char) :
    processEscapeSequences ('\\' :: c :: cs) = d :: processEscapeSequences cs := by
  rw [processEscapeSequences, if_pos rfl, h]

theorem processEscapeSequences_backslash {cs : List Char}
    (h : ∀ c, cs.head? = some c → knownEscape? c = none) :
    processEscapeSequences ('\\' :: cs) = '\\' :: processEscapeSequences cs := by
  cases cs with
  | nil => rfl
  | cons c cs => rw [processEscapeSequences, if_pos rfl, h c rfl]

/-- The text of a `\u` form has no backslash, and is longer than the character it stands for. -/
theorem unicodeEscape_spec {cs value : List Char} {n : ℕ} (h : unicodeEscape cs = some (value, n)) :
    3 ≤ n ∧ '\\' ∉ cs.take (n - 1) ∧ (cs.take (n - 1)).length = n - 1 ∧
      value.length < n + 1 := by
  have hlength : ∀ n, (utf8Text n).length ≤ 4 := by
    intro n
    unfold utf8Text encodeUtf8
    split_ifs <;> simp
  have hbackslash : isHex '\\' = false := by decide
  have hhex : ∀ ds : List Char, (∀ d ∈ ds, isHex d = true) → '\\' ∉ ds := fun ds hds hmem ↦ by
    simpa [hbackslash] using hds _ hmem
  cases cs with
  | nil => cases h
  | cons c cs =>
    rw [unicodeEscape] at h
    dsimp only at h
    split_ifs at h with hbrace hdigits hfour
    · obtain ⟨rfl, rfl⟩ := Prod.mk.inj (Option.some.inj h)
      obtain ⟨hpos, -, hclose, -⟩ := hdigits
      have hvalue := hlength (hexNumber (cs.takeWhile isHex))
      have hall : ∀ d ∈ cs.takeWhile isHex, isHex d = true := fun d hd ↦ List.mem_takeWhile_imp hd
      have hsplit := List.takeWhile_append_dropWhile (p := isHex) (l := cs)
      generalize cs.takeWhile isHex = digits at hpos hclose hvalue hall hsplit ⊢
      rw [← hsplit, List.drop_left] at hclose
      obtain ⟨rest, hrest⟩ : ∃ rest, cs.dropWhile isHex = '\x7d' :: rest := by
        cases hd : cs.dropWhile isHex with
        | nil => rw [hd] at hclose; cases hclose
        | cons d ds => exact ⟨ds, by rw [hd] at hclose; rw [Option.some.inj hclose]⟩
      have htake : (c :: cs).take (digits.length + 3 - 1) = c :: (digits ++ ['\x7d']) := by
        rw [← hsplit, hrest, show digits.length + 3 - 1 = (digits.length + 1) + 1 by omega,
          List.take_succ_cons, List.take_append]
        simp
      refine ⟨by omega, ?_, ?_, by omega⟩
      · rw [htake, hbrace, List.mem_cons, List.mem_append, List.mem_singleton]
        have := hhex digits hall
        simp [this]
      · rw [htake]
        simp
    · obtain ⟨rfl, rfl⟩ := Prod.mk.inj (Option.some.inj h)
      have hvalue := hlength (hexNumber ((c :: cs).take 4))
      refine ⟨by omega, hhex _ (List.all_eq_true.1 hfour.2), ?_, by omega⟩
      rw [List.length_take]
      omega

/-- An escape that the parser does not know has no backslash in it, and is longer than what it
stands for. -/
theorem unknownEscape_spec {c : Char} {cs value : List Char} {n : ℕ}
    (hknown : knownEscape? c = none)
    (h : doubleQuotedEscape (c :: cs) = some (value, n)) :
    '\\' ∉ (c :: cs).take n ∧ (∀ d, (c :: cs).take n = [d] → d = 's') ∧
      value.length < ((c :: cs).take n).length + 1 := by
  simp only [doubleQuotedEscape, hknown] at h
  split_ifs at h with hs hu
  · obtain ⟨rfl, rfl⟩ := Prod.mk.inj (Option.some.inj h)
    subst hs
    refine ⟨by simp, fun d hd ↦ ?_, by simp⟩
    exact (by simpa using hd : 's' = d).symm
  · obtain ⟨hn, hbackslash, hlength, hvalue⟩ := unicodeEscape_spec h
    obtain ⟨m, rfl⟩ : ∃ m, n = m + 1 := ⟨n - 1, by omega⟩
    rw [Nat.add_sub_cancel] at hbackslash hlength
    subst hu
    refine ⟨by simpa using hbackslash, fun d hd ↦ ?_, ?_⟩
    · have := congrArg List.length hd
      rw [List.take_succ_cons, List.length_cons, hlength, List.length_singleton] at this
      omega
    · rw [List.take_succ_cons, List.length_cons, hlength]
      exact hvalue

theorem TextPiece.read_escape {text value : List Char}
    (h : ∀ d, text = [d] → knownEscape? d = none) :
    (TextPiece.escape text value).read = '\\' :: text := by
  match text, h with
  | [], _ => rfl
  | [d], h => rw [TextPiece.read, h d rfl]
  | _ :: _ :: _, _ => rfl

/-- The parser decodes a double-quoted text piece by piece. -/
theorem processEscapeSequences_eq (text : List Char) :
    processEscapeSequences text =
      (textPieces doubleQuotedEscape text).flatMap TextPiece.read := by
  have hafter : ∀ cs skip, processEscapeSequences (cs.drop skip) =
      (piecesAfter doubleQuotedEscape cs skip).flatMap TextPiece.read := by
    intro cs
    induction cs with
    | nil => simp [piecesAfter, processEscapeSequences]
    | cons c cs ih =>
      intro skip
      cases skip with
      | succ skip => exact ih skip
      | zero =>
        rw [List.drop_zero, piecesAfter]
        split_ifs with hc
        · subst hc
          cases cs with
          | nil => rfl
          | cons c cs =>
            have hnext := ih 0
            rw [List.drop_zero] at hnext
            cases hknown : knownEscape? c with
            | some d =>
              have hread : doubleQuotedEscape (c :: cs) = some ([d], 1) := by
                rw [doubleQuotedEscape, hknown]
              have hrest := ih 1
              rw [hread, processEscapeSequences_escape hknown]
              simp only [List.drop_succ_cons, List.drop_zero] at hrest
              simp only [List.flatMap_cons, ← hrest]
              simp [TextPiece.read, hknown]
            | none =>
              have hhead : ∀ d, (c :: cs).head? = some d → knownEscape? d = none := fun d hd ↦ by
                rw [← Option.some.inj hd, hknown]
              rw [processEscapeSequences_backslash hhead]
              cases hread : doubleQuotedEscape (c :: cs) with
              | none =>
                simp only [List.flatMap_cons, ← hnext]
                rfl
              | some p =>
                obtain ⟨value, n⟩ := p
                obtain ⟨hbackslash, hunknown, -⟩ := unknownEscape_spec hknown hread
                have hs : ∀ d, (c :: cs).take n = [d] → knownEscape? d = none := fun d hd ↦ by
                  rw [hunknown d hd]
                  rfl
                simp only [List.flatMap_cons, TextPiece.read_escape hs, ← ih n]
                rw [List.cons_append, ← processEscapeSequences_append hbackslash,
                  List.take_append_drop]
        · rw [processEscapeSequences_cons hc, List.flatMap_cons, ← ih, List.drop_zero]
          rfl
  exact hafter text 0

/-! ### When a literal is read as it is meant -/

/-- A piece that the parser decodes as the language does: no `\s` and no form of `\u`. -/
def TextPiece.IsKnown : TextPiece → Prop
  | .plain _ => True
  | .escape text _ => ∃ c, text = [c] ∧ c ≠ 's'

theorem read_eq_value_iff {text : List Char} {p : TextPiece}
    (hp : p ∈ textPieces doubleQuotedEscape text) :
    p.value.length ≤ p.read.length ∧ (p.value = p.read ↔ p.IsKnown) := by
  cases p with
  | plain c => exact ⟨le_rfl, iff_of_true rfl trivial⟩
  | escape e value =>
    obtain ⟨rest, n, hread, rfl⟩ := exists_read_of_mem_piecesAfter _ hp
    cases rest with
    | nil => cases hread
    | cons c cs =>
      cases hknown : knownEscape? c with
      | some d =>
        simp only [doubleQuotedEscape, hknown, Option.some.injEq, Prod.mk.injEq] at hread
        obtain ⟨rfl, rfl⟩ := hread
        have hs : c ≠ 's' := by
          rintro rfl
          cases hknown
        have hone : (TextPiece.escape ((c :: cs).take 1) [d]).read = [d] := by
          simp [TextPiece.read, hknown]
        rw [hone]
        exact ⟨le_rfl, iff_of_true rfl ⟨c, by simp, hs⟩⟩
      | none =>
        obtain ⟨-, hunknown, hlength⟩ := unknownEscape_spec hknown hread
        have hs : ∀ d, (c :: cs).take n = [d] → knownEscape? d = none := fun d hd ↦ by
          rw [hunknown d hd]
          rfl
        rw [TextPiece.read_escape hs]
        refine ⟨hlength.le, iff_of_false (fun heq ↦ ?_) ?_⟩
        · have := congrArg List.length heq
          rw [TextPiece.value, List.length_cons] at this
          omega
        · rintro ⟨d, hd, hne⟩
          exact hne (hunknown d hd)

/-- A double-quoted text is decoded as the language does exactly if the parser knows its
escapes. -/
theorem processEscapeSequences_eq_iff (text : List Char) :
    processEscapeSequences text = decodeText doubleQuotedEscape text ↔
      ∀ p ∈ textPieces doubleQuotedEscape text, p.IsKnown := by
  rw [processEscapeSequences_eq, decodeText, eq_comm,
    flatMap_eq_iff fun p hp ↦ (read_eq_value_iff hp).1]
  exact forall₂_congr fun p hp ↦ (read_eq_value_iff hp).2

/-- A single-quoted text is left as it is, which is right exactly if it has no escapes. -/
theorem eq_decodeText_single_iff (text : List Char) :
    text = decodeText singleQuotedEscape text ↔
      ∀ e value, .escape e value ∉ textPieces singleQuotedEscape text := by
  have hpiece : ∀ p ∈ textPieces singleQuotedEscape text,
      p.value.length ≤ p.source.length ∧ (p.value = p.source ↔ ∀ e value, p ≠ .escape e value) := by
    intro p hp
    cases p with
    | plain c => exact ⟨le_rfl, iff_of_true rfl nofun⟩
    | escape e value =>
      obtain ⟨rest, n, hread, rfl⟩ := exists_read_of_mem_piecesAfter _ hp
      cases rest with
      | nil => cases hread
      | cons c cs =>
        rw [singleQuotedEscape] at hread
        split_ifs at hread
        obtain ⟨rfl, rfl⟩ := Prod.mk.inj (Option.some.inj hread)
        refine ⟨by simp [TextPiece.value, TextPiece.source], iff_of_false ?_ fun h ↦ h _ _ rfl⟩
        simp [TextPiece.value, TextPiece.source]
  have hsource := textPieces_source singleQuotedEscape text
  nth_rewrite 1 [← hsource]
  rw [decodeText, eq_comm, flatMap_eq_iff fun p hp ↦ (hpiece p hp).1]
  constructor
  · exact fun h e value hmem ↦ (hpiece _ hmem).2.1 (h _ hmem) e value rfl
  · exact fun h p hp ↦ (hpiece p hp).2.2 fun e value heq ↦ h e value (heq ▸ hp)

namespace StringLiteral

/-- The characters that are escaped in single quotes. -/
def singleQuotedSpecial (c : Char) : Bool := c = '\\' || c = '\''

/-- The characters that are escaped in double quotes. -/
def doubleQuotedSpecial (c : Char) : Bool := c = '\\' || c = '"'

/-- A literal that a text was quoted to. -/
def Quotes (l : StringLiteral) (s : List Char) : Prop :=
  l = single (escapeText singleQuotedSpecial s) ∨ l = double [] (escapeText doubleQuotedSpecial s)

/-- A literal that a text was quoted to denotes the text. -/
theorem Quotes.meaning_eq {l : StringLiteral} {s : List Char} (h : l.Quotes s) :
    l.meaning = .value (.string (String.ofList s)) := by
  rcases h with rfl | rfl
  · have hread : ∀ c rest, singleQuotedSpecial c = true →
        singleQuotedEscape (c :: rest) = some ([c], 1) := by
      intro c rest hc
      rw [singleQuotedEscape, if_pos (by simpa [singleQuotedSpecial] using hc)]
    rw [meaning, decodeText_escapeText _ rfl hread]
  · have hread : ∀ c rest, doubleQuotedSpecial c = true →
        doubleQuotedEscape (c :: rest) = some ([c], 1) := by
      intro c rest hc
      have hc : c = '\\' ∨ c = '"' := by simpa [doubleQuotedSpecial] using hc
      rcases hc with rfl | rfl <;> rfl
    rw [meaning, decodeText_escapeText _ rfl hread]

/-- A node is converted to what its literal denotes, and the quotation of a text back to it. -/
structure ConvertsRight (l : StringLiteral) (source : List Char) (node : StringNode) : Prop where
  meaning : convertStringLiteral source node = l.meaning
  quotation : ∀ s, l.Quotes s →
    convertStringLiteral source node = .value (.string (String.ofList s))

/-- The parser knows all escapes of a literal: there are none in single quotes, and no `\s` or form
of `\u` in double quotes. -/
def EscapesKnown : StringLiteral → Prop
  | single text => ∀ e value, .escape e value ∉ textPieces singleQuotedEscape text
  | double parts trailing =>
    (∀ p ∈ parts, ∀ q ∈ textPieces doubleQuotedEscape p.1, q.IsKnown) ∧
      ∀ q ∈ textPieces doubleQuotedEscape trailing, q.IsKnown

theorem ofList_eq_iff {s t : List Char} : String.ofList s = String.ofList t ↔ s = t :=
  ⟨fun h ↦ by simpa using congrArg String.toList h, fun h ↦ by rw [h]⟩

theorem read_eq_meaning_iff (l : StringLiteral) : l.read = l.meaning ↔ l.EscapesKnown := by
  cases l with
  | single text =>
    rw [read, meaning, EscapesKnown, Expr.value.injEq, Value.string.injEq, ofList_eq_iff,
      eq_decodeText_single_iff]
  | double parts trailing =>
    cases parts with
    | nil =>
      rw [read, meaning, EscapesKnown, Expr.value.injEq, Value.string.injEq, ofList_eq_iff,
        processEscapeSequences_eq_iff]
      simp
    | cons p parts =>
      rw [read, meaning, EscapesKnown, Expr.interpolated.injEq, ofList_eq_iff,
        processEscapeSequences_eq_iff, readParts, List.map_inj_left]
      · simp only [Prod.mk.injEq, Option.some.injEq, ofList_eq_iff, and_true,
          processEscapeSequences_eq_iff]
      · simp
      · simp

end StringLiteral

/-- A literal is converted to what it denotes exactly if the parser knows its escapes. -/
theorem convertStringLiteral_eq_iff {l : StringLiteral} {source : List Char} {node : StringNode}
    (h : l.IsNode source node) : l.ConvertsRight source node ↔ l.EscapesKnown := by
  rw [← l.read_eq_meaning_iff, ← StringLiteral.convertStringLiteral_eq_read h]
  exact ⟨fun h ↦ h.meaning, fun h ↦ ⟨h, fun s hs ↦ h.trans hs.meaning_eq⟩⟩

/-- The literal of the letter a. -/
theorem convertsRight_letter : (StringLiteral.single ['a']).ConvertsRight
    ['\'', 'a', '\''] ⟨false, 0, 3, []⟩ :=
  (convertStringLiteral_eq_iff ⟨⟨[], [], rfl, rfl⟩, rfl, rfl, rfl⟩).2 fun e value h ↦ by
    simp [textPieces, piecesAfter] at h

/-- The single-quoted literal of a backslash is read as two. -/
theorem not_convertsRight_backslash :
    ¬ ∀ (l : StringLiteral) source node, l.IsNode source node → l.ConvertsRight source node := by
  intro h
  have hnode : (StringLiteral.single ['\\', '\\']).IsNode ['\'', '\\', '\\', '\'']
      ⟨false, 0, 4, []⟩ := ⟨⟨[], [], rfl, rfl⟩, rfl, rfl, rfl⟩
  have hright := (h _ _ _ hnode).quotation ['\\'] (.inl rfl)
  rw [StringLiteral.convertStringLiteral_eq_read hnode, StringLiteral.read, Expr.value.injEq,
    Value.string.injEq, StringLiteral.ofList_eq_iff] at hright
  cases hright

end PuppetC
