import Mathlib.Data.List.DropRight
import PuppetC.Json.Standard
import PuppetC.Support.TextLines

/-!
# Flat YAML mappings

A reader for YAML documents that are a flat mapping with one entry on each line: a plain key that
starts the line, and a double-quoted or plain scalar on the same line. Plain scalars are resolved by
the core schema of YAML 1.2. What is written in any other way is not read, and neither is a mapping
with a key that is no text, or with the same key twice. Bytes from 128 on belong to characters of
UTF-8, which are taken as they are.

## Main definitions

* `YamlScalar`, `yamlResolve`: scalars, and the core schema.
* `yamlQuoted`: double-quoted scalars with their escapes.
* `IsPlainKey`: the texts that stand for themselves as keys.
* `yamlEntry`, `yamlMapping`: the entries and the mapping.

## Main results

* `yamlQuoted_eq_some`: a double-quoted scalar is longer than its text if it has an escape.
* `yamlEntry_of_isPlainKey`: an entry with a plain key.
-/

namespace PuppetC

/-- The scalars of the core schema. -/
inductive YamlScalar where
  | null
  | bool (b : Bool)
  | number (q : ℚ)
  | nonFinite (t : List Char)
  | string (s : List Char)
  deriving DecidableEq

/-! ### Characters -/

/-- Blanks within a line. -/
def isYamlBlank (c : Char) : Bool := c = ' ' || c = '\t'

/-- The characters that a line can have. -/
def isYamlPrintable (c : Char) : Bool := c = '\t' || (' ' ≤ c && c ≠ '\x7f')

/-- The number of characters of ASCII. -/
def asciiCount (s : List Char) : ℕ := s.countP fun c ↦ c.toNat < 128

/-! ### Double-quoted scalars -/

/-- The escapes of one letter. -/
def yamlEscapes : List (Char × List Char) :=
  [('\x22', ['\x22']), ('\x5c', ['\x5c']), ('/', ['/']), (' ', [' ']), ('\t', ['\t']),
    ('0', ['\x00']), ('a', ['\x07']), ('b', ['\x08']), ('t', ['\t']), ('n', ['\n']),
    ('v', ['\x0b']), ('f', ['\x0c']), ('r', ['\r']), ('e', ['\x1b']), ('N', codePointBytes 0x85),
    ('_', codePointBytes 0xa0), ('L', codePointBytes 0x2028), ('P', codePointBytes 0x2029)]

/-- The text of an escape of one letter. -/
def yamlEscape (c : Char) : Option (List Char) :=
  (yamlEscapes.find? fun x ↦ x.1 = c).map Prod.snd

/-- The value of hexadecimal digits. -/
def hexDigits? (ds : List Char) : Option ℕ :=
  ds.foldlM (fun n d ↦ (hexDigit? d).map (16 * n + ·)) 0

/-- The code points that stand for characters. -/
def isScalarValue (n : ℕ) : Bool := n < 0xd800 || (0xe000 ≤ n && n ≤ 0x10ffff)

/-- The number of hexadecimal digits of an escape. -/
def escapeDigits (c : Char) : Option ℕ :=
  if c = 'x' then some 2 else if c = 'u' then some 4 else if c = 'U' then some 8 else none

/-- The text of the first character of a double-quoted scalar, or of its first escape, and how many
characters it takes. -/
def yamlCharacter : List Char → Option (List Char × ℕ)
  | [] => none
  | '\x5c' :: e :: r =>
    match escapeDigits e with
    | some n =>
      if n ≤ r.length then
        ((hexDigits? (r.take n)).filter isScalarValue).map fun m ↦ (codePointBytes m, n + 2)
      else none
    | none => (yamlEscape e).map fun s ↦ (s, 2)
  | c :: _ => if c = '\x5c' || !isYamlPrintable c then none else some ([c], 1)

/-- A double-quoted scalar behind its opening quote, of which the fuel bounds the number of
characters and escapes, and what follows it. -/
def yamlQuotedLoop : ℕ → List Char → Option (List Char × List Char)
  | 0, _ => none
  | fuel + 1, t =>
    if t.head? = some '\x22' then some ([], t.tail)
    else
      (yamlCharacter t).bind fun (s, n) ↦
        (yamlQuotedLoop fuel (t.drop n)).map fun (s', r) ↦ (s ++ s', r)

/-- A double-quoted scalar behind its opening quote, and what follows it. -/
def yamlQuoted (t : List Char) : Option (List Char × List Char) := yamlQuotedLoop (t.length + 1) t

/-! ### Plain scalars -/

/-- The first characters that a plain scalar cannot have. -/
def yamlIndicators : List Char :=
  [',', '[', ']', '\x7b', '\x7d', '#', '&', '*', '!', '|', '>', '\x27', '\x22', '%', '@', '\x60']

/-- A text can start a plain scalar. -/
def startsPlain : List Char → Bool
  | [] => false
  | c :: r =>
    if c ∈ ['-', '?', ':'] then r.head?.all (!isYamlBlank ·)
    else c ∉ yamlIndicators && !isYamlBlank c

/-- The text before the first comment. -/
def beforeComment : List Char → List Char
  | [] => []
  | c :: r => if isYamlBlank c && r.head? = some '#' then [] else c :: beforeComment r

/-- The text before the first colon that ends a key, and what follows. -/
def splitKey : List Char → Option (List Char × List Char)
  | [] => none
  | c :: r =>
    if c = ':' && r.head?.all isYamlBlank then some ([], r)
    else (splitKey r).map fun (k, r') ↦ (c :: k, r')

/-- A numeral of the core schema: an integer or a finite float in decimal. -/
def isCoreNumeral (t : List Char) : Bool :=
  let t := if t.head? = some '-' ∨ t.head? = some '+' then t.tail else t
  let int := t.takeWhile Char.isDigit
  let r := t.dropWhile Char.isDigit
  let frac := if r.head? = some '.' then r.tail.takeWhile Char.isDigit else []
  let r := if r.head? = some '.' then r.tail.dropWhile Char.isDigit else r
  (int ≠ [] || frac ≠ []) &&
    match r with
    | [] => true
    | c :: r =>
      let r := if r.head? = some '-' ∨ r.head? = some '+' then r.tail else r
      (c = 'e' || c = 'E') && r ≠ [] && r.all Char.isDigit

/-- A numeral of the core schema to another base. -/
def coreBased (t : List Char) : Option ℕ :=
  match t with
  | '0' :: 'x' :: d :: ds => hexDigits? (d :: ds)
  | '0' :: 'o' :: d :: ds =>
    if (d :: ds).all fun c ↦ '0' ≤ c && c ≤ '7' then some (Nat.ofDigitChars 8 (d :: ds) 0) else none
  | _ => none

/-- The core schema. -/
def yamlResolve (t : List Char) : YamlScalar :=
  if t ∈ [[], ['~'], "null".toList, "Null".toList, "NULL".toList] then .null
  else if t ∈ ["true".toList, "True".toList, "TRUE".toList] then .bool true
  else if t ∈ ["false".toList, "False".toList, "FALSE".toList] then .bool false
  else if isCoreNumeral t then .number (decimalValue t)
  else if let some n := coreBased t then .number n
  else
    let u := if t.head? = some '-' ∨ t.head? = some '+' then t.tail else t
    if u ∈ [".inf".toList, ".Inf".toList, ".INF".toList] ∨
        t ∈ [".nan".toList, ".NaN".toList, ".NAN".toList] then .nonFinite t
    else .string t

/-! ### Entries -/

/-- A double-quoted value behind its opening quote, with nothing but a comment after it. -/
def yamlQuotedValue (t : List Char) : Option YamlScalar :=
  (yamlQuoted t).bind fun (s, r) ↦
    if (beforeComment r).all isYamlBlank && r.all isYamlPrintable then some (.string s) else none

/-- A plain value between blanks, with nothing but a comment after it. -/
def yamlPlainValue (t : List Char) : Option YamlScalar :=
  let body := ((beforeComment t).dropWhile isYamlBlank).rdropWhile isYamlBlank
  if !t.all isYamlPrintable then none
  else if body = [] then some .null
  else if startsPlain body && (splitKey body).isNone then some (yamlResolve body)
  else none

/-- The value of an entry, behind the colon. -/
def yamlValue (t : List Char) : Option YamlScalar :=
  if (t.dropWhile isYamlBlank).head? = some '\x22' then
    yamlQuotedValue (t.dropWhile isYamlBlank).tail
  else yamlPlainValue t

/-- A text that stands for itself as a key at the start of a line. -/
def IsPlainKey (k : List Char) : Prop :=
  startsPlain k = true ∧ (∀ c ∈ k, isYamlPrintable c = true) ∧ beforeComment k = k ∧
    (∀ c ∈ k.getLast?, isYamlBlank c = false) ∧ splitKey (k ++ [':']) = some (k, []) ∧
      ¬ (k.take 3 ∈ ["---".toList, "...".toList] ∧ ∃ c ∈ (k.drop 3).head?, isYamlBlank c = true) ∧
        yamlResolve k = .string k

instance (k : List Char) : Decidable (IsPlainKey k) := inferInstanceAs (Decidable (_ ∧ _))

/-- An entry on a line of its own. -/
def yamlEntry (line : List Char) : Option (List Char × YamlScalar) :=
  match splitKey line with
  | none => none
  | some (k, r) =>
    let k := k.rdropWhile isYamlBlank
    if IsPlainKey k then (yamlValue r).map fun v ↦ (k, v) else none

/-- The entries of a document: nothing, or a mapping with an entry on each line. -/
def yamlMapping (t : List Char) : Option (List (List Char × YamlScalar)) :=
  if "---\n".toList.isPrefixOf t then
    match (textLines (t.drop 4)).mapM yamlEntry with
    | some es => if (es.map Prod.fst).Nodup then some es else none
    | none => none
  else none

/-! ### What double-quoted scalars denote -/

theorem asciiCount_append (s t : List Char) : asciiCount (s ++ t) = asciiCount s + asciiCount t :=
  List.countP_append ..

theorem asciiCount_cons_of_lt {c : Char} (h : c.toNat < 128) (s : List Char) :
    asciiCount (c :: s) = asciiCount s + 1 := List.countP_cons_of_pos (decide_eq_true h)

theorem asciiCount_map_ofNat (ns : List ℕ) (h : ∀ n ∈ ns, 128 ≤ n ∧ n < 0xd800) :
    asciiCount (ns.map Char.ofNat) = 0 := by
  refine List.countP_eq_zero.2 fun c hc ↦ ?_
  obtain ⟨n, hn, rfl⟩ := List.mem_map.1 hc
  obtain ⟨hlow, hhigh⟩ := h n hn
  have hvalid : n.isValidChar := .inl (by omega)
  have hnat : (Char.ofNat n).toNat = n := by
    rw [Char.ofNat, dif_pos hvalid]
    rfl
  rw [hnat, decide_eq_true_eq]
  omega

theorem asciiCount_codePointBytes_le {n : ℕ} (h : isScalarValue n = true) :
    asciiCount (codePointBytes n) ≤ 1 := by
  have hn : n ≤ 0x10ffff := by
    simp only [isScalarValue, Bool.or_eq_true, Bool.and_eq_true, decide_eq_true_eq] at h
    omega
  unfold codePointBytes encodeUtf8
  split_ifs
  · exact List.countP_le_length
  · refine (asciiCount_map_ofNat [0xc0 + n / 64, 0x80 + n % 64] fun m hm ↦ ?_).trans_le
      (Nat.zero_le 1)
    simp only [List.mem_cons, List.not_mem_nil, or_false] at hm
    omega
  · refine (asciiCount_map_ofNat [0xe0 + n / 4096, 0x80 + n / 64 % 64, 0x80 + n % 64]
      fun m hm ↦ ?_).trans_le (Nat.zero_le 1)
    simp only [List.mem_cons, List.not_mem_nil, or_false] at hm
    omega
  · refine (asciiCount_map_ofNat [0xf0 + n / 262144, 0x80 + n / 4096 % 64,
      0x80 + n / 64 % 64, 0x80 + n % 64] fun m hm ↦ ?_).trans_le (Nat.zero_le 1)
    simp only [List.mem_cons, List.not_mem_nil, or_false] at hm
    omega

theorem asciiCount_yamlEscape_le {e : Char} {s : List Char} (h : yamlEscape e = some s) :
    e.toNat < 128 ∧ asciiCount s ≤ 1 := by
  have hall : yamlEscapes.all (fun x ↦ x.1.toNat < 128 && asciiCount x.2 ≤ 1) = true := by
    decide +kernel
  obtain ⟨x, hx, rfl⟩ := Option.map_eq_some_iff.1 h
  have hletter : x.1 = e := by simpa using List.find?_some hx
  have hone := List.all_eq_true.1 hall x (List.mem_of_find?_eq_some hx)
  rw [Bool.and_eq_true, decide_eq_true_eq, decide_eq_true_eq, hletter] at hone
  exact hone

/-- What is read of a double-quoted scalar at a time: an escape, which has more characters of ASCII
than its text, or a character that stands for itself. -/
theorem yamlCharacter_eq_some {t s : List Char} {n : ℕ} (h : yamlCharacter t = some (s, n)) :
    (asciiCount s < asciiCount (t.take n) ∧ n ≠ 0) ∨
      ∃ c r, t = c :: r ∧ s = [c] ∧ n = 1 ∧ c ≠ '\x5c' ∧ isYamlPrintable c = true := by
  unfold yamlCharacter at h
  split at h
  · cases h
  · next e r =>
    have hbackslash : ('\x5c' : Char).toNat < 128 := by decide
    left
    split at h
    · next m hm =>
      split_ifs at h with hlen
      obtain ⟨k, hk, heq⟩ := Option.map_eq_some_iff.1 h
      obtain ⟨rfl, rfl⟩ := Prod.mk.inj heq
      have he : e.toNat < 128 := by
        unfold escapeDigits at hm
        split_ifs at hm <;> subst_vars <;> decide
      have hcount := asciiCount_codePointBytes_le (Option.mem_filter_iff.1 hk).2
      refine ⟨?_, by omega⟩
      rw [List.take_succ_cons, List.take_succ_cons, asciiCount_cons_of_lt hbackslash,
        asciiCount_cons_of_lt he]
      omega
    · obtain ⟨s', hs', heq⟩ := Option.map_eq_some_iff.1 h
      obtain ⟨rfl, rfl⟩ := Prod.mk.inj heq
      obtain ⟨he, hcount⟩ := asciiCount_yamlEscape_le hs'
      refine ⟨?_, by omega⟩
      rw [List.take_succ_cons, List.take_succ_cons, asciiCount_cons_of_lt hbackslash,
        asciiCount_cons_of_lt he]
      omega
  · next c r _ =>
    right
    split_ifs at h with hc
    obtain ⟨rfl, rfl⟩ := Prod.mk.inj (Option.some.inj h)
    simp only [Bool.or_eq_true, decide_eq_true_eq, Bool.not_eq_true', not_or,
      Bool.not_eq_false] at hc
    exact ⟨c, r, rfl, rfl, rfl, hc.1, hc.2⟩

/-- A text that stands for itself between double quotes. -/
def IsQuotable (s : List Char) : Prop :=
  ∀ c ∈ s, c ≠ '\x22' ∧ c ≠ '\x5c' ∧ isYamlPrintable c = true

theorem yamlQuotedLoop_eq_some {fuel : ℕ} {t v r : List Char}
    (h : yamlQuotedLoop fuel t = some (v, r)) :
    ∃ u, t = u ++ '\x22' :: r ∧ asciiCount v ≤ asciiCount u ∧
      (asciiCount u ≤ asciiCount v → v = u ∧ IsQuotable u) := by
  induction fuel generalizing t v with
  | zero => cases h
  | succ fuel ih =>
    rw [yamlQuotedLoop] at h
    split_ifs at h with hquote
    · obtain ⟨rfl, rfl⟩ := Prod.mk.inj (Option.some.inj h)
      cases t with
      | nil => cases hquote
      | cons c t =>
        obtain rfl : c = '\x22' := Option.some.inj hquote
        exact ⟨[], rfl, le_rfl, fun _ ↦ ⟨rfl, fun c hc ↦ by cases hc⟩⟩
    · obtain ⟨⟨s, n⟩, hs, hrest⟩ := Option.bind_eq_some_iff.1 h
      obtain ⟨⟨s', r'⟩, hs', heq⟩ := Option.map_eq_some_iff.1 hrest
      obtain ⟨rfl, rfl⟩ := Prod.mk.inj heq
      obtain ⟨u, hu, hle, hself⟩ := ih hs'
      refine ⟨t.take n ++ u, ?_, ?_, ?_⟩
      · rw [List.append_assoc, ← hu, List.take_append_drop]
      · rw [asciiCount_append, asciiCount_append]
        rcases yamlCharacter_eq_some hs with ⟨hlt, -⟩ | ⟨c, r, rfl, rfl, rfl, -, -⟩
        · omega
        · exact Nat.add_le_add_left hle _
      · rw [asciiCount_append, asciiCount_append]
        intro hge
        rcases yamlCharacter_eq_some hs with ⟨hlt, -⟩ | ⟨c, r, rfl, rfl, rfl, hbackslash, hprint⟩
        · omega
        · obtain ⟨rfl, hquotable⟩ := hself (Nat.le_of_add_le_add_left hge)
          refine ⟨rfl, List.forall_mem_cons.2 ⟨⟨fun hc ↦ hquote (congrArg some hc), hbackslash,
            hprint⟩, hquotable⟩⟩

/-- A double-quoted scalar ends at a quote; its text has at most as many characters of ASCII as it,
and as many only if it stands for itself. -/
theorem yamlQuoted_eq_some {t v r : List Char} (h : yamlQuoted t = some (v, r)) :
    ∃ u, t = u ++ '\x22' :: r ∧ asciiCount v ≤ asciiCount u ∧
      (asciiCount u ≤ asciiCount v → v = u ∧ IsQuotable u) :=
  yamlQuotedLoop_eq_some h

theorem yamlQuotedLoop_of_isQuotable {s : List Char} (hs : IsQuotable s) (r : List Char)
    {fuel : ℕ} (hfuel : s.length < fuel) :
    yamlQuotedLoop fuel (s ++ '\x22' :: r) = some (s, r) := by
  induction s generalizing fuel with
  | nil =>
    obtain ⟨fuel, rfl⟩ := Nat.exists_eq_succ_of_ne_zero (Nat.ne_of_gt hfuel)
    rw [yamlQuotedLoop, List.nil_append, List.head?_cons, if_pos rfl]
    rfl
  | cons c s ih =>
    obtain ⟨⟨hquote, hbackslash, hprint⟩, hrest⟩ := List.forall_mem_cons.1 hs
    obtain ⟨fuel, rfl⟩ := Nat.exists_eq_succ_of_ne_zero (Nat.ne_of_gt (Nat.zero_lt_of_lt hfuel))
    have hchar (t : List Char) : yamlCharacter (c :: t) = some ([c], 1) := by
      unfold yamlCharacter
      split
      · next heq => cases heq
      · next heq => exact absurd (List.cons.inj heq).1 hbackslash
      · next heq =>
        obtain ⟨rfl, -⟩ := List.cons.inj heq
        rw [if_neg (by simp [hbackslash, hprint])]
    rw [List.cons_append, yamlQuotedLoop, List.head?_cons,
      if_neg fun h ↦ hquote (Option.some.inj h), hchar, Option.bind_some]
    dsimp only
    rw [List.drop_one, List.tail_cons, ih hrest (Nat.lt_of_succ_lt_succ hfuel), Option.map_some]
    rfl

theorem yamlQuoted_of_isQuotable {s : List Char} (hs : IsQuotable s) (r : List Char) :
    yamlQuoted (s ++ '\x22' :: r) = some (s, r) :=
  yamlQuotedLoop_of_isQuotable hs r (by
    rw [List.length_append, List.length_cons]
    omega)

/-! ### Entries with plain keys -/

theorem splitKey_append {k : List Char} (h : splitKey (k ++ [':']) = some (k, [])) (r : List Char) :
    splitKey (k ++ ':' :: ' ' :: r) = some (k, ' ' :: r) := by
  induction k with
  | nil => rfl
  | cons c k ih =>
    rw [List.cons_append, splitKey] at h ⊢
    have hhead : (k ++ ':' :: ' ' :: r).head? = (k ++ [':']).head? := by
      cases k with
      | nil => rfl
      | cons d k => rfl
    rw [hhead]
    split_ifs at h ⊢ with hsplit
    · cases h
    · obtain ⟨⟨k', r'⟩, hk', heq⟩ := Option.map_eq_some_iff.1 h
      obtain ⟨hcons, rfl⟩ := Prod.mk.inj heq
      obtain ⟨-, rfl⟩ := List.cons.inj hcons
      rw [ih hk', Option.map_some]

theorem rdropWhile_of_isPlainKey {k : List Char} (h : IsPlainKey k) :
    k.rdropWhile isYamlBlank = k := by
  rcases List.eq_nil_or_concat k with rfl | ⟨k, c, rfl⟩
  · rfl
  · have hlast := h.2.2.2.1 c (by simp)
    rw [List.concat_eq_append, List.rdropWhile_concat_neg _ _ _ (by simp [hlast])]

/-- An entry with a plain key. -/
theorem yamlEntry_of_isPlainKey {k : List Char} (h : IsPlainKey k) (r : List Char) :
    yamlEntry (k ++ ':' :: ' ' :: r) = (yamlValue (' ' :: r)).map fun v ↦ (k, v) := by
  rw [yamlEntry, splitKey_append h.2.2.2.2.1]
  dsimp only
  rw [rdropWhile_of_isPlainKey h, if_pos h]

theorem isPlainKey_of_yamlEntry {line k : List Char} {v : YamlScalar}
    (h : yamlEntry line = some (k, v)) : IsPlainKey k := by
  unfold yamlEntry at h
  split at h
  · cases h
  · dsimp only at h
    split_ifs at h with hkey
    obtain ⟨w, -, heq⟩ := Option.map_eq_some_iff.1 h
    rw [← (Prod.mk.inj heq).1]
    exact hkey

theorem newline_notMem_of_isPlainKey {k : List Char} (h : IsPlainKey k) : '\n' ∉ k := fun hmem ↦ by
  have hprint := h.2.1 '\n' hmem
  revert hprint
  decide

/-! ### Values -/

theorem yamlValue_quote (t : List Char) : yamlValue (' ' :: '\x22' :: t) = yamlQuotedValue t := rfl

/-- A text between double quotes that stands for itself. -/
theorem yamlValue_of_isQuotable {s : List Char} (hs : IsQuotable s) :
    yamlValue (' ' :: '\x22' :: (s ++ ['\x22'])) = some (.string s) := by
  rw [yamlValue_quote, yamlQuotedValue, yamlQuoted_of_isQuotable hs]
  rfl

/-- A text between double quotes, or the beginning of it, is read as the text only if it stands for
itself. -/
theorem isQuotable_of_yamlValue {s u : List Char} (hu : u <+: s ++ ['\x22'])
    (h : yamlValue (' ' :: '\x22' :: u) = some (.string s)) : IsQuotable s := by
  rw [yamlValue_quote, yamlQuotedValue] at h
  obtain ⟨⟨v, r⟩, hv, hrest⟩ := Option.bind_eq_some_iff.1 h
  dsimp only at hrest
  split_ifs at hrest
  obtain rfl : v = s := YamlScalar.string.inj (Option.some.inj hrest)
  obtain ⟨w, rfl, -, hself⟩ := yamlQuoted_eq_some hv
  have hprefix : w ++ ['\x22'] <+: v ++ ['\x22'] :=
    ((List.prefix_append_right_inj w).2 (List.cons_prefix_cons.2 ⟨rfl, List.nil_prefix⟩)).trans hu
  have hcount : asciiCount w ≤ asciiCount v := by
    have hle : asciiCount (w ++ ['\x22']) ≤ asciiCount (v ++ ['\x22']) :=
      hprefix.sublist.countP_le
    rw [asciiCount_append, asciiCount_append] at hle
    omega
  obtain ⟨rfl, hquotable⟩ := hself hcount
  exact hquotable

/-! ### Integers -/

theorem beforeComment_of_notMem {t : List Char} (h : '#' ∉ t) : beforeComment t = t := by
  induction t with
  | nil => rfl
  | cons c t ih =>
    have htail := List.not_mem_of_not_mem_cons h
    have hhead : t.head? ≠ some '#' := fun h ↦ htail (List.mem_of_head? h)
    rw [beforeComment, if_neg (by simp [hhead]), ih htail]

theorem splitKey_of_notMem {t : List Char} (h : ':' ∉ t) : splitKey t = none := by
  induction t with
  | nil => rfl
  | cons c t ih =>
    have hc : c ≠ ':' := fun hc ↦ h (hc ▸ List.mem_cons_self)
    rw [splitKey, if_neg (by simp [hc]), ih (List.not_mem_of_not_mem_cons h)]
    rfl

theorem isCoreNumeral_formatLong (n : ℤ) : isCoreNumeral (formatLong n) = true := by
  have hdigits := toDigits_digits n.natAbs
  have hunsigned : (if (formatLong n).head? = some '-' ∨ (formatLong n).head? = some '+' then
      (formatLong n).tail else formatLong n) = Nat.toDigits 10 n.natAbs := by
    obtain ⟨d, ds, hds⟩ := List.exists_cons_of_ne_nil (toDigits_ne_nil n.natAbs)
    have hd : d.isDigit = true := hdigits d (hds ▸ List.mem_cons_self)
    obtain ⟨sign, rfl | rfl, heq⟩ := formatLong_eq n
    · rw [heq, List.nil_append, hds, List.head?_cons]
      refine if_neg fun h ↦ ?_
      rcases h with h | h <;> cases Option.some.inj h ▸ hd
    · rw [heq]
      exact if_pos (Or.inl rfl)
  have hend : ∀ c ∈ ([] : List Char).head?, ¬ c.isDigit := fun c hc ↦ by cases hc
  obtain ⟨htake, hdrop⟩ := span_digits hdigits hend
  rw [List.append_nil] at htake hdrop
  unfold isCoreNumeral
  dsimp only
  rw [hunsigned, htake, hdrop]
  simp

/-- The characters of integers. -/
theorem yaml_numeral_char {c : Char} (h : c = '-' ∨ c.isDigit = true) :
    isYamlPrintable c = true ∧ isYamlBlank c = false ∧ c ∉ ['#', ':', '\x22'] := by
  rcases h with rfl | h
  · decide
  · have hblank : isYamlBlank c = false := by
      by_contra hblank
      simp only [isYamlBlank, Bool.not_eq_false, Bool.or_eq_true, decide_eq_true_eq] at hblank
      rcases hblank with rfl | rfl <;> cases h
    have hspecial : c ∉ ['#', ':', '\x22'] := by
      intro hc
      simp only [List.mem_cons, List.not_mem_nil, or_false] at hc
      rcases hc with rfl | rfl | rfl <;> cases h
    have hspace : ' ' ≤ c := by
      simp only [Char.isDigit, Bool.and_eq_true, decide_eq_true_eq] at h
      exact UInt32.le_trans (by decide) h.1
    have hdelete : c ≠ '\x7f' := by
      rintro rfl
      cases h
    refine ⟨?_, hblank, hspecial⟩
    simp [isYamlPrintable, hspace, hdelete]

/-- An integer is no other scalar of the core schema. -/
theorem yamlResolve_formatLong (n : ℤ) : yamlResolve (formatLong n) = .number n := by
  obtain ⟨c, cs, hcs, hc⟩ := exists_formatLong_eq_cons n
  have hvalue : decimalValue (formatLong n) = n := by
    rw [← Numeral.text_ofInt, Numeral.decimalValue_text, Numeral.value_ofInt]
  have hword {ws : List (List Char)}
      (hws : ws.all (fun w ↦ w.head?.all fun d ↦ d ≠ '-' && !d.isDigit) = true) :
      formatLong n ∉ ws := by
    intro hmem
    have hhead := List.all_eq_true.1 hws _ hmem
    rw [hcs, List.head?_cons, Option.all_some, Bool.and_eq_true, decide_eq_true_eq,
      Bool.not_eq_true'] at hhead
    rcases hc with rfl | hdigit
    · exact hhead.1 rfl
    · rw [hhead.2] at hdigit
      cases hdigit
  rw [yamlResolve, if_neg (hword (by decide)), if_neg (hword (by decide)),
    if_neg (hword (by decide)), if_pos (isCoreNumeral_formatLong n), hvalue]

/-- An integer is read as it. -/
theorem yamlValue_formatLong (n : ℤ) : yamlValue (' ' :: formatLong n) = some (.number n) := by
  have hchars : ∀ d ∈ formatLong n, isYamlPrintable d = true ∧ isYamlBlank d = false ∧
      d ∉ ['#', ':', '\x22'] := fun d hd ↦ yaml_numeral_char (mem_formatLong hd)
  have hnot {d : Char} (hd : d ∈ ['#', ':', '\x22']) : d ∉ formatLong n := fun h ↦
    (hchars d h).2.2 hd
  have hdrop : (formatLong n).dropWhile isYamlBlank = formatLong n := by
    refine List.dropWhile_eq_self_iff.2 fun hpos h ↦ ?_
    rw [(hchars _ (List.getElem_mem hpos)).2.1] at h
    cases h
  have hskip : (' ' :: formatLong n).dropWhile isYamlBlank = formatLong n := hdrop
  have hquote : (formatLong n).head? ≠ some '\x22' := fun h ↦
    hnot (by decide) (List.mem_of_head? h)
  have hcomment : beforeComment (' ' :: formatLong n) = ' ' :: formatLong n :=
    beforeComment_of_notMem fun h ↦ (List.mem_cons.1 h).elim (by decide) (hnot (by decide))
  have htrim : (formatLong n).rdropWhile isYamlBlank = formatLong n := by
    refine List.rdropWhile_eq_self_iff.2 fun hne h ↦ ?_
    rw [(hchars _ (List.getLast_mem hne)).2.1] at h
    cases h
  have hprint : (' ' :: formatLong n).all isYamlPrintable = true :=
    List.all_eq_true.2 (List.forall_mem_cons.2 ⟨by decide, fun d hd ↦ (hchars d hd).1⟩)
  have hstarts : startsPlain (formatLong n) = true := by
    obtain ⟨sign, rfl | rfl, heq⟩ := formatLong_eq n
    all_goals
      obtain ⟨d, ds, hds⟩ := List.exists_cons_of_ne_nil (toDigits_ne_nil n.natAbs)
      have hd : d.isDigit = true := toDigits_digits n.natAbs d (hds ▸ List.mem_cons_self)
      rw [heq, hds]
    · have hno {ws : List Char} (hws : ws.all (!Char.isDigit ·) = true) : d ∉ ws := fun h ↦ by
        have hdigit := List.all_eq_true.1 hws d h
        rw [hd] at hdigit
        cases hdigit
      have hblank := (yaml_numeral_char (.inr hd)).2.1
      have hindicator : d ∉ yamlIndicators := hno (by decide)
      rw [List.nil_append, startsPlain, if_neg (hno (by decide)), hblank]
      simp [hindicator]
    · have hblank := (yaml_numeral_char (.inr hd)).2.1
      rw [List.singleton_append, startsPlain, if_pos (by decide), List.head?_cons,
        Option.all_some, hblank]
      rfl
  rw [yamlValue, hskip, if_neg hquote, yamlPlainValue, hcomment, hskip, htrim, hprint,
    if_neg (by decide), if_neg (formatLong_ne_nil n), hstarts,
    splitKey_of_notMem (hnot (by decide)), if_pos (by decide), yamlResolve_formatLong]

end PuppetC
