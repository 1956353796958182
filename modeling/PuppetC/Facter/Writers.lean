import PuppetC.Agent.Resource
import PuppetC.Json.Standard
import PuppetC.Support.CountedBuffer

/-!
# The writers of facts

Facter writes its facts as JSON, as YAML and as text. The JSON writer goes down into hashes and
arrays and escapes what it writes; its text is read back by a standard reader. The other two write
a line for each fact to a buffer that is doubled at most once before each line, and advance by the
length that `snprintf` reports; strings go into the lines as they are, and hashes and arrays have
no text of their own.

## Main definitions

* `FactValue`: `facter_value_t`, but for `FACTER_VALUE_FLOAT`, which nothing makes.
* `facterToJson`, `facterToYaml`, `facterToText`.
* `jsonFacts`: the facts that a JSON text denotes, an object whose names are distinct.

## Main results

* `standardValue_jsonText`: the values are read as they were written.
* `jsonFacts_facterToJson`: so are the facts, if their names are distinct.
-/

namespace PuppetC

/-- `facter_value_t`. -/
inductive FactValue where
  | string (s : Bytes)
  | integer (n : ℤ)
  | boolean (b : Bool)
  | array (items : List FactValue)
  | hash (entries : List (Bytes × FactValue))

/-- The facts of a `facter_ctx_t`, by their names. -/
abbrev FactStore : Type := List (Bytes × FactValue)

/-! ### JSON -/

/-- The blanks of an indented line. -/
def indents (n : ℕ) : Bytes := List.replicate (2 * n) ' '

mutual

/-- `facter_value_to_json`. -/
def FactValue.jsonText (indent : ℕ) : FactValue → Bytes
  | .string s => appendString s
  | .integer n => formatLong n
  | .boolean b => boolText b
  | .array vs => '[' :: '\n' :: (itemsJsonText indent vs ++ (indents indent ++ [']']))
  | .hash es => '\x7b' :: '\n' :: (entriesJsonText indent es ++ (indents indent ++ ['\x7d']))

/-- The items of an array. -/
def itemsJsonText (indent : ℕ) : List FactValue → Bytes
  | [] => []
  | v :: vs =>
    indents (indent + 1) ++ (v.jsonText (indent + 1) ++
      ((if vs.isEmpty then [] else [',']) ++ '\n' :: itemsJsonText indent vs))

/-- The entries of a hash. -/
def entriesJsonText (indent : ℕ) : List (Bytes × FactValue) → Bytes
  | [] => []
  | (k, v) :: es =>
    indents (indent + 1) ++ (appendString k ++ (':' :: ' ' :: (v.jsonText (indent + 1) ++
      ((if es.isEmpty then [] else [',']) ++ '\n' :: entriesJsonText indent es))))

end

/-- `facter_to_json`: the loop over the facts writes them as the entries of a hash. -/
def facterToJson (facts : FactStore) : Bytes :=
  '\x7b' :: '\n' :: (entriesJsonText 0 facts ++ ['\x7d', '\n'])

/-! ### YAML and text -/

/-- The value of a fact in YAML. -/
def FactValue.yamlText : FactValue → Bytes
  | .string s => '\x22' :: (s ++ ['\x22'])
  | .integer n => formatLong n
  | .boolean b => boolText b
  | .array _ | .hash _ => "null".toList

/-- The value of a fact in a text. -/
def FactValue.plainText : FactValue → Bytes
  | .string s => s
  | .integer n => formatLong n
  | .boolean b => boolText b
  | .array _ | .hash _ => []

/-- The line of a fact in YAML, without its newline. -/
def yamlFact (f : Bytes × FactValue) : Bytes := f.1 ++ ':' :: ' ' :: f.2.yamlText

/-- The line of a fact in a text, without its newline. -/
def textFact (f : Bytes × FactValue) : Bytes := f.1 ++ (" => ".toList ++ f.2.plainText)

/-- The buffer of `facter_to_yaml`, after the facts. -/
def yamlBuffer (facts : FactStore) : CountedBuffer Char :=
  ((CountedBuffer.mk [] 0 16384).put "---\n".toList).puts 1024
    (facts.map fun f ↦ yamlFact f ++ ['\n'])

/-- The buffer of `facter_to_text`, after the facts. -/
def textBuffer (facts : FactStore) : CountedBuffer Char :=
  (CountedBuffer.mk [] 0 16384).puts 1024 (facts.map fun f ↦ textFact f ++ ['\n'])

/-- `facter_to_yaml`. -/
def facterToYaml (facts : FactStore) : Bytes := (yamlBuffer facts).text

/-- `facter_to_text`. -/
def facterToText (facts : FactStore) : Bytes := (textBuffer facts).text

/-! ### The facts of a JSON text -/

/-- The members of an object that has any, with those so far, and what follows it; a name must not
come twice. -/
def distinctMembers : ℕ → List (Bytes × Json) → Bytes → Option (List (Bytes × Json) × Bytes)
  | 0, _, _ => none
  | fuel + 1, ms, t =>
    match t.dropWhile isBlank with
    | '\x22' :: r => do
      let (k, r) ← standardString [] r
      match r.dropWhile isBlank with
      | ':' :: r => do
        let (v, r) ← standardValue fuel r
        if k ∈ ms.map Prod.fst then none
        else
          match r.dropWhile isBlank with
          | ',' :: r => distinctMembers fuel (ms ++ [(k, v)]) r
          | '\x7d' :: r => return (ms ++ [(k, v)], r)
          | _ => none
      | _ => none
    | _ => none

/-- The facts that a JSON text denotes. -/
def jsonFacts (t : Bytes) : Option (List (Bytes × Json)) :=
  match t.dropWhile isBlank with
  | '\x7b' :: r =>
    if (r.dropWhile isBlank).head? = some '\x7d' then
      if (r.dropWhile isBlank).tail.all isBlank then some [] else none
    else do
      let (ms, r) ← distinctMembers (2 * (t.length + 1)) [] r
      if r.all isBlank then some ms else none
  | _ => none

mutual

/-- What a value denotes. -/
def FactValue.toJson : FactValue → Json
  | .string s => .string s
  | .integer n => .number n
  | .boolean b => .bool b
  | .array vs => .array (itemsToJson vs)
  | .hash es => .object (entriesToJson [] es)

/-- What the items of an array denote. -/
def itemsToJson : List FactValue → List Json
  | [] => []
  | v :: vs => v.toJson :: itemsToJson vs

/-- What the entries of a hash denote, after those that come before. -/
def entriesToJson (ms : List (Bytes × Json)) : List (Bytes × FactValue) → List (Bytes × Json)
  | [] => ms
  | (k, v) :: es => entriesToJson (objectSet k v.toJson ms) es

end

/-! ### Strings in JSON -/

theorem standardString_quote (s r : Bytes) : standardString s ('\x22' :: r) = some (s, r) := by
  rw [standardString]

theorem standardString_plain {c : Char} (hquote : c ≠ '\x22') (hbackslash : c ≠ '\x5c')
    (hcontrol : ¬ c.toNat < 0x20) (s r : Bytes) :
    standardString s (c :: r) = standardString (s ++ [c]) r := by
  rw [standardString]
  · exact if_neg (not_or.2 ⟨hbackslash, hcontrol⟩)
  · rintro rfl
    exact hquote rfl
  · rintro a b c d r rfl -
    exact hbackslash rfl
  · rintro e r rfl -
    exact hbackslash rfl

theorem standardString_escape {e c : Char} (he : e ≠ 'u') (h : standardEscape e = some c)
    (s r : Bytes) : standardString s ('\x5c' :: e :: r) = standardString (s ++ [c]) r := by
  rw [standardString, h]
  · rfl
  · rintro a b c d r rfl
    exact absurd rfl he

/-- A character is read as it was escaped. -/
theorem standardString_escapeChar (c : Char) (s r : Bytes) :
    standardString s (escapeChar c ++ r) = standardString (s ++ [c]) r := by
  unfold escapeChar
  split_ifs with h₁ h₂ h₃ h₄ h₅ h₆ h₇ h₈
  · rw [h₁]
    exact standardString_escape (by decide) rfl s r
  · rw [h₂]
    exact standardString_escape (by decide) rfl s r
  · rw [h₃]
    exact standardString_escape (by decide) rfl s r
  · rw [h₄]
    exact standardString_escape (by decide) rfl s r
  · rw [h₅]
    exact standardString_escape (by decide) rfl s r
  · rw [h₆]
    exact standardString_escape (by decide) rfl s r
  · rw [h₇]
    exact standardString_escape (by decide) rfl s r
  · have hread : ∀ n : Fin 32, hexDigits4 (Nat.digitChar (n / 4096 % 16))
        (Nat.digitChar (n / 256 % 16)) (Nat.digitChar (n / 16 % 16)) (Nat.digitChar (n % 16)) =
        some n := by decide
    have hpoint : codePointBytes c.toNat = [c] := by
      rw [codePointBytes, if_pos (by omega), encodeUtf8, if_pos (by omega), Char.ofNat_toNat]
    change standardString s ('\x5c' :: 'u' :: Nat.digitChar (c.toNat / 4096 % 16) ::
      Nat.digitChar (c.toNat / 256 % 16) :: Nat.digitChar (c.toNat / 16 % 16) ::
        Nat.digitChar (c.toNat % 16) :: r) = _
    rw [standardString, hread ⟨c.toNat, h₈⟩]
    change (if c.toNat < 0xd800 ∨ 0xe000 ≤ c.toNat then
      standardString (s ++ codePointBytes c.toNat) r else _) = _
    rw [if_pos (.inl (by omega)), hpoint]
  · exact standardString_plain h₁ h₂ h₈ s r

theorem standardString_flatMap (u s r : Bytes) :
    standardString s (u.flatMap escapeChar ++ '\x22' :: r) = some (s ++ u, r) := by
  induction u generalizing s with
  | nil => rw [List.flatMap_nil, List.nil_append, standardString_quote, List.append_nil]
  | cons c u ih =>
    rw [List.flatMap_cons, List.append_assoc, standardString_escapeChar, ih, List.append_assoc,
      List.singleton_append]

/-- A string is read as it was written. -/
theorem standardString_appendString (u r : Bytes) :
    ∃ t, appendString u ++ r = '\x22' :: t ∧ standardString [] t = some (u, r) := by
  refine ⟨u.flatMap escapeChar ++ '\x22' :: r, ?_, standardString_flatMap u [] r⟩
  rw [appendString, List.cons_append, List.append_assoc, List.singleton_append]

/-! ### Values in JSON -/

/-- Induction on a value. -/
theorem FactValue.induct {P : FactValue → Prop} (string : ∀ s, P (.string s))
    (integer : ∀ n, P (.integer n)) (boolean : ∀ b, P (.boolean b))
    (array : ∀ vs : List FactValue, (∀ v ∈ vs, P v) → P (.array vs))
    (hash : ∀ es : List (Bytes × FactValue), (∀ e ∈ es, P e.2) → P (.hash es))
    (v : FactValue) : P v :=
  @FactValue.rec P (fun vs ↦ ∀ v ∈ vs, P v) (fun es ↦ ∀ e ∈ es, P e.2) (fun e ↦ P e.2)
    string integer boolean array hash (by simp) (fun v vs hv hvs ↦ by simpa using ⟨hv, hvs⟩)
    (by simp) (fun e es he hes ↦ by
      intro e' he'
      rcases List.mem_cons.1 he' with rfl | h
      exacts [he, hes e' h]) (fun _ _ hv ↦ hv) v

theorem isBlank_indents (n : ℕ) : ∀ c ∈ indents n, isBlank c = true := fun c hc ↦ by
  rw [List.eq_of_mem_replicate hc]
  rfl

theorem newline_isBlank : ∀ c ∈ ['\n'], isBlank c = true := List.forall_mem_singleton.2 rfl

theorem space_isBlank : ∀ c ∈ [' '], isBlank c = true := List.forall_mem_singleton.2 rfl

section Blanks

variable {b : Bytes} (hb : ∀ c ∈ b, isBlank c = true) (fuel : ℕ) (t : Bytes)
include hb

theorem standardValue_blanks : standardValue fuel (b ++ t) = standardValue fuel t := by
  cases fuel with
  | zero => rfl
  | succ fuel => rw [standardValue, standardValue, List.dropWhile_append_of_pos hb]

theorem standardElements_blanks : standardElements fuel (b ++ t) = standardElements fuel t := by
  cases fuel with
  | zero => rfl
  | succ fuel => rw [standardElements, standardElements, standardValue_blanks hb]

theorem standardMembers_blanks (ms : List (Bytes × Json)) :
    standardMembers fuel ms (b ++ t) = standardMembers fuel ms t := by
  cases fuel with
  | zero => rfl
  | succ fuel => rw [standardMembers, standardMembers, List.dropWhile_append_of_pos hb]

end Blanks

/-- What comes first in the text of a value. -/
theorem FactValue.exists_jsonText_eq_cons (v : FactValue) (indent : ℕ) :
    ∃ c t, v.jsonText indent = c :: t ∧ isBlank c = false ∧ c ≠ ']' := by
  cases v with
  | string s => exact ⟨'\x22', _, rfl, rfl, by decide⟩
  | integer n =>
    obtain ⟨c, cs, hcs, hc⟩ := exists_formatLong_eq_cons n
    refine ⟨c, cs, hcs, isBlank_of_numeral hc, ?_⟩
    rintro rfl
    rcases hc with hc | hc <;> cases hc
  | boolean b => cases b <;> exact ⟨_, _, rfl, rfl, by decide⟩
  | array vs => exact ⟨'[', _, rfl, rfl, by decide⟩
  | hash es => exact ⟨'\x7b', _, rfl, rfl, by decide⟩

/-- What follows an item is a comma or a newline. -/
theorem ends_separator (last : Bool) (r : Bytes) :
    Ends ((if last then [] else [',']) ++ '\n' :: r) := by
  cases last <;> exact ends_cons (by decide)

/-- A value is read as it was written. -/
def FactValue.ReadsBack (v : FactValue) : Prop :=
  ∀ (indent fuel : ℕ) (r : Bytes), (v.jsonText indent).length ≤ fuel → Ends r →
    standardValue fuel (v.jsonText indent ++ r) = some (v.toJson, r)

theorem standardElements_itemsJsonText {vs : List FactValue} (hvs : ∀ v ∈ vs, v.ReadsBack)
    (hne : vs ≠ []) (indent fuel : ℕ) (r : Bytes)
    (hfuel : (itemsJsonText indent vs).length ≤ fuel) :
    standardElements fuel (itemsJsonText indent vs ++ (indents indent ++ ']' :: r)) =
      some (itemsToJson vs, r) := by
  induction vs generalizing fuel with
  | nil => exact absurd rfl hne
  | cons v vs ih =>
    obtain ⟨hv, hrest⟩ := List.forall_mem_cons.1 hvs
    simp only [itemsJsonText, List.length_append, List.length_cons] at hfuel
    obtain ⟨fuel, rfl⟩ := Nat.exists_eq_succ_of_ne_zero (show fuel ≠ 0 by omega)
    rw [itemsJsonText, List.append_assoc, standardElements_blanks (isBlank_indents _),
      standardElements, List.append_assoc, List.append_assoc, List.cons_append,
      hv _ _ _ (by omega) (ends_separator _ _)]
    cases vs with
    | nil =>
      have hclose : ((if ([] : List FactValue).isEmpty then [] else [',']) ++
          '\n' :: (itemsJsonText indent [] ++ (indents indent ++ ']' :: r))).dropWhile isBlank =
            ']' :: r :=
        List.dropWhile_append_of_pos (isBlank_indents _)
      simp only [Option.bind_eq_bind, Option.bind_some, hclose]
      rfl
    | cons v' vs =>
      have hnewline := standardElements_blanks newline_isBlank fuel
        (itemsJsonText indent (v' :: vs) ++ (indents indent ++ ']' :: r))
      change ((standardElements fuel (['\n'] ++ (itemsJsonText indent (v' :: vs) ++
        (indents indent ++ ']' :: r)))).bind fun x ↦ some (v.toJson :: x.1, x.2)) = _
      rw [hnewline, ih hrest (List.cons_ne_nil _ _) fuel (by omega)]
      rfl

/-- The name and the value of an entry are read. -/
theorem FactValue.ReadsBack.entry {v : FactValue} (hv : v.ReadsBack) (indent fuel : ℕ)
    (hfuel : (v.jsonText (indent + 1)).length ≤ fuel) (k : Bytes) (es : List (Bytes × FactValue))
    (r : Bytes) :
    ∃ t r', (entriesJsonText indent ((k, v) :: es) ++ r).dropWhile isBlank = '\x22' :: t ∧
      standardString [] t = some (k, ':' :: r') ∧
      standardValue fuel r' = some (v.toJson,
        (if es.isEmpty then [] else [',']) ++ '\n' :: (entriesJsonText indent es ++ r)) := by
  have hvalue := hv (indent + 1) fuel _ hfuel
    (ends_separator es.isEmpty (entriesJsonText indent es ++ r))
  rw [← standardValue_blanks space_isBlank] at hvalue
  obtain ⟨t, ht, hread⟩ := standardString_appendString k (':' :: ([' '] ++
    (v.jsonText (indent + 1) ++
      ((if es.isEmpty then [] else [',']) ++ '\n' :: (entriesJsonText indent es ++ r)))))
  refine ⟨t, _, ?_, hread, hvalue⟩
  rw [entriesJsonText, List.append_assoc, List.dropWhile_append_of_pos (isBlank_indents _)]
  simp only [List.append_assoc, List.cons_append, List.nil_append] at ht ⊢
  rw [ht]
  rfl

theorem standardMembers_entriesJsonText {es : List (Bytes × FactValue)}
    (hes : ∀ e ∈ es, e.2.ReadsBack) (hne : es ≠ []) (indent fuel : ℕ) (ms : List (Bytes × Json))
    (r : Bytes) (hfuel : (entriesJsonText indent es).length ≤ fuel) :
    standardMembers fuel ms (entriesJsonText indent es ++ (indents indent ++ '\x7d' :: r)) =
      some (entriesToJson ms es, r) := by
  induction es generalizing fuel ms with
  | nil => exact absurd rfl hne
  | cons e es ih =>
    obtain ⟨k, v⟩ := e
    obtain ⟨hv, hrest⟩ := List.forall_mem_cons.1 hes
    change v.ReadsBack at hv
    simp only [entriesJsonText, List.length_append, List.length_cons] at hfuel
    obtain ⟨fuel, rfl⟩ := Nat.exists_eq_succ_of_ne_zero (show fuel ≠ 0 by omega)
    obtain ⟨t, r', ht, hread, hvalue⟩ := hv.entry indent fuel (by omega) k es
      (indents indent ++ '\x7d' :: r)
    rw [standardMembers, ht]
    change (standardString [] t).bind _ = _
    rw [hread]
    change (standardValue fuel r').bind _ = _
    rw [hvalue]
    cases es with
    | nil =>
      have hclose : (indents indent ++ '\x7d' :: r).dropWhile isBlank = '\x7d' :: r :=
        List.dropWhile_append_of_pos (isBlank_indents _)
      change (match (indents indent ++ '\x7d' :: r).dropWhile isBlank with
        | ',' :: r => standardMembers fuel (objectSet k v.toJson ms) r
        | '\x7d' :: r => return (objectSet k v.toJson ms, r)
        | _ => none) = _
      rw [hclose]
      rfl
    | cons e' es =>
      have hnewline := standardMembers_blanks newline_isBlank fuel
        (entriesJsonText indent (e' :: es) ++ (indents indent ++ '\x7d' :: r))
        (objectSet k v.toJson ms)
      change standardMembers fuel (objectSet k v.toJson ms) (['\n'] ++ (entriesJsonText indent
        (e' :: es) ++ (indents indent ++ '\x7d' :: r))) = _
      rw [hnewline, ih hrest (List.cons_ne_nil _ _) fuel _ (by omega)]
      rfl

/-- The values are read as they were written. -/
theorem standardValue_jsonText (v : FactValue) : v.ReadsBack := by
  induction v using FactValue.induct with
  | string s =>
    intro indent fuel r hfuel hr
    rw [FactValue.jsonText] at hfuel ⊢
    obtain ⟨t, ht, hread⟩ := standardString_appendString s r
    obtain ⟨fuel, rfl⟩ : ∃ n, fuel = n + 1 := ⟨fuel - 1, by
      rw [appendString, List.length_cons] at hfuel
      omega⟩
    rw [ht, standardValue_string, hread]
    rfl
  | integer n =>
    intro indent fuel r hfuel hr
    rw [FactValue.jsonText] at hfuel ⊢
    have hpos := List.length_pos_iff.2 (formatLong_ne_nil n)
    obtain ⟨fuel, rfl⟩ : ∃ n, fuel = n + 1 := ⟨fuel - 1, by omega⟩
    exact standardValue_formatLong n fuel hr
  | boolean b =>
    intro indent fuel r hfuel hr
    rw [FactValue.jsonText] at hfuel ⊢
    obtain ⟨fuel, rfl⟩ : ∃ n, fuel = n + 1 := ⟨fuel - 1, by
      have hpos : 0 < (boolText b).length := by cases b <;> decide
      omega⟩
    cases b
    · exact standardValue_false
    · exact standardValue_true
  | array vs ih =>
    intro indent fuel r hfuel hr
    rw [FactValue.jsonText] at hfuel ⊢
    simp only [List.length_cons, List.length_append] at hfuel
    obtain ⟨fuel, rfl⟩ := Nat.exists_eq_succ_of_ne_zero (show fuel ≠ 0 by omega)
    simp only [List.cons_append, List.append_assoc, List.nil_append]
    rw [standardValue_array, List.dropWhile_cons_of_pos rfl]
    cases vs with
    | nil =>
      have hclose : (indents indent ++ ']' :: r).dropWhile isBlank = ']' :: r :=
        List.dropWhile_append_of_pos (isBlank_indents _)
      rw [itemsJsonText, List.nil_append, hclose]
      rfl
    | cons v vs =>
      obtain ⟨c, t, hc, hblank, hbracket⟩ := v.exists_jsonText_eq_cons (indent + 1)
      have hnewline := standardElements_blanks newline_isBlank fuel
        (itemsJsonText indent (v :: vs) ++ (indents indent ++ ']' :: r))
      have hhead : ((itemsJsonText indent (v :: vs) ++ (indents indent ++ ']' :: r)).dropWhile
          isBlank).head? ≠ some ']' := by
        rw [itemsJsonText, List.append_assoc, List.dropWhile_append_of_pos (isBlank_indents _), hc,
          List.cons_append, List.cons_append, List.dropWhile_cons_of_neg (by simp [hblank])]
        exact fun h ↦ hbracket (Option.some.inj h)
      rw [if_neg hhead]
      change (standardElements fuel (['\n'] ++ (itemsJsonText indent (v :: vs) ++
        (indents indent ++ ']' :: r)))).map _ = _
      rw [hnewline, standardElements_itemsJsonText ih (List.cons_ne_nil _ _) _ _ _ (by omega)]
      rfl
  | hash es ih =>
    intro indent fuel r hfuel hr
    rw [FactValue.jsonText] at hfuel ⊢
    simp only [List.length_cons, List.length_append] at hfuel
    obtain ⟨fuel, rfl⟩ := Nat.exists_eq_succ_of_ne_zero (show fuel ≠ 0 by omega)
    simp only [List.cons_append, List.append_assoc, List.nil_append]
    rw [standardValue_object, List.dropWhile_cons_of_pos rfl]
    cases es with
    | nil =>
      have hclose : (indents indent ++ '\x7d' :: r).dropWhile isBlank = '\x7d' :: r :=
        List.dropWhile_append_of_pos (isBlank_indents _)
      rw [entriesJsonText, List.nil_append, hclose]
      rfl
    | cons e es =>
      obtain ⟨t, -, ht, -, -⟩ := (ih e List.mem_cons_self).entry indent _ le_rfl e.1
        es (indents indent ++ '\x7d' :: r)
      have hnewline := standardMembers_blanks newline_isBlank fuel
        (entriesJsonText indent (e :: es) ++ (indents indent ++ '\x7d' :: r)) []
      have hquote : ('\x22' :: t).head? ≠ some '\x7d' := fun h ↦ by cases h
      rw [ht, if_neg hquote]
      change (standardMembers fuel [] (['\n'] ++ (entriesJsonText indent (e :: es) ++
        (indents indent ++ '\x7d' :: r)))).map _ = _
      rw [hnewline, standardMembers_entriesJsonText ih (List.cons_ne_nil _ _) _ _ _ _ (by omega)]
      rfl

/-! ### Facts in JSON -/

/-- What a fact denotes. -/
def factMember (f : Bytes × FactValue) : Bytes × Json := (f.1, f.2.toJson)

theorem distinctMembers_blanks {b : Bytes} (hb : ∀ c ∈ b, isBlank c = true) (fuel : ℕ)
    (ms : List (Bytes × Json)) (t : Bytes) :
    distinctMembers fuel ms (b ++ t) = distinctMembers fuel ms t := by
  cases fuel with
  | zero => rfl
  | succ fuel => rw [distinctMembers, distinctMembers, List.dropWhile_append_of_pos hb]

theorem distinctMembers_entriesJsonText {facts : FactStore} (hne : facts ≠ []) (fuel : ℕ)
    (ms : List (Bytes × Json)) (hms : (ms.map Prod.fst).Nodup) (r : Bytes)
    (hfuel : (entriesJsonText 0 facts).length ≤ fuel) :
    distinctMembers fuel ms (entriesJsonText 0 facts ++ '\x7d' :: r) =
      if (ms.map Prod.fst ++ facts.map Prod.fst).Nodup then some (ms ++ facts.map factMember, r)
      else none := by
  induction facts generalizing fuel ms with
  | nil => exact absurd rfl hne
  | cons f facts ih =>
    obtain ⟨k, v⟩ := f
    simp only [entriesJsonText, List.length_append, List.length_cons] at hfuel
    obtain ⟨fuel, rfl⟩ := Nat.exists_eq_succ_of_ne_zero (show fuel ≠ 0 by omega)
    obtain ⟨t, r', ht, hread, hvalue⟩ := (standardValue_jsonText v).entry 0 fuel (by omega) k facts
      ('\x7d' :: r)
    rw [distinctMembers, ht]
    change (standardString [] t).bind _ = _
    rw [hread]
    change (standardValue fuel r').bind _ = _
    rw [hvalue]
    by_cases hk : k ∈ ms.map Prod.fst
    · have hdup : ¬ (ms.map Prod.fst ++ ((k, v) :: facts).map Prod.fst).Nodup := fun h ↦
        (List.nodup_append.1 h).2.2 k hk k List.mem_cons_self rfl
      rw [if_neg hdup]
      exact if_pos hk
    · have hnext : ((ms ++ [(k, v.toJson)]).map Prod.fst).Nodup := by
        rw [List.map_append]
        exact List.nodup_append.2 ⟨hms, by simp, fun a ha b hb ↦ by
          rintro rfl
          obtain rfl : a = k := List.mem_singleton.1 hb
          exact hk ha⟩
      refine (if_neg hk).trans ?_
      cases facts with
      | nil =>
        rw [List.map_append] at hnext
        exact (if_pos hnext).symm
      | cons f facts =>
        have hnewline := distinctMembers_blanks newline_isBlank fuel
          (ms ++ [(k, v.toJson)]) (entriesJsonText 0 (f :: facts) ++ '\x7d' :: r)
        refine hnewline.trans ?_
        rw [ih (List.cons_ne_nil _ _) fuel _ hnext (by omega)]
        simp only [List.map_append, List.map_cons, List.map_nil, List.append_assoc,
          List.singleton_append]
        rfl

/-- The facts are read as they were written, if their names are distinct. -/
theorem jsonFacts_facterToJson (facts : FactStore) :
    jsonFacts (facterToJson facts) =
      if (facts.map Prod.fst).Nodup then some (facts.map factMember) else none := by
  cases facts with
  | nil => rfl
  | cons f facts =>
    have hskip : (facterToJson (f :: facts)).dropWhile isBlank = facterToJson (f :: facts) :=
      List.dropWhile_cons_of_neg (by decide)
    obtain ⟨t, -, ht, -, -⟩ := (standardValue_jsonText f.2).entry 0 _ le_rfl f.1 facts
      ['\x7d', '\n']
    have hhead : (('\n' :: (entriesJsonText 0 (f :: facts) ++ ['\x7d', '\n'])).dropWhile
        isBlank).head? ≠ some '\x7d' := by
      rw [List.dropWhile_cons_of_pos (by decide), ht]
      exact fun h ↦ by cases h
    have hfuel : (entriesJsonText 0 (f :: facts)).length ≤
        2 * ((facterToJson (f :: facts)).length + 1) := by
      rw [facterToJson, List.length_cons, List.length_cons, List.length_append]
      omega
    have hmembers := distinctMembers_entriesJsonText (List.cons_ne_nil f facts) _
      [] List.nodup_nil ['\n'] hfuel
    rw [← distinctMembers_blanks newline_isBlank] at hmembers
    rw [jsonFacts, hskip]
    refine (if_neg hhead).trans ?_
    change (distinctMembers _ [] (['\n'] ++ (entriesJsonText 0 (f :: facts) ++
      '\x7d' :: ['\n']))).bind _ = _
    rw [hmembers]
    rw [List.map_nil, List.nil_append]
    split_ifs <;> rfl

end PuppetC
