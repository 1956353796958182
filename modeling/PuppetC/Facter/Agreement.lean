import Mathlib.Data.List.Nodup
import PuppetC.Facter.Writers
import PuppetC.Yaml.FlatMapping

/-!
# When the writers of facts agree

The YAML text of some facts denotes what their JSON text denotes, and the positions stay within the
buffers, exactly if every line fits its buffer with a place to spare, the names are distinct plain
keys, and the values are integers, truth values, and strings that stand for themselves between
double quotes. Hashes and arrays are written as nulls, and what a quote, a backslash or a control
character in a string does to its line is left to chance.

## Main definitions

* `SameFacts`: a YAML mapping and a JSON object denote the same.
* `WritersAgree`, `WellWritten`: what the writers are to meet, and when they do.

## Main results

* `writersAgree_iff_wellWritten`.
-/

namespace PuppetC

/-! ### Agreement -/

/-- A scalar denotes the same as a value in JSON. -/
def YamlScalar.SameAs : YamlScalar → Json → Prop
  | .null, .null => True
  | .bool b, .bool b' => b = b'
  | .number q, .number q' => q = q'
  | .string s, .string s' => s = s'
  | _, _ => False

/-- The entries of a YAML mapping denote the same as the members of a JSON object. -/
def SameFacts (es : List (Bytes × YamlScalar)) (ms : List (Bytes × Json)) : Prop :=
  (∀ e ∈ es, ∃ v, (e.1, v) ∈ ms ∧ e.2.SameAs v) ∧ ∀ m ∈ ms, ∃ y, (m.1, y) ∈ es ∧ y.SameAs m.2

/-- The writers stay in bounds, and the YAML text denotes the same facts as the JSON text. -/
structure WritersAgree (facts : FactStore) : Prop where
  yamlInBounds : ∀ n, (yamlBuffer (facts.take n)).InBounds
  textInBounds : ∀ n, (textBuffer (facts.take n)).InBounds
  sameFacts : ∃ es ms, yamlMapping (facterToYaml facts) = some es ∧
    jsonFacts (facterToJson facts) = some ms ∧ SameFacts es ms

/-- A value that YAML has a scalar for, which is written as it is. -/
def FactValue.IsPlain : FactValue → Prop
  | .string s => IsQuotable s
  | .integer _ | .boolean _ => True
  | .array _ | .hash _ => False

/-- The lines of some facts in YAML, with their newlines. -/
def yamlParts (facts : FactStore) : List Bytes := facts.map fun f ↦ yamlFact f ++ ['\n']

/-- The lines of some facts in a text, with their newlines. -/
def textParts (facts : FactStore) : List Bytes := facts.map fun f ↦ textFact f ++ ['\n']

/-- The lines fit the buffers, and in YAML with a place to spare behind each but the last; the names
are distinct, and the names and the values stand for themselves. -/
structure WellWritten (facts : FactStore) : Prop where
  yamlFits : CountedBuffer.Fits 1024 4 16384 (yamlParts facts)
  yamlWhole : CountedBuffer.visibleCount 1024 4 16384 (yamlParts facts) = facts.length
  textFits : CountedBuffer.Fits 1024 0 16384 (textParts facts)
  distinct : (facts.map Prod.fst).Nodup
  plain : ∀ f ∈ facts, IsPlainKey f.1 ∧ f.2.IsPlain

/-! ### Bounds -/

/-- The buffer of `facter_to_yaml` before the facts. -/
def yamlStart : CountedBuffer Char := (CountedBuffer.mk [] 0 16384).put "---\n".toList

theorem yamlBuffer_eq (facts : FactStore) :
    yamlBuffer facts = yamlStart.puts 1024 (yamlParts facts) := rfl

theorem yamlBuffer_inBounds_iff (facts : FactStore) :
    (∀ n, (yamlBuffer (facts.take n)).InBounds) ↔
      CountedBuffer.Fits 1024 4 16384 (yamlParts facts) := by
  have hstart : yamlStart.InBounds := by
    change 4 ≤ 16384
    omega
  have htake (n : ℕ) : yamlParts (facts.take n) = (yamlParts facts).take n := List.map_take
  calc (∀ n, (yamlBuffer (facts.take n)).InBounds)
      ↔ ∀ n, (yamlStart.puts 1024 ((yamlParts facts).take n)).InBounds := by
        simp only [yamlBuffer_eq, htake]
    _ ↔ _ := (CountedBuffer.inBounds_iff (yamlParts facts)).trans (and_iff_right hstart)

theorem textBuffer_inBounds_iff (facts : FactStore) :
    (∀ n, (textBuffer (facts.take n)).InBounds) ↔
      CountedBuffer.Fits 1024 0 16384 (textParts facts) := by
  have hstart : (CountedBuffer.mk ([] : Bytes) 0 16384).InBounds := Nat.zero_le _
  have htake (n : ℕ) : textParts (facts.take n) = (textParts facts).take n := List.map_take
  calc (∀ n, (textBuffer (facts.take n)).InBounds)
      ↔ ∀ n, ((CountedBuffer.mk [] 0 16384).puts 1024 ((textParts facts).take n)).InBounds := by
        simp only [← htake]
        rfl
    _ ↔ _ := (CountedBuffer.inBounds_iff (textParts facts)).trans (and_iff_right hstart)

/-! ### The lines of the YAML text -/

/-- The lines that are read, without their newlines. -/
def visibleLines (facts : FactStore) : List Bytes :=
  (facts.take (CountedBuffer.visibleCount 1024 4 16384 (yamlParts facts))).map yamlFact

theorem getLast?_formatLong_ne (n : ℤ) : (formatLong n).getLast? ≠ some '\n' := fun h ↦ by
  have hmem := mem_formatLong (List.mem_of_getLast? h)
  revert hmem
  decide

/-- A line is not empty, and does not end with a newline. -/
theorem getLast?_yamlFact (f : Bytes × FactValue) :
    yamlFact f ≠ [] ∧ (yamlFact f).getLast? ≠ some '\n' := by
  have hvalue : f.2.yamlText ≠ [] ∧ f.2.yamlText.getLast? ≠ some '\n' := by
    cases f.2 with
    | string s =>
      refine ⟨List.cons_ne_nil _ _, ?_⟩
      rw [FactValue.yamlText, ← List.cons_append, List.getLast?_append_of_ne_nil _ (by simp)]
      decide
    | integer n => exact ⟨formatLong_ne_nil n, getLast?_formatLong_ne n⟩
    | boolean b => cases b <;> decide
    | array vs | hash es =>
      refine ⟨List.cons_ne_nil _ _, ?_⟩
      change some 'l' ≠ some '\n'
      decide
  refine ⟨by simp [yamlFact], ?_⟩
  rw [yamlFact, List.getLast?_append_of_ne_nil _ (by simp), List.getLast?_cons_cons,
    List.getLast?_cons_of_ne_nil hvalue.1]
  exact hvalue.2

/-- A newline after a last line adds no line. -/
theorem textLines_append_singleton_newline {t : Bytes} (hne : t ≠ [])
    (h : t.getLast? ≠ some '\n') : textLines (t ++ ['\n']) = textLines t := by
  have hlines := textLines_withNewline_append t []
  rw [withNewline, if_neg (not_or.2 ⟨hne, h⟩), List.append_nil] at hlines
  rw [hlines]
  exact List.append_nil _

/-- What is read of the YAML text has the lines that are visible. -/
theorem textLines_facterToYaml {facts : FactStore}
    (hfits : CountedBuffer.Fits 1024 4 16384 (yamlParts facts)) :
    ∃ body, facterToYaml facts = "---\n".toList ++ body ∧
      textLines body = textLines (unlines (visibleLines facts)) := by
  have hvisible : ((yamlParts facts).take (CountedBuffer.visibleCount 1024 4 16384
      (yamlParts facts))).flatten = unlines (visibleLines facts) := by
    rw [visibleLines, yamlParts, ← List.map_take, ← List.flatMap_def, unlines, List.flatMap_map]
  have hparts : ∀ part ∈ yamlParts facts, part ≠ [] := by
    intro part hpart
    obtain ⟨f, -, rfl⟩ := List.mem_map.1 hpart
    simp
  have htext := CountedBuffer.text_puts (b := yamlStart) rfl hfits hparts
  change let visible := ((yamlParts facts).take (CountedBuffer.visibleCount 1024 4 16384
    (yamlParts facts))).flatten; facterToYaml facts = "---\n".toList ++ visible ∨
      visible ≠ [] ∧ facterToYaml facts = "---\n".toList ++ visible.dropLast at htext
  rw [hvisible] at htext
  rcases htext with htext | ⟨hne, htext⟩
  · exact ⟨_, htext, rfl⟩
  · refine ⟨_, htext, ?_⟩
    rcases List.eq_nil_or_concat (visibleLines facts) with hnil | ⟨ls, l, hls⟩
    · rw [hnil] at hne
      exact absurd rfl hne
    · have hmem : l ∈ visibleLines facts := by simp [hls]
      obtain ⟨f, -, rfl⟩ := List.mem_map.1 hmem
      obtain ⟨hline, hlast⟩ := getLast?_yamlFact f
      have hunlines : unlines (visibleLines facts) = unlines ls ++ yamlFact f ++ ['\n'] := by
        simp [hls]
      have hlast' : (unlines ls ++ yamlFact f).getLast? ≠ some '\n' := by
        rwa [List.getLast?_append_of_ne_nil _ hline]
      rw [hunlines, List.dropLast_concat,
        textLines_append_singleton_newline (by simp [hline]) hlast']

/-- The text up to its first newline. -/
def firstLine (t : Bytes) : Bytes := t.takeWhile fun c ↦ c ≠ '\n'

theorem firstLine_append {k : Bytes} (hk : '\n' ∉ k) (t : Bytes) :
    firstLine (k ++ t) = k ++ firstLine t :=
  List.takeWhile_append_of_pos fun _ hc ↦ decide_eq_true fun h ↦ hk (h ▸ hc)

theorem firstLine_of_notMem {t : Bytes} (ht : '\n' ∉ t) : firstLine t = t := by
  rw [← List.append_nil t, firstLine_append ht]
  rfl

/-- The first line of what was written as a line is a line of the text. -/
theorem firstLine_mem_textLines {l : Bytes} {ls : List Bytes} (h : l ∈ ls) :
    firstLine l ∈ textLines (unlines ls) := by
  induction ls with
  | nil => cases h
  | cons m ls ih =>
    rw [unlines_cons, textLines_append_newline]
    rcases List.mem_cons.1 h with rfl | h
    · refine List.mem_append_left _ ?_
      obtain ⟨l', rest, hl, rfl, rfl | ⟨u, rfl⟩⟩ := exists_line l
      · rw [List.append_nil, firstLine_of_notMem hl, textLines_line hl]
        exact List.mem_cons_self
      · rw [firstLine_append hl, List.append_assoc, List.cons_append, textLines_line hl]
        have hnil : firstLine ('\n' :: u) = [] := rfl
        rw [hnil, List.append_nil]
        exact List.mem_cons_self
    · exact List.mem_append_right _ (ih h)

/-! ### The entries of the YAML text -/

theorem mapM_eq_some_iff {α β : Type} {f : α → Option β} {xs : List α} {ys : List β} :
    xs.mapM f = some ys ↔ xs.map f = ys.map some := by
  induction xs generalizing ys with
  | nil => cases ys <;> simp
  | cons x xs ih =>
    rw [List.mapM_cons]
    cases ys with
    | nil => cases f x <;> cases xs.mapM f <;> simp
    | cons y ys =>
      rw [List.map_cons, List.map_cons, List.cons.injEq, ← ih]
      cases f x <;> cases xs.mapM f <;> simp

/-- What a YAML text denotes that has the visible lines. -/
theorem yamlMapping_eq_some_iff {facts : FactStore} {es : List (Bytes × YamlScalar)}
    (hfits : CountedBuffer.Fits 1024 4 16384 (yamlParts facts)) :
    yamlMapping (facterToYaml facts) = some es ↔
      (textLines (unlines (visibleLines facts))).map yamlEntry = es.map some ∧
        (es.map Prod.fst).Nodup := by
  obtain ⟨body, hbody, hlines⟩ := textLines_facterToYaml hfits
  have hstart : "---\n".toList.isPrefixOf ("---\n".toList ++ body) = true :=
    List.isPrefixOf_iff_prefix.2 (List.prefix_append _ _)
  have hdrop : ("---\n".toList ++ body).drop 4 = body := rfl
  rw [← mapM_eq_some_iff, hbody, yamlMapping, if_pos hstart, hdrop, hlines]
  cases (textLines (unlines (visibleLines facts))).mapM yamlEntry with
  | none => simp
  | some es' =>
    dsimp only
    split_ifs with hnodup
    · constructor
      · rintro ⟨⟩
        exact ⟨rfl, hnodup⟩
      · exact fun h ↦ h.1
    · constructor
      · intro h
        cases h
      · rintro ⟨⟨⟩, h⟩
        exact absurd h hnodup

/-- The scalar of a value. -/
def FactValue.yamlScalar : FactValue → YamlScalar
  | .string s => .string s
  | .integer n => .number n
  | .boolean b => .bool b
  | .array _ | .hash _ => .null

/-- A plain value is read as it was written, and denotes what it does in JSON. -/
theorem yamlValue_yamlText {v : FactValue} (h : v.IsPlain) :
    yamlValue (' ' :: v.yamlText) = some v.yamlScalar ∧ v.yamlScalar.SameAs v.toJson := by
  cases v with
  | string s => exact ⟨yamlValue_of_isQuotable h, rfl⟩
  | integer n => exact ⟨yamlValue_formatLong n, rfl⟩
  | boolean b => cases b <;> exact ⟨by decide, rfl⟩
  | array vs | hash es => cases h

/-- A line with a plain name and a plain value has no newline. -/
theorem newline_notMem_yamlFact {f : Bytes × FactValue} (hname : IsPlainKey f.1)
    (hvalue : f.2.IsPlain) : '\n' ∉ yamlFact f := by
  have htext : '\n' ∉ f.2.yamlText := by
    intro hmem
    cases h : f.2 with
    | string s =>
      rw [h] at hvalue hmem
      rcases List.mem_cons.1 hmem with hquote | hmem
      · cases hquote
      · rcases List.mem_append.1 hmem with hmem | hquote
        · have hprint := (hvalue _ hmem).2.2
          revert hprint
          decide
        · cases List.mem_singleton.1 hquote
    | integer n =>
      rw [h] at hmem
      have hchar := mem_formatLong hmem
      revert hchar
      decide
    | boolean b =>
      rw [h] at hmem
      revert hmem
      cases b <;> decide
    | array vs | hash es =>
      rw [h] at hvalue
      exact hvalue
  intro hmem
  rcases List.mem_append.1 hmem with hmem | hmem
  · exact newline_notMem_of_isPlainKey hname hmem
  · rcases List.mem_cons.1 hmem with hcolon | hmem
    · cases hcolon
    · rcases List.mem_cons.1 hmem with hblank | hmem
      · cases hblank
      · exact htext hmem

/-- If what is read of a value denotes what it does in JSON, then the value is plain. -/
theorem isPlain_of_sameAs {v : FactValue} {y : YamlScalar}
    (hread : yamlValue (' ' :: firstLine v.yamlText) = some y) (hsame : y.SameAs v.toJson) :
    v.IsPlain := by
  cases v with
  | string s =>
    obtain rfl : y = .string s := by cases y <;> cases hsame; rfl
    have hquote : firstLine ('\x22' :: (s ++ ['\x22'])) = '\x22' :: firstLine (s ++ ['\x22']) := rfl
    rw [FactValue.yamlText, hquote] at hread
    exact isQuotable_of_yamlValue (List.takeWhile_prefix _) hread
  | integer n => trivial
  | boolean b => trivial
  | array vs | hash es => cases y <;> cases hsame

section Entries

variable {ls : List Bytes} {es : List (Bytes × YamlScalar)} (h : ls.map yamlEntry = es.map some)
include h

theorem exists_entry_of_mem {l : Bytes} (hl : l ∈ ls) : ∃ e ∈ es, yamlEntry l = some e := by
  have hmem : yamlEntry l ∈ ls.map yamlEntry := List.mem_map_of_mem hl
  rw [h] at hmem
  obtain ⟨e, he, heq⟩ := List.mem_map.1 hmem
  exact ⟨e, he, heq.symm⟩

theorem isPlainKey_of_mem_entries {e : Bytes × YamlScalar} (he : e ∈ es) : IsPlainKey e.1 := by
  have hmem : some e ∈ es.map some := List.mem_map_of_mem he
  rw [← h] at hmem
  obtain ⟨l, -, hl⟩ := List.mem_map.1 hmem
  exact isPlainKey_of_yamlEntry hl

end Entries

/-- The entry of a line whose name is plain, up to its first newline. -/
theorem yamlEntry_firstLine_yamlFact {f : Bytes × FactValue} (hname : IsPlainKey f.1) :
    yamlEntry (firstLine (yamlFact f)) =
      (yamlValue (' ' :: firstLine f.2.yamlText)).map fun y ↦ (f.1, y) := by
  have hline : firstLine (yamlFact f) = f.1 ++ ':' :: ' ' :: firstLine f.2.yamlText := by
    rw [yamlFact, firstLine_append (newline_notMem_of_isPlainKey hname)]
    rfl
  rw [hline, yamlEntry_of_isPlainKey hname]

/-- The entry of a line with a plain name and a plain value. -/
theorem yamlEntry_yamlFact {f : Bytes × FactValue} (hname : IsPlainKey f.1)
    (hvalue : f.2.IsPlain) : yamlEntry (yamlFact f) = some (f.1, f.2.yamlScalar) := by
  rw [yamlFact, yamlEntry_of_isPlainKey hname, (yamlValue_yamlText hvalue).1]
  rfl

/-! ### When the writers agree -/

theorem wellWritten_of_writersAgree {facts : FactStore} (h : WritersAgree facts) :
    WellWritten facts := by
  obtain ⟨es, ms, hes, hms, hsame⟩ := h.sameFacts
  have hfits := (yamlBuffer_inBounds_iff facts).1 h.yamlInBounds
  obtain ⟨hentries, hkeys⟩ := (yamlMapping_eq_some_iff hfits).1 hes
  rw [jsonFacts_facterToJson] at hms
  split_ifs at hms with hdistinct
  obtain rfl := Option.some.inj hms
  have hentry : ∀ f ∈ facts, ∃ y, (f.1, y) ∈ es := fun f hf ↦ by
    obtain ⟨y, hy, -⟩ := hsame.2 _ (List.mem_map_of_mem hf)
    exact ⟨y, hy⟩
  have hname : ∀ f ∈ facts, IsPlainKey f.1 := fun f hf ↦ by
    obtain ⟨y, hy⟩ := hentry f hf
    exact isPlainKey_of_mem_entries hentries hy
  set count := CountedBuffer.visibleCount 1024 4 16384 (yamlParts facts)
  -- the first line of a fact that is visible has an entry, which denotes what the fact does
  have hvisible : ∀ f ∈ facts.take count, f.2.IsPlain := by
    intro f hf
    have hfacts := List.mem_of_mem_take hf
    obtain ⟨e, he, hread⟩ := exists_entry_of_mem hentries
      (firstLine_mem_textLines (List.mem_map_of_mem hf))
    rw [yamlEntry_firstLine_yamlFact (hname f hfacts)] at hread
    obtain ⟨y, hy, rfl⟩ := Option.map_eq_some_iff.1 hread
    obtain ⟨v, hv, hdenotes⟩ := hsame.1 _ he
    obtain ⟨g, hg, heq⟩ := List.mem_map.1 hv
    obtain ⟨hgname, rfl⟩ := Prod.mk.inj heq
    obtain rfl := List.inj_on_of_nodup_map hdistinct hg hfacts hgname
    exact isPlain_of_sameAs hy hdenotes
  have hlines : ∀ l ∈ visibleLines facts, '\n' ∉ l := by
    intro l hl
    obtain ⟨f, hf, rfl⟩ := List.mem_map.1 hl
    exact newline_notMem_yamlFact (hname f (List.mem_of_mem_take hf)) (hvisible f hf)
  -- so there are as many entries as lines are visible, and each fact has one
  have hlength : es.length = (facts.take count).length := by
    rw [textLines_unlines hlines] at hentries
    have hmap := congrArg List.length hentries
    rw [List.length_map, List.length_map, visibleLines, List.length_map] at hmap
    exact hmap.symm
  have hle : facts.length ≤ es.length := by
    have hsubset : facts.map Prod.fst ⊆ es.map Prod.fst := by
      intro k hk
      obtain ⟨f, hf, rfl⟩ := List.mem_map.1 hk
      obtain ⟨y, hy⟩ := hentry f hf
      exact List.mem_map_of_mem hy
    have hsubperm := (List.subperm_of_subset hdistinct hsubset).length_le
    rwa [List.length_map, List.length_map] at hsubperm
  have hall : facts.take count = facts := List.take_of_length_le (by
    rw [hlength, List.length_take] at hle
    omega)
  have hwhole : count = facts.length := by
    have hmax : count ≤ (yamlParts facts).length := CountedBuffer.visibleCount_le 4 16384 _
    rw [hlength, List.length_take] at hle
    have hparts : (yamlParts facts).length = facts.length := List.length_map _
    omega
  rw [hall] at hvisible
  exact ⟨hfits, hwhole, (textBuffer_inBounds_iff facts).1 h.textInBounds, hdistinct,
    fun f hf ↦ ⟨hname f hf, hvisible f hf⟩⟩

theorem writersAgree_of_wellWritten {facts : FactStore} (h : WellWritten facts) :
    WritersAgree facts := by
  have hvisible : visibleLines facts = facts.map yamlFact := by
    rw [visibleLines, h.yamlWhole, List.take_length]
  have hlines : ∀ l ∈ visibleLines facts, '\n' ∉ l := by
    rw [hvisible]
    intro l hl
    obtain ⟨f, hf, rfl⟩ := List.mem_map.1 hl
    exact newline_notMem_yamlFact (h.plain f hf).1 (h.plain f hf).2
  set es := facts.map fun f ↦ (f.1, f.2.yamlScalar) with hes
  have hentries : (textLines (unlines (visibleLines facts))).map yamlEntry = es.map some := by
    rw [textLines_unlines hlines, hvisible, hes, List.map_map, List.map_map]
    exact List.map_congr_left fun f hf ↦ yamlEntry_yamlFact (h.plain f hf).1 (h.plain f hf).2
  have hkeys : (es.map Prod.fst).Nodup := by
    rw [hes, List.map_map]
    exact h.distinct
  have hdenotes : ∀ f ∈ facts, f.2.yamlScalar.SameAs f.2.toJson := fun f hf ↦
    (yamlValue_yamlText (h.plain f hf).2).2
  refine ⟨(yamlBuffer_inBounds_iff facts).2 h.yamlFits,
    (textBuffer_inBounds_iff facts).2 h.textFits, es, facts.map factMember,
    (yamlMapping_eq_some_iff h.yamlFits).2 ⟨hentries, hkeys⟩,
    (jsonFacts_facterToJson facts).trans (if_pos h.distinct), ?_, ?_⟩
  · intro e he
    obtain ⟨f, hf, rfl⟩ := List.mem_map.1 he
    exact ⟨f.2.toJson, List.mem_map_of_mem hf, hdenotes f hf⟩
  · intro m hm
    obtain ⟨f, hf, rfl⟩ := List.mem_map.1 hm
    exact ⟨f.2.yamlScalar, List.mem_map_of_mem hf, hdenotes f hf⟩

/-- The writers stay in bounds and agree exactly if the facts are written well. -/
theorem writersAgree_iff_wellWritten (facts : FactStore) :
    WritersAgree facts ↔ WellWritten facts :=
  ⟨wellWritten_of_writersAgree, writersAgree_of_wellWritten⟩

/-- A hash is written as null. -/
theorem not_writersAgree_hash : ¬ WritersAgree
    [("os".toList, .hash [("family".toList, .string "Debian".toList)])] := fun h ↦
  ((wellWritten_of_writersAgree h).plain _ List.mem_cons_self).2

end PuppetC
