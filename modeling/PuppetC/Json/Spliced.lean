import PuppetC.Json.Extent

/-!
# Texts spliced into JSON

Some of the sources write JSON with format strings, which put the texts between quotes as they
are. Such a document is read as the value it was written for exactly if no text in it has a
quote or a backslash: a document that is written without escapes and blanks has no room for
anything else.

## Main definitions

* `JsonOf.size`: the size of the tokens of a value.
* `JsonOf.spliced`: a value written with its texts as they are.

## Main results

* `JsonOf.size_assembled_le`: members that are set twice make a value smaller.
* `JsonOf.jsonParse_spliced_iff`: when a spliced document is read as it was meant.
-/

namespace PuppetC

/-- A text between quotes, as it is. -/
def quoted (s : Bytes) : Bytes := '\x22' :: (s ++ ['\x22'])

/-! ### The size of values -/

namespace JsonOf

/-- The size of the tokens of a value. -/
def size (v : Json) : ℕ := (v.tokens.map Token.size).sum

/-- The size of the members of an object, with a comma in front of each. -/
def membersSize (ms : List (Bytes × Json)) : ℕ := ((memberTokens false ms).map Token.size).sum

/-- The size of the elements of an array, with a comma in front of each. -/
def elementsSize (vs : List Json) : ℕ := ((elementTokens false vs).map Token.size).sum

theorem membersSize_cons (m : Bytes × Json) (ms : List (Bytes × Json)) :
    membersSize (m :: ms) = m.1.length + 4 + m.2.size + membersSize ms := by
  simp only [membersSize, memberTokens, size, Token.size, List.map_append, List.map_cons,
    List.sum_append, List.sum_cons, Bool.false_eq_true, if_false, List.map_nil, List.sum_nil]
  omega

theorem elementsSize_cons (v : Json) (vs : List Json) :
    elementsSize (v :: vs) = 1 + v.size + elementsSize vs := by
  simp only [elementsSize, elementTokens, size, Token.size, List.map_append, List.map_cons,
    List.sum_append, List.sum_cons, Bool.false_eq_true, if_false, List.map_nil, List.sum_nil]
  omega

theorem size_object (ms : List (Bytes × Json)) :
    (object ms).size = if ms = [] then 2 else 1 + membersSize ms := by
  cases ms with
  | nil => rfl
  | cons m ms =>
    rw [if_neg (List.cons_ne_nil m ms), membersSize, memberTokens_false_cons]
    simp only [size, tokens, Token.size, List.map_append, List.map_cons, List.sum_append,
      List.sum_cons, List.map_nil, List.sum_nil]
    omega

theorem size_array (vs : List Json) :
    (array vs).size = if vs = [] then 2 else 1 + elementsSize vs := by
  cases vs with
  | nil => rfl
  | cons v vs =>
    rw [if_neg (List.cons_ne_nil v vs), elementsSize, elementTokens_false_cons]
    simp only [size, tokens, Token.size, List.map_append, List.map_cons, List.sum_append,
      List.sum_cons, List.map_nil, List.sum_nil]
    omega

theorem membersSize_objectSet_le (k : Bytes) (v : Json) (ms : List (Bytes × Json)) :
    membersSize (objectSet k v ms) ≤ k.length + 4 + v.size + membersSize ms := by
  induction ms with
  | nil => rw [objectSet, membersSize_cons]
  | cons m ms ih =>
    obtain ⟨k', v'⟩ := m
    rw [objectSet]
    split_ifs with hk
    · subst hk
      simp only [membersSize_cons]
      omega
    · simp only [membersSize_cons]
      omega

theorem objectSet_ne_nil {N : Type} (k : Bytes) (v : JsonOf N) (ms : List (Bytes × JsonOf N)) :
    objectSet k v ms ≠ [] := by
  cases ms with
  | nil => simp [objectSet]
  | cons m ms =>
    rw [objectSet]
    split_ifs <;> simp

theorem assembledMembers_ne_nil {N : Type} {acc ms : List (Bytes × JsonOf N)}
    (h : acc ≠ [] ∨ ms ≠ []) : assembledMembers acc ms ≠ [] := by
  induction ms generalizing acc with
  | nil => simpa [assembledMembers] using h
  | cons m ms ih => exact ih (.inl (objectSet_ne_nil _ _ _))

theorem membersSize_assembledMembers_le {ms : List (Bytes × Json)}
    (h : ∀ m ∈ ms, m.2.assembled.size ≤ m.2.size) (acc : List (Bytes × Json)) :
    membersSize (assembledMembers acc ms) ≤ membersSize acc + membersSize ms := by
  induction ms generalizing acc with
  | nil => simp [assembledMembers]
  | cons m ms ih =>
    have hset := membersSize_objectSet_le m.1 m.2.assembled acc
    have hrest := ih (fun u hu ↦ h u (List.mem_cons_of_mem _ hu)) (objectSet m.1 m.2.assembled acc)
    have hm := h m List.mem_cons_self
    rw [membersSize_cons]
    exact hrest.trans (by omega)

theorem elementsSize_assembledElements_le {vs : List Json}
    (h : ∀ v ∈ vs, v.assembled.size ≤ v.size) :
    elementsSize (assembledElements vs) ≤ elementsSize vs := by
  induction vs with
  | nil => rfl
  | cons v vs ih =>
    have hrest := ih fun u hu ↦ h u (List.mem_cons_of_mem _ hu)
    have hv := h v List.mem_cons_self
    rw [assembledElements, elementsSize_cons, elementsSize_cons]
    omega

/-- Members that are set twice make an assembled value smaller. -/
theorem size_assembled_le (v : Json) : v.assembled.size ≤ v.size := by
  induction v using JsonOf.induct with
  | null | bool | number | string => rfl
  | array vs ih =>
    cases vs with
    | nil => rfl
    | cons v vs =>
      have hle := elementsSize_assembledElements_le ih
      rw [assembled, size_array, size_array, if_neg (by simp [assembledElements]),
        if_neg (List.cons_ne_nil v vs)]
      omega
  | object ms ih =>
    cases ms with
    | nil => rfl
    | cons m ms =>
      have hle := membersSize_assembledMembers_le ih []
      rw [assembled, size_object, size_object,
        if_neg (assembledMembers_ne_nil (.inr (List.cons_ne_nil m ms))),
        if_neg (List.cons_ne_nil m ms)]
      rw [show membersSize [] = 0 from rfl, Nat.zero_add] at hle
      omega

theorem mem_elementTokens {v : Json} {vs : List Json} (hv : v ∈ vs) {t : Token}
    (ht : t ∈ v.tokens) (first : Bool) : t ∈ elementTokens first vs := by
  induction vs generalizing first with
  | nil => cases hv
  | cons u us ih =>
    rw [elementTokens]
    rcases List.mem_cons.1 hv with rfl | hv
    · exact List.mem_append_right _ (List.mem_append_left _ ht)
    · exact List.mem_append_right _ (List.mem_append_right _ (ih hv false))

theorem mem_memberTokens {m : Bytes × Json} {ms : List (Bytes × Json)} (hm : m ∈ ms) {t : Token}
    (ht : t = .string m.1 ∨ t ∈ m.2.tokens) (first : Bool) : t ∈ memberTokens first ms := by
  induction ms generalizing first with
  | nil => cases hm
  | cons u us ih =>
    rw [memberTokens]
    refine List.mem_append_right _ ?_
    rcases List.mem_cons.1 hm with rfl | hm
    · rcases ht with rfl | ht
      · exact List.mem_cons_self
      · exact List.mem_cons_of_mem _ (List.mem_cons_of_mem _ (List.mem_append_left _ ht))
    · exact List.mem_cons_of_mem _ (List.mem_cons_of_mem _ (List.mem_append_right _ (ih hm false)))

theorem Has.mem_tokens {v u : Json} (h : v.Has u) {t : Token} (ht : t ∈ u.tokens) :
    t ∈ v.tokens := by
  induction h with
  | self => exact ht
  | element hv _ ih =>
    exact List.mem_cons_of_mem _ (List.mem_append_left _ (mem_elementTokens hv (ih ht) true))
  | member hv _ ih =>
    exact List.mem_cons_of_mem _
      (List.mem_append_left _ (mem_memberTokens hv (.inr (ih ht)) true))

/-- The texts of a value are among its tokens. -/
theorem HasText.mem_tokens {v : Json} {s : Bytes} (h : v.HasText s) :
    .string s ∈ v.tokens := by
  rcases h with h | ⟨ms, u, h, hs⟩
  · exact h.mem_tokens List.mem_cons_self
  · exact h.mem_tokens
      (List.mem_cons_of_mem _ (List.mem_append_left _ (mem_memberTokens hs (.inl rfl) true)))

mutual

/-- A value written without blanks, and with its texts as they are. -/
def spliced : Json → Bytes
  | .null => ['n', 'u', 'l', 'l']
  | .bool true => ['t', 'r', 'u', 'e']
  | .bool false => ['f', 'a', 'l', 's', 'e']
  | .number q => appendDouble q
  | .string s => quoted s
  | .array vs => '[' :: (splicedElements true vs ++ [']'])
  | .object ms => '\x7b' :: (splicedMembers true ms ++ ['\x7d'])

/-- The elements of an array. -/
def splicedElements (first : Bool) : List Json → Bytes
  | [] => []
  | v :: vs => (if first then [] else [',']) ++ (v.spliced ++ splicedElements false vs)

/-- The members of an object. -/
def splicedMembers (first : Bool) : List (Bytes × Json) → Bytes
  | [] => []
  | (k, v) :: ms =>
    (if first then [] else [',']) ++
      (quoted k ++ ':' :: (v.spliced ++ splicedMembers false ms))

end

/-- A value without numbers has the size of the text it is spliced into. -/
theorem length_spliced {v : Json} (hnum : ∀ q, ¬ v.Has (.number q)) :
    v.spliced.length = v.size := by
  induction v using JsonOf.induct with
  | null => rfl
  | bool b => cases b <;> rfl
  | number q => exact absurd (.self _) (hnum q)
  | string s => simp [spliced, quoted, size, tokens, Token.size]
  | array vs ih =>
    have hbody : ∀ first, (splicedElements first vs).length =
        ((elementTokens first vs).map Token.size).sum := by
      induction vs with
      | nil => intro first; rfl
      | cons v vs ih' =>
        intro first
        have hv := ih v List.mem_cons_self fun q hq ↦ hnum q (.element List.mem_cons_self hq)
        have hvs := ih' (fun u hu ↦ ih u (List.mem_cons_of_mem _ hu)) (fun q hq ↦ by
          cases hq with
          | element hu hq => exact hnum q (.element (List.mem_cons_of_mem _ hu) hq)) false
        rw [splicedElements, elementTokens, List.length_append, List.length_append, hv, hvs, size]
        cases first <;> simp [Token.size]
    simp [spliced, size, tokens, Token.size, hbody]
    omega
  | object ms ih =>
    have hbody : ∀ first, (splicedMembers first ms).length =
        ((memberTokens first ms).map Token.size).sum := by
      induction ms with
      | nil => intro first; rfl
      | cons m ms ih' =>
        intro first
        obtain ⟨k, v⟩ := m
        have hv := ih (k, v) List.mem_cons_self fun q hq ↦
          hnum q (.member (k := k) List.mem_cons_self hq)
        have hms := ih' (fun u hu ↦ ih u (List.mem_cons_of_mem _ hu)) (fun q hq ↦ by
          cases hq with
          | member hu hq => exact hnum q (.member (List.mem_cons_of_mem _ hu) hq)) false
        rw [splicedMembers, memberTokens, List.length_append, List.length_append, List.length_cons,
          List.length_append, hv, hms, size]
        cases first <;> simp [Token.size, quoted] <;> omega
    simp [spliced, size, tokens, Token.size, hbody]
    omega

end JsonOf

/-! ### Reading a spliced document -/

theorem readString_plain {s : Bytes} (hs : IsPlain s) (buf r : Bytes) :
    readString buf (s ++ '\x22' :: r) = .ok (cString (buf ++ s), r) := by
  induction s generalizing buf with
  | nil => simp [readString]
  | cons c s ih =>
    obtain ⟨⟨hquote, hescape⟩, hs⟩ := List.forall_mem_cons.1 hs
    have hstep : readString buf (c :: (s ++ '\x22' :: r)) =
        readString (buf ++ [c]) (s ++ '\x22' :: r) := by
      rw [readString] <;> simp_all
    rw [List.cons_append, hstep, ih hs, List.append_assoc, List.singleton_append]

namespace Lexes

variable {r r' : Bytes} {ts : List Token}

theorem quoted {s : Bytes} (hs : IsPlain s) (hnul : '\x00' ∉ s) (h : Lexes r ts r') :
    Lexes (quoted s ++ r) (.string s :: ts) r' := by
  have hread := readString_plain hs [] r
  have hwhole : s.takeWhile (· ≠ '\x00') = s :=
    List.takeWhile_eq_self_iff.2 fun c hc ↦ decide_eq_true fun heq ↦ hnul (heq ▸ hc)
  rw [List.nil_append, cString, hwhole] at hread
  have hlength : r.length < (PuppetC.quoted s ++ r).length := by
    simp [PuppetC.quoted]
    omega
  refine Lexes.cons ?_ hlength h
  simp only [PuppetC.quoted, List.cons_append, List.append_assoc, List.nil_append]
  change (readString [] (s ++ '\x22' :: r)).map _ = _
  rw [hread]
  rfl

end Lexes

namespace JsonOf

/-- A document of plain texts has the tokens it is meant to have. -/
theorem lexes_spliced {v : Json} (hnum : ∀ q, ¬ v.Has (.number q))
    (htext : ∀ s, v.HasText s → IsPlain s ∧ '\x00' ∉ s) {r r' : Bytes} {ts : List Token}
    (h : Lexes r ts r') : Lexes (v.spliced ++ r) (v.tokens ++ ts) r' := by
  induction v using JsonOf.induct generalizing r ts with
  | null => exact .cons rfl (by simp [spliced]; omega) h
  | bool b => cases b <;> exact .cons rfl (by simp [spliced]; omega) h
  | number q => exact absurd (.self _) (hnum q)
  | string s =>
    obtain ⟨hplain, hnul⟩ := htext s (.inl (.self _))
    exact h.quoted hplain hnul
  | array vs ih =>
    have hbody : ∀ first, Lexes (splicedElements first vs ++ ']' :: r)
        (elementTokens first vs ++ .arrayEnd :: ts) r' := by
      induction vs with
      | nil => exact fun _ ↦ h.punctuation rfl
      | cons v vs ih' =>
        intro first
        have hvs := ih' (fun u hu ↦ ih u (List.mem_cons_of_mem _ hu)) (fun q hq ↦ by
          cases hq with
          | element hu hq => exact hnum q (.element (List.mem_cons_of_mem _ hu) hq))
          (fun s hs ↦ htext s (hasText_array_iff.2 (by
            obtain ⟨u, hu, hs⟩ := hasText_array_iff.1 hs
            exact ⟨u, List.mem_cons_of_mem _ hu, hs⟩))) false
        have hv := ih v List.mem_cons_self
          (fun q hq ↦ hnum q (.element List.mem_cons_self hq))
          (fun s hs ↦ htext s (hasText_array_iff.2 ⟨v, List.mem_cons_self, hs⟩)) hvs
        simp only [splicedElements, elementTokens, List.append_assoc]
        cases first with
        | true => exact hv
        | false => exact hv.punctuation rfl
    have hall := (hbody true).punctuation (c := '[') (t := .arrayStart) rfl
    simpa [spliced, tokens] using hall
  | object ms ih =>
    have hbody : ∀ first, Lexes (splicedMembers first ms ++ '\x7d' :: r)
        (memberTokens first ms ++ .objectEnd :: ts) r' := by
      induction ms with
      | nil => exact fun _ ↦ h.punctuation rfl
      | cons m ms ih' =>
        intro first
        obtain ⟨k, v⟩ := m
        have hms := ih' (fun u hu ↦ ih u (List.mem_cons_of_mem _ hu)) (fun q hq ↦ by
          cases hq with
          | member hu hq => exact hnum q (.member (List.mem_cons_of_mem _ hu) hq))
          (fun s hs ↦ htext s (hasText_object_iff.2 (by
            obtain ⟨u, hu, hs⟩ := hasText_object_iff.1 hs
            exact ⟨u, List.mem_cons_of_mem _ hu, hs⟩))) false
        have hv := ih (k, v) List.mem_cons_self
          (fun q hq ↦ hnum q (.member (k := k) List.mem_cons_self hq))
          (fun s hs ↦ htext s (hasText_object_iff.2 ⟨(k, v), List.mem_cons_self, .inr hs⟩)) hms
        obtain ⟨hplain, hnul⟩ :=
          htext k (hasText_object_iff.2 ⟨(k, v), List.mem_cons_self, .inl rfl⟩)
        have hkey := (hv.punctuation (c := ':') (t := .colon) rfl).quoted hplain hnul
        simp only [splicedMembers, memberTokens, List.append_assoc, List.cons_append]
        cases first with
        | true => exact hkey
        | false => exact hkey.punctuation rfl
    have hall := (hbody true).punctuation (c := '\x7b') (t := .objectStart) rfl
    simpa [spliced, tokens] using hall

/-- A spliced document is read as it was meant exactly if no text in it has a quote or a
backslash. -/
theorem jsonParse_spliced_iff {v : Json} (hdepth : v.depth ≤ jsonMaxDepth) (hkeys : v.DistinctKeys)
    (hnum : ∀ q, ¬ v.Has (.number q)) (hnul : ∀ s, v.HasText s → '\x00' ∉ s) :
    jsonParse v.spliced = .ok v ↔ ∀ s, v.HasText s → IsPlain s := by
  constructor
  · intro h s hs
    obtain ⟨u, r, hlex, hu⟩ := exists_lexes_of_jsonParse h
    have hsize := hlex.size_le
    have hassembled := u.size_assembled_le
    rw [length_spliced hnum] at hsize
    rw [hu] at hassembled
    rw [← hu] at hs
    exact hsize.2 (by change u.size + _ = _; have := hsize.1; change u.size + _ ≤ _ at this; omega)
      _ hs.of_assembled.mem_tokens
  · intro htext
    have hlex := lexes_spliced hnum (fun s hs ↦ ⟨htext s hs, hnul s hs⟩) (.nil [])
    rw [List.append_nil, List.append_nil] at hlex
    rw [jsonParse_of_lexes hlex hdepth, assembled_of_distinctKeys hkeys]

end JsonOf

end PuppetC
