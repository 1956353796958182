import PuppetC.Json.Assembly

/-!
# Reading what was written

The text that is written for a value begins with the tokens of the value, but not all texts in
it come back: a control character without an escape of its own is written as `\u` and four
digits, which the reader takes from the `u` on, so that they are no digits, and the text ends
there.

## Main definitions

* `readBack`: a text as it is read after it was written.
* `JsonOf.map`: a value with its texts and numbers changed.
* `Json.InRange`: the values that a C program can hold, where doubles are exact.

## Main results

* `JsonOf.assembled_map_readBack_iff`: when a value is assembled from what is read back of it.
* `lexes_toBuffer`: the tokens of the text of a value.
* `jsonParse_toText_iff`: a value is read as it was written exactly if none of its strings and
  keys has a control character that is written with `\u`.
-/

namespace PuppetC

/-! ### Strings that are read back -/

/-- The control characters that are written with `\u`. -/
def hasUnicodeEscape (c : Char) : Bool :=
  c.toNat < 0x20 && c ≠ '\n' && c ≠ '\r' && c ≠ '\t' && c ≠ '\x08' && c ≠ '\x0c'

/-- The byte that is read for a byte that was written. -/
def byteRead (c : Char) : Char := if hasUnicodeEscape c then '\x00' else c

/-- A string as it is read after it was written. -/
def readBack (s : Bytes) : Bytes := cString (s.map byteRead)

theorem escapeChar_cases (c : Char) :
    (∃ d, escapeChar c = ['\x5c', d] ∧ d ≠ 'u' ∧ unescape d = c ∧ hasUnicodeEscape c = false) ∨
    (∃ x y z w, escapeChar c = ['\x5c', 'u', x, y, z, w] ∧ hasUnicodeEscape c = true) ∨
    (escapeChar c = [c] ∧ c ≠ '\x22' ∧ c ≠ '\x5c' ∧ hasUnicodeEscape c = false) := by
  unfold escapeChar
  split_ifs with h₁ h₂ h₃ h₄ h₅ h₆ h₇ h₈
  · exact .inl ⟨_, rfl, by decide, by rw [h₁]; rfl, by rw [h₁]; rfl⟩
  · exact .inl ⟨_, rfl, by decide, by rw [h₂]; rfl, by rw [h₂]; rfl⟩
  · exact .inl ⟨_, rfl, by decide, by rw [h₃]; rfl, by rw [h₃]; rfl⟩
  · exact .inl ⟨_, rfl, by decide, by rw [h₄]; rfl, by rw [h₄]; rfl⟩
  · exact .inl ⟨_, rfl, by decide, by rw [h₅]; rfl, by rw [h₅]; rfl⟩
  · exact .inl ⟨_, rfl, by decide, by rw [h₆]; rfl, by rw [h₆]; rfl⟩
  · exact .inl ⟨_, rfl, by decide, by rw [h₇]; rfl, by rw [h₇]; rfl⟩
  · exact .inr (.inl ⟨_, _, _, _, rfl, by simp [hasUnicodeEscape, h₃, h₄, h₅, h₆, h₇, h₈]⟩)
  · exact .inr (.inr ⟨rfl, h₁, h₂, by simp [hasUnicodeEscape]; omega⟩)

theorem encodeUtf8_of_u (a b c : Char) :
    encodeUtf8 (strtoul16 0 ['u', a, b, c]) = ['\x00'] := rfl

/-- What is read between the quotes of a string that was written. -/
theorem readString_escaped (s r buf : Bytes) :
    readString buf (s.flatMap escapeChar ++ '\x22' :: r) =
      .ok (cString (buf ++ s.map byteRead), r) := by
  induction s generalizing buf with
  | nil => simp [readString]
  | cons c s ih =>
    rw [List.flatMap_cons, List.append_assoc, List.map_cons]
    rcases escapeChar_cases c with ⟨d, he, hu, hd, hc⟩ | ⟨x, y, z, w, he, hc⟩ | ⟨he, hq, hb, hc⟩
    · have hstep : readString buf ('\x5c' :: d :: (s.flatMap escapeChar ++ '\x22' :: r)) =
          readString (buf ++ [unescape d]) (s.flatMap escapeChar ++ '\x22' :: r) := by
        rw [readString] <;> simp_all
      rw [he, List.cons_append, List.cons_append, List.nil_append, hstep, ih]
      simp [byteRead, hc, hd]
    · have hstep : readString buf
          ('\x5c' :: 'u' :: x :: y :: z :: w :: (s.flatMap escapeChar ++ '\x22' :: r)) =
            readString (buf ++ ['\x00']) (s.flatMap escapeChar ++ '\x22' :: r) := by
        rw [readString, encodeUtf8_of_u]
      simp only [he, List.cons_append, List.nil_append]
      rw [hstep, ih]
      simp [byteRead, hc]
    · have hstep : readString buf (c :: (s.flatMap escapeChar ++ '\x22' :: r)) =
          readString (buf ++ [c]) (s.flatMap escapeChar ++ '\x22' :: r) := by
        rw [readString] <;> simp_all
      rw [he, List.singleton_append, hstep, ih]
      simp [byteRead, hc]

theorem byteRead_of_ne {c : Char} (h : byteRead c ≠ '\x00') : byteRead c = c := by
  unfold byteRead at h ⊢
  split_ifs at h ⊢
  · exact absurd rfl h
  · rfl

/-- A string is read back exactly if each of its bytes is. -/
theorem readBack_eq_self_iff {s : Bytes} :
    readBack s = s ↔ ∀ c ∈ s, byteRead c ≠ '\x00' := by
  constructor
  · intro h c hc
    have hall : (s.map byteRead).takeWhile (· ≠ '\x00') = s.map byteRead := by
      refine (List.takeWhile_prefix _).eq_of_length ?_
      rw [List.length_map]
      exact congrArg List.length h
    simpa using List.takeWhile_eq_self_iff.1 hall (byteRead c) (List.mem_map_of_mem hc)
  · intro h
    have hmap : s.map byteRead = s :=
      (List.map_congr_left fun c hc ↦ byteRead_of_ne (h c hc)).trans (List.map_id s)
    rw [readBack, cString, hmap]
    refine List.takeWhile_eq_self_iff.2 fun c hc ↦ ?_
    have hne := h c hc
    rw [byteRead_of_ne hne] at hne
    simpa using hne

theorem readBack_readBack (s : Bytes) : readBack (readBack s) = readBack s := by
  refine readBack_eq_self_iff.2 fun c hc ↦ ?_
  have hne : c ≠ '\x00' := by simpa using List.mem_takeWhile_imp hc
  obtain ⟨c', -, rfl⟩ := List.mem_map.1 (List.takeWhile_subset _ hc)
  rwa [byteRead_of_ne (c := c') hne]

/-- A string without NUL is read back exactly if none of its bytes is written with `\u`. -/
theorem readBack_eq_self_iff_of_ne {s : Bytes} (hs : ∀ c ∈ s, c ≠ '\x00') :
    readBack s = s ↔ ∀ c ∈ s, hasUnicodeEscape c = false := by
  rw [readBack_eq_self_iff]
  refine forall₂_congr fun c hc ↦ ?_
  cases h : hasUnicodeEscape c <;> simp [byteRead, h, hs c hc]

/-! ### Values that are read back -/

namespace JsonOf

variable {M N : Type} (t t' : Bytes → Bytes) (f f' : M → N)

mutual

/-- A value with its texts and its numbers changed. -/
def map : JsonOf M → JsonOf N
  | .null => .null
  | .bool b => .bool b
  | .number q => .number (f q)
  | .string s => .string (t s)
  | .array vs => .array (mapElements vs)
  | .object ms => .object (mapMembers ms)

/-- The elements of an array. -/
def mapElements : List (JsonOf M) → List (JsonOf N)
  | [] => []
  | v :: vs => v.map :: mapElements vs

/-- The members of an object. -/
def mapMembers : List (Bytes × JsonOf M) → List (Bytes × JsonOf N)
  | [] => []
  | (k, v) :: ms => (t k, v.map) :: mapMembers ms

end

@[simp] theorem mapElements_eq (vs : List (JsonOf M)) :
    mapElements t f vs = vs.map (JsonOf.map t f) := by
  induction vs with
  | nil => rfl
  | cons v vs ih => simp [mapElements, ih]

@[simp] theorem mapMembers_eq (ms : List (Bytes × JsonOf M)) :
    mapMembers t f ms = ms.map fun m ↦ (t m.1, m.2.map t f) := by
  induction ms with
  | nil => rfl
  | cons m ms ih => simp [mapMembers, ih]

@[simp] theorem depth_map (v : JsonOf M) : (v.map t f).depth = v.depth := by
  induction v using JsonOf.induct with
  | null | bool | number | string => rfl
  | array vs ih =>
    rw [map, depth, depth]
    congr 1
    induction vs with
    | nil => rfl
    | cons v vs ih' =>
      rw [mapElements, depthElements, depthElements, ih v List.mem_cons_self,
        ih' fun u hu ↦ ih u (List.mem_cons_of_mem _ hu)]
  | object ms ih =>
    rw [map, depth, depth]
    congr 1
    induction ms with
    | nil => rfl
    | cons m ms ih' =>
      obtain ⟨k, v⟩ := m
      rw [mapMembers, depthMembers, depthMembers, ih (k, v) List.mem_cons_self,
        ih' fun u hu ↦ ih u (List.mem_cons_of_mem _ hu)]

theorem Has.map {v u : JsonOf M} (h : v.Has u) : (v.map t f).Has (u.map t f) := by
  induction h with
  | self => exact .self _
  | element hv _ ih =>
    rw [JsonOf.map, mapElements_eq]
    exact .element (List.mem_map_of_mem hv) ih
  | member hv _ ih =>
    rw [JsonOf.map, mapMembers_eq]
    exact .member (List.mem_map_of_mem hv) ih

/-- What is inside a changed value comes from something inside the value. -/
theorem Has.of_map {v : JsonOf M} {u : JsonOf N} (h : (v.map t f).Has u) :
    ∃ u', v.Has u' ∧ u = u'.map t f := by
  induction v using JsonOf.induct with
  | null | bool | number | string => cases h; exact ⟨_, .self _, rfl⟩
  | array vs ih =>
    rw [JsonOf.map, mapElements_eq] at h
    cases h with
    | self => exact ⟨_, .self _, by simp [JsonOf.map]⟩
    | element hv hu =>
      obtain ⟨w, hw, rfl⟩ := List.mem_map.1 hv
      obtain ⟨u', hu', rfl⟩ := ih w hw hu
      exact ⟨u', .element hw hu', rfl⟩
  | object ms ih =>
    rw [JsonOf.map, mapMembers_eq] at h
    cases h with
    | self => exact ⟨_, .self _, by simp [JsonOf.map]⟩
    | member hv hu =>
      obtain ⟨m, hm, heq⟩ := List.mem_map.1 hv
      cases heq
      obtain ⟨u', hu', rfl⟩ := ih m hm hu
      exact ⟨u', .member (k := m.1) hm hu', rfl⟩

theorem HasText.map {v : JsonOf M} {s : Bytes} (h : v.HasText s) :
    (v.map t f).HasText (t s) := by
  rcases h with h | ⟨ms, u, h, hs⟩
  · exact .inl (h.map t f)
  · refine .inr ⟨_, u.map t f, h.map t f, ?_⟩
    rw [mapMembers_eq]
    exact List.mem_map.2 ⟨_, hs, rfl⟩

theorem HasText.of_map {v : JsonOf M} {s : Bytes} (h : (v.map t f).HasText s) :
    ∃ s', v.HasText s' ∧ s = t s' := by
  rcases h with h | ⟨ms, u, h, hs⟩
  · obtain ⟨w, hw, heq⟩ := h.of_map
    cases w <;> simp only [JsonOf.map] at heq <;> cases heq
    exact ⟨_, .inl hw, rfl⟩
  · obtain ⟨w, hw, heq⟩ := h.of_map
    cases w <;> simp only [JsonOf.map, mapMembers_eq] at heq <;> cases heq
    obtain ⟨m, hm, heq⟩ := List.mem_map.1 hs
    cases heq
    exact ⟨m.1, .inr ⟨_, m.2, hw, hm⟩, rfl⟩

/-- Two changes of a value agree exactly if they agree on the texts and numbers in it. -/
theorem map_eq_map_iff {v : JsonOf M} : v.map t f = v.map t' f' ↔
    (∀ s, v.HasText s → t s = t' s) ∧ ∀ q, v.Has (.number q) → f q = f' q := by
  constructor
  · intro h
    induction v using JsonOf.induct with
    | null | bool =>
      refine ⟨?_, fun q hq ↦ by cases hq⟩
      rintro s (hs | ⟨ms, u, hs, -⟩) <;> cases hs
    | number q =>
      refine ⟨?_, fun q' hq ↦ by cases hq; exact JsonOf.number.inj h⟩
      rintro s (hs | ⟨ms, u, hs, -⟩) <;> cases hs
    | string s =>
      refine ⟨?_, fun q hq ↦ by cases hq⟩
      rintro s' (hs | ⟨ms, u, hs, -⟩) <;> cases hs
      exact JsonOf.string.inj h
    | array vs ih =>
      simp only [map, mapElements_eq, array.injEq] at h
      have hfix : ∀ v ∈ vs, v.map t f = v.map t' f' := List.map_inj_left.1 h
      constructor
      · rintro s (hs | ⟨ms, u, hs, hm⟩)
        · cases hs with
          | element hv hu => exact (ih _ hv (hfix _ hv)).1 s (.inl hu)
        · cases hs with
          | element hv hu => exact (ih _ hv (hfix _ hv)).1 s (.inr ⟨ms, u, hu, hm⟩)
      · intro q hq
        cases hq with
        | element hv hu => exact (ih _ hv (hfix _ hv)).2 q hu
    | object ms ih =>
      simp only [map, mapMembers_eq, object.injEq] at h
      have hfix : ∀ m ∈ ms, (t m.1, m.2.map t f) = (t' m.1, m.2.map t' f') :=
        List.map_inj_left.1 h
      have hvalue : ∀ m ∈ ms, m.2.map t f = m.2.map t' f' :=
        fun m hm ↦ congrArg Prod.snd (hfix m hm)
      constructor
      · rintro s (hs | ⟨ms', u, hs, hm⟩)
        · cases hs with
          | member hv hu => exact (ih _ hv (hvalue _ hv)).1 s (.inl hu)
        · cases hs with
          | self => exact congrArg Prod.fst (hfix _ hm)
          | member hv hu => exact (ih _ hv (hvalue _ hv)).1 s (.inr ⟨ms', u, hu, hm⟩)
      · intro q hq
        cases hq with
        | member hv hu => exact (ih _ hv (hvalue _ hv)).2 q hu
  · rintro ⟨htext, hnum⟩
    induction v using JsonOf.induct with
    | null | bool => rfl
    | number q => rw [map, map, hnum q (.self _)]
    | string s => rw [map, map, htext s (.inl (.self _))]
    | array vs ih =>
      simp only [map, mapElements_eq, array.injEq]
      refine List.map_congr_left fun v hv ↦ ih v hv (fun s hs ↦ htext s ?_)
        fun q hq ↦ hnum q (.element hv hq)
      rcases hs with hs | ⟨ms, u, hs, hm⟩
      exacts [.inl (.element hv hs), .inr ⟨ms, u, .element hv hs, hm⟩]
    | object ms ih =>
      simp only [map, mapMembers_eq, object.injEq]
      refine List.map_congr_left fun m hm ↦ ?_
      have hkey : t m.1 = t' m.1 := htext m.1 (.inr ⟨ms, m.2, .self _, hm⟩)
      have hvalue : m.2.map t f = m.2.map t' f' := by
        refine ih m hm (fun s hs ↦ htext s ?_) fun q hq ↦ hnum q (.member (k := m.1) hm hq)
        rcases hs with hs | ⟨ms', u, hs, hm'⟩
        exacts [.inl (.member (k := m.1) hm hs), .inr ⟨ms', u, .member (k := m.1) hm hs, hm'⟩]
      rw [hkey, hvalue]

theorem map_id_id (v : JsonOf M) : v.map id id = v := by
  induction v using JsonOf.induct with
  | null | bool | number | string => rfl
  | array vs ih =>
    rw [map, mapElements_eq, array.injEq]
    exact (List.map_congr_left ih).trans (List.map_id vs)
  | object ms ih =>
    rw [map, mapMembers_eq, object.injEq]
    refine (List.map_congr_left fun m hm ↦ ?_).trans (List.map_id ms)
    rw [ih m hm]
    rfl

/-- Changing numbers does not change keys. -/
theorem distinctKeys_map_id {v : JsonOf M} : (v.map id f).DistinctKeys ↔ v.DistinctKeys := by
  constructor
  · intro h ms hms
    have := h _ (hms.map id f)
    rwa [mapMembers_eq, List.map_map] at this
  · intro h ms hms
    obtain ⟨u, hu, heq⟩ := hms.of_map
    cases u <;> simp only [map, mapMembers_eq] at heq <;> cases heq
    rw [List.map_map]
    exact h _ hu

/-- The value that is assembled from the tokens that are read is the value that was meant exactly
if no object has a key twice and all texts and numbers are read back. -/
theorem assembled_map_readBack_iff {v : JsonOf M} :
    (v.map readBack f).assembled = v.map id f' ↔
      v.DistinctKeys ∧ (∀ s, v.HasText s → readBack s = s) ∧
        ∀ q, v.Has (.number q) → f q = f' q := by
  have hsame (htext : ∀ s, v.HasText s → readBack s = s) : v.map readBack f = v.map id f :=
    (map_eq_map_iff readBack id f f).2 ⟨htext, fun _ _ ↦ rfl⟩
  constructor
  · intro h
    have hkeys : v.DistinctKeys := (distinctKeys_map_id f').1 (h ▸ distinctKeys_assembled _)
    have htext : ∀ s, v.HasText s → readBack s = s := by
      intro s hs
      have hs' := hs.map id f'
      rw [← h] at hs'
      obtain ⟨s', -, heq⟩ := hs'.of_assembled.of_map
      rw [show s = readBack s' from heq, readBack_readBack]
    rw [hsame htext, assembled_of_distinctKeys ((distinctKeys_map_id f).2 hkeys),
      map_eq_map_iff] at h
    exact ⟨hkeys, htext, h.2⟩
  · rintro ⟨hkeys, htext, hnum⟩
    rw [hsame htext, assembled_of_distinctKeys ((distinctKeys_map_id f).2 hkeys), map_eq_map_iff]
    exact ⟨fun _ _ ↦ rfl, hnum⟩

end JsonOf

/-! ### The tokens of what was written -/

/-- A text does not go on with what could belong to a number. -/
def Ends (r : Bytes) : Prop := ∀ c ∈ r.head?, ¬ c.isDigit ∧ c ≠ '.' ∧ c ≠ 'e' ∧ c ≠ 'E'

theorem ends_cons {c : Char} {r : Bytes}
    (h : ¬ c.isDigit ∧ c ≠ '.' ∧ c ≠ 'e' ∧ c ≠ 'E') : Ends (c :: r) := by
  intro c' hc'
  cases hc'
  exact h

theorem readExponent_text {e : Option (Bool × Bytes)} (he : ∀ x ∈ e, ∀ c ∈ x.2, c.isDigit)
    {r : Bytes} (hr : Ends r) :
    readExponent (Numeral.exponentText e ++ r) = (Numeral.exponentText e, r) := by
  cases e with
  | none =>
    cases r with
    | nil => rfl
    | cons c r =>
      obtain ⟨-, -, hce, hcE⟩ := hr c rfl
      rw [Numeral.exponentText, List.nil_append]
      unfold readExponent
      split <;> simp_all
  | some y =>
    obtain ⟨neg, ds⟩ := y
    obtain ⟨htake, hdrop⟩ := span_digits (he _ rfl) fun c hc ↦ (hr c hc).1
    cases neg <;> simp [Numeral.exponentText, readExponent, readExponentDigits, htake, hdrop]

/-- A numeral is read as far as it goes. -/
theorem readNumber_text (x : Numeral) {r : Bytes} (hr : Ends r) :
    readNumber (x.text ++ r) = (x.text, r) := by
  have hexp := readExponent_text x.exponent_digits hr
  have hdigit : ∀ c ∈ (Numeral.exponentText x.exponent ++ r).head?, ¬ c.isDigit ∧ c ≠ '.' := by
    intro c hc
    cases he : x.exponent with
    | none => exact ⟨(hr c (by simpa [he, Numeral.exponentText] using hc)).1,
        (hr c (by simpa [he, Numeral.exponentText] using hc)).2.1⟩
    | some y =>
      obtain rfl : 'e' = c := by simpa [he, Numeral.exponentText] using hc
      decide
  have hfrac : readFraction (Numeral.fracText x.frac ++ (Numeral.exponentText x.exponent ++ r)) =
      (Numeral.fracText x.frac, Numeral.exponentText x.exponent ++ r) := by
    obtain ⟨htake, hdrop⟩ := span_digits x.frac_digits fun c hc ↦ (hdigit c hc).1
    cases hf : x.frac with
    | nil =>
      rw [Numeral.fracText, List.nil_append]
      unfold readFraction
      split
      · next t ht =>
        rw [ht] at hdigit
        exact absurd rfl (hdigit '.' rfl).2
      · rfl
    | cons d ds =>
      rw [hf] at htake hdrop
      simp only [Numeral.fracText, List.cons_append] at htake hdrop ⊢
      rw [readFraction, htake, hdrop]
  have hrest : ∀ c ∈ (Numeral.fracText x.frac ++ (Numeral.exponentText x.exponent ++ r)).head?,
      ¬ c.isDigit := by
    intro c hc
    cases hf : x.frac with
    | nil => exact (hdigit c (by simpa [hf, Numeral.fracText] using hc)).1
    | cons d ds =>
      obtain rfl : '.' = c := by simpa [hf, Numeral.fracText] using hc
      decide
  obtain ⟨hint, hdrop⟩ := span_digits x.int_digits hrest
  have hsign : readSign (x.text ++ r) =
      (if x.negative then ['-'] else [], x.unsignedText ++ r) := by
    unfold Numeral.text
    cases x.negative with
    | true => rfl
    | false =>
      obtain ⟨c, cs, hc⟩ := List.exists_cons_of_ne_nil x.int_ne_nil
      have hne : c ≠ '-' := by
        rintro rfl
        exact absurd (x.int_digits '-' (by simp [hc])) (by decide)
      simp only [Bool.false_eq_true, if_false, Numeral.unsignedText, hc, List.cons_append]
      unfold readSign
      split
      · next h => exact absurd (List.cons.inj h).1 hne
      · rfl
  have htext : x.text = (if x.negative then ['-'] else []) ++ x.unsignedText := by
    unfold Numeral.text
    cases x.negative <;> rfl
  rw [readNumber, hsign]
  simp only [Numeral.unsignedText, List.append_assoc] at htext ⊢
  rw [hint, hdrop, hfrac]
  dsimp only
  rw [hexp, htext]

namespace Lexes

variable {r r' : Bytes} {t : Token} {ts : List Token}

/-- Blanks in front of a token do not matter. -/
theorem blank {c : Char} (hc : isBlank c = true) (h : Lexes r (t :: ts) r') :
    Lexes (c :: r) (t :: ts) r' := by
  cases h with
  | cons h hlt hs =>
    have hskip : nextToken (c :: r) = nextToken r := by
      simp only [nextToken, List.dropWhile_cons, hc, if_true]
    exact .cons (hskip.trans h) (by rw [List.length_cons]; omega) hs

theorem blanks {b : Bytes} (hb : ∀ c ∈ b, isBlank c = true) (h : Lexes r (t :: ts) r') :
    Lexes (b ++ r) (t :: ts) r' := by
  induction b with
  | nil => exact h
  | cons c b ih =>
    exact (ih fun c hc ↦ hb c (List.mem_cons_of_mem _ hc)).blank (hb c List.mem_cons_self)

theorem indent (level : ℕ) (h : Lexes r (t :: ts) r') :
    Lexes (indentation level ++ r) (t :: ts) r' :=
  h.blanks fun c hc ↦ by rw [(List.mem_replicate.1 hc).2]; rfl

/-- A token of one character. -/
theorem punctuation {c : Char} (hc : nextToken (c :: r) = .ok (t, r)) (h : Lexes r ts r') :
    Lexes (c :: r) (t :: ts) r' :=
  .cons hc (by simp) h

theorem string (s : Bytes) (h : Lexes r ts r') :
    Lexes (appendString s ++ r) (.string (readBack s) :: ts) r' := by
  have hread := readString_escaped s r []
  refine @Lexes.cons _ r _ _ _ ?_ (by simp [appendString]; omega) h
  simp only [appendString, List.cons_append, List.append_assoc, List.nil_append]
    at hread ⊢
  change (readString [] (s.flatMap escapeChar ++ '\x22' :: r)).map _ = _
  rw [hread]
  rfl

theorem number (x : Numeral) (hr : Ends r) (h : Lexes r ts r') :
    Lexes (x.text ++ r) (.number (strtod x.text) :: ts) r' := by
  have hread := readNumber_text x hr
  obtain ⟨c, cs, htext, hc⟩ : ∃ c cs, x.text = c :: cs ∧ (c.isDigit = true ∨ c = '-') := by
    obtain ⟨c, cs, hc⟩ := List.exists_cons_of_ne_nil x.int_ne_nil
    unfold Numeral.text
    cases x.negative with
    | true => exact ⟨'-', _, rfl, .inr rfl⟩
    | false =>
      refine ⟨c, cs ++ (Numeral.fracText x.frac ++ Numeral.exponentText x.exponent), ?_,
        .inl (x.int_digits c (by simp [hc]))⟩
      simp [Numeral.unsignedText, hc]
  have hlt : r.length < (x.text ++ r).length := by
    rw [htext, List.length_append, List.length_cons]
    omega
  refine .cons ?_ hlt h
  have hne : ∀ d : Char, d.isDigit = false → d ≠ '-' → c ≠ d := by
    rintro d hd hminus rfl
    rcases hc with hc | hc
    · simp [hd] at hc
    · exact hminus hc
  have hblank : isBlank c = false := by
    simp [isBlank, hne ' ' rfl (by decide), hne '\t' rfl (by decide), hne '\r' rfl (by decide),
      hne '\n' rfl (by decide)]
  have hnumber : (c.isDigit || c == '-') = true := by simpa using hc
  rw [htext, List.cons_append] at hread ⊢
  unfold nextToken
  rw [List.dropWhile_cons_of_neg (by simp [hblank])]
  simp only [hne '\x7b' rfl (by decide), hne '\x7d' rfl (by decide), hne '[' rfl (by decide),
    hne ']' rfl (by decide), hne ':' rfl (by decide), hne ',' rfl (by decide),
    hne '\x22' rfl (by decide), hne 't' rfl (by decide), hne 'f' rfl (by decide),
    hne 'n' rfl (by decide), if_false, hread]
  rw [if_pos (by simpa using hc)]

end Lexes

/-- A number is written as a numeral. -/
def WritesNumeral (q : ℚ) : Prop := ∃ x : Numeral, x.text = appendDouble q

/-- The number that is read where a number was written. -/
def doubleRead (q : ℚ) : ℚ := strtod (appendDouble q)

theorem ends_elementsToBuffer {indent : ℕ} {vs : List Json} {r : Bytes} (hr : Ends r) :
    Ends (Json.elementsToBuffer indent false vs ++ r) := by
  cases vs with
  | nil => exact hr
  | cons v vs => exact ends_cons (by decide)

theorem ends_membersToBuffer {indent : ℕ} {ms : List (Bytes × Json)} {r : Bytes} (hr : Ends r) :
    Ends (Json.membersToBuffer indent false ms ++ r) := by
  cases ms with
  | nil => exact hr
  | cons m ms => exact ends_cons (by decide)

theorem JsonOf.exists_elementTokens_eq (v : Json) (vs : List Json) :
    ∃ t ts, elementTokens true (v :: vs) = t :: ts := by
  obtain ⟨t, ts, h, -⟩ := v.exists_tokens_eq
  exact ⟨t, ts ++ elementTokens false vs, by simp [elementTokens, h]⟩

/-- The text of `v` begins with the tokens of `v` as it is read back. -/
def Json.LexesBack (v : Json) : Prop :=
  ∀ (indent : ℕ) (r r' : Bytes) (ts : List Token), (∀ q, v.Has (.number q) → WritesNumeral q) →
    Ends r → Lexes r ts r' →
      Lexes (v.toBuffer indent ++ r) ((v.map readBack doubleRead).tokens ++ ts) r'

theorem lexes_elementsToBuffer {vs : List Json} (hvs : ∀ v ∈ vs, v.LexesBack) (indent : ℕ)
    (first : Bool) {r r' : Bytes} {ts : List Token}
    (hnum : ∀ v ∈ vs, ∀ q, v.Has (.number q) → WritesNumeral q) (hr : Ends r)
    (h : Lexes r ts r') :
    Lexes (Json.elementsToBuffer indent first vs ++ r)
      (JsonOf.elementTokens first (JsonOf.mapElements readBack doubleRead vs) ++ ts) r' := by
  induction vs generalizing first with
  | nil => exact h
  | cons v vs ih =>
    have hrest := ih (fun u hu ↦ hvs u (List.mem_cons_of_mem _ hu)) false
      fun u hu ↦ hnum u (List.mem_cons_of_mem _ hu)
    have hv := hvs v List.mem_cons_self indent _ r' _ (hnum v List.mem_cons_self)
      (ends_elementsToBuffer hr) hrest
    obtain ⟨t₀, ts₀, htok, -⟩ := (v.map readBack doubleRead).exists_tokens_eq
    simp only [Json.elementsToBuffer, JsonOf.mapElements, JsonOf.elementTokens, List.append_assoc]
    rw [htok] at hv ⊢
    cases first with
    | true => exact hv.indent indent
    | false => exact ((hv.indent indent).blank rfl).punctuation rfl

theorem lexes_membersToBuffer {ms : List (Bytes × Json)} (hms : ∀ m ∈ ms, m.2.LexesBack)
    (indent : ℕ) (first : Bool) {r r' : Bytes} {ts : List Token}
    (hnum : ∀ m ∈ ms, ∀ q, m.2.Has (.number q) → WritesNumeral q) (hr : Ends r)
    (h : Lexes r ts r') :
    Lexes (Json.membersToBuffer indent first ms ++ r)
      (JsonOf.memberTokens first (JsonOf.mapMembers readBack doubleRead ms) ++ ts) r' := by
  induction ms generalizing first with
  | nil => exact h
  | cons m ms ih =>
    obtain ⟨k, v⟩ := m
    have hrest := ih (fun u hu ↦ hms u (List.mem_cons_of_mem _ hu)) false
      fun u hu ↦ hnum u (List.mem_cons_of_mem _ hu)
    have hv := hms (k, v) List.mem_cons_self indent _ r' _ (hnum (k, v) List.mem_cons_self)
      (ends_membersToBuffer hr) hrest
    obtain ⟨t₀, ts₀, htok, -⟩ := (v.map readBack doubleRead).exists_tokens_eq
    simp only [Json.membersToBuffer, JsonOf.mapMembers, JsonOf.memberTokens, List.append_assoc,
      List.cons_append, List.nil_append]
    rw [htok] at hv ⊢
    have hkey := ((hv.blank (c := ' ') rfl).punctuation (c := ':') rfl).string k
    cases first with
    | true => exact hkey.indent indent
    | false => exact ((hkey.indent indent).blank rfl).punctuation rfl

/-- The tokens of the text of a value. -/
theorem lexes_toBuffer (v : Json) : v.LexesBack := by
  induction v using JsonOf.induct with
  | null | string =>
    intro indent r r' ts _ _ h
    first | exact h.string _ | exact .cons rfl (by simp [Json.toBuffer]; omega) h
  | bool b =>
    intro indent r r' ts _ _ h
    cases b <;> exact .cons rfl (by simp [Json.toBuffer]; omega) h
  | number q =>
    intro indent r r' ts hnum hr h
    obtain ⟨x, hx⟩ := hnum q (.self _)
    simp only [Json.toBuffer, JsonOf.map, JsonOf.tokens, doubleRead]
    rw [← hx]
    exact h.number x hr
  | array vs ih =>
    intro indent r r' ts hnum hr h
    cases vs with
    | nil => exact (h.punctuation (c := ']') rfl).punctuation rfl
    | cons v vs =>
      have hend := ((h.punctuation (c := ']') rfl).indent indent).blank (c := '\n') rfl
      have hbody := lexes_elementsToBuffer ih (indent + 1) true
        (fun u hu q hq ↦ hnum q (.element hu hq)) (ends_cons (by decide)) hend
      obtain ⟨t₀, ts₀, htok⟩ := JsonOf.exists_elementTokens_eq (v.map readBack doubleRead)
        (JsonOf.mapElements readBack doubleRead vs)
      rw [JsonOf.mapElements, htok] at hbody
      have hall := (hbody.blank (c := '\n') rfl).punctuation (c := '[') (t := .arrayStart) rfl
      simpa only [Json.toBuffer, JsonOf.map, JsonOf.tokens, JsonOf.mapElements, htok,
        List.isEmpty_cons, Bool.false_eq_true, if_false, List.append_eq, List.cons_append,
        List.append_assoc, List.nil_append] using hall
  | object ms ih =>
    intro indent r r' ts hnum hr h
    cases ms with
    | nil => exact (h.punctuation (c := '\x7d') rfl).punctuation rfl
    | cons m ms =>
      have hend := ((h.punctuation (c := '\x7d') rfl).indent indent).blank (c := '\n') rfl
      have hbody := lexes_membersToBuffer ih (indent + 1) true
        (fun u hu q hq ↦ hnum q (.member (k := u.1) hu hq)) (ends_cons (by decide)) hend
      obtain ⟨k, v⟩ := m
      have hall := (hbody.blank (c := '\n') rfl).punctuation (c := '\x7b') (t := .objectStart) rfl
      simpa only [Json.toBuffer, JsonOf.map, JsonOf.tokens, JsonOf.mapMembers, JsonOf.memberTokens,
        List.isEmpty_cons, Bool.false_eq_true, if_false, if_true, List.append_eq, List.cons_append,
        List.append_assoc, List.nil_append] using hall

/-- The text of a value is read as the value with its texts and numbers as they are read back,
assembled. -/
theorem jsonParse_toText {v : Json} (hdepth : v.depth ≤ jsonMaxDepth)
    (hnum : ∀ q, v.Has (.number q) → WritesNumeral q) :
    jsonParse v.toText = .ok (v.map readBack doubleRead).assembled := by
  have hlex := lexes_toBuffer v 0 [] [] [] hnum (by simp [Ends]) (.nil [])
  rw [List.append_nil, List.append_nil] at hlex
  exact jsonParse_of_lexes hlex (by rwa [JsonOf.depth_map])

/-! ### The round trip -/

/-- The values that a C program can hold in the range where doubles are exact: no text has a
NUL, and numbers are integers up to `2 ^ 53`. -/
structure Json.InRange (v : Json) : Prop where
  bytes : ∀ s, v.HasText s → ∀ c ∈ s, 1 ≤ c.toNat ∧ c.toNat ≤ 255
  numbers : ∀ q, v.Has (.number q) → ∃ n : ℤ, |n| ≤ 2 ^ 53 ∧ q = n

theorem appendDouble_intCast {n : ℤ} (hn : |n| ≤ 2 ^ 53) : appendDouble n = formatLong n := by
  have hlt : |(n : ℚ)| < 2 ^ 63 := by
    have : |n| < 2 ^ 63 := by omega
    exact_mod_cast this
  rw [appendDouble, truncate_intCast, if_pos ⟨rfl, hlt⟩]

theorem Json.InRange.ne_nul {v : Json} (hv : v.InRange) {s : Bytes} (hs : v.HasText s) :
    ∀ c ∈ s, c ≠ '\x00' := by
  rintro c hc rfl
  exact absurd (hv.bytes s hs _ hc).1 (by decide)

/-- A value with at most 200 nested arrays and objects and without double keys is read as it was
written exactly if no string or key in it has a control character that is written with `\u`. -/
theorem jsonParse_toText_iff (v : Json) (hdepth : v.depth ≤ 200) (hkeys : v.DistinctKeys)
    (hrange : v.InRange) : jsonParse v.toText = .ok v ↔
      ∀ s, v.HasText s → ∀ c ∈ s, hasUnicodeEscape c = false := by
  have hnum : ∀ q, v.Has (.number q) → WritesNumeral q ∧ doubleRead q = q := by
    intro q hq
    obtain ⟨n, hn, rfl⟩ := hrange.numbers q hq
    have hwrite := appendDouble_intCast hn
    exact ⟨⟨.ofInt n, (Numeral.text_ofInt n).trans hwrite.symm⟩,
      by rw [doubleRead, hwrite, strtod_formatLong hn]⟩
  have hread := JsonOf.assembled_map_readBack_iff doubleRead id (v := v)
  rw [JsonOf.map_id_id] at hread
  rw [jsonParse_toText hdepth fun q hq ↦ (hnum q hq).1, Except.ok.injEq, hread]
  constructor
  · rintro ⟨-, htext, -⟩ s hs
    exact (readBack_eq_self_iff_of_ne (hrange.ne_nul hs)).1 (htext s hs)
  · intro htext
    exact ⟨hkeys, fun s hs ↦ (readBack_eq_self_iff_of_ne (hrange.ne_nul hs)).2 (htext s hs),
      fun q hq ↦ (hnum q hq).2⟩

/-- An object with a number and a text, which is read as it was written. -/
theorem jsonParse_toText_iff_object :
    jsonParse (Json.toText (.object [(['a'], .number 5), (['b'], .string ['x', '\n'])])) =
      .ok (.object [(['a'], .number 5), (['b'], .string ['x', '\n'])]) := by
  have htexts : ∀ s,
      (JsonOf.object [(['a'], .number 5), (['b'], .string ['x', '\n'])] : Json).HasText s →
      s = ['a'] ∨ s = ['b'] ∨ s = ['x', '\n'] := by
    rintro s (h | ⟨ms, u, h, hm⟩)
    · cases h with
      | member hv hu =>
        rcases List.mem_cons.1 hv with heq | hv
        · cases heq; cases hu
        · rcases List.mem_singleton.1 hv with heq
          cases heq; cases hu; simp
    · cases h with
      | self => rcases (by simpa using hm) with h | h <;> simp [h]
      | member hv hu =>
        rcases List.mem_cons.1 hv with heq | hv
        · cases heq; cases hu
        · rcases List.mem_singleton.1 hv with heq
          cases heq; cases hu
  refine (jsonParse_toText_iff _ (by decide) ?_ ⟨?_, ?_⟩).2 ?_
  · intro ms h
    cases h with
    | self => decide
    | member hv hu =>
      rcases List.mem_cons.1 hv with heq | hv
      · cases heq; cases hu
      · rcases List.mem_singleton.1 hv with heq
        cases heq; cases hu
  · intro s hs
    rcases htexts s hs with rfl | rfl | rfl <;> simp
  · intro q h
    cases h with
    | member hv hu =>
      rcases List.mem_cons.1 hv with heq | hv
      · cases heq; cases hu; exact ⟨5, by norm_num, rfl⟩
      · rcases List.mem_singleton.1 hv with heq
        cases heq; cases hu
  · intro s hs
    rcases htexts s hs with rfl | rfl | rfl <;> simp [hasUnicodeEscape]

/-- A string with the byte 1 is read as the empty string. -/
theorem jsonParse_toText_control :
    ¬ ∀ v : Json, v.depth ≤ 200 → v.DistinctKeys → v.InRange → jsonParse v.toText = .ok v := by
  intro h
  have htexts : ∀ s, (JsonOf.string ['\x01'] : Json).HasText s → s = ['\x01'] := by
    rintro s (h | ⟨ms, u, h, -⟩) <;> cases h
    rfl
  have hread := h (.string ['\x01']) (by decide) (fun ms hms ↦ by cases hms)
    ⟨fun s hs ↦ by rw [htexts s hs]; simp, fun q hq ↦ by cases hq⟩
  have hempty : jsonParse (Json.toText (.string ['\x01'])) = .ok (.string []) := rfl
  rw [hempty] at hread
  cases hread

end PuppetC
