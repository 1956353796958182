import PuppetC.Json.RoundTrip

/-!
# What a text that is read contains

A value that the parser reads from a text is assembled from tokens that the text begins with, so
nothing is read that is not there. A token takes some room in the text: a string takes as many
characters as are read of it and two quotes, or more. A string that takes no more is there as it
is read, without a quote and without a backslash.

## Main definitions

* `IsPlain`: the texts that may stand between quotes as they are.
* `Token.size`: the number of characters that a token takes at least.
* `ReadFrom`: a value is assembled from tokens of a text.

## Main results

* `nextToken_size`, `Lexes.size_le`: tokens take their size in the text, and have plain texts if
  they take no more.
* `exists_lexes_of_jsonParse`: what is read from a text is assembled from its tokens.
-/

namespace PuppetC

/-- A text that may stand between quotes as it is. -/
def IsPlain (s : Bytes) : Prop := ∀ c ∈ s, c ≠ '\x22' ∧ c ≠ '\x5c'

instance (s : Bytes) : Decidable (IsPlain s) := inferInstanceAs (Decidable (∀ c ∈ s, _))

namespace Token

/-- The number of characters that a token takes at least. -/
def size : Token → ℕ
  | .string s => s.length + 2
  | .boolean true => 4
  | .boolean false => 5
  | .null => 4
  | .eof => 0
  | _ => 1

/-- A token whose text, if it has one, is plain. -/
def Plain : Token → Prop
  | .string s => IsPlain s
  | _ => True

end Token

/-! ### The size of tokens -/

theorem length_cString_le (buf : Bytes) : (cString buf).length ≤ buf.length :=
  (List.takeWhile_prefix _).length_le

/-- What is read of a string is not longer than its text, and is its text if it is as long. -/
theorem readString_size {buf r s r' : Bytes} (h : readString buf r = .ok (s, r')) :
    s.length + 1 + r'.length ≤ buf.length + r.length ∧
      (s.length + 1 + r'.length = buf.length + r.length →
        ∃ t, s = buf ++ t ∧ r = t ++ '\x22' :: r' ∧ IsPlain t) := by
  induction buf, r using readString.induct with
  | case1 | case3 => simp [readString] at h
  | case2 buf r =>
    simp only [readString, Except.ok.injEq, Prod.mk.injEq] at h
    obtain ⟨rfl, rfl⟩ := h
    have hle := length_cString_le buf
    refine ⟨by rw [List.length_cons]; omega, fun heq ↦ ⟨[], ?_, rfl, by simp [IsPlain]⟩⟩
    rw [List.length_cons] at heq
    rw [List.append_nil]
    exact (List.takeWhile_prefix _).eq_of_length (by change (cString buf).length = _; omega)
  | case4 buf a b c d r ih =>
    rw [readString] at h
    have hle := (ih h).1
    rw [encodeUtf8_of_u] at hle
    simp only [List.length_append, List.length_cons, List.length_nil] at hle ⊢
    exact ⟨by omega, fun heq ↦ by omega⟩
  | case5 buf r hshort ih =>
    rw [readString] at h
    · have hle := (ih h).1
      simp only [List.length_cons] at hle ⊢
      exact ⟨by omega, fun heq ↦ by omega⟩
    · exact hshort
  | case6 buf e r hu₁ hu₂ ih =>
    rw [readString] at h
    · have hle := (ih h).1
      simp only [List.length_append, List.length_cons, List.length_nil] at hle ⊢
      exact ⟨by omega, fun heq ↦ by omega⟩
    all_goals assumption
  | case7 buf c r hquote hend hu₁ hu₂ hescape ih =>
    rw [readString] at h
    · obtain ⟨hle, htight⟩ := ih h
      simp only [List.length_append, List.length_cons, List.length_nil] at hle htight ⊢
      refine ⟨by omega, fun heq ↦ ?_⟩
      obtain ⟨t, rfl, rfl, ht⟩ := htight (by omega)
      refine ⟨c :: t, by simp, rfl, ?_⟩
      have hescape : c ≠ '\x5c' := by
        intro hc
        cases t with
        | nil => exact hescape _ _ hc rfl
        | cons e t => exact hescape _ _ hc rfl
      exact List.forall_mem_cons.2 ⟨⟨hquote, hescape⟩, ht⟩
    all_goals assumption

theorem readSign_append (t : Bytes) : (readSign t).1 ++ (readSign t).2 = t := by
  unfold readSign
  split <;> rfl

theorem readFraction_append (t : Bytes) : (readFraction t).1 ++ (readFraction t).2 = t := by
  unfold readFraction
  split
  · rw [List.cons_append, List.takeWhile_append_dropWhile]
  · rfl

theorem readExponentDigits_append (t : Bytes) :
    (readExponentDigits t).1 ++ (readExponentDigits t).2 = t := by
  unfold readExponentDigits
  split
  · rw [List.cons_append, List.takeWhile_append_dropWhile]
  · rw [List.cons_append, List.takeWhile_append_dropWhile]
  · exact List.takeWhile_append_dropWhile

theorem readExponent_append (t : Bytes) : (readExponent t).1 ++ (readExponent t).2 = t := by
  unfold readExponent
  split
  · rw [List.cons_append, readExponentDigits_append]
  · rw [List.cons_append, readExponentDigits_append]
  · rfl

theorem readNumber_append (t : Bytes) : (readNumber t).1 ++ (readNumber t).2 = t := by
  simp only [readNumber, List.append_assoc]
  rw [readExponent_append, readFraction_append, List.takeWhile_append_dropWhile, readSign_append]

/-- A number takes at least one character. -/
theorem length_readNumber_lt {c : Char} (hc : c.isDigit ∨ c = '-') (r : Bytes) :
    (readNumber (c :: r)).2.length < (c :: r).length := by
  have hne : (readNumber (c :: r)).1 ≠ [] := by
    rcases hc with hc | rfl
    · have hsign : readSign (c :: r) = ([], c :: r) := by
        unfold readSign
        split
        · next heq => cases heq; exact absurd hc (by decide)
        · rfl
      simp [readNumber, hsign, hc]
    · simp [readNumber, readSign]
  have hlen := congrArg List.length (readNumber_append (c :: r))
  rw [List.length_append] at hlen
  have := List.length_pos_iff.2 hne
  omega

theorem length_readKeyword {keyword t r : Bytes} {token token' : Token}
    (h : readKeyword keyword token t = .ok (token', r)) :
    token' = token ∧ keyword.length + r.length = t.length := by
  unfold readKeyword at h
  split_ifs at h with hp
  · simp only [Except.ok.injEq, Prod.mk.injEq] at h
    obtain ⟨rfl, rfl⟩ := h
    have hle := (List.isPrefixOf_iff_prefix.1 hp).length_le
    exact ⟨rfl, by rw [List.length_drop]; omega⟩

/-- A token takes its size in the text, and has a plain text if it takes no more. -/
theorem nextToken_size {r r' : Bytes} {t : Token} (h : nextToken r = .ok (t, r')) :
    t.size + r'.length ≤ r.length ∧ (t.size + r'.length = r.length → t.Plain) := by
  have hblanks := (List.dropWhile_suffix isBlank (l := r)).length_le
  unfold nextToken at h
  cases hr : r.dropWhile isBlank with
  | nil =>
    simp only [hr, Except.ok.injEq, Prod.mk.injEq] at h
    obtain ⟨rfl, rfl⟩ := h
    exact ⟨by simp [Token.size], fun _ ↦ trivial⟩
  | cons c s =>
    rw [hr, List.length_cons] at hblanks
    simp only [hr] at h
    have hone {u : Token} (h : (Except.ok (u, s) : Except String _) = .ok (t, r'))
        (hu : u.size = 1) (hplain : u.Plain) :
        t.size + r'.length ≤ r.length ∧ (t.size + r'.length = r.length → t.Plain) := by
      simp only [Except.ok.injEq, Prod.mk.injEq] at h
      obtain ⟨rfl, rfl⟩ := h
      exact ⟨by omega, fun _ ↦ hplain⟩
    have hkeyword {keyword : Bytes} {u : Token}
        (h : readKeyword keyword u (c :: s) = .ok (t, r')) (hu : u.size = keyword.length)
        (hplain : u.Plain) :
        t.size + r'.length ≤ r.length ∧ (t.size + r'.length = r.length → t.Plain) := by
      obtain ⟨rfl, hlen⟩ := length_readKeyword h
      rw [List.length_cons] at hlen
      exact ⟨by omega, fun _ ↦ hplain⟩
    by_cases hc : c = '\x7b'
    · rw [if_pos hc] at h
      exact hone h rfl trivial
    rw [if_neg hc] at h
    by_cases hc : c = '\x7d'
    · rw [if_pos hc] at h
      exact hone h rfl trivial
    rw [if_neg hc] at h
    by_cases hc : c = '['
    · rw [if_pos hc] at h
      exact hone h rfl trivial
    rw [if_neg hc] at h
    by_cases hc : c = ']'
    · rw [if_pos hc] at h
      exact hone h rfl trivial
    rw [if_neg hc] at h
    by_cases hc : c = ':'
    · rw [if_pos hc] at h
      exact hone h rfl trivial
    rw [if_neg hc] at h
    by_cases hc : c = ','
    · rw [if_pos hc] at h
      exact hone h rfl trivial
    rw [if_neg hc] at h
    by_cases hc : c = '\x22'
    · rw [if_pos hc] at h
      cases hs : readString [] s with
      | error => simp [hs, Except.map] at h
      | ok p =>
        simp only [hs, Except.map, Except.ok.injEq, Prod.mk.injEq] at h
        obtain ⟨rfl, rfl⟩ := h
        obtain ⟨hle, htight⟩ := readString_size hs
        simp only [List.length_nil, Nat.zero_add] at hle htight
        refine ⟨by simp only [Token.size]; omega, fun heq ↦ ?_⟩
        simp only [Token.size] at heq
        obtain ⟨t, ht, -, hplain⟩ := htight (by omega)
        rw [List.nil_append] at ht
        exact ht ▸ hplain
    rw [if_neg hc] at h
    by_cases hc : c = 't'
    · rw [if_pos hc] at h
      exact hkeyword h rfl trivial
    rw [if_neg hc] at h
    by_cases hc : c = 'f'
    · rw [if_pos hc] at h
      exact hkeyword h rfl trivial
    rw [if_neg hc] at h
    by_cases hc : c = 'n'
    · rw [if_pos hc] at h
      exact hkeyword h rfl trivial
    rw [if_neg hc] at h
    by_cases hnumber : (c.isDigit || c = '-') = true
    · rw [if_pos hnumber] at h
      simp only [Except.ok.injEq, Prod.mk.injEq] at h
      obtain ⟨rfl, rfl⟩ := h
      have hlt := length_readNumber_lt (by simpa using hnumber) s
      rw [List.length_cons] at hlt
      exact ⟨by simp only [Token.size]; omega, fun _ ↦ trivial⟩
    · rw [if_neg hnumber] at h
      cases h

namespace Lexes

variable {r r' : Bytes} {ts : List Token}

/-- Tokens take their size in the text, and have plain texts if they take no more. -/
theorem size_le (h : Lexes r ts r') :
    (ts.map Token.size).sum + r'.length ≤ r.length ∧
      ((ts.map Token.size).sum + r'.length = r.length → ∀ t ∈ ts, t.Plain) := by
  induction h with
  | nil => exact ⟨by simp, by simp⟩
  | cons h _ _ ih =>
    have htoken := nextToken_size h
    rw [List.map_cons, List.sum_cons]
    refine ⟨by omega, fun heq ↦ List.forall_mem_cons.2 ⟨htoken.2 ?_, ih.2 ?_⟩⟩
    · omega
    · omega

/-- One more token. -/
theorem of_nextToken {t : Token} {r₁ : Bytes} (h : nextToken r = .ok (t, r₁)) (ht : t ≠ .eof)
    (hs : Lexes r₁ ts r') : Lexes r (t :: ts) r' := by
  have hpos : 0 < t.size := by
    cases t with
    | eof => exact absurd rfl ht
    | boolean b => cases b <;> simp [Token.size]
    | _ => simp [Token.size]
  exact .cons h (by have := (nextToken_size h).1; omega) hs

end Lexes

/-! ### What is read has tokens -/

/-- A value is assembled from another one, whose tokens after the first lead from one text to the
next. -/
def ReadFrom (v : Json) (t : Token) (r r' : Bytes) : Prop :=
  ∃ (u : Json) (ts : List Token), u.tokens = t :: ts ∧ Lexes r ts r' ∧ u.assembled = v

/-- Members after others are read from a text that goes on after their first token. -/
def MembersReadFrom (acc : List (Bytes × Json)) (v : Json) (t : Token) (r r' : Bytes) : Prop :=
  ∃ (m : Bytes × Json) (ms : List (Bytes × Json)) (ts : List Token),
    JsonOf.memberTokens true (m :: ms) ++ [.objectEnd] = t :: ts ∧ Lexes r ts r' ∧
      .object (JsonOf.assembledMembers acc (m :: ms)) = v

/-- Elements after others are read from a text that goes on after their first token. -/
def ElementsReadFrom (acc : List Json) (v : Json) (t : Token) (r r' : Bytes) : Prop :=
  ∃ (u : Json) (us : List Json) (ts : List Token),
    JsonOf.elementTokens true (u :: us) ++ [.arrayEnd] = t :: ts ∧ Lexes r ts r' ∧
      .array (acc ++ JsonOf.assembledElements (u :: us)) = v

theorem bind_eq_ok_iff {ε α β : Type} {x : Except ε α} {f : α → Except ε β} {b : β} :
    x >>= f = .ok b ↔ ∃ a, x = .ok a ∧ f a = .ok b := by
  cases x <;> simp [bind, Except.bind]

theorem orError_eq_ok_iff {α : Type} {message : String} {x : Except String α} {a : α} :
    orError message x = .ok a ↔ x = .ok a := by
  cases x <;> simp [orError, Except.mapError]

theorem elementTokens_false_cons (v : Json) (vs : List Json) :
    JsonOf.elementTokens false (v :: vs) = .comma :: JsonOf.elementTokens true (v :: vs) := by
  simp [JsonOf.elementTokens]

theorem memberTokens_false_cons (m : Bytes × Json) (ms : List (Bytes × Json)) :
    JsonOf.memberTokens false (m :: ms) = .comma :: JsonOf.memberTokens true (m :: ms) := by
  simp [JsonOf.memberTokens]

theorem ne_eof_of_elementTokens {v : Json} {vs : List Json} {t : Token} {ts ts' : List Token}
    (h : JsonOf.elementTokens true (v :: vs) ++ ts' = t :: ts) : t ≠ .eof := by
  rintro rfl
  cases v <;> simp [JsonOf.elementTokens, JsonOf.tokens] at h

theorem ne_eof_of_memberTokens {m : Bytes × Json} {ms : List (Bytes × Json)} {t : Token}
    {ts ts' : List Token} (h : JsonOf.memberTokens true (m :: ms) ++ ts' = t :: ts) :
    t ≠ .eof := by
  rintro rfl
  simp [JsonOf.memberTokens] at h

/-- A token that opens neither an object nor an array is a value by itself. -/
theorem readFrom_leaf {unexpected : String} {fuel depth : ℕ} {t : Token} {r r' : Bytes} {v : Json}
    (hobject : t ≠ .objectStart) (harray : t ≠ .arrayStart)
    (h : parseToken unexpected fuel depth t r = .ok (v, r')) : ReadFrom v t r r' := by
  cases t with
  | null =>
    simp only [parseToken, Except.ok.injEq, Prod.mk.injEq] at h
    exact ⟨.null, [], rfl, h.2 ▸ .nil _, h.1⟩
  | boolean b =>
    simp only [parseToken, Except.ok.injEq, Prod.mk.injEq] at h
    exact ⟨.bool b, [], rfl, h.2 ▸ .nil _, h.1⟩
  | number n =>
    simp only [parseToken, Except.ok.injEq, Prod.mk.injEq] at h
    exact ⟨.number n, [], rfl, h.2 ▸ .nil _, h.1⟩
  | string s =>
    simp only [parseToken, Except.ok.injEq, Prod.mk.injEq] at h
    exact ⟨.string s, [], rfl, h.2 ▸ .nil _, h.1⟩
  | objectStart => exact absurd rfl hobject
  | arrayStart => exact absurd rfl harray
  | objectEnd | arrayEnd | colon | comma | eof => simp [parseToken] at h

section Fuel

variable {fuel : ℕ}
  (htoken : ∀ unexpected depth t r v r', parseToken unexpected fuel depth t r = .ok (v, r') →
    ReadFrom v t r r')
  (hmembers : ∀ depth acc t r v r', parseMembers fuel depth acc t r = .ok (v, r') →
    MembersReadFrom acc v t r r')
  (helements : ∀ depth acc t r v r', parseElements fuel depth acc t r = .ok (v, r') →
    ElementsReadFrom acc v t r r')

include hmembers helements in
theorem readFrom_parseToken {unexpected : String} {depth : ℕ} {t : Token} {r r' : Bytes}
    {v : Json} (h : parseToken unexpected (fuel + 1) depth t r = .ok (v, r')) :
    ReadFrom v t r r' := by
  cases t with
  | objectStart =>
    simp only [parseToken] at h
    split_ifs at h with hdepth
    simp only [bind_eq_ok_iff, Prod.exists] at h
    obtain ⟨t, r₁, ht, h⟩ := h
    split_ifs at h with hend
    · simp only [pure, Except.pure, Except.ok.injEq, Prod.mk.injEq] at h
      obtain ⟨rfl, rfl⟩ := h
      subst hend
      exact ⟨.object [], [.objectEnd], rfl, .of_nextToken ht (by rintro ⟨⟩) (.nil _), rfl⟩
    · obtain ⟨m, ms, ts, htokens, hlex, rfl⟩ := hmembers _ _ _ _ _ _ h
      exact ⟨.object (m :: ms), t :: ts, by rw [JsonOf.tokens, htokens],
        .of_nextToken ht (ne_eof_of_memberTokens htokens) hlex, rfl⟩
  | arrayStart =>
    simp only [parseToken] at h
    split_ifs at h with hdepth
    simp only [bind_eq_ok_iff, Prod.exists] at h
    obtain ⟨t, r₁, ht, h⟩ := h
    split_ifs at h with hend
    · simp only [pure, Except.pure, Except.ok.injEq, Prod.mk.injEq] at h
      obtain ⟨rfl, rfl⟩ := h
      subst hend
      exact ⟨.array [], [.arrayEnd], rfl, .of_nextToken ht (by rintro ⟨⟩) (.nil _), rfl⟩
    · obtain ⟨u, us, ts, htokens, hlex, rfl⟩ := helements _ _ _ _ _ _ h
      exact ⟨.array (u :: us), t :: ts, by rw [JsonOf.tokens, htokens],
        .of_nextToken ht (ne_eof_of_elementTokens htokens) hlex, rfl⟩
  | _ => exact readFrom_leaf (by rintro ⟨⟩) (by rintro ⟨⟩) h

include htoken helements in
theorem readFrom_parseElements {depth : ℕ} {acc : List Json} {t : Token} {r r' : Bytes} {v : Json}
    (h : parseElements (fuel + 1) depth acc t r = .ok (v, r')) :
    ElementsReadFrom acc v t r r' := by
  simp only [parseElements, bind_eq_ok_iff, Prod.exists] at h
  obtain ⟨v₁, r₁, hv, t₂, r₂, ht₂, h⟩ := h
  obtain ⟨u, ts, hu, hlex, rfl⟩ := htoken _ _ _ _ _ _ hv
  split_ifs at h with hend hcomma
  · simp only [pure, Except.pure, Except.ok.injEq, Prod.mk.injEq] at h
    obtain ⟨rfl, rfl⟩ := h
    subst hend
    refine ⟨u, [], ts ++ [.arrayEnd], ?_, hlex.append (.of_nextToken ht₂ (by rintro ⟨⟩) (.nil _)), ?_⟩
    · simp [JsonOf.elementTokens, hu]
    · simp [JsonOf.assembledElements]
  · simp only [bind_eq_ok_iff, Prod.exists] at h
    obtain ⟨t₃, r₃, ht₃, h⟩ := h
    obtain ⟨u', us, ts', htokens, hlex', rfl⟩ := helements _ _ _ _ _ _ h
    have hrest := hlex'.of_nextToken ht₃ (ne_eof_of_elementTokens htokens)
    subst hcomma
    refine ⟨u, u' :: us, ts ++ .comma :: t₃ :: ts', ?_,
      hlex.append (hrest.of_nextToken ht₂ (by rintro ⟨⟩)), ?_⟩
    · rw [JsonOf.elementTokens, elementTokens_false_cons, hu, if_pos rfl, List.nil_append,
        List.append_assoc, List.cons_append, List.cons_append, htokens]
    · simp [JsonOf.assembledElements]
  · simp [throw, throwThe, MonadExceptOf.throw, bind, Except.bind] at h

include htoken hmembers in
theorem readFrom_parseMembers {depth : ℕ} {acc : List (Bytes × Json)} {t : Token} {r r' : Bytes}
    {v : Json} (h : parseMembers (fuel + 1) depth acc t r = .ok (v, r')) :
    MembersReadFrom acc v t r r' := by
  cases t with
  | string k =>
    simp only [parseMembers, bind_eq_ok_iff, Prod.exists, orError_eq_ok_iff] at h
    obtain ⟨t₁, r₁, ht₁, h⟩ := h
    split_ifs at h with hcolon
    · simp only [bind_eq_ok_iff, Prod.exists] at h
      obtain ⟨t₂, r₂, ht₂, v₁, r₃, hv, t₃, r₄, ht₃, h⟩ := h
      obtain ⟨u, ts, hu, hlex, rfl⟩ := htoken _ _ _ _ _ _ hv
      subst hcolon
      have hne : t₂ ≠ .eof := by
        rintro rfl
        cases u <;> simp [JsonOf.tokens] at hu
      have hstart {ts' : List Token} (h : Lexes r₃ ts' r') :
          Lexes r (.colon :: t₂ :: (ts ++ ts')) r' :=
        .of_nextToken ht₁ (by rintro ⟨⟩) (.of_nextToken ht₂ hne (hlex.append h))
      split_ifs at h with hend hcomma
      · simp only [pure, Except.pure, Except.ok.injEq, Prod.mk.injEq] at h
        obtain ⟨rfl, rfl⟩ := h
        subst hend
        refine ⟨(k, u), [], _, ?_, hstart (.of_nextToken ht₃ (by rintro ⟨⟩) (.nil _)), ?_⟩
        · simp [JsonOf.memberTokens, hu]
        · simp [JsonOf.assembledMembers]
      · simp only [bind_eq_ok_iff, Prod.exists] at h
        obtain ⟨t₄, r₅, ht₄, h⟩ := h
        obtain ⟨m, ms, ts', htokens, hlex', rfl⟩ := hmembers _ _ _ _ _ _ h
        have hrest := hlex'.of_nextToken ht₄ (ne_eof_of_memberTokens htokens)
        subst hcomma
        refine ⟨(k, u), m :: ms, _, ?_, hstart (hrest.of_nextToken ht₃ (by rintro ⟨⟩)), ?_⟩
        · rw [JsonOf.memberTokens, memberTokens_false_cons, hu, if_pos rfl, List.nil_append]
          simp only [List.cons_append, List.append_assoc, htokens]
        · simp [JsonOf.assembledMembers]
      · simp [throw, throwThe, MonadExceptOf.throw, bind, Except.bind] at h
    · simp [throw, throwThe, MonadExceptOf.throw, bind, Except.bind] at h
  | _ => simp [parseMembers] at h

end Fuel

theorem readFrom_of_parse (fuel : ℕ) :
    (∀ unexpected depth t r v r', parseToken unexpected fuel depth t r = .ok (v, r') →
      ReadFrom v t r r') ∧
    (∀ depth acc t r v r', parseMembers fuel depth acc t r = .ok (v, r') →
      MembersReadFrom acc v t r r') ∧
    ∀ depth acc t r v r', parseElements fuel depth acc t r = .ok (v, r') →
      ElementsReadFrom acc v t r r' := by
  induction fuel with
  | zero =>
    refine ⟨fun unexpected depth t r v r' h ↦ ?_, fun depth acc t r v r' h ↦ ?_,
      fun depth acc t r v r' h ↦ ?_⟩
    · cases t with
      | objectStart | arrayStart => simp [parseToken] at h
      | _ => exact readFrom_leaf (by rintro ⟨⟩) (by rintro ⟨⟩) h
    · simp [parseMembers] at h
    · simp [parseElements] at h
  | succ fuel ih =>
    obtain ⟨htoken, hmembers, helements⟩ := ih
    exact ⟨fun _ _ _ _ _ _ h ↦ readFrom_parseToken hmembers helements h,
      fun _ _ _ _ _ _ h ↦ readFrom_parseMembers htoken hmembers h,
      fun _ _ _ _ _ _ h ↦ readFrom_parseElements htoken helements h⟩

/-- What is read from a text is assembled from the tokens it begins with. -/
theorem exists_lexes_of_jsonParse {t : Bytes} {v : Json} (h : jsonParse t = .ok v) :
    ∃ (u : Json) (r : Bytes), Lexes t u.tokens r ∧ u.assembled = v := by
  simp only [jsonParse, bind_eq_ok_iff, Prod.exists, pure, Except.pure, Except.ok.injEq] at h
  obtain ⟨t₁, r₁, ht₁, v', r', hv, rfl⟩ := h
  obtain ⟨u, ts, hu, hlex, rfl⟩ := (readFrom_of_parse _).1 _ _ _ _ _ _ hv
  refine ⟨u, r', ?_, rfl⟩
  rw [hu]
  refine .of_nextToken ht₁ ?_ hlex
  rintro rfl
  cases u <;> simp [JsonOf.tokens] at hu

end PuppetC
