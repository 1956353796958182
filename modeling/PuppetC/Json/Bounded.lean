import PuppetC.Json.Cursor

/-!
# The JSON parser within its bounds

From any record, a function of the parser leaves the input and the depth as they were and moves on
within the input, however it ends. What it returns or reports is what the parser on the input that
is left reads from there, and its loops end in the rounds they are given.

## Main definitions

* `JsonParser.Bounded`: the positions of a parser are within its input.
* `JsonParser.Advances`: a parser has moved on within its input, at the same depth.
* `JsonParser.Follows`: what a function of the parser does, against what is read from the input
  that is left.

## Main results

* `JsonParser.follows_nextToken`, `JsonParser.follows_parseValue`: the functions of the parser.
* `runJsonParser_eq`: the parser on its record reads what the parser on the input reads.
* `json_reader_bounded`: the parser ends within its bounds on every input.
-/

namespace PuppetC

namespace JsonParser

/-- The positions at which a parser is and has been are within the input. -/
def Bounded (s : JsonParser) : Prop := s.pos ≤ s.length ∧ ∀ p ∈ s.visited, p ≤ s.length

/-- A parser has moved on within its input, at the same depth. -/
structure Advances (s s' : JsonParser) : Prop where
  input : s'.input = s.input
  depth : s'.depth = s.depth
  pos : ∃ k ≤ s.rest.length, s'.pos = s.pos + k
  visited : ∀ p ∈ s'.visited, p ∈ s.visited ∨ p ≤ s'.pos

namespace Advances

variable {s s₁ s₂ : JsonParser}

theorem refl (s : JsonParser) : s.Advances s :=
  ⟨rfl, rfl, ⟨0, Nat.zero_le _, rfl⟩, fun _ ↦ Or.inl⟩

theorem exists_rest (h : s.Advances s₁) :
    ∃ k ≤ s.rest.length, s₁.pos = s.pos + k ∧ s₁.rest = s.rest.drop k := by
  obtain ⟨k, hk, hpos⟩ := h.pos
  exact ⟨k, hk, hpos, by rw [rest, rest, h.input, hpos, List.drop_drop]⟩

theorem length_rest_le (h : s.Advances s₁) : s₁.rest.length ≤ s.rest.length := by
  obtain ⟨k, -, -, hrest⟩ := h.exists_rest
  rw [hrest, List.length_drop]
  omega

theorem trans (h₁ : s.Advances s₁) (h₂ : s₁.Advances s₂) : s.Advances s₂ := by
  obtain ⟨k₁, hk₁, hpos₁, hrest₁⟩ := h₁.exists_rest
  obtain ⟨k₂, hk₂, hpos₂⟩ := h₂.pos
  rw [hrest₁, List.length_drop] at hk₂
  refine ⟨h₂.input.trans h₁.input, h₂.depth.trans h₁.depth, ⟨k₁ + k₂, by omega, by omega⟩,
    fun p hp ↦ ?_⟩
  rcases h₂.visited p hp with hp | hp
  · exact (h₁.visited p hp).imp id fun hle ↦ by omega
  · exact Or.inr hp

/-- A parser that has moved on within its input is still within its bounds. -/
theorem bounded (h : s.Advances s₁) (hs : s.Bounded) : s₁.Bounded := by
  have hlength : s₁.length = s.length := congrArg List.length h.input
  obtain ⟨k, hk, hpos⟩ := h.pos
  have hrest : s.rest.length = s.length - s.pos := List.length_drop
  have hle : s₁.pos ≤ s₁.length := by
    have := hs.1
    omega
  refine ⟨hle, fun p hp ↦ ?_⟩
  rcases h.visited p hp with hp | hp
  · exact hlength ▸ hs.2 p hp
  · omega

end Advances

/-! ### Moves -/

variable {s s' : JsonParser}

@[simp] theorem rest_addColumn (k : ℕ) : (s.addColumn k).rest = s.rest := rfl

@[simp] theorem rest_setError (m : String) : (s.setError m).rest = s.rest := rfl

@[simp] theorem rest_move (k : ℕ) : (s.move k).rest = s.rest.drop k := by
  simp only [rest, move, List.drop_drop]

@[simp] theorem rest_bump (k : ℕ) : (s.bump k).rest = s.rest.drop k := s.rest_move k

theorem peek_eq_head? : s.peek = s.rest.head? := by
  rw [peek, rest, List.head?_drop]

theorem lt_length_iff {k : ℕ} (hs : s.rest ≠ []) : s.pos + k < s.length ↔ k < s.rest.length := by
  have hpos := List.length_pos_iff.2 hs
  have hrest : s.rest.length = s.length - s.pos := List.length_drop
  omega

theorem advances_setError (m : String) : s.Advances (s.setError m) :=
  ⟨rfl, rfl, ⟨0, Nat.zero_le _, rfl⟩, fun _ ↦ Or.inl⟩

theorem advances_addColumn (k : ℕ) : s.Advances (s.addColumn k) :=
  ⟨rfl, rfl, ⟨0, Nat.zero_le _, rfl⟩, fun _ ↦ Or.inl⟩

theorem advances_move {k : ℕ} (hk : k ≤ s.rest.length) : s.Advances (s.move k) := by
  refine ⟨rfl, rfl, ⟨k, hk, rfl⟩, fun p hp ↦ ?_⟩
  rcases List.mem_cons.1 hp with rfl | hp
  · exact Or.inr le_rfl
  · exact Or.inl hp

theorem advances_bump {k : ℕ} (hk : k ≤ s.rest.length) : s.Advances (s.bump k) :=
  (advances_move hk).trans (advances_addColumn k)

/-- A loop that moves on by one for each character of a part of the input moves over this part. -/
theorem advances_foldl {g : JsonParser → Char → JsonParser}
    (hg : ∀ s c, s.rest ≠ [] → s.Advances (g s c) ∧ (g s c).rest = s.rest.drop 1)
    (l : Bytes) (s : JsonParser) (hl : l.length ≤ s.rest.length) :
    s.Advances (l.foldl g s) ∧ (l.foldl g s).rest = s.rest.drop l.length := by
  induction l generalizing s with
  | nil => exact ⟨.refl s, rfl⟩
  | cons c l ih =>
    rw [List.length_cons] at hl
    obtain ⟨hstep, hrest⟩ := hg s c (List.ne_nil_of_length_pos (by omega))
    obtain ⟨hloop, hrest'⟩ := ih (g s c) (by rw [hrest, List.length_drop]; omega)
    refine ⟨hstep.trans hloop, ?_⟩
    rw [List.foldl_cons, hrest', hrest, List.drop_drop, List.length_cons, Nat.add_comm]

theorem drop_length_takeWhile (p : Char → Bool) (l : Bytes) :
    l.drop (l.takeWhile p).length = l.dropWhile p := by
  conv_lhs => arg 2; rw [← List.takeWhile_append_dropWhile (p := p) (l := l)]
  exact List.drop_left

theorem advances_skipWhitespace (s : JsonParser) :
    s.Advances s.skipWhitespace ∧ s.skipWhitespace.rest = s.rest.dropWhile isBlank := by
  rw [← drop_length_takeWhile]
  refine advances_foldl (fun s c hs ↦ ?_) _ s (List.takeWhile_prefix _).length_le
  have hone : 1 ≤ s.rest.length := List.length_pos_iff.2 hs
  unfold skipBlank
  split_ifs with hc
  · obtain ⟨hinput, hdepth, hpos, hvisited⟩ := advances_move hone
    exact ⟨⟨hinput, hdepth, hpos, hvisited⟩, rest_move 1⟩
  · exact ⟨advances_bump hone, rest_bump 1⟩

theorem advances_skipDigits (s : JsonParser) :
    s.Advances s.skipDigits ∧ s.skipDigits.rest = s.rest.dropWhile Char.isDigit := by
  rw [← drop_length_takeWhile]
  exact advances_foldl (fun s _ hs ↦ ⟨advances_move (List.length_pos_iff.2 hs), rest_move 1⟩) _ s
    (List.takeWhile_prefix _).length_le

/-! ### Numbers -/

theorem advances_skipOne (p : Char → Bool) (s : JsonParser) : s.Advances (s.skipOne p) := by
  unfold skipOne
  split_ifs with hp
  · refine advances_move (List.length_pos_iff.2 fun hnil ↦ ?_)
    rw [peek_eq_head?, hnil] at hp
    cases hp
  · exact .refl s

theorem rest_skipOne_sign (s : JsonParser) :
    (s.skipOne (· = '-')).rest = (readSign s.rest).2 := by
  unfold skipOne readSign
  rw [peek_eq_head?]
  cases hrest : s.rest with
  | nil => exact hrest
  | cons c r =>
    by_cases hc : c = '-'
    · subst hc
      rw [List.head?_cons, Option.any_some, if_pos (decide_eq_true rfl), rest_move, hrest]
      rfl
    · rw [List.head?_cons, Option.any_some, if_neg (by simpa using hc), hrest]
      split
      · next h => exact absurd (List.cons.inj h).1 hc
      · rfl

theorem advances_skipFraction (s : JsonParser) :
    s.Advances s.skipFraction ∧ s.skipFraction.rest = (readFraction s.rest).2 := by
  unfold skipFraction readFraction
  rw [peek_eq_head?]
  cases hrest : s.rest with
  | nil => exact ⟨.refl s, hrest⟩
  | cons c r =>
    by_cases hc : c = '.'
    · subst hc
      rw [List.head?_cons, Option.any_some, if_pos (decide_eq_true rfl)]
      obtain ⟨hdigits, hrest'⟩ := (s.move 1).advances_skipDigits
      refine ⟨(advances_move (by simp [hrest])).trans hdigits, ?_⟩
      rw [hrest', rest_move, hrest]
      rfl
    · rw [List.head?_cons, Option.any_some, if_neg (by simpa using hc)]
      refine ⟨.refl s, hrest.trans ?_⟩
      split
      · next h => exact absurd (List.cons.inj h).1 hc
      · rfl

theorem rest_exponentDigits (s : JsonParser) :
    (s.skipOne fun c ↦ c = '+' || c = '-').skipDigits.rest = (readExponentDigits s.rest).2 := by
  rw [(advances_skipDigits _).2]
  unfold skipOne readExponentDigits
  rw [peek_eq_head?]
  cases hrest : s.rest with
  | nil => simp [hrest]
  | cons c r =>
    by_cases hplus : c = '+'
    · subst hplus
      simp [hrest]
    · by_cases hminus : c = '-'
      · subst hminus
        simp [hrest]
      · rw [List.head?_cons, Option.any_some, if_neg (by simp [hplus, hminus]), hrest]
        split
        · next h => exact absurd (List.cons.inj h).1 hplus
        · next h => exact absurd (List.cons.inj h).1 hminus
        · rfl

theorem advances_skipExponent (s : JsonParser) :
    s.Advances s.skipExponent ∧ s.skipExponent.rest = (readExponent s.rest).2 := by
  unfold skipExponent readExponent
  rw [peek_eq_head?]
  cases hrest : s.rest with
  | nil => exact ⟨.refl s, hrest⟩
  | cons c r =>
    by_cases hc : c = 'e' ∨ c = 'E'
    · rw [List.head?_cons, Option.any_some, if_pos (by simpa using hc)]
      refine ⟨((advances_move (by simp [hrest])).trans (advances_skipOne _ _)).trans
        (advances_skipDigits _).1, ?_⟩
      rw [rest_exponentDigits, rest_move, hrest]
      rcases hc with rfl | rfl <;> rfl
    · rw [not_or] at hc
      rw [List.head?_cons, Option.any_some, if_neg (by simp [hc])]
      refine ⟨.refl s, hrest.trans ?_⟩
      split
      · next h => exact absurd (List.cons.inj h).1 hc.1
      · next h => exact absurd (List.cons.inj h).1 hc.2
      · rfl

/-- A number is read within the input, and as it is from the input that is left. -/
theorem advances_readNumber (s : JsonParser) :
    s.Advances s.readNumber.2 ∧
      s.readNumber.1 = .number (strtod (PuppetC.readNumber s.rest).1) ∧
      s.readNumber.2.rest = (PuppetC.readNumber s.rest).2 := by
  obtain ⟨hint, hint'⟩ := (s.skipOne (· = '-')).advances_skipDigits
  obtain ⟨hfrac, hfrac'⟩ := (s.skipOne (· = '-')).skipDigits.advances_skipFraction
  obtain ⟨hexp, hexp'⟩ := (s.skipOne (· = '-')).skipDigits.skipFraction.advances_skipExponent
  set e := (s.skipOne (· = '-')).skipDigits.skipFraction.skipExponent with he
  have hall : s.Advances e := (((advances_skipOne _ s).trans hint).trans hfrac).trans hexp
  have hrest : e.rest = (PuppetC.readNumber s.rest).2 := by
    rw [hexp', hfrac', hint', rest_skipOne_sign]
    rfl
  obtain ⟨k, hk, hpos, hdrop⟩ := hall.exists_rest
  have htext : (PuppetC.readNumber s.rest).1 = s.rest.take k := by
    have happend := readNumber_append s.rest
    rw [← hrest, hdrop] at happend
    exact List.append_cancel_right (happend.trans (List.take_append_drop k s.rest).symm)
  have hlen : e.pos - s.pos = k := by omega
  refine ⟨hall.trans (advances_addColumn _), ?_, hrest⟩
  rw [htext]
  change Token.number (strtod ((e.input.drop s.pos).take (e.pos - s.pos))) = _
  rw [hlen, hall.input]
  rfl

/-! ### Strings and keywords -/

variable {α β : Type}

/-- From a record, a function of the parser has moved on within the input. What it returns or the
message it has set is what reading the input that is left gives, and it ends within its rounds
unless `exhausts`. -/
structure Follows (s : JsonParser) (reading : Except String (α × Bytes)) (exhausts : Prop)
    (r : Except ParserStop α) (s' : JsonParser) : Prop where
  advances : s.Advances s'
  ok : ∀ a, r = .ok a → reading = .ok (a, s'.rest)
  failed : r = .error .failed → ∃ m, s'.errorMessage = some m ∧ reading = .error m
  exhausted : r = .error .exhausted → exhausts

namespace Follows

variable {s s₁ : JsonParser} {reading : Except String (α × Bytes)} {exhausts : Prop} {a : α}

theorem of_ok (h : s.Advances s₁) (hreading : reading = .ok (a, s₁.rest)) :
    s.Follows reading exhausts (.ok a) s₁ :=
  ⟨h, fun _ ha ↦ by cases ha; exact hreading, fun h ↦ (nomatch h), fun h ↦ (nomatch h)⟩

theorem of_setError {m : String} (h : s.Advances s₁) (hreading : reading = .error m) :
    s.Follows reading exhausts (.error .failed) (s₁.setError m) :=
  ⟨h.trans (advances_setError m), fun _ h ↦ (nomatch h), fun _ ↦ ⟨m, rfl, hreading⟩,
    fun h ↦ (nomatch h)⟩

theorem of_exhausted (h : s.Advances s₁) (hexhausts : exhausts) :
    s.Follows reading exhausts (.error .exhausted) s₁ :=
  ⟨h, fun _ h ↦ (nomatch h), fun h ↦ (nomatch h), fun _ ↦ hexhausts⟩

theorem mono {exhausts' : Prop} {r : Except ParserStop α} (h : s.Follows reading exhausts r s₁)
    (hle : exhausts → exhausts') : s.Follows reading exhausts' r s₁ :=
  ⟨h.advances, h.ok, h.failed, fun he ↦ hle (h.exhausted he)⟩

/-- What follows from a record that a parser has moved on to follows from the first one. -/
theorem of_advances {r : Except ParserStop α} {s₂ : JsonParser} (hadv : s.Advances s₁)
    (h : s₁.Follows reading exhausts r s₂) : s.Follows reading exhausts r s₂ :=
  ⟨hadv.trans h.advances, h.ok, h.failed, h.exhausted⟩

/-- One function of the parser after the other. -/
theorem bind {x : JsonParserM α} {f : α → JsonParserM β}
    {next : α × Bytes → Except String (β × Bytes)} {E : Prop}
    (hx : x.Leads s (s.Follows reading E))
    (hf : ∀ a s₁, s.Advances s₁ → reading = .ok (a, s₁.rest) →
      (f a).Leads s₁ (s₁.Follows (next (a, s₁.rest)) exhausts))
    (hE : E → exhausts) : (x >>= f).Leads s (s.Follows (reading >>= next) exhausts) := by
  refine hx.bind (fun a s₁ h ↦ ?_) fun e s₁ h ↦ ?_
  · have hreading := h.ok a rfl
    rw [hreading]
    exact (hf a s₁ h.advances hreading).mono fun _ _ ↦ of_advances h.advances
  · refine ⟨h.advances, fun _ h ↦ (nomatch h), fun he ↦ ?_, fun he ↦ hE (h.exhausted (by
      rw [Except.error.inj he]))⟩
    obtain ⟨m, hm, hreading⟩ := h.failed (by rw [Except.error.inj he])
    exact ⟨m, hm, by rw [hreading]; rfl⟩

end Follows

theorem leads_fail {s s₁ : JsonParser} {reading : Except String (α × Bytes)} {exhausts : Prop}
    {m : String} (h : s.Advances s₁) (hreading : reading = .error m) :
    (fail m : JsonParserM α).Leads s₁ (s.Follows reading exhausts) :=
  Follows.of_setError h hreading

open Stateful

/-- The escape of a string is read within the input, as the loop of the string reads it. -/
theorem leads_readEscape (s : JsonParser) (buf : Bytes) :
    (readEscape buf).Leads s fun r s' ↦ s.Advances s' ∧
      match r with
      | .ok buf' => s'.rest.length < s.rest.length ∧
          PuppetC.readString buf ('\x5c' :: s.rest) = PuppetC.readString buf' s'.rest
      | .error e => e = .failed ∧ ∃ m, s'.errorMessage = some m ∧
          PuppetC.readString buf ('\x5c' :: s.rest) = .error m := by
  unfold readEscape
  rw [leads_get_bind, peek_eq_head?]
  cases hrest : s.rest with
  | nil => exact ⟨advances_setError _, rfl, _, rfl, rfl⟩
  | cons c r =>
    have hne : s.rest ≠ [] := by simp [hrest]
    have hone : 1 ≤ s.rest.length := List.length_pos_iff.2 hne
    have hbump : (s.bump 1).rest = r := by rw [rest_bump, hrest]; rfl
    simp only [List.head?_cons]
    by_cases hu : c = 'u'
    · subst hu
      rw [if_pos rfl]
      have hlt := lt_length_iff (k := 4) hne
      by_cases hlong : s.pos + 4 < s.length
      · rw [if_pos hlong]
        have hlong' := hlt.1 hlong
        rw [hrest, List.length_cons] at hlong'
        match r, hlong' with
        | a :: b :: c :: d :: r, _ =>
          have hmove : ((s.bump 4).bump 1).rest = r := by simp [hrest]
          refine ⟨(advances_bump (by simp [hrest])).trans (advances_bump (by simp [hrest])), ?_, ?_⟩
          · change ((s.bump 4).bump 1).rest.length < _
            rw [hmove]
            simp only [List.length_cons]
            omega
          · change _ = PuppetC.readString (buf ++ encodeUtf8 (strtoul16 0 ['u', a, b, c]))
              ((s.bump 4).bump 1).rest
            rw [hmove]
            rfl
      · rw [if_neg hlong]
        have hshort : ¬ 4 < s.rest.length := fun h ↦ hlong (hlt.2 h)
        rw [hrest, List.length_cons] at hshort
        refine ⟨advances_bump hone, ?_, ?_⟩
        · change (s.bump 1).rest.length < _
          rw [hbump, List.length_cons]
          omega
        · change _ = PuppetC.readString buf (s.bump 1).rest
          rw [hbump]
          match r, hshort with
          | [], _ | [_], _ | [_, _], _ | [_, _, _], _ => rfl
          | _ :: _ :: _ :: _ :: _, h => simp at h
    · rw [if_neg hu]
      refine ⟨advances_bump hone, ?_, ?_⟩
      · change (s.bump 1).rest.length < _
        rw [hbump, List.length_cons]
        omega
      · change _ = PuppetC.readString (buf ++ [unescape c]) (s.bump 1).rest
        rw [hbump]
        rw [PuppetC.readString]
        exacts [fun _ _ _ _ _ h _ ↦ hu h, hu]

/-- The loop of a string ends, within the input. The induction is on its rounds, each of which
moves on. -/
theorem follows_readStringLoop (fuel : ℕ) (s : JsonParser) (buf : Bytes)
    (hfuel : s.rest.length < fuel) :
    (readStringLoop fuel buf).Leads s (s.Follows (PuppetC.readString buf s.rest) False) := by
  induction fuel generalizing s buf with
  | zero => exact absurd hfuel (Nat.not_lt_zero _)
  | succ fuel ih =>
    rw [readStringLoop, leads_get_bind, peek_eq_head?]
    cases hrest : s.rest with
    | nil => exact leads_fail (.refl s) rfl
    | cons c r =>
      have hadv : s.Advances (s.bump 1) := advances_bump (by simp [hrest])
      have hbump : (s.bump 1).rest = r := by rw [rest_bump, hrest]; rfl
      have hlt : r.length < fuel := by
        rw [hrest, List.length_cons] at hfuel
        omega
      simp only [List.head?_cons]
      by_cases hquote : c = '\x22'
      · subst hquote
        rw [if_pos rfl]
        refine Follows.of_ok hadv ?_
        change _ = Except.ok (cString buf, (s.bump 1).rest)
        rw [hbump]
        rfl
      rw [if_neg hquote]
      by_cases hescape : c = '\x5c'
      · subst hescape
        rw [if_pos rfl, leads_modify_bind, ← hbump]
        refine (leads_readEscape _ buf).bind (fun buf' s' h ↦ ?_) fun e s' h ↦ ?_
        · obtain ⟨hmove, hless, hreading⟩ := h
          rw [hreading]
          exact (ih s' buf' (by rw [hbump] at hless; omega)).mono fun _ _ ↦
            Follows.of_advances (hadv.trans hmove)
        · obtain ⟨hmove, rfl, m, hm, hreading⟩ := h
          exact ⟨hadv.trans hmove, fun _ h ↦ (nomatch h), fun _ ↦ ⟨m, hm, hreading⟩,
            fun h ↦ (nomatch h)⟩
      · rw [if_neg hescape, leads_modify_bind]
        have hreading : PuppetC.readString buf (c :: r) =
            PuppetC.readString (buf ++ [c]) (s.bump 1).rest := by
          rw [hbump, PuppetC.readString]
          all_goals simp_all
        rw [hreading]
        exact (ih _ _ (by rwa [hbump])).mono fun _ _ ↦ Follows.of_advances hadv

theorem map_eq_bind {α β : Type} (x : Except String α) (f : α → β) :
    x.map f = x >>= fun a ↦ .ok (f a) := by
  cases x <;> rfl

theorem follows_readString {s : JsonParser} {c : Char} {r : Bytes} (hrest : s.rest = c :: r) :
    readString.Leads s (s.Follows
      ((PuppetC.readString [] r).map fun (v, r) ↦ (Token.string v, r)) False) := by
  have hadv : s.Advances (s.bump 1) := advances_bump (by simp [hrest])
  have hbump : (s.bump 1).rest = r := by rw [rest_bump, hrest]; rfl
  rw [map_eq_bind, ← hbump]
  unfold readString
  rw [leads_modify_bind, leads_get_bind]
  refine (Follows.bind (follows_readStringLoop _ _ _ (Nat.lt_succ_self _))
    (fun v s' _ _ ↦ ?_) id).mono fun _ _ ↦ Follows.of_advances hadv
  exact Follows.of_ok (.refl s') rfl

theorem follows_readKeyword {s : JsonParser} {keyword : Bytes} (token : Token)
    (hne : s.rest ≠ []) (hkeyword : keyword ≠ []) :
    (readKeyword keyword token).Leads s
      (s.Follows (PuppetC.readKeyword keyword token s.rest) False) := by
  unfold readKeyword PuppetC.readKeyword
  rw [leads_get_bind]
  have hprefixes : (s.pos + keyword.length ≤ s.length ∧
      s.rest.take keyword.length = keyword) ↔ keyword.isPrefixOf s.rest = true := by
    rw [List.isPrefixOf_iff_prefix, List.prefix_iff_eq_take, eq_comm (a := keyword),
      and_iff_right_iff_imp]
    intro htake
    have hlen : keyword.length ≤ s.rest.length := by
      rw [← htake, List.length_take]
      exact Nat.min_le_right _ _
    have hpos := List.length_pos_iff.2 hkeyword
    have := (lt_length_iff (k := keyword.length - 1) hne).2 (by omega)
    omega
  by_cases hp : keyword.isPrefixOf s.rest = true
  · rw [if_pos (hprefixes.2 hp), if_pos hp]
    refine Follows.of_ok (advances_bump (List.isPrefixOf_iff_prefix.1 hp).length_le) ?_
    change _ = Except.ok (token, (s.bump keyword.length).rest)
    rw [rest_bump]
  · rw [if_neg (hprefixes.not.2 hp), if_neg hp]
    exact leads_fail (.refl s) rfl

theorem nextToken_eq {t r : Bytes} {c : Char} (h : t.dropWhile isBlank = c :: r) :
    PuppetC.nextToken t =
      match punctuation c with
      | some token => .ok (token, r)
      | none =>
        if c = '\x22' then (PuppetC.readString [] r).map fun (v, r) ↦ (.string v, r)
        else if c = 't' then PuppetC.readKeyword ['t', 'r', 'u', 'e'] (.boolean true) (c :: r)
        else if c = 'f' then
          PuppetC.readKeyword ['f', 'a', 'l', 's', 'e'] (.boolean false) (c :: r)
        else if c = 'n' then PuppetC.readKeyword ['n', 'u', 'l', 'l'] .null (c :: r)
        else if c.isDigit || c = '-' then
          .ok (.number (strtod (PuppetC.readNumber (c :: r)).1), (PuppetC.readNumber (c :: r)).2)
        else .error "Unexpected character" := by
  simp only [PuppetC.nextToken, h, punctuation]
  by_cases h₁ : c = '\x7b'
  · rw [if_pos h₁, if_pos h₁]
  rw [if_neg h₁, if_neg h₁]
  by_cases h₂ : c = '\x7d'
  · rw [if_pos h₂, if_pos h₂]
  rw [if_neg h₂, if_neg h₂]
  by_cases h₃ : c = '['
  · rw [if_pos h₃, if_pos h₃]
  rw [if_neg h₃, if_neg h₃]
  by_cases h₄ : c = ']'
  · rw [if_pos h₄, if_pos h₄]
  rw [if_neg h₄, if_neg h₄]
  by_cases h₅ : c = ':'
  · rw [if_pos h₅, if_pos h₅]
  rw [if_neg h₅, if_neg h₅]
  by_cases h₆ : c = ','
  · rw [if_pos h₆, if_pos h₆]
  rw [if_neg h₆, if_neg h₆]

/-- A token is read within the input, and as it is from the input that is left. -/
theorem follows_nextToken (s : JsonParser) :
    nextToken.Leads s (s.Follows (PuppetC.nextToken s.rest) False) := by
  obtain ⟨hblanks, hblanks'⟩ := s.advances_skipWhitespace
  unfold nextToken
  rw [leads_modify_bind, leads_get_bind, peek_eq_head?]
  set u := s.skipWhitespace with hu
  cases hrest : u.rest with
  | nil =>
    refine Follows.of_ok hblanks ?_
    change _ = Except.ok (Token.eof, u.rest)
    rw [PuppetC.nextToken, ← hblanks', hrest]
  | cons c r =>
    have hne : u.rest ≠ [] := by simp [hrest]
    have hbump : (u.bump 1).rest = r := by rw [rest_bump, hrest]; rfl
    rw [nextToken_eq (hblanks' ▸ hrest)]
    simp only [List.head?_cons]
    cases punctuation c with
    | some token =>
      refine Follows.of_ok (hblanks.trans (advances_bump (by simp [hrest]))) ?_
      change _ = Except.ok (token, (u.bump 1).rest)
      rw [hbump]
    | none =>
      have hkeyword (keyword : Bytes) (token : Token) (hk : keyword ≠ []) :
          (readKeyword keyword token).Leads u
            (s.Follows (PuppetC.readKeyword keyword token (c :: r)) False) :=
        hrest ▸ (follows_readKeyword token hne hk).mono fun _ _ ↦ Follows.of_advances hblanks
      by_cases hquote : c = '\x22'
      · simp only [hquote, if_true]
        exact (follows_readString hrest).mono fun _ _ ↦ Follows.of_advances hblanks
      by_cases ht : c = 't'
      · simp only [if_neg hquote, if_pos ht]
        exact hkeyword _ _ (by simp)
      by_cases hf : c = 'f'
      · simp only [if_neg hquote, if_neg ht, if_pos hf]
        exact hkeyword _ _ (by simp)
      by_cases hn : c = 'n'
      · simp only [if_neg hquote, if_neg ht, if_neg hf, if_pos hn]
        exact hkeyword _ _ (by simp)
      simp only [if_neg hquote, if_neg ht, if_neg hf, if_neg hn]
      by_cases hnumber : (c.isDigit || decide (c = '-')) = true
      · rw [if_pos hnumber, if_pos hnumber, leads_set_bind, ← hrest]
        obtain ⟨hadv, htoken, hrest'⟩ := u.advances_readNumber
        refine Follows.of_ok (hblanks.trans hadv) ?_
        change _ = Except.ok (u.readNumber.1, u.readNumber.2.rest)
        rw [htoken, hrest']
      · rw [if_neg hnumber, if_neg hnumber]
        exact leads_fail hblanks rfl

/-! ### The parser -/

/-- The colon after a key, read from the input that is left. -/
def readColon (r : Bytes) : Except String (Unit × Bytes) :=
  orError "Expected ':' after key" (PuppetC.nextToken r) >>= fun p ↦
    if p.1 = .colon then .ok ((), p.2) else .error "Expected ':' after key"

/-- What follows a value in a container, read from the input that is left. -/
def readContinuation (closing : Token) (message : String) (result : Json)
    (loop : Token → Bytes → Except String (Json × Bytes)) (r : Bytes) :
    Except String (Json × Bytes) :=
  PuppetC.nextToken r >>= fun p ↦
    if p.1 = closing then .ok (result, p.2)
    else if p.1 = .comma then PuppetC.nextToken p.2 >>= fun p ↦ loop p.1 p.2
    else .error message

theorem readContinuation_eq (closing : Token) (message : String) (result : Json)
    (loop : Token → Bytes → Except String (Json × Bytes)) (r : Bytes) :
    (do
      let (t, r) ← PuppetC.nextToken r
      if t = closing then return (result, r)
      unless t = .comma do throw message
      let (t, r) ← PuppetC.nextToken r
      loop t r) = readContinuation closing message result loop r := by
  unfold readContinuation
  simp only [bind, Except.bind]
  cases PuppetC.nextToken r with
  | error => rfl
  | ok p =>
    by_cases hend : p.1 = closing
    · simp only [hend, if_true, pure, Except.pure]
    · by_cases hcomma : p.1 = .comma
      · simp only [hcomma, if_true, pure, Except.pure]
      · simp only [hend, if_false, hcomma, throw, throwThe, MonadExceptOf.throw]

theorem parseMembers_eq (fuel depth : ℕ) (members : List (Bytes × Json)) (key r : Bytes) :
    PuppetC.parseMembers (fuel + 1) depth members (.string key) r =
      readColon r >>= fun p ↦ PuppetC.nextToken p.2 >>= fun p ↦
        parseToken "Unexpected token" fuel depth p.1 p.2 >>= fun p ↦
          readContinuation .objectEnd "Expected ',' or '\x7d' in object"
            (.object (objectSet key p.1 members))
            (PuppetC.parseMembers fuel depth (objectSet key p.1 members)) p.2 := by
  rw [PuppetC.parseMembers, readColon]
  simp only [← readContinuation_eq]
  cases orError "Expected ':' after key" (PuppetC.nextToken r) with
  | error => rfl
  | ok p =>
    simp only [bind, Except.bind]
    by_cases hcolon : p.1 = .colon
    · rw [if_pos hcolon, if_pos hcolon]
    · rw [if_neg hcolon, if_neg hcolon]
      rfl

theorem parseElements_eq (fuel depth : ℕ) (elements : List Json) (t : Token) (r : Bytes) :
    PuppetC.parseElements (fuel + 1) depth elements t r =
      parseToken "Unexpected token in array" fuel depth t r >>= fun p ↦
        readContinuation .arrayEnd "Expected ',' or ']' in array" (.array (elements ++ [p.1]))
          (PuppetC.parseElements fuel depth (elements ++ [p.1])) p.2 := by
  rw [PuppetC.parseElements]
  simp only [← readContinuation_eq]

theorem follows_expectColon (s : JsonParser) :
    expectColon.Leads s (s.Follows (readColon s.rest) False) := by
  unfold expectColon readColon
  refine Follows.bind (E := False) ((follows_nextToken s).onError (fun t s' h ↦ ?_)
    fun e s' h ↦ ?_) (fun t s' _ _ ↦ ?_) id
  · exact Follows.of_ok h.advances (by rw [h.ok t rfl]; rfl)
  · cases e with
    | exhausted => exact (h.exhausted rfl).elim
    | failed =>
      obtain ⟨m, -, hreading⟩ := h.failed rfl
      exact Follows.of_setError h.advances (by rw [hreading]; rfl)
  · by_cases hcolon : t = .colon
    · rw [if_pos hcolon, if_pos hcolon]
      exact Follows.of_ok (.refl s') rfl
    · rw [if_neg hcolon, if_neg hcolon]
      exact leads_fail (.refl s') rfl

theorem length_rest_lt {r r' : Bytes} {t : Token} (h : PuppetC.nextToken r = .ok (t, r'))
    (ht : t ≠ .eof) : r'.length < r.length := by
  have hsize := (nextToken_size h).1
  have hpos : 0 < t.size := by
    cases t with
    | eof => exact absurd rfl ht
    | boolean b => cases b <;> simp [Token.size]
    | string | number | null | colon | comma | objectStart | objectEnd | arrayStart | arrayEnd =>
      simp [Token.size]
  omega

/-- The continuation of a container ends as its loop does, which goes on behind a comma. -/
theorem follows_continueWith {s : JsonParser} {closing : Token} {message : String} {result : Json}
    {loop : Token → JsonParserM Json} {reading : Token → Bytes → Except String (Json × Bytes)}
    {E : Token → ℕ → Prop} {exhausts : Prop}
    (hloop : ∀ t s', s.Advances s' →
      (loop t).Leads s' (s'.Follows (reading t s'.rest) (E t s'.rest.length)))
    (hE : ∀ t n, n < s.rest.length → E t n → exhausts) :
    (continueWith closing message result loop).Leads s
      (s.Follows (readContinuation closing message result reading s.rest) exhausts) := by
  unfold continueWith readContinuation
  refine Follows.bind (follows_nextToken s) (fun t s₁ hs₁ ht ↦ ?_) False.elim
  by_cases hend : t = closing
  · rw [if_pos hend, if_pos hend]
    exact Follows.of_ok (.refl s₁) rfl
  rw [if_neg hend, if_neg hend]
  by_cases hcomma : t = .comma
  · rw [if_pos hcomma, if_pos hcomma]
    have hlt : s₁.rest.length < s.rest.length := length_rest_lt ht (by simp [hcomma])
    refine Follows.bind (follows_nextToken s₁) (fun t s₂ hs₂ _ ↦ ?_) False.elim
    exact (hloop t s₂ (hs₁.trans hs₂)).mono fun _ _ h ↦
      h.mono (hE t _ (lt_of_le_of_lt hs₂.length_rest_le hlt))
  · rw [if_neg hcomma, if_neg hcomma]
    exact leads_fail (.refl s₁) rfl

/-- A container counts the depth up for its body, and down again however this ends. -/
theorem follows_nested {s : JsonParser} {body : JsonParserM Json}
    {reading : Except String (Json × Bytes)} {exhausts : Prop}
    (h : body.Leads { s with depth := s.depth + 1 }
      (Follows { s with depth := s.depth + 1 } reading exhausts)) :
    (nested body).Leads s (s.Follows
      (if jsonMaxDepth ≤ s.depth then .error "Maximum JSON nesting depth exceeded" else reading)
      exhausts) := by
  unfold nested
  rw [leads_get_bind]
  by_cases hmax : jsonMaxDepth ≤ s.depth
  · rw [if_pos hmax, if_pos hmax]
    exact leads_fail (.refl s) rfl
  · rw [if_neg hmax, if_neg hmax, leads_set_bind, leads_andFinally]
    refine h.mono fun r s' h ↦ ⟨⟨h.advances.input, ?_, h.advances.pos, h.advances.visited⟩,
      h.ok, h.failed, h.exhausted⟩
    exact congrArg (· - 1) h.advances.depth

/-- What the parser does in some rounds, at a token: it stops for want of rounds only where there
are not two for each character that is left. -/
structure FollowsIn (fuel : ℕ) : Prop where
  value : ∀ (unexpected : String) (t : Token) (s : JsonParser),
    (parseSwitch unexpected fuel t).Leads s
      (s.Follows (parseToken unexpected fuel s.depth t s.rest)
        (t ≠ .eof ∧ fuel ≤ 2 * s.rest.length + 1))
  members : ∀ (members : List (Bytes × Json)) (t : Token) (s : JsonParser),
    (parseMembers fuel members t).Leads s
      (s.Follows (PuppetC.parseMembers fuel s.depth members t s.rest)
        (t ≠ .eof ∧ fuel ≤ 2 * s.rest.length + 1))
  elements : ∀ (elements : List Json) (t : Token) (s : JsonParser),
    (parseElements fuel elements t).Leads s
      (s.Follows (PuppetC.parseElements fuel s.depth elements t s.rest)
        ((t = .eof → fuel = 0) ∧ fuel ≤ 2 * s.rest.length + 2))

theorem parseToken_eof (unexpected : String) (fuel depth : ℕ) (r : Bytes) :
    parseToken unexpected fuel depth .eof r = .error unexpected := by
  cases fuel <;> rfl

/-- The tokens that are a value by themselves and those that start none need no round. -/
theorem leads_parseSwitch_leaf {unexpected : String} {fuel : ℕ} {t : Token} {s : JsonParser}
    {exhausts : Prop} (hobject : t ≠ .objectStart) (harray : t ≠ .arrayStart) :
    (parseSwitch unexpected fuel t).Leads s
      (s.Follows (parseToken unexpected fuel s.depth t s.rest) exhausts) := by
  cases t with
  | objectStart => exact absurd rfl hobject
  | arrayStart => exact absurd rfl harray
  | null | boolean | number | string => cases fuel <;> exact Follows.of_ok (.refl s) rfl
  | objectEnd | arrayEnd | colon | comma | eof => cases fuel <;> exact leads_fail (.refl s) rfl

theorem follows_objectBody {fuel : ℕ} (ih : FollowsIn fuel) (s : JsonParser) :
    (parseObjectBody (parseMembers fuel [])).Leads s (s.Follows
      (PuppetC.nextToken s.rest >>= fun p ↦
        if p.1 = .objectEnd then .ok (.object [], p.2)
        else PuppetC.parseMembers fuel s.depth [] p.1 p.2)
      (fuel + 1 ≤ 2 * s.rest.length + 1)) := by
  refine Follows.bind (follows_nextToken s) (fun t s₁ hs₁ ht ↦ ?_) False.elim
  by_cases hend : t = .objectEnd
  · rw [if_pos hend, if_pos hend]
    exact Follows.of_ok (.refl s₁) rfl
  · rw [if_neg hend, if_neg hend, ← hs₁.depth]
    refine (ih.members [] t s₁).mono fun _ _ h ↦ h.mono fun ⟨heof, hle⟩ ↦ ?_
    have := length_rest_lt ht heof
    omega

theorem follows_arrayBody {fuel : ℕ} (ih : FollowsIn fuel) (s : JsonParser) :
    (parseArrayBody (parseElements fuel [])).Leads s (s.Follows
      (PuppetC.nextToken s.rest >>= fun p ↦
        if p.1 = .arrayEnd then .ok (.array [], p.2)
        else PuppetC.parseElements fuel s.depth [] p.1 p.2)
      (fuel + 1 ≤ 2 * s.rest.length + 1)) := by
  refine Follows.bind (follows_nextToken s) (fun t s₁ hs₁ ht ↦ ?_) False.elim
  by_cases hend : t = .arrayEnd
  · rw [if_pos hend, if_pos hend]
    exact Follows.of_ok (.refl s₁) rfl
  · rw [if_neg hend, if_neg hend, ← hs₁.depth]
    refine (ih.elements [] t s₁).mono fun _ _ h ↦ h.mono fun ⟨heof, hle⟩ ↦ ?_
    by_cases hteof : t = .eof
    · have := heof hteof
      omega
    · have := length_rest_lt ht hteof
      omega

theorem follows_members {fuel : ℕ} (ih : FollowsIn fuel) (members : List (Bytes × Json))
    (key : Bytes) (s : JsonParser) :
    (parseMembers (fuel + 1) members (.string key)).Leads s
      (s.Follows (PuppetC.parseMembers (fuel + 1) s.depth members (.string key) s.rest)
        (fuel + 1 ≤ 2 * s.rest.length + 1)) := by
  rw [parseMembers, parseMembers_eq]
  refine Follows.bind (follows_expectColon s) (fun _ s₁ hs₁ hcolon ↦ ?_) False.elim
  have hlt : s₁.rest.length < s.rest.length := by
    unfold readColon at hcolon
    cases htoken : PuppetC.nextToken s.rest with
    | error m => simp [htoken, orError, Except.mapError, bind, Except.bind] at hcolon
    | ok p =>
      obtain ⟨t, r⟩ := p
      simp only [htoken, orError, Except.mapError, bind, Except.bind] at hcolon
      split_ifs at hcolon with hc
      simp only [Except.ok.injEq, Prod.mk.injEq, true_and] at hcolon
      exact hcolon ▸ length_rest_lt htoken (by simp [hc])
  refine Follows.bind (follows_nextToken s₁) (fun t s₂ hs₂ _ ↦ ?_) False.elim
  have hle₂ := hs₂.length_rest_le
  have hdepth₂ := (hs₁.trans hs₂).depth
  rw [← hdepth₂]
  refine Follows.bind (ih.value _ t s₂) (fun v s₃ hs₃ _ ↦ ?_) fun hlate ↦ by have hle := hlate.2; omega
  rw [← hs₃.depth]
  have hle₃ := hs₃.length_rest_le
  refine follows_continueWith (fun t s₄ hs₄ ↦ ?_)
    (E := fun t n ↦ t ≠ .eof ∧ fuel ≤ 2 * n + 1) fun _ n hn hlate ↦ by have hle := hlate.2; omega
  exact hs₄.depth ▸ ih.members _ t s₄

theorem follows_elements {fuel : ℕ} (ih : FollowsIn fuel) (elements : List Json) (t : Token)
    (s : JsonParser) :
    (parseElements (fuel + 1) elements t).Leads s
      (s.Follows (PuppetC.parseElements (fuel + 1) s.depth elements t s.rest)
        (t ≠ .eof ∧ fuel + 1 ≤ 2 * s.rest.length + 2)) := by
  rw [parseElements, parseElements_eq]
  refine Follows.bind (ih.value _ t s) (fun v s₁ hs₁ hvalue ↦ ?_)
    fun ⟨heof, hle⟩ ↦ ⟨heof, by omega⟩
  have heof : t ≠ .eof := by
    rintro rfl
    rw [parseToken_eof] at hvalue
    cases hvalue
  have hle₁ := hs₁.length_rest_le
  rw [← hs₁.depth]
  refine follows_continueWith (fun t s₂ hs₂ ↦ ?_)
    (E := fun t n ↦ (t = .eof → fuel = 0) ∧ fuel ≤ 2 * n + 2)
    fun _ n hn ⟨_, hle⟩ ↦ ⟨heof, by omega⟩
  exact hs₂.depth ▸ ih.elements _ t s₂

/-- The parser in any number of rounds, by induction on these. -/
theorem followsIn (fuel : ℕ) : FollowsIn fuel := by
  induction fuel with
  | zero =>
    refine ⟨fun unexpected t s ↦ ?_, fun members t s ↦ ?_, fun elements t s ↦ ?_⟩
    · by_cases hobject : t = .objectStart
      · subst hobject
        exact Follows.of_exhausted (.refl s) ⟨by simp, Nat.zero_le _⟩
      by_cases harray : t = .arrayStart
      · subst harray
        exact Follows.of_exhausted (.refl s) ⟨by simp, Nat.zero_le _⟩
      exact leads_parseSwitch_leaf hobject harray
    · cases t with
      | string => exact Follows.of_exhausted (.refl s) ⟨by simp, Nat.zero_le _⟩
      | objectStart | objectEnd | arrayStart | arrayEnd | number | boolean | null | colon | comma
        | eof => exact leads_fail (.refl s) rfl
    · exact Follows.of_exhausted (.refl s) ⟨fun _ ↦ rfl, Nat.zero_le _⟩
  | succ fuel ih =>
    refine ⟨fun unexpected t s ↦ ?_, fun members t s ↦ ?_, fun elements t s ↦ ?_⟩
    · by_cases hobject : t = .objectStart
      · subst hobject
        exact (follows_nested (follows_objectBody ih _)).mono fun _ _ h ↦
          h.mono fun hle ↦ ⟨by simp, hle⟩
      by_cases harray : t = .arrayStart
      · subst harray
        exact (follows_nested (follows_arrayBody ih _)).mono fun _ _ h ↦
          h.mono fun hle ↦ ⟨by simp, hle⟩
      exact leads_parseSwitch_leaf hobject harray
    · cases t with
      | string key =>
        exact (follows_members ih members key s).mono fun _ _ h ↦
          h.mono fun hle ↦ ⟨by simp, hle⟩
      | objectStart | objectEnd | arrayStart | arrayEnd | number | boolean | null | colon | comma
        | eof => exact leads_fail (.refl s) rfl
    · exact (follows_elements ih elements t s).mono fun _ _ h ↦
        h.mono fun ⟨heof, hle⟩ ↦ ⟨fun ht ↦ absurd ht heof, hle⟩

/-- The parser on a value, which needs two rounds for each character. -/
theorem follows_parseValue (fuel : ℕ) (s : JsonParser) :
    (parseValue fuel).Leads s (s.Follows
      (PuppetC.nextToken s.rest >>= fun p ↦ parseToken "Unexpected token" fuel s.depth p.1 p.2)
      (fuel ≤ 2 * s.rest.length)) := by
  refine Follows.bind (follows_nextToken s) (fun t s₁ hs₁ ht ↦ ?_) False.elim
  rw [← hs₁.depth]
  refine ((followsIn fuel).value _ t s₁).mono fun _ _ h ↦ h.mono fun ⟨heof, hle⟩ ↦ ?_
  have := length_rest_lt ht heof
  omega

end JsonParser

/-! ### How deep what is read is nested -/

/-- A value that is read is not nested deeper than `d`. -/
def NestsWithin (d : ℕ) (x : Except String (Json × Bytes)) : Prop :=
  ∀ v r, x = .ok (v, r) → v.depth ≤ d

namespace NestsWithin

variable {d : ℕ}

theorem of_error {m : String} : NestsWithin d (.error m) := fun _ _ h ↦ nomatch h

theorem of_ok {v : Json} {r : Bytes} (h : v.depth ≤ d) : NestsWithin d (.ok (v, r)) := by
  intro _ _ heq
  cases heq
  exact h

theorem bind {α : Type} {x : Except String α} {f : α → Except String (Json × Bytes)}
    (hf : ∀ a, x = .ok a → NestsWithin d (f a)) : NestsWithin d (x >>= f) := by
  intro v r h
  obtain ⟨a, ha, hfa⟩ := bind_eq_ok_iff.1 h
  exact hf a ha v r hfa

theorem readContinuation {closing : Token} {message : String} {result : Json}
    {loop : Token → Bytes → Except String (Json × Bytes)} {r : Bytes} (hresult : result.depth ≤ d)
    (hloop : ∀ t r, NestsWithin d (loop t r)) :
    NestsWithin d (JsonParser.readContinuation closing message result loop r) := by
  refine .bind fun p _ ↦ ?_
  split_ifs
  · exact of_ok hresult
  · exact .bind fun p _ ↦ hloop _ _
  · exact of_error

end NestsWithin

/-- The parser reads no value that is nested deeper than the containers around it leave. -/
theorem nestsWithin_parse (fuel : ℕ) :
    (∀ u depth t r, NestsWithin (jsonMaxDepth - depth) (parseToken u fuel depth t r)) ∧
    (∀ depth ms t r, (∀ m ∈ ms, m.2.depth ≤ jsonMaxDepth - depth) →
      NestsWithin (jsonMaxDepth - depth + 1) (parseMembers fuel depth ms t r)) ∧
    ∀ depth vs t r, (∀ v ∈ vs, v.depth ≤ jsonMaxDepth - depth) →
      NestsWithin (jsonMaxDepth - depth + 1) (parseElements fuel depth vs t r) := by
  induction fuel with
  | zero =>
    refine ⟨fun u depth t r ↦ ?_, fun depth ms t r _ ↦ ?_, fun depth vs t r _ ↦ .of_error⟩
    · cases t with
      | null | boolean | number | string => exact .of_ok (Nat.zero_le _)
      | objectStart | objectEnd | arrayStart | arrayEnd | colon | comma | eof => exact .of_error
    · cases t <;> exact .of_error
  | succ fuel ih =>
    obtain ⟨hvalue, hmembers, helements⟩ := ih
    refine ⟨fun u depth t r ↦ ?_, fun depth ms t r hms ↦ ?_, fun depth vs t r hvs ↦ ?_⟩
    · cases t with
      | null | boolean | number | string => exact .of_ok (Nat.zero_le _)
      | objectEnd | arrayEnd | colon | comma | eof => exact .of_error
      | objectStart =>
        change NestsWithin _ (if jsonMaxDepth ≤ depth then _ else _ >>= _)
        by_cases hmax : jsonMaxDepth ≤ depth
        · rw [if_pos hmax]
          exact .of_error
        rw [if_neg hmax]
        refine .bind fun p _ ↦ ?_
        have hone : jsonMaxDepth - depth = jsonMaxDepth - (depth + 1) + 1 := by omega
        dsimp only
        split_ifs
        · exact .of_ok (by rw [hone]; simp [JsonOf.depth, JsonOf.depthMembers])
        · rw [hone]
          exact hmembers _ _ _ _ fun _ h ↦ absurd h List.not_mem_nil
      | arrayStart =>
        change NestsWithin _ (if jsonMaxDepth ≤ depth then _ else _ >>= _)
        by_cases hmax : jsonMaxDepth ≤ depth
        · rw [if_pos hmax]
          exact .of_error
        rw [if_neg hmax]
        refine .bind fun p _ ↦ ?_
        have hone : jsonMaxDepth - depth = jsonMaxDepth - (depth + 1) + 1 := by omega
        dsimp only
        split_ifs
        · exact .of_ok (by rw [hone]; simp [JsonOf.depth, JsonOf.depthElements])
        · rw [hone]
          exact helements _ _ _ _ fun _ h ↦ absurd h List.not_mem_nil
    · cases t with
      | string key =>
        rw [JsonParser.parseMembers_eq]
        refine .bind fun _ _ ↦ .bind fun _ _ ↦ .bind fun p hp ↦ ?_
        have hset : ∀ m ∈ objectSet key p.1 ms, m.2.depth ≤ jsonMaxDepth - depth := by
          intro m hm
          rcases mem_objectSet hm with rfl | hm
          · exact hvalue _ _ _ _ _ _ hp
          · exact hms m hm
        refine .readContinuation ?_ fun t r ↦ hmembers _ _ t r hset
        rw [JsonOf.depth]
        exact Nat.succ_le_succ (JsonOf.depthMembers_le_iff.2 hset)
      | objectStart | objectEnd | arrayStart | arrayEnd | number | boolean | null | colon | comma
        | eof => exact .of_error
    · rw [JsonParser.parseElements_eq]
      refine .bind fun p hp ↦ ?_
      have happend : ∀ v ∈ vs ++ [p.1], v.depth ≤ jsonMaxDepth - depth := by
        intro v hv
        rcases List.mem_append.1 hv with hv | hv
        · exact hvs v hv
        · rw [List.mem_singleton.1 hv]
          exact hvalue _ _ _ _ _ _ hp
      refine .readContinuation ?_ fun t r ↦ helements _ _ t r happend
      rw [JsonOf.depth]
      exact Nat.succ_le_succ (JsonOf.depthElements_le_iff.2 happend)

/-! ### The parser on a text -/

/-- The parser on its record follows what is read from a text, up to its first NUL, and has rounds
enough. -/
theorem follows_runJsonParser (input : Bytes) :
    (JsonParser.create input).Follows
      (PuppetC.nextToken (cString input) >>= fun p ↦
        parseToken "Unexpected token" (2 * ((cString input).length + 1)) 0 p.1 p.2) False
      (runJsonParser input).1 (runJsonParser input).2 :=
  JsonParser.Follows.mono (JsonParser.follows_parseValue _ _) fun h ↦ by
    change 2 * ((cString input).length + 1) ≤ 2 * (cString input).length at h
    omega

/-- The parser on its record reads what the parser on the input reads, with the message that it
has set for an error. -/
theorem runJsonParser_eq (input : Bytes) :
    jsonParse (cString input) =
      match (runJsonParser input).1 with
      | .ok v => .ok v
      | .error _ => .error ((runJsonParser input).2.errorMessage.getD "") := by
  have h := follows_runJsonParser input
  have hparse : jsonParse (cString input) =
      (PuppetC.nextToken (cString input) >>= fun p ↦
        parseToken "Unexpected token" (2 * ((cString input).length + 1)) 0 p.1 p.2) >>=
          fun p ↦ .ok p.1 := by
    unfold jsonParse
    cases PuppetC.nextToken (cString input) <;> rfl
  rw [hparse]
  cases hr : (runJsonParser input).1 with
  | ok v => rw [h.ok v hr]; rfl
  | error e =>
    cases e with
    | exhausted => exact (h.exhausted hr).elim
    | failed =>
      obtain ⟨m, hm, hreading⟩ := h.failed hr
      rw [hreading, hm]
      rfl

/-- The functions of the parser that read a value. -/
inductive ParserCall where
  | value
  | object
  | array

/-- A function of the parser that reads a value, in some rounds: `json_parse_value`,
`json_parse_object_internal` or `json_parse_array_internal`. -/
def ParserCall.run (fuel : ℕ) : ParserCall → JsonParserM Json
  | .value => JsonParser.parseValue fuel
  | .object => JsonParser.nested (JsonParser.parseObjectBody (JsonParser.parseMembers fuel []))
  | .array => JsonParser.nested (JsonParser.parseArrayBody (JsonParser.parseElements fuel []))

theorem ParserCall.advances (call : ParserCall) (fuel : ℕ) (s : JsonParser) :
    s.Advances ((call.run fuel).outcome s).2 := by
  have ih := JsonParser.followsIn fuel
  cases call with
  | value => exact (JsonParser.follows_parseValue fuel s).advances
  | object => exact (JsonParser.follows_nested (JsonParser.follows_objectBody ih _)).advances
  | array => exact (JsonParser.follows_nested (JsonParser.follows_arrayBody ih _)).advances

theorem JsonParser.bounded_create (input : Bytes) : (JsonParser.create input).Bounded :=
  ⟨Nat.zero_le _, fun p hp ↦ by rw [List.mem_singleton.1 hp]; exact Nat.zero_le _⟩

/-- The JSON reader is total and bounded: on every input it ends, no position that it takes is
behind the end, the depth is back at 0, and a value that it accepts nests at most 200 containers.
Each of its functions leaves the depth at its value on entry, however it ends. -/
theorem json_reader_bounded :
    (∀ input : Bytes,
      (runJsonParser input).1 ≠ .error .exhausted ∧
      (runJsonParser input).2.Bounded ∧
      (runJsonParser input).2.input = cString input ∧
      (runJsonParser input).2.depth = 0 ∧
      ∀ v, (runJsonParser input).1 = .ok v → v.depth ≤ 200) ∧
    ∀ (call : ParserCall) (fuel : ℕ) (s : JsonParser),
      ((call.run fuel).outcome s).2.depth = s.depth ∧
      (s.Bounded → ((call.run fuel).outcome s).2.Bounded) := by
  refine ⟨fun input ↦ ?_, fun call fuel s ↦
    ⟨(call.advances fuel s).depth, (call.advances fuel s).bounded⟩⟩
  have h := follows_runJsonParser input
  refine ⟨fun hr ↦ h.exhausted hr, h.advances.bounded (JsonParser.bounded_create input),
    h.advances.input, h.advances.depth, fun v hv ↦ ?_⟩
  obtain ⟨p, -, hp⟩ := bind_eq_ok_iff.1 (h.ok v hv)
  exact (nestsWithin_parse _).1 _ 0 _ _ v _ hp

/-- Two arrays in one another are accepted, within the bounds. -/
theorem json_reader_bounded_arrays :
    (∃ v, (runJsonParser ['[', '[', ']', ']']).1 = .ok v ∧ v.depth ≤ 200) ∧
      ((ParserCall.value.run 9).outcome (.create ['[', '[', ']', ']'])).2.Bounded :=
  ⟨⟨.array [.array []], rfl, (json_reader_bounded.1 ['[', '[', ']', ']']).2.2.2.2 _ rfl⟩,
    (json_reader_bounded.2 _ _ _).2 (JsonParser.bounded_create _)⟩

end PuppetC
