import PuppetC.Json.Reader

/-!
# Values from tokens

The parser builds a value from the tokens of a text, whatever the blanks between them. The
members of an object are set one after the other, so a key that comes twice keeps its place and
has the last value.

## Main definitions

* `JsonOf.Has`, `JsonOf.HasText`, `JsonOf.DistinctKeys`, `JsonOf.depth`: what is inside a value.
* `JsonOf.tokens`: the tokens of a value.
* `JsonOf.assembled`: a value with the members of its objects set one after the other.
* `Lexes`: a text that begins with given tokens.

## Main results

* `jsonParse_of_lexes`, `jsonParse_of_lexes_refused`: a text that begins with the tokens of a
  value is read as this value, assembled, or refused if the value is nested too deep.
* `JsonOf.distinctKeys_assembled`, `JsonOf.assembled_of_distinctKeys`: an assembled value has no
  key twice, and a value that has none is its own.
-/

namespace PuppetC

namespace JsonOf

variable {N : Type}

/-! ### What is inside a value -/

/-- A value is another one or inside it. -/
inductive Has : JsonOf N → JsonOf N → Prop where
  | self (v : JsonOf N) : Has v v
  | element {vs : List (JsonOf N)} {v u : JsonOf N} (hv : v ∈ vs) (hu : Has v u) : Has (.array vs) u
  | member {ms : List (Bytes × JsonOf N)} {k : Bytes} {v u : JsonOf N} (hv : (k, v) ∈ ms)
      (hu : Has v u) : Has (.object ms) u

/-- A text is a string or a key in a value. -/
def HasText (v : JsonOf N) (s : Bytes) : Prop :=
  v.Has (.string s) ∨ ∃ ms u, v.Has (.object ms) ∧ (s, u) ∈ ms

/-- No object in a value has a key twice. -/
def DistinctKeys (v : JsonOf N) : Prop := ∀ ms, v.Has (.object ms) → (ms.map Prod.fst).Nodup

mutual

/-- How deep arrays and objects are nested. -/
def depth : JsonOf N → ℕ
  | .array vs => depthElements vs + 1
  | .object ms => depthMembers ms + 1
  | _ => 0

/-- The depth of the deepest element. -/
def depthElements : List (JsonOf N) → ℕ
  | [] => 0
  | v :: vs => max v.depth (depthElements vs)

/-- The depth of the deepest member. -/
def depthMembers : List (Bytes × JsonOf N) → ℕ
  | [] => 0
  | (_, v) :: ms => max v.depth (depthMembers ms)

end

theorem depthElements_le_iff {vs : List (JsonOf N)} {d : ℕ} :
    depthElements vs ≤ d ↔ ∀ v ∈ vs, v.depth ≤ d := by
  induction vs with
  | nil => simp [depthElements]
  | cons v vs ih => simp [depthElements, ih]

theorem depthMembers_le_iff {ms : List (Bytes × JsonOf N)} {d : ℕ} :
    depthMembers ms ≤ d ↔ ∀ m ∈ ms, m.2.depth ≤ d := by
  induction ms with
  | nil => simp [depthMembers]
  | cons m ms ih =>
    obtain ⟨k, v⟩ := m
    rw [depthMembers, max_le_iff, ih, List.forall_mem_cons]

/-- Induction on a value. -/
theorem induct {P : JsonOf N → Prop} (null : P .null) (bool : ∀ b, P (.bool b))
    (number : ∀ q, P (.number q)) (string : ∀ s, P (.string s))
    (array : ∀ vs : List (JsonOf N), (∀ v ∈ vs, P v) → P (.array vs))
    (object : ∀ ms : List (Bytes × JsonOf N), (∀ m ∈ ms, P m.2) → P (.object ms))
    (v : JsonOf N) : P v :=
  @JsonOf.rec N P (fun vs ↦ ∀ v ∈ vs, P v) (fun ms ↦ ∀ m ∈ ms, P m.2) (fun m ↦ P m.2)
    null bool number string array object (by simp) (fun v vs hv hvs ↦ by simpa using ⟨hv, hvs⟩)
    (by simp) (fun m ms hm hms ↦ by
      intro m' hm'
      rcases List.mem_cons.1 hm' with rfl | h
      exacts [hm, hms m' h]) (fun _ _ hv ↦ hv) v

/-! ### Numbers, texts and keys of composed values -/

section Composed

variable {n : N} {s : Bytes}

theorem has_number_array_iff {vs : List (JsonOf N)} :
    (array vs).Has (.number n) ↔ ∃ v ∈ vs, v.Has (.number n) := by
  constructor
  · rintro (_ | ⟨hv, h⟩)
    exact ⟨_, hv, h⟩
  · rintro ⟨v, hv, h⟩
    exact .element hv h

theorem has_number_object_iff {ms : List (Bytes × JsonOf N)} :
    (object ms).Has (.number n) ↔ ∃ m ∈ ms, m.2.Has (.number n) := by
  constructor
  · intro h
    cases h with
    | member hv h => exact ⟨_, hv, h⟩
  · rintro ⟨m, hm, h⟩
    exact .member (k := m.1) hm h

theorem not_has_number_string {s : Bytes} : ¬ (string s).Has (.number n) := nofun

theorem has_number_number_iff {m : N} : (number m).Has (.number n) ↔ m = n := by
  constructor
  · rintro ⟨⟩
    rfl
  · rintro rfl
    exact .self _

theorem not_has_number_bool {b : Bool} : ¬ (bool b).Has (.number n) := nofun

theorem distinctKeys_array_iff {vs : List (JsonOf N)} :
    (array vs).DistinctKeys ↔ ∀ v ∈ vs, v.DistinctKeys := by
  constructor
  · exact fun h v hv ms hms ↦ h ms (.element hv hms)
  · intro h ms hms
    cases hms with
    | element hv hms => exact h _ hv ms hms

theorem distinctKeys_object_iff {ms : List (Bytes × JsonOf N)} :
    (object ms).DistinctKeys ↔ (ms.map Prod.fst).Nodup ∧ ∀ m ∈ ms, m.2.DistinctKeys := by
  constructor
  · exact fun h ↦ ⟨h ms (.self _), fun m hm ms' hms ↦ h ms' (.member (k := m.1) hm hms)⟩
  · rintro ⟨hms, h⟩ ms' hms'
    cases hms' with
    | self => exact hms
    | member hv hu => exact h _ hv ms' hu

theorem distinctKeys_string (s : Bytes) : (string (N := N) s).DistinctKeys := nofun

theorem distinctKeys_bool (b : Bool) : (bool (N := N) b).DistinctKeys := nofun

theorem distinctKeys_number (n : N) : (number n).DistinctKeys := nofun

theorem hasText_string_iff {t : Bytes} : (string (N := N) t).HasText s ↔ s = t := by
  constructor
  · rintro (h | ⟨ms, u, h, -⟩) <;> cases h
    rfl
  · rintro rfl
    exact .inl (.self _)

theorem not_hasText_number : ¬ (number n).HasText s := by
  rintro (h | ⟨ms, u, h, -⟩) <;> cases h

theorem not_hasText_bool {b : Bool} : ¬ (bool (N := N) b).HasText s := by
  rintro (h | ⟨ms, u, h, -⟩) <;> cases h

theorem hasText_array_iff {vs : List (JsonOf N)} :
    (array vs).HasText s ↔ ∃ v ∈ vs, v.HasText s := by
  constructor
  · rintro (h | ⟨ms, u, h, hm⟩)
    · cases h with
      | element hv hu => exact ⟨_, hv, .inl hu⟩
    · cases h with
      | element hv hu => exact ⟨_, hv, .inr ⟨ms, u, hu, hm⟩⟩
  · rintro ⟨v, hv, h | ⟨ms, u, h, hm⟩⟩
    exacts [.inl (.element hv h), .inr ⟨ms, u, .element hv h, hm⟩]

theorem hasText_object_iff {ms : List (Bytes × JsonOf N)} :
    (object ms).HasText s ↔ ∃ m ∈ ms, s = m.1 ∨ m.2.HasText s := by
  constructor
  · rintro (h | ⟨ms', u, h, hm⟩)
    · cases h with
      | member hv hu => exact ⟨_, hv, .inr (.inl hu)⟩
    · cases h with
      | self => exact ⟨_, hm, .inl rfl⟩
      | member hv hu => exact ⟨_, hv, .inr (.inr ⟨ms', u, hu, hm⟩)⟩
  · rintro ⟨m, hm, rfl | h | ⟨ms', u, h, hm'⟩⟩
    · exact .inr ⟨ms, m.2, .self _, hm⟩
    · exact .inl (.member (k := m.1) hm h)
    · exact .inr ⟨ms', u, .member (k := m.1) hm h, hm'⟩

end Composed

/-! ### Tokens -/

mutual

/-- The tokens of a value. -/
def tokens : Json → List Token
  | .null => [.null]
  | .bool b => [.boolean b]
  | .number q => [.number q]
  | .string s => [.string s]
  | .array vs => .arrayStart :: (elementTokens true vs ++ [.arrayEnd])
  | .object ms => .objectStart :: (memberTokens true ms ++ [.objectEnd])

/-- The tokens of the elements of an array. -/
def elementTokens (first : Bool) : List Json → List Token
  | [] => []
  | v :: vs => (if first then [] else [.comma]) ++ (v.tokens ++ elementTokens false vs)

/-- The tokens of the members of an object. -/
def memberTokens (first : Bool) : List (Bytes × Json) → List Token
  | [] => []
  | (k, v) :: ms =>
    (if first then [] else [.comma]) ++ (.string k :: .colon :: (v.tokens ++ memberTokens false ms))

end

mutual

/-- A value with the members of its objects set one after the other. -/
def assembled : JsonOf N → JsonOf N
  | .array vs => .array (assembledElements vs)
  | .object ms => .object (assembledMembers [] ms)
  | v => v

/-- The elements of an array. -/
def assembledElements : List (JsonOf N) → List (JsonOf N)
  | [] => []
  | v :: vs => v.assembled :: assembledElements vs

/-- The members of an object, set after others. -/
def assembledMembers (acc : List (Bytes × JsonOf N)) :
    List (Bytes × JsonOf N) → List (Bytes × JsonOf N)
  | [] => acc
  | (k, v) :: ms => assembledMembers (objectSet k v.assembled acc) ms

end

end JsonOf

/-- A text begins with tokens, and something is left. -/
inductive Lexes : Bytes → List Token → Bytes → Prop where
  | nil (r : Bytes) : Lexes r [] r
  | cons {r r₁ r₂ : Bytes} {t : Token} {ts : List Token} (h : nextToken r = .ok (t, r₁))
      (hlt : r₁.length < r.length) (hs : Lexes r₁ ts r₂) : Lexes r (t :: ts) r₂

namespace Lexes

variable {r r₁ r₂ : Bytes} {t : Token} {ts ts' : List Token}

theorem uncons (h : Lexes r (t :: ts) r₂) : ∃ r₁, nextToken r = .ok (t, r₁) ∧ Lexes r₁ ts r₂ := by
  cases h with
  | cons h _ hs => exact ⟨_, h, hs⟩

theorem append (h : Lexes r ts r₁) (h' : Lexes r₁ ts' r₂) : Lexes r (ts ++ ts') r₂ := by
  induction h with
  | nil => exact h'
  | cons h hlt _ ih => exact .cons h hlt (ih h')

theorem of_append (h : Lexes r (ts ++ ts') r₂) : ∃ r₁, Lexes r ts r₁ ∧ Lexes r₁ ts' r₂ := by
  induction ts generalizing r with
  | nil => exact ⟨r, .nil r, h⟩
  | cons t ts ih =>
    cases h with
    | cons h hlt hs =>
      obtain ⟨r₁, h₁, h₂⟩ := ih hs
      exact ⟨r₁, .cons h hlt h₁, h₂⟩

theorem length_le (h : Lexes r ts r₁) : ts.length + r₁.length ≤ r.length := by
  induction h with
  | nil => simp
  | cons _ hlt _ ih =>
    rw [List.length_cons]
    omega

end Lexes

/-! ### The parser -/

theorem JsonOf.exists_tokens_eq (v : Json) :
    ∃ t ts, v.tokens = t :: ts ∧ t ≠ .arrayEnd ∧ t ≠ .objectEnd := by
  cases v <;> simp [JsonOf.tokens]

/-- The value that starts with the first token of `v` is assembled from `v`. -/
def JsonOf.ParsesBack (v : Json) : Prop :=
  ∀ (unexpected : String) (fuel depth : ℕ) (t : Token) (ts : List Token) (r r' : Bytes),
    v.tokens = t :: ts → depth + v.depth ≤ jsonMaxDepth → v.tokens.length ≤ fuel →
      Lexes r ts r' → parseToken unexpected fuel depth t r = .ok (v.assembled, r')

theorem parseElements_tokens {vs : List Json} (hvs : ∀ v ∈ vs, v.ParsesBack) {v : Json}
    (hv : v.ParsesBack) (fuel depth : ℕ) (acc : List Json) (t : Token) (ts : List Token)
    {r r' : Bytes} (ht : v.tokens ++ (JsonOf.elementTokens false vs ++ [.arrayEnd]) = t :: ts)
    (hdepth : ∀ u ∈ v :: vs, depth + u.depth ≤ jsonMaxDepth)
    (hfuel : (v.tokens ++ JsonOf.elementTokens false vs).length < fuel) (hr : Lexes r ts r') :
    parseElements fuel depth acc t r =
      .ok (.array (acc ++ v.assembled :: JsonOf.assembledElements vs), r') := by
  induction vs generalizing v fuel acc t ts r with
  | nil =>
    obtain ⟨t₀, ts₀, htok, -⟩ := v.exists_tokens_eq
    obtain ⟨fuel, rfl⟩ : ∃ n, fuel = n + 1 := ⟨fuel - 1, by omega⟩
    simp only [JsonOf.elementTokens, List.nil_append, htok, List.cons_append, List.cons.injEq,
      List.append_nil, List.length_cons] at ht hfuel
    obtain ⟨rfl, rfl⟩ := ht
    obtain ⟨r₁, h₁, h₂⟩ := hr.of_append
    obtain ⟨r₂, h₃, h₄⟩ := h₂.uncons
    cases h₄
    have hvalue := hv "Unexpected token in array" fuel depth t₀ ts₀ r r₁ htok
      (hdepth v (by simp)) (by rw [htok, List.length_cons]; omega) h₁
    simp [parseElements, hvalue, h₃, JsonOf.assembledElements, bind, Except.bind, pure, Except.pure]
  | cons v' vs ih =>
    obtain ⟨t₀, ts₀, htok, -⟩ := v.exists_tokens_eq
    obtain ⟨t₁, ts₁, htok', hne, -⟩ := v'.exists_tokens_eq
    obtain ⟨fuel, rfl⟩ : ∃ n, fuel = n + 1 := ⟨fuel - 1, by omega⟩
    simp only [JsonOf.elementTokens, htok, htok', List.cons_append, List.cons.injEq,
      List.length_cons, List.length_append, Bool.false_eq_true, if_false, List.nil_append,
      List.append_assoc] at ht hfuel
    obtain ⟨rfl, rfl⟩ := ht
    obtain ⟨r₁, h₁, h₂⟩ := hr.of_append
    obtain ⟨r₂, h₃, h₄⟩ := h₂.uncons
    obtain ⟨r₃, h₅, h₆⟩ := h₄.uncons
    have hvalue := hv "Unexpected token in array" fuel depth t₀ ts₀ r r₁ htok
      (hdepth v (by simp)) (by rw [htok, List.length_cons]; omega) h₁
    have hrest := ih (fun u hu ↦ hvs u (by simp [hu])) (hvs v' (by simp)) fuel
      (acc ++ [v.assembled]) t₁ (ts₁ ++ (JsonOf.elementTokens false vs ++ [.arrayEnd]))
      (by rw [htok']; simp) (fun u hu ↦ hdepth u (by simp_all))
      (by rw [htok']; simp only [List.cons_append, List.length_cons, List.length_append]; omega)
      (by simpa using h₆)
    simp [parseElements, hvalue, h₃, h₅, hrest, JsonOf.assembledElements, bind, Except.bind]

theorem parseMembers_tokens {ms : List (Bytes × Json)} (hms : ∀ m ∈ ms, m.2.ParsesBack)
    {k : Bytes} {v : Json} (hv : v.ParsesBack) (fuel depth : ℕ) (acc : List (Bytes × Json))
    {ts : List Token} {r r' : Bytes}
    (ht : v.tokens ++ (JsonOf.memberTokens false ms ++ [.objectEnd]) = ts)
    (hdepth : ∀ m ∈ (k, v) :: ms, depth + m.2.depth ≤ jsonMaxDepth)
    (hfuel : (v.tokens ++ JsonOf.memberTokens false ms).length < fuel)
    (hr : Lexes r (.colon :: ts) r') :
    parseMembers fuel depth acc (.string k) r =
      .ok (.object (JsonOf.assembledMembers (objectSet k v.assembled acc) ms), r') := by
  induction ms generalizing k v fuel acc ts r with
  | nil =>
    obtain ⟨t₀, ts₀, htok, -⟩ := v.exists_tokens_eq
    obtain ⟨fuel, rfl⟩ : ∃ n, fuel = n + 1 := ⟨fuel - 1, by omega⟩
    simp only [JsonOf.memberTokens, List.nil_append, htok, List.cons_append, List.append_nil,
      List.length_cons] at ht hfuel
    obtain rfl := ht
    obtain ⟨ra, ha, hra⟩ := hr.uncons
    obtain ⟨rb, hb, hrb⟩ := hra.uncons
    obtain ⟨r₁, h₁, h₂⟩ := hrb.of_append
    obtain ⟨r₂, h₃, h₄⟩ := h₂.uncons
    cases h₄
    have hvalue := hv "Unexpected token" fuel depth t₀ ts₀ rb r₁ htok
      (hdepth (k, v) (by simp)) (by rw [htok, List.length_cons]; omega) h₁
    simp [parseMembers, orError, ha, hb, hvalue, h₃, JsonOf.assembledMembers, bind, Except.bind,
      pure, Except.pure, Except.mapError]
  | cons m ms ih =>
    obtain ⟨k', v'⟩ := m
    obtain ⟨t₀, ts₀, htok, -⟩ := v.exists_tokens_eq
    obtain ⟨fuel, rfl⟩ : ∃ n, fuel = n + 1 := ⟨fuel - 1, by omega⟩
    simp only [JsonOf.memberTokens, htok, List.cons_append, List.length_cons, List.length_append,
      Bool.false_eq_true, if_false, List.nil_append, List.append_assoc] at ht hfuel
    obtain rfl := ht
    obtain ⟨ra, ha, hra⟩ := hr.uncons
    obtain ⟨rb, hb, hrb⟩ := hra.uncons
    obtain ⟨r₁, h₁, h₂⟩ := hrb.of_append
    obtain ⟨r₂, h₃, h₄⟩ := h₂.uncons
    obtain ⟨r₃, h₅, h₆⟩ := h₄.uncons
    have hvalue := hv "Unexpected token" fuel depth t₀ ts₀ rb r₁ htok
      (hdepth (k, v) (by simp)) (by rw [htok, List.length_cons]; omega) h₁
    have hrest := ih (fun u hu ↦ hms u (by simp [hu])) (k := k') (hms (k', v') (by simp)) fuel
      (objectSet k v.assembled acc) rfl (fun u hu ↦ hdepth u (List.mem_cons_of_mem _ hu))
      (by rw [List.length_append]; dsimp only; omega) (by simpa using h₆)
    simp [parseMembers, orError, ha, hb, hvalue, h₃, h₅, hrest, JsonOf.assembledMembers, bind,
      Except.bind, Except.mapError]

/-- Every value is assembled from its tokens. -/
theorem JsonOf.parsesBack (v : Json) : v.ParsesBack := by
  induction v using JsonOf.induct with
  | null | bool | number | string =>
    intro unexpected fuel depth t ts r r' ht _ _ hr
    obtain ⟨rfl, rfl⟩ := List.cons.inj ht
    cases hr
    cases fuel <;> rfl
  | array vs ih =>
    intro unexpected fuel depth t ts r r' ht hdepth hfuel hr
    simp only [tokens, List.cons.injEq, List.length_cons, List.length_append] at ht hfuel
    obtain ⟨rfl, rfl⟩ := ht
    obtain ⟨fuel, rfl⟩ : ∃ n, fuel = n + 1 := ⟨fuel - 1, by omega⟩
    rw [JsonOf.depth] at hdepth
    cases vs with
    | nil =>
      obtain ⟨r₁, h₁, h₂⟩ := hr.uncons
      cases h₂
      simp [parseToken, h₁, assembled, assembledElements, show ¬ jsonMaxDepth ≤ depth by omega,
        bind, Except.bind, pure, Except.pure]
    | cons v vs =>
      obtain ⟨t₀, ts₀, htok, hne, -⟩ := v.exists_tokens_eq
      simp only [elementTokens, if_true, List.nil_append, htok, List.cons_append] at hr hfuel
      obtain ⟨r₁, h₁, h₂⟩ := hr.uncons
      have hdepth' : ∀ u ∈ v :: vs, depth + 1 + u.depth ≤ jsonMaxDepth := fun u hu ↦ by
        have := (depthElements_le_iff.1 (le_refl (depthElements (v :: vs)))) u hu
        omega
      have hrest := parseElements_tokens (fun u hu ↦ ih u (by simp [hu])) (ih v (by simp)) fuel
        (depth + 1) [] t₀ (ts₀ ++ (elementTokens false vs ++ [.arrayEnd]))
        (by rw [htok]; simp) hdepth'
        (by
          simp only [htok, List.cons_append, List.length_cons, List.length_append] at hfuel ⊢
          omega)
        (by simpa using h₂)
      simp [parseToken, h₁, hne, hrest, assembled, assembledElements,
        show ¬ jsonMaxDepth ≤ depth by omega, bind, Except.bind]
  | object ms ih =>
    intro unexpected fuel depth t ts r r' ht hdepth hfuel hr
    simp only [tokens, List.cons.injEq, List.length_cons, List.length_append] at ht hfuel
    obtain ⟨rfl, rfl⟩ := ht
    obtain ⟨fuel, rfl⟩ : ∃ n, fuel = n + 1 := ⟨fuel - 1, by omega⟩
    rw [JsonOf.depth] at hdepth
    cases ms with
    | nil =>
      obtain ⟨r₁, h₁, h₂⟩ := hr.uncons
      cases h₂
      simp [parseToken, h₁, assembled, assembledMembers, show ¬ jsonMaxDepth ≤ depth by omega,
        bind, Except.bind, pure, Except.pure]
    | cons m ms =>
      obtain ⟨k, v⟩ := m
      simp only [memberTokens, if_true, List.nil_append, List.cons_append, List.length_cons,
        List.length_append] at hr hfuel
      obtain ⟨r₁, h₁, h₂⟩ := hr.uncons
      have hdepth' : ∀ m ∈ (k, v) :: ms, depth + 1 + m.2.depth ≤ jsonMaxDepth := fun m hm ↦ by
        have := (depthMembers_le_iff.1 (le_refl (depthMembers ((k, v) :: ms)))) m hm
        omega
      have hrest := parseMembers_tokens (fun u hu ↦ ih u (by simp [hu])) (k := k)
        (ih (k, v) (by simp)) fuel (depth + 1) [] rfl hdepth'
        (by rw [List.length_append]; dsimp only; omega) (by simpa using h₂)
      simp [parseToken, h₁, hrest, assembled, assembledMembers,
        show ¬ jsonMaxDepth ≤ depth by omega, bind, Except.bind]

/-- A text that begins with the tokens of a value is read as this value, assembled. -/
theorem jsonParse_of_lexes {v : Json} {t r : Bytes} (h : Lexes t v.tokens r)
    (hdepth : v.depth ≤ jsonMaxDepth) : jsonParse t = .ok v.assembled := by
  have hlen := h.length_le
  obtain ⟨t₀, ts₀, htok, -⟩ := v.exists_tokens_eq
  rw [htok] at h
  obtain ⟨r₁, h₁, h₂⟩ := h.uncons
  have hvalue := v.parsesBack "Unexpected token" (2 * (t.length + 1)) 0 t₀ ts₀ r₁ r htok
    (by omega) (by omega) h₂
  simp [jsonParse, h₁, hvalue, bind, Except.bind, pure, Except.pure]

/-! ### Values that are nested too deep -/

/-- The value that starts with the first token of `v` is refused where `v` is nested too deep. -/
def JsonOf.Refused (v : Json) : Prop :=
  ∀ (unexpected : String) (fuel depth : ℕ) (t : Token) (ts : List Token) (r r' : Bytes),
    v.tokens = t :: ts → depth ≤ jsonMaxDepth → jsonMaxDepth < depth + v.depth →
      v.tokens.length ≤ fuel → Lexes r ts r' → ∃ e, parseToken unexpected fuel depth t r = .error e

theorem parseElements_refused {vs : List Json} (hvs : ∀ v ∈ vs, v.Refused) {v : Json}
    (hv : v.Refused) (fuel depth : ℕ) (acc : List Json) (t : Token) (ts : List Token)
    {r r' : Bytes} (ht : v.tokens ++ (JsonOf.elementTokens false vs ++ [.arrayEnd]) = t :: ts)
    (hle : depth ≤ jsonMaxDepth) (hdepth : ∃ u ∈ v :: vs, jsonMaxDepth < depth + u.depth)
    (hfuel : (v.tokens ++ JsonOf.elementTokens false vs).length < fuel) (hr : Lexes r ts r') :
    ∃ e, parseElements fuel depth acc t r = .error e := by
  induction vs generalizing v fuel acc t ts r with
  | nil =>
    obtain ⟨t₀, ts₀, htok, -⟩ := v.exists_tokens_eq
    obtain ⟨fuel, rfl⟩ : ∃ n, fuel = n + 1 := ⟨fuel - 1, by omega⟩
    simp only [JsonOf.elementTokens, List.nil_append, htok, List.cons_append, List.cons.injEq,
      List.append_nil, List.length_cons] at ht hfuel
    obtain ⟨rfl, rfl⟩ := ht
    obtain ⟨r₁, h₁, -⟩ := hr.of_append
    obtain ⟨e, he⟩ := hv "Unexpected token in array" fuel depth t₀ ts₀ r r₁ htok
      hle (by simpa using hdepth) (by rw [htok, List.length_cons]; omega) h₁
    exact ⟨e, by simp [parseElements, he, bind, Except.bind]⟩
  | cons v' vs ih =>
    obtain ⟨t₀, ts₀, htok, -⟩ := v.exists_tokens_eq
    obtain ⟨t₁, ts₁, htok', hne, -⟩ := v'.exists_tokens_eq
    obtain ⟨fuel, rfl⟩ : ∃ n, fuel = n + 1 := ⟨fuel - 1, by omega⟩
    simp only [JsonOf.elementTokens, htok, htok', List.cons_append, List.cons.injEq,
      List.length_cons, List.length_append, Bool.false_eq_true, if_false, List.nil_append,
      List.append_assoc] at ht hfuel
    obtain ⟨rfl, rfl⟩ := ht
    obtain ⟨r₁, h₁, h₂⟩ := hr.of_append
    by_cases hdeep : jsonMaxDepth < depth + v.depth
    · obtain ⟨e, he⟩ := hv "Unexpected token in array" fuel depth t₀ ts₀ r r₁ htok hle hdeep
        (by rw [htok, List.length_cons]; omega) h₁
      exact ⟨e, by simp [parseElements, he, bind, Except.bind]⟩
    · obtain ⟨r₂, h₃, h₄⟩ := h₂.uncons
      obtain ⟨r₃, h₅, h₆⟩ := h₄.uncons
      have hvalue := v.parsesBack "Unexpected token in array" fuel depth t₀ ts₀ r r₁ htok
        (not_lt.1 hdeep) (by rw [htok, List.length_cons]; omega) h₁
      obtain ⟨e, he⟩ := ih (fun u hu ↦ hvs u (by simp [hu])) (hvs v' (by simp)) fuel
        (acc ++ [v.assembled]) t₁ (ts₁ ++ (JsonOf.elementTokens false vs ++ [.arrayEnd]))
        (by rw [htok']; simp) (by simpa [hdeep] using hdepth)
        (by rw [htok']; simp only [List.cons_append, List.length_cons, List.length_append]; omega)
        (by simpa using h₆)
      exact ⟨e, by simp [parseElements, hvalue, h₃, h₅, he, bind, Except.bind]⟩

theorem parseMembers_refused {ms : List (Bytes × Json)} (hms : ∀ m ∈ ms, m.2.Refused)
    {k : Bytes} {v : Json} (hv : v.Refused) (fuel depth : ℕ) (acc : List (Bytes × Json))
    {ts : List Token} {r r' : Bytes}
    (ht : v.tokens ++ (JsonOf.memberTokens false ms ++ [.objectEnd]) = ts)
    (hle : depth ≤ jsonMaxDepth)
    (hdepth : ∃ m ∈ (k, v) :: ms, jsonMaxDepth < depth + m.2.depth)
    (hfuel : (v.tokens ++ JsonOf.memberTokens false ms).length < fuel)
    (hr : Lexes r (.colon :: ts) r') :
    ∃ e, parseMembers fuel depth acc (.string k) r = .error e := by
  induction ms generalizing k v fuel acc ts r with
  | nil =>
    obtain ⟨t₀, ts₀, htok, -⟩ := v.exists_tokens_eq
    obtain ⟨fuel, rfl⟩ : ∃ n, fuel = n + 1 := ⟨fuel - 1, by omega⟩
    simp only [JsonOf.memberTokens, List.nil_append, htok, List.cons_append, List.append_nil,
      List.length_cons] at ht hfuel
    obtain rfl := ht
    obtain ⟨ra, ha, hra⟩ := hr.uncons
    obtain ⟨rb, hb, hrb⟩ := hra.uncons
    obtain ⟨r₁, h₁, -⟩ := hrb.of_append
    obtain ⟨e, he⟩ := hv "Unexpected token" fuel depth t₀ ts₀ rb r₁ htok
      hle (by simpa using hdepth) (by rw [htok, List.length_cons]; omega) h₁
    exact ⟨e, by simp [parseMembers, orError, ha, hb, he, bind, Except.bind, Except.mapError]⟩
  | cons m ms ih =>
    obtain ⟨k', v'⟩ := m
    obtain ⟨t₀, ts₀, htok, -⟩ := v.exists_tokens_eq
    obtain ⟨fuel, rfl⟩ : ∃ n, fuel = n + 1 := ⟨fuel - 1, by omega⟩
    simp only [JsonOf.memberTokens, htok, List.cons_append, List.length_cons, List.length_append,
      Bool.false_eq_true, if_false, List.nil_append, List.append_assoc] at ht hfuel
    obtain rfl := ht
    obtain ⟨ra, ha, hra⟩ := hr.uncons
    obtain ⟨rb, hb, hrb⟩ := hra.uncons
    obtain ⟨r₁, h₁, h₂⟩ := hrb.of_append
    by_cases hdeep : jsonMaxDepth < depth + v.depth
    · obtain ⟨e, he⟩ := hv "Unexpected token" fuel depth t₀ ts₀ rb r₁ htok hle hdeep
        (by rw [htok, List.length_cons]; omega) h₁
      exact ⟨e, by simp [parseMembers, orError, ha, hb, he, bind, Except.bind, Except.mapError]⟩
    · obtain ⟨r₂, h₃, h₄⟩ := h₂.uncons
      obtain ⟨r₃, h₅, h₆⟩ := h₄.uncons
      have hvalue := v.parsesBack "Unexpected token" fuel depth t₀ ts₀ rb r₁ htok
        (not_lt.1 hdeep) (by rw [htok, List.length_cons]; omega) h₁
      obtain ⟨e, he⟩ := ih (fun u hu ↦ hms u (by simp [hu])) (k := k') (hms (k', v') (by simp)) fuel
        (objectSet k v.assembled acc) rfl (by simpa [hdeep] using hdepth)
        (by rw [List.length_append]; dsimp only; omega) (by simpa using h₆)
      exact ⟨e, by
        simp [parseMembers, orError, ha, hb, hvalue, h₃, h₅, he, bind, Except.bind,
          Except.mapError]⟩

/-- Every value that is nested too deep is refused. -/
theorem JsonOf.refused (v : Json) : v.Refused := by
  induction v using JsonOf.induct with
  | null | bool | number | string =>
    intro unexpected fuel depth t ts r r' ht hle hdeep hfuel hr
    exact absurd hdeep (not_lt.2 hle)
  | array vs ih =>
    intro unexpected fuel depth t ts r r' ht hle hdeep hfuel hr
    simp only [tokens, List.cons.injEq, List.length_cons, List.length_append] at ht hfuel
    obtain ⟨rfl, rfl⟩ := ht
    obtain ⟨fuel, rfl⟩ : ∃ n, fuel = n + 1 := ⟨fuel - 1, by omega⟩
    rw [JsonOf.depth] at hdeep
    by_cases hmax : jsonMaxDepth ≤ depth
    · exact ⟨_, by simp only [parseToken, if_pos hmax]; rfl⟩
    cases vs with
    | nil =>
      rw [depthElements] at hdeep
      omega
    | cons v vs =>
      obtain ⟨t₀, ts₀, htok, hne, -⟩ := v.exists_tokens_eq
      simp only [elementTokens, if_true, List.nil_append, htok, List.cons_append] at hr hfuel
      obtain ⟨r₁, h₁, h₂⟩ := hr.uncons
      have hdeep' : ∃ u ∈ v :: vs, jsonMaxDepth < depth + 1 + u.depth := by
        by_contra hno
        push Not at hno
        have := depthElements_le_iff.2 fun u hu ↦
          show u.depth ≤ jsonMaxDepth - (depth + 1) by have := hno u hu; omega
        omega
      obtain ⟨e, he⟩ := parseElements_refused (fun u hu ↦ ih u (by simp [hu])) (ih v (by simp)) fuel
        (depth + 1) [] t₀ (ts₀ ++ (elementTokens false vs ++ [.arrayEnd]))
        (by rw [htok]; simp) (by omega) hdeep'
        (by
          simp only [htok, List.cons_append, List.length_cons, List.length_append] at hfuel ⊢
          omega)
        (by simpa using h₂)
      exact ⟨e, by simp [parseToken, h₁, hne, he, hmax, bind, Except.bind]⟩
  | object ms ih =>
    intro unexpected fuel depth t ts r r' ht hle hdeep hfuel hr
    simp only [tokens, List.cons.injEq, List.length_cons, List.length_append] at ht hfuel
    obtain ⟨rfl, rfl⟩ := ht
    obtain ⟨fuel, rfl⟩ : ∃ n, fuel = n + 1 := ⟨fuel - 1, by omega⟩
    rw [JsonOf.depth] at hdeep
    by_cases hmax : jsonMaxDepth ≤ depth
    · exact ⟨_, by simp only [parseToken, if_pos hmax]; rfl⟩
    cases ms with
    | nil =>
      rw [depthMembers] at hdeep
      omega
    | cons m ms =>
      obtain ⟨k, v⟩ := m
      simp only [memberTokens, if_true, List.nil_append, List.cons_append, List.length_cons,
        List.length_append] at hr hfuel
      obtain ⟨r₁, h₁, h₂⟩ := hr.uncons
      have hdeep' : ∃ m ∈ (k, v) :: ms, jsonMaxDepth < depth + 1 + m.2.depth := by
        by_contra hno
        push Not at hno
        have := depthMembers_le_iff.2 fun m hm ↦
          show m.2.depth ≤ jsonMaxDepth - (depth + 1) by have := hno m hm; omega
        omega
      obtain ⟨e, he⟩ := parseMembers_refused (fun u hu ↦ ih u (by simp [hu])) (k := k)
        (ih (k, v) (by simp)) fuel (depth + 1) [] rfl (by omega) hdeep'
        (by rw [List.length_append]; dsimp only; omega) (by simpa using h₂)
      exact ⟨e, by simp [parseToken, h₁, he, hmax, bind, Except.bind]⟩

/-- A text that begins with the tokens of a value that is nested too deep is refused. -/
theorem jsonParse_of_lexes_refused {v : Json} {t r : Bytes} (h : Lexes t v.tokens r)
    (hdeep : jsonMaxDepth < v.depth) : ∃ e, jsonParse t = .error e := by
  have hlen := h.length_le
  obtain ⟨t₀, ts₀, htok, -⟩ := v.exists_tokens_eq
  rw [htok] at h
  obtain ⟨r₁, h₁, h₂⟩ := h.uncons
  obtain ⟨e, he⟩ := v.refused "Unexpected token" (2 * (t.length + 1)) 0 t₀ ts₀ r₁ r htok
    (by omega) (by omega) (by omega) h₂
  exact ⟨e, by simp [jsonParse, h₁, he, bind, Except.bind]⟩

/-! ### Setting members -/

variable {N : Type}

theorem mem_objectSet {k : Bytes} {v : JsonOf N} {ms : List (Bytes × JsonOf N)}
    {m : Bytes × JsonOf N}
    (h : m ∈ objectSet k v ms) : m = (k, v) ∨ m ∈ ms := by
  induction ms with
  | nil => simpa [objectSet] using h
  | cons m' ms ih =>
    unfold objectSet at h
    split_ifs at h with hk
    · rcases List.mem_cons.1 h with rfl | h
      · exact .inl (by rw [hk])
      · exact .inr (List.mem_cons_of_mem _ h)
    · rcases List.mem_cons.1 h with rfl | h
      · exact .inr List.mem_cons_self
      · exact (ih h).imp_right (List.mem_cons_of_mem _)

theorem keys_objectSet (k : Bytes) (v : JsonOf N) (ms : List (Bytes × JsonOf N)) :
    (objectSet k v ms).map Prod.fst =
      if k ∈ ms.map Prod.fst then ms.map Prod.fst else ms.map Prod.fst ++ [k] := by
  induction ms with
  | nil => simp [objectSet]
  | cons m ms ih =>
    unfold objectSet
    by_cases hk : m.1 = k
    · simp [hk]
    · have hk' : ¬ k = m.1 := fun h ↦ hk h.symm
      by_cases hmem : k ∈ ms.map Prod.fst <;> simp_all

theorem objectSet_of_notMem {k : Bytes} {v : JsonOf N} {ms : List (Bytes × JsonOf N)}
    (h : k ∉ ms.map Prod.fst) : objectSet k v ms = ms ++ [(k, v)] := by
  induction ms with
  | nil => rfl
  | cons m ms ih =>
    rw [List.map_cons, List.mem_cons, not_or] at h
    rw [objectSet, if_neg fun h' ↦ h.1 h'.symm, ih h.2]
    rfl

namespace JsonOf

theorem nodup_objectSet {k : Bytes} {v : JsonOf N} {ms : List (Bytes × JsonOf N)}
    (h : (ms.map Prod.fst).Nodup) : ((objectSet k v ms).map Prod.fst).Nodup := by
  rw [keys_objectSet]
  split_ifs with hk
  · exact h
  · exact List.nodup_append.2 ⟨h, by simp, fun a ha b hb ↦ by
      rintro rfl
      exact hk (List.mem_singleton.1 hb ▸ ha)⟩

@[simp] theorem assembledElements_eq (vs : List (JsonOf N)) :
    assembledElements vs = vs.map assembled := by
  induction vs with
  | nil => rfl
  | cons v vs ih => simp [assembledElements, ih]

theorem nodup_assembledMembers {acc : List (Bytes × JsonOf N)} (ms : List (Bytes × JsonOf N))
    (h : (acc.map Prod.fst).Nodup) : ((assembledMembers acc ms).map Prod.fst).Nodup := by
  induction ms generalizing acc with
  | nil => exact h
  | cons m ms ih => exact ih (nodup_objectSet h)

theorem mem_assembledMembers {acc ms : List (Bytes × JsonOf N)} {m : Bytes × JsonOf N}
    (h : m ∈ assembledMembers acc ms) :
    m ∈ acc ∨ ∃ v, (m.1, v) ∈ ms ∧ m.2 = v.assembled := by
  induction ms generalizing acc with
  | nil => exact .inl h
  | cons m' ms ih =>
    obtain ⟨k, v⟩ := m'
    rcases ih h with h | ⟨v', h, heq⟩
    · rcases mem_objectSet h with rfl | h
      · exact .inr ⟨v, List.mem_cons_self, rfl⟩
      · exact .inl h
    · exact .inr ⟨v', List.mem_cons_of_mem _ h, heq⟩

theorem assembledMembers_of_nodup {acc ms : List (Bytes × JsonOf N)}
    (h : ((acc ++ ms).map Prod.fst).Nodup) :
    assembledMembers acc ms = acc ++ ms.map fun m ↦ (m.1, m.2.assembled) := by
  induction ms generalizing acc with
  | nil => simp [assembledMembers]
  | cons m ms ih =>
    obtain ⟨k, v⟩ := m
    have hk : k ∉ acc.map Prod.fst := by
      intro hmem
      rw [List.map_append, List.map_cons] at h
      exact (List.nodup_append.1 h).2.2 k hmem k List.mem_cons_self rfl
    rw [assembledMembers, objectSet_of_notMem hk, ih (by simpa using h)]
    simp

/-- What is inside an assembled value is assembled from something inside the value. -/
theorem Has.of_assembled {v u : JsonOf N} (h : v.assembled.Has u) :
    ∃ u', v.Has u' ∧ u = u'.assembled := by
  induction v using JsonOf.induct with
  | null | bool | number | string => cases h; exact ⟨_, .self _, rfl⟩
  | array vs ih =>
    rw [assembled, assembledElements_eq] at h
    cases h with
    | self => exact ⟨_, .self _, by simp [assembled]⟩
    | element hv hu =>
      obtain ⟨w, hw, rfl⟩ := List.mem_map.1 hv
      obtain ⟨u', hu', rfl⟩ := ih w hw hu
      exact ⟨u', .element hw hu', rfl⟩
  | object ms ih =>
    rw [assembled] at h
    cases h with
    | self => exact ⟨_, .self _, rfl⟩
    | member hv hu =>
      obtain h | ⟨w, hw, heq⟩ := mem_assembledMembers hv
      · simp at h
      · obtain rfl : _ = w.assembled := heq
        obtain ⟨u', hu', rfl⟩ := ih _ hw hu
        exact ⟨u', .member hw hu', rfl⟩

theorem distinctKeys_assembled (v : JsonOf N) : v.assembled.DistinctKeys := by
  intro ms h
  obtain ⟨u, -, heq⟩ := h.of_assembled
  cases u <;> simp only [assembled] at heq <;> cases heq
  exact nodup_assembledMembers _ (by simp)

theorem HasText.of_assembled {v : JsonOf N} {s : Bytes} (h : v.assembled.HasText s) :
    v.HasText s := by
  rcases h with h | ⟨ms, u, h, hs⟩
  · obtain ⟨w, hw, heq⟩ := h.of_assembled
    cases w <;> simp only [assembled] at heq <;> cases heq
    exact .inl hw
  · obtain ⟨w, hw, heq⟩ := h.of_assembled
    cases w <;> simp only [assembled] at heq <;> cases heq
    obtain h | ⟨v', hv', -⟩ := mem_assembledMembers hs
    · simp at h
    · exact .inr ⟨_, v', hw, hv'⟩

theorem assembled_of_distinctKeys {v : JsonOf N} (h : v.DistinctKeys) : v.assembled = v := by
  induction v using JsonOf.induct with
  | null | bool | number | string => rfl
  | array vs ih =>
    rw [assembled, assembledElements_eq]
    congr 1
    refine (List.map_congr_left fun v hv ↦ ?_).trans (List.map_id vs)
    exact ih v hv fun ms hms ↦ h ms (.element hv hms)
  | object ms ih =>
    rw [assembled, assembledMembers_of_nodup (by simpa using h ms (.self _)), List.nil_append]
    congr 1
    refine (List.map_congr_left fun m hm ↦ ?_).trans (List.map_id ms)
    rw [ih m hm fun ms' hms' ↦ h ms' (.member (k := m.1) hm hms')]
    rfl

end JsonOf

end PuppetC
