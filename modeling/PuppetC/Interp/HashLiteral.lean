import Mathlib.Data.List.Find
import PuppetC.Interp.Runs
import PuppetC.Parser.LintPlaces
import PuppetC.Value.Look

/-!
# Hash literals

The parser makes a constant of a hash literal whose keys are literal strings and whose values are
literals (`convert_hash`), unless a key comes twice. Any other literal is evaluated entry by entry:
an entry whose key is not a string then is passed over, and a later entry with the same key
replaces an earlier one.

A key that is repeated is reported in one of two places. If both keys are literals, the lint
reports the second one, provided its walk comes to the literal; otherwise it is reported when the
literal is evaluated, though not in the pre-pass without facts.

## Main definitions

* `convertHash`: `convert_hash`, on the keys and values as they have been converted.
* `HashLiteral`: the entries of a literal.
* `HashLiteral.Evaluates`: a run that evaluates the literal, with what its keys and values are.
* `KeepsEntries`: every entry is kept, and every repetition reported once.
* `LiteralFits`: the condition on the keys.

## Main results

* `returnsQuiet_lowered_iff`: the runs of the evaluation.
* `hash_literal`: when a literal keeps its entries.
-/

namespace PuppetC

/-! ### The parser -/

/-- A literal string. -/
def literalKey : Expr → Option String
  | .value (.string s) => some s
  | _ => none

/-- Is an expression a literal? -/
def isLiteral : Expr → Bool
  | .value _ => true
  | _ => false

/-- Is a key a literal string that is among earlier ones? -/
def repeatsLiteral (before : List Expr) (key : Expr) : Bool :=
  match literalKey key with
  | some s => isLiteralKey s before
  | none => false

/-- Which keys are literal strings that are among earlier ones? -/
def literalRepeats (before : List Expr) : List Expr → List Bool
  | [] => []
  | key :: keys => repeatsLiteral before key :: literalRepeats (before ++ [key]) keys

/-- Are keys and values literals, and the keys strings? -/
def allLiterals (entries : List (Expr × Expr)) : Bool :=
  entries.all fun e ↦ (literalKey e.1).isSome && isLiteral e.2

/-- Is a literal key there twice? -/
def hasDupLiteralKey (entries : List (Expr × Expr)) : Bool :=
  (literalRepeats [] (entries.map Prod.fst)).any id

/-- The entries of a constant. -/
def constantEntries (acc : List (String × Value)) :
    List (Expr × Expr) → List (String × Value)
  | [] => acc
  | (.value (.string k), .value v) :: es => constantEntries (hashSet acc k v.copy) es
  | _ :: es => constantEntries acc es

/-- `convert_hash`. -/
def convertHash (entries : List (Expr × Expr)) : Expr :=
  if allLiterals entries && !hasDupLiteralKey entries && !entries.isEmpty then
    .value (.hash (constantEntries [] entries))
  else if !entries.isEmpty then .hash entries
  else .value (.hash [])

/-- The entries of a literal, as the parser converts keys and values; it makes no literals of the
type of a `Deferred` call. -/
structure HashLiteral where
  entries : List (Expr × Expr)
  no_deferred : ∀ e ∈ entries, ∀ f args, e.2 ≠ .value (.deferred f args)

/-- A hash literal after the parser. -/
def HashLiteral.lowered (l : HashLiteral) : Expr := convertHash l.entries

/-! ### The runs -/

/-- What a key and a value are when they are evaluated; whether the key is a literal string that is
among earlier ones, which is what the lint looks for; whether there are no facts at that moment; and
whether the evaluation reports the key. -/
structure EntryTrace where
  key : Value
  value : Value
  literalRepeat : Bool
  factless : Bool
  reported : Bool

/-- The message about a key that comes again. -/
def duplicateKey (k : String) : Diagnostic :=
  ⟨.error, "The key '" ++ k ++ "' is declared more than once"⟩

/-- Is a key reported when the literal is evaluated? -/
def reportsKey (before : List Expr) (acc : List (String × Value)) (keyExpr : Expr) (k : String)
    (factless : Bool) : Bool :=
  (hashGet acc k).isSome && !factless && !(isLiteral keyExpr && isLiteralKey k before)

section World

variable (w : World)

/-- The entries of a literal are evaluated, after those of the keys `before`. -/
inductive EvaluatesEntries : List Expr → List (String × Value) → List (Expr × Expr) → Env →
    List EntryTrace → Value → Env → Prop
  | nil (before : List Expr) (acc : List (String × Value)) (env : Env) :
      EvaluatesEntries before acc [] env [] (.hash acc) env
  | string {before : List Expr} {acc : List (String × Value)} {keyExpr valueExpr : Expr}
      {es : List (Expr × Expr)} {env env₁ env₂ env' : Env} {k : String} {v u : Value}
      {ts : List EntryTrace} {factless reported : Bool}
      (key : w.ReturnsQuiet (evalExpr keyExpr) env (.string k) env₁)
      (value : w.ReturnsQuiet (evalExpr valueExpr) env₁ v env₂)
      (hfactless : factless = EnvField.factless.get env₂)
      (hreported : reported = reportsKey before acc keyExpr k factless)
      (rest : EvaluatesEntries (before ++ [keyExpr]) (hashSet acc k v.copy) es
        (if reported then env₂.emit (duplicateKey k) else env₂) ts u env') :
      EvaluatesEntries before acc ((keyExpr, valueExpr) :: es) env
        (⟨.string k, v, repeatsLiteral before keyExpr, factless, reported⟩ :: ts) u env'
  | other {before : List Expr} {acc : List (String × Value)} {keyExpr valueExpr : Expr}
      {es : List (Expr × Expr)} {env env₁ env₂ env' : Env} {k v u : Value} {ts : List EntryTrace}
      (key : w.ReturnsQuiet (evalExpr keyExpr) env k env₁) (noString : ∀ s, k ≠ .string s)
      (value : w.ReturnsQuiet (evalExpr valueExpr) env₁ v env₂)
      (rest : EvaluatesEntries (before ++ [keyExpr]) acc es env₂ ts u env') :
      EvaluatesEntries before acc ((keyExpr, valueExpr) :: es) env
        (⟨k, v, repeatsLiteral before keyExpr, EnvField.factless.get env₂, false⟩ :: ts) u env'

/-- The entries of a constant: literals are what they are in any state. -/
def constantTrace (factless : Bool) : Expr × Expr → EntryTrace
  | (.value k, .value v) => ⟨literalValue k, literalValue v, false, factless, false⟩
  | _ => ⟨.undef, .undef, false, factless, false⟩

/-- A literal is evaluated: as the constant that the parser has made of it, or by its entries. -/
inductive HashLiteral.Evaluates (l : HashLiteral) :
    Env → List EntryTrace → Value → Env → Prop
  | constant (env : Env) (all : allLiterals l.entries = true)
      (distinct : hasDupLiteralKey l.entries = false) :
      Evaluates l env (l.entries.map (constantTrace (EnvField.factless.get env)))
        (literalValue (.hash (constantEntries [] l.entries))) env
  | entries {env env' : Env} {ts : List EntryTrace} {u : Value}
      (notConstant : (allLiterals l.entries && !hasDupLiteralKey l.entries) = false)
      (run : EvaluatesEntries w [] [] l.entries env ts u env') : Evaluates l env ts u env'

end World

/-! ### What a literal is to be -/

/-- The text of a key. -/
def EntryTrace.text (t : EntryTrace) : String := t.key.toText

/-- The last value that is given for a key. -/
def lastValue (ts : List EntryTrace) (k : String) : Option Value :=
  (ts.reverse.find? fun t ↦ t.text = k).map EntryTrace.value

/-- The hash has a copy of the last value that is given for a key under the text of the key, and
nothing else. The lint, where it comes to the literal, and the evaluation make one report of each
key that comes again, and none of others. -/
structure KeepsEntries (linted : Bool) (ts : List EntryTrace) (u : Value) : Prop where
  kept : ∃ es, u = .hash es ∧ ∀ k, hashGet es k = (lastValue ts k).map Value.copy
  reportedOnce : ∀ earlier t later, ts = earlier ++ t :: later →
    (linted && t.literalRepeat).toNat + t.reported.toNat =
      if t.text ∈ earlier.map EntryTrace.text then 1 else 0

/-- Every key is a string when it is evaluated; if a literal string comes again, then where the lint
comes; and a key that comes again otherwise does so where there are facts. -/
structure LiteralFits (linted : Bool) (ts : List EntryTrace) : Prop where
  strings : ∀ t ∈ ts, ∃ s, t.key = .string s
  literals : ∀ t ∈ ts, t.literalRepeat = true → linted = true
  facts : ∀ earlier t later, ts = earlier ++ t :: later → t.factless = true →
    t.text ∈ earlier.map EntryTrace.text → t.literalRepeat = true

/-! ### Reports and values of a run -/

/-- The value that the hash has for a key: the last one given for a string. -/
def storedValue (ts : List EntryTrace) (k : String) : Option Value :=
  (ts.reverse.find? fun t ↦ t.key = .string k).map EntryTrace.value

/-- Is the string of a key among earlier ones? -/
def EntryTrace.Repeats (earlier : List EntryTrace) (t : EntryTrace) : Prop :=
  ∃ s, t.key = .string s ∧ ∃ t' ∈ earlier, t'.key = .string s

/-- How the reports of a key come about. -/
structure EntryTrace.Reports (earlier : List EntryTrace) (t : EntryTrace) : Prop where
  reported : t.reported = true ↔
    t.Repeats earlier ∧ t.factless = false ∧ t.literalRepeat = false
  literal : t.literalRepeat = true → t.Repeats earlier

/-- What a run leaves, after earlier entries. -/
structure RunLeaves (done ts : List EntryTrace) (u : Value) : Prop where
  stored : ∃ es, u = .hash es ∧ ∀ k, hashGet es k = (storedValue (done ++ ts) k).map Value.copy
  reports : ∀ earlier t later, ts = earlier ++ t :: later → t.Reports (done ++ earlier)

theorem storedValue_append (ts : List EntryTrace) (t : EntryTrace) (k : String) :
    storedValue (ts ++ [t]) k = if t.key = .string k then some t.value else storedValue ts k := by
  rw [storedValue, List.reverse_append, List.reverse_singleton, List.singleton_append,
    List.find?_cons]
  by_cases h : t.key = .string k
  · simp [h]
  · simp [h, storedValue]

theorem isLiteralKey_eq_any (k : String) (before : List Expr) :
    isLiteralKey k before = before.any fun e ↦ literalKey e == some k := by
  fun_induction isLiteralKey k before <;> simp_all [literalKey]

theorem isLiteralKey_append (k : String) (before : List Expr) (key : Expr) :
    isLiteralKey k (before ++ [key]) = (isLiteralKey k before || (literalKey key == some k)) := by
  simp [isLiteralKey_eq_any]

/-- What is left after one entry and the ones behind it. -/
theorem RunLeaves.cons {done ts : List EntryTrace} {t : EntryTrace} {u : Value}
    (ht : t.Reports done) (h : RunLeaves (done ++ [t]) ts u) : RunLeaves done (t :: ts) u where
  stored := by
    obtain ⟨es, rfl, hes⟩ := h.stored
    exact ⟨es, rfl, fun k ↦ by rw [hes k, List.append_assoc, List.singleton_append]⟩
  reports := by
    intro earlier t' later heq
    cases earlier with
    | nil =>
      obtain ⟨rfl, -⟩ := List.cons.inj heq
      rwa [List.append_nil]
    | cons t₀ earlier =>
      obtain ⟨rfl, htail⟩ := List.cons.inj heq
      have hreports := h.reports earlier t' later htail
      rwa [List.append_assoc, List.singleton_append] at hreports

theorem EntryTrace.Repeats.text_mem {earlier : List EntryTrace} {t : EntryTrace}
    (h : t.Repeats earlier) : t.text ∈ earlier.map EntryTrace.text := by
  obtain ⟨s, hkey, t', ht', hkey'⟩ := h
  exact List.mem_map.2 ⟨t', ht', by rw [EntryTrace.text, EntryTrace.text, hkey, hkey']⟩

theorem EntryTrace.repeats_of_text_mem {earlier : List EntryTrace} {t : EntryTrace}
    (hstrings : ∀ t' ∈ t :: earlier, ∃ s, t'.key = .string s)
    (h : t.text ∈ earlier.map EntryTrace.text) : t.Repeats earlier := by
  obtain ⟨t', ht', htext⟩ := List.mem_map.1 h
  obtain ⟨s, hs⟩ := hstrings t List.mem_cons_self
  obtain ⟨s', hs'⟩ := hstrings t' (List.mem_cons_of_mem _ ht')
  rw [EntryTrace.text, EntryTrace.text, hs, hs'] at htext
  obtain rfl : s' = s := htext
  exact ⟨s', hs, t', ht', hs'⟩

theorem storedValue_eq_lastValue {ts : List EntryTrace} (h : ∀ t ∈ ts, ∃ s, t.key = .string s)
    (k : String) : storedValue ts k = lastValue ts k := by
  rw [storedValue, lastValue]
  congr 1
  refine List.find?_congr fun t ht ↦ decide_eq_decide.2 ?_
  obtain ⟨s, hs⟩ := h t (List.mem_reverse.1 ht)
  rw [EntryTrace.text, hs]
  simp [Value.toText]

theorem EntryTrace.Reports.reported_eq_false {earlier : List EntryTrace} {t : EntryTrace}
    (h : t.Reports earlier)
    (ht : ¬ t.Repeats earlier ∨ t.factless = true ∨ t.literalRepeat = true) :
    t.reported = false := by
  refine Bool.eq_false_iff.2 fun hreported ↦ ?_
  obtain ⟨hrepeats, hfactless, hliteral⟩ := h.reported.1 hreported
  rcases ht with hnot | hfact | hlit
  · exact hnot hrepeats
  · rw [hfactless] at hfact
    cases hfact
  · rw [hliteral] at hlit
    cases hlit

theorem EntryTrace.Reports.silent {earlier : List EntryTrace} {t : EntryTrace}
    (h : t.Reports earlier) (ht : ¬ t.Repeats earlier) :
    t.reported = false ∧ t.literalRepeat = false :=
  ⟨h.reported_eq_false (.inl ht), Bool.eq_false_iff.2 fun hliteral ↦ ht (h.literal hliteral)⟩

/-- A key that comes again, and that nobody reports. -/
theorem KeepsEntries.repeats_of_text_mem {linted : Bool} {ts earlier later : List EntryTrace}
    {t : EntryTrace} {u : Value} (hkeeps : KeepsEntries linted ts u)
    (hts : ts = earlier ++ t :: later) (h : t.Reports earlier)
    (hmem : t.text ∈ earlier.map EntryTrace.text) : t.Repeats earlier := by
  by_contra hnot
  have honce := hkeeps.reportedOnce earlier t later hts
  rw [(h.silent hnot).1, (h.silent hnot).2, if_pos hmem] at honce
  simp at honce

/-- Entries that are kept and reported have strings for keys. -/
theorem KeepsEntries.strings {linted : Bool} {ts : List EntryTrace} {u : Value}
    (hkeeps : KeepsEntries linted ts u) (h : RunLeaves [] ts u) :
    ∀ t ∈ ts, ∃ s, t.key = .string s := by
  intro t ht
  by_contra hno
  obtain ⟨earlier, later, rfl⟩ := List.append_of_mem ht
  have hfresh : t.text ∉ earlier.map EntryTrace.text := fun hmem ↦
    hno ((hkeeps.repeats_of_text_mem rfl (h.reports earlier t later rfl) hmem).imp
      fun _ ↦ And.left)
  -- the hash has the text of the key, so the first string with this text comes later
  obtain ⟨es, hes, hget⟩ := hkeeps.kept
  obtain ⟨es', hes', hget'⟩ := h.stored
  obtain rfl : es = es' := by
    rw [hes] at hes'
    exact Value.hash.inj hes'
  have hlast : (lastValue (earlier ++ t :: later) t.text).isSome := by
    rw [lastValue, Option.isSome_map, List.find?_isSome]
    exact ⟨t, by simp, by simp⟩
  have hstored : (storedValue (earlier ++ t :: later) t.text).isSome := by
    have hboth := (hget t.text).symm.trans (hget' t.text)
    rw [List.nil_append] at hboth
    rw [← Option.isSome_map (f := Value.copy), ← hboth, Option.isSome_map]
    exact hlast
  rw [storedValue, Option.isSome_map, List.find?_isSome] at hstored
  obtain ⟨t₁, ht₁, hkey₁⟩ := hstored
  have hkey₁ : t₁.key = .string t.text := of_decide_eq_true hkey₁
  have hlater : (later.find? fun t' ↦ t'.key = .string t.text).isSome := by
    rw [List.find?_isSome]
    refine ⟨t₁, ?_, by simpa using hkey₁⟩
    rcases List.mem_append.1 (List.mem_reverse.1 ht₁) with hmem | hmem
    · exact absurd (List.mem_map.2 ⟨t₁, hmem, by rw [EntryTrace.text, hkey₁]; rfl⟩) hfresh
    · rcases List.mem_cons.1 hmem with rfl | hmem
      · exact absurd ⟨_, hkey₁⟩ hno
      · exact hmem
  obtain ⟨t₂, ht₂⟩ := Option.isSome_iff_exists.1 hlater
  obtain ⟨hkey₂, mid, later', rfl, hmid⟩ := List.find?_eq_some_iff_append.1 ht₂
  have hkey₂ : t₂.key = .string t.text := of_decide_eq_true hkey₂
  have htext₂ : t₂.text = t.text := by
    rw [EntryTrace.text, hkey₂]
    rfl
  have hts : earlier ++ t :: (mid ++ t₂ :: later') = (earlier ++ t :: mid) ++ t₂ :: later' := by
    simp
  obtain ⟨s, hs, t', ht', hkey'⟩ := hkeeps.repeats_of_text_mem hts
    (h.reports (earlier ++ t :: mid) t₂ later' hts) (by simp [htext₂])
  obtain rfl : t.text = s := by
    rw [hkey₂] at hs
    exact Value.string.inj hs
  rcases List.mem_append.1 ht' with hmem | hmem
  · exact hfresh (List.mem_map.2 ⟨t', hmem, by rw [EntryTrace.text, hkey']; rfl⟩)
  · rcases List.mem_cons.1 hmem with rfl | hmem
    · exact hno ⟨_, hkey'⟩
    · have hnone := hmid t' hmem
      simp [hkey'] at hnone

/-- A hash keeps its entries exactly if its keys fit. -/
theorem keepsEntries_iff {linted : Bool} {ts : List EntryTrace} {u : Value}
    (h : RunLeaves [] ts u) : KeepsEntries linted ts u ↔ LiteralFits linted ts := by
  constructor
  · intro hkeeps
    refine ⟨hkeeps.strings h, fun t ht hliteral ↦ ?_, fun earlier t later heq hfactless hmem ↦ ?_⟩
    · obtain ⟨earlier, later, rfl⟩ := List.append_of_mem ht
      have hreports : t.Reports earlier := h.reports earlier t later rfl
      have honce := hkeeps.reportedOnce earlier t later rfl
      rw [if_pos (hreports.literal hliteral).text_mem, hliteral,
        hreports.reported_eq_false (.inr (.inr hliteral))] at honce
      cases linted with
      | true => rfl
      | false => cases honce
    · have hreports : t.Reports earlier := h.reports earlier t later heq
      have honce := hkeeps.reportedOnce earlier t later heq
      rw [if_pos hmem, hreports.reported_eq_false (.inr (.inl hfactless))] at honce
      cases hliteral : t.literalRepeat with
      | true => rfl
      | false =>
        rw [hliteral, Bool.and_false] at honce
        cases honce
  · rintro ⟨hstrings, hliterals, hfacts⟩
    refine ⟨?_, fun earlier t later heq ↦ ?_⟩
    · obtain ⟨es, rfl, hget⟩ := h.stored
      exact ⟨es, rfl, fun k ↦ by rw [hget k, List.nil_append, storedValue_eq_lastValue hstrings k]⟩
    · have hreports : t.Reports earlier := h.reports earlier t later heq
      have hearlier : ∀ t' ∈ t :: earlier, ∃ s, t'.key = .string s := by
        intro t' ht'
        refine hstrings t' ?_
        rw [heq]
        rcases List.mem_cons.1 ht' with rfl | hmem
        · simp
        · exact List.mem_append_left _ hmem
      cases hliteral : t.literalRepeat with
      | true =>
        have hlinted := hliterals t (by rw [heq]; simp) hliteral
        rw [if_pos (hreports.literal hliteral).text_mem, hlinted,
          hreports.reported_eq_false (.inr (.inr hliteral))]
        rfl
      | false =>
        rw [Bool.and_false]
        split_ifs with hmem
        · have hfactless : t.factless = false := by
            refine Bool.eq_false_iff.2 fun hfactless ↦ ?_
            rw [hfacts earlier t later heq hfactless hmem] at hliteral
            cases hliteral
          have hrepeats := EntryTrace.repeats_of_text_mem hearlier hmem
          rw [hreports.reported.2 ⟨hrepeats, hfactless, hliteral⟩]
          rfl
        · rw [hreports.reported_eq_false (.inl fun hrepeats ↦ hmem hrepeats.text_mem)]
          rfl

/-! ### What runs leave -/

theorem literalKey_eq_some_iff {e : Expr} {s : String} :
    literalKey e = some s ↔ e = .value (.string s) := by
  unfold literalKey
  split <;> simp_all

theorem repeatsLiteral_eq_true_iff {before : List Expr} {key : Expr} :
    repeatsLiteral before key = true ↔
      ∃ s, key = .value (.string s) ∧ isLiteralKey s before = true := by
  unfold repeatsLiteral
  cases hkey : literalKey key with
  | none =>
    simp only [Bool.false_eq_true, false_iff]
    rintro ⟨s, hs, -⟩
    rw [literalKey_eq_some_iff.2 hs] at hkey
    cases hkey
  | some s =>
    rw [literalKey_eq_some_iff] at hkey
    subst hkey
    simp

/-- The hash after one more entry. -/
theorem hashGet_hashSet_storedValue {acc : List (String × Value)} {done : List EntryTrace}
    (hacc : ∀ k, hashGet acc k = (storedValue done k).map Value.copy) {t : EntryTrace} {s : String}
    (ht : t.key = .string s) (k : String) :
    hashGet (hashSet acc s t.value.copy) k = (storedValue (done ++ [t]) k).map Value.copy := by
  rw [hashGet_hashSet, storedValue_append, ht]
  by_cases hk : k = s
  · simp [hk]
  · rw [if_neg hk, if_neg fun h ↦ hk (Value.string.inj h).symm, hacc k]

section World

variable {w : World} {env env' : Env}

theorem eq_of_literalKey {e : Expr} {s : String} {v : Value} (h : e = .value (.string s))
    (hrun : w.ReturnsQuiet (evalExpr e) env v env') : v = .string s := by
  subst h
  exact (returnsQuiet_literal_iff.1 hrun).1

/-- Literals that are evaluated to a string are literal strings. -/
theorem isLiteral_and_eq {before : List Expr} {e : Expr} {k : String}
    (hrun : w.ReturnsQuiet (evalExpr e) env (.string k) env') :
    (isLiteral e && isLiteralKey k before) = repeatsLiteral before e := by
  unfold isLiteral repeatsLiteral
  split
  · next v =>
    have hv : .string k = literalValue v := (returnsQuiet_literal_iff.1 hrun).1
    cases v <;> simp_all [literalValue, Value.copy, literalKey]
  · next hno =>
    cases hkey : literalKey e with
    | none => rfl
    | some s => exact absurd (literalKey_eq_some_iff.1 hkey) (hno _)

/-- What evaluating the entries leaves. -/
theorem EvaluatesEntries.leaves {before : List Expr} {acc : List (String × Value)}
    {es : List (Expr × Expr)} {ts done : List EntryTrace} {u : Value}
    (h : EvaluatesEntries w before acc es env ts u env')
    (hacc : ∀ k, hashGet acc k = (storedValue done k).map Value.copy)
    (hbefore : ∀ s, isLiteralKey s before = true → ∃ t ∈ done, t.key = .string s) :
    RunLeaves done ts u := by
  induction h generalizing done with
  | nil before acc env =>
    refine ⟨⟨acc, rfl, fun k ↦ by rw [hacc k, List.append_nil]⟩, fun earlier t later heq ↦ ?_⟩
    simp at heq
  | @string before acc keyExpr valueExpr es env env₁ env₂ env' k v u ts factless reported key value
      hfactless hreported rest ih =>
    have hliteral : repeatsLiteral before keyExpr = true → ∃ t ∈ done, t.key = .string k := by
      intro hrepeats
      obtain ⟨s, hs, hmem⟩ := repeatsLiteral_eq_true_iff.1 hrepeats
      obtain rfl := Value.string.inj (eq_of_literalKey hs key)
      exact hbefore k hmem
    have hget : (hashGet acc k).isSome = true ↔ ∃ t ∈ done, t.key = .string k := by
      rw [hacc k, Option.isSome_map, storedValue, Option.isSome_map, List.find?_isSome]
      simp
    refine RunLeaves.cons ⟨?_, fun hrepeats ↦ ⟨k, rfl, hliteral hrepeats⟩⟩ (ih ?_ ?_)
    · have hrepeats : EntryTrace.Repeats done
          ⟨.string k, v, repeatsLiteral before keyExpr, factless, reported⟩ ↔
          (hashGet acc k).isSome = true := by
        rw [hget]
        constructor
        · rintro ⟨s, hs, hdone⟩
          obtain rfl := Value.string.inj hs
          exact hdone
        · exact fun hdone ↦ ⟨k, rfl, hdone⟩
      rw [hrepeats, hreported, reportsKey, isLiteral_and_eq key]
      simp [and_assoc]
    · exact hashGet_hashSet_storedValue hacc
        (t := ⟨.string k, v, repeatsLiteral before keyExpr, factless, reported⟩) rfl
    · intro s hs
      rw [isLiteralKey_append, Bool.or_eq_true] at hs
      rcases hs with hs | hs
      · obtain ⟨t, ht, hkey⟩ := hbefore s hs
        exact ⟨t, List.mem_append_left _ ht, hkey⟩
      · have hkey := literalKey_eq_some_iff.1 (eq_of_beq hs)
        exact ⟨_, List.mem_append_right _ (List.mem_singleton_self _), eq_of_literalKey hkey key⟩
  | @other before acc keyExpr valueExpr es env env₁ env₂ env' k v u ts key noString value rest ih =>
    have hnot (t : EntryTrace) (ht : t.key = k) : ¬ t.Repeats done := by
      rintro ⟨s, hs, -⟩
      exact noString s (ht.symm.trans hs)
    have hliteral : repeatsLiteral before keyExpr = false := by
      refine Bool.eq_false_iff.2 fun hrepeats ↦ ?_
      obtain ⟨s, hs, -⟩ := repeatsLiteral_eq_true_iff.1 hrepeats
      exact noString s (eq_of_literalKey hs key)
    refine RunLeaves.cons ⟨?_, fun hrepeats ↦ ?_⟩ (ih ?_ ?_)
    · refine iff_of_false Bool.false_ne_true fun hreported ↦ ?_
      exact hnot _ rfl hreported.1
    · rw [hliteral] at hrepeats
      cases hrepeats
    · intro s
      rw [storedValue_append, if_neg (noString s), hacc s]
    · intro s hs
      rw [isLiteralKey_append, Bool.or_eq_true] at hs
      rcases hs with hs | hs
      · obtain ⟨t, ht, hkey⟩ := hbefore s hs
        exact ⟨t, List.mem_append_left _ ht, hkey⟩
      · have hkey := literalKey_eq_some_iff.1 (eq_of_beq hs)
        exact absurd (eq_of_literalKey hkey key) (noString s)

/-! ### Constants -/

theorem literalValue_eq_copy {v : Value} (h : ∀ f args, v ≠ .deferred f args) :
    literalValue v = v.copy := by
  cases v with
  | deferred f args => exact absurd rfl (h f args)
  | _ => rfl

theorem allLiterals_cons_iff {e : Expr × Expr} {es : List (Expr × Expr)} :
    allLiterals (e :: es) = true ↔
      (∃ s v, e = (.value (.string s), .value v)) ∧ allLiterals es = true := by
  obtain ⟨key, value⟩ := e
  rw [allLiterals, List.all_cons, Bool.and_eq_true, Bool.and_eq_true]
  refine and_congr_left' ⟨?_, ?_⟩
  · rintro ⟨hkey, hvalue⟩
    obtain ⟨s, hs⟩ := Option.isSome_iff_exists.1 hkey
    rw [literalKey_eq_some_iff] at hs
    subst hs
    cases value with
    | value v => exact ⟨s, v, rfl⟩
    | _ => cases hvalue
  · rintro ⟨s, v, heq⟩
    cases heq
    exact ⟨rfl, rfl⟩

/-- What a constant leaves is what its literals leave. -/
theorem runLeaves_constant {before : List Expr} {acc : List (String × Value)}
    {es : List (Expr × Expr)} {done : List EntryTrace} (factless : Bool)
    (hall : allLiterals es = true) (hno : ∀ e ∈ es, ∀ f args, e.2 ≠ .value (.deferred f args))
    (hdistinct : (literalRepeats before (es.map Prod.fst)).any id = false)
    (hacc : ∀ k, hashGet acc k = storedValue done k) (hkeys : (acc.map Prod.fst).Nodup)
    (hbefore : ∀ t ∈ done, ∀ s, t.key = .string s → isLiteralKey s before = true) :
    RunLeaves done (es.map (constantTrace factless))
      (literalValue (.hash (constantEntries acc es))) := by
  induction es generalizing before acc done with
  | nil =>
    refine ⟨⟨_, rfl, fun k ↦ ?_⟩, fun earlier t later heq ↦ by simp at heq⟩
    rw [constantEntries, hashGet_setEntries (by rwa [Value.keys_copyEntries]),
      Value.hashGet_copyEntries, hacc k, List.map_nil, List.append_nil]
    simp
  | cons e es ih =>
    obtain ⟨⟨s, v, rfl⟩, hall⟩ := allLiterals_cons_iff.1 hall
    have hvalue : literalValue v = v.copy :=
      literalValue_eq_copy fun f args hv ↦ hno _ List.mem_cons_self f args (by rw [hv])
    rw [List.map_cons, literalRepeats, List.any_cons, Bool.or_eq_false_iff] at hdistinct
    have htrace : constantTrace factless (.value (.string s), .value v) =
        ⟨.string s, v.copy, false, factless, false⟩ := by
      rw [constantTrace, hvalue]
      rfl
    rw [List.map_cons, htrace, constantEntries]
    refine RunLeaves.cons ⟨?_, fun h ↦ by cases h⟩
      (ih hall (fun e he ↦ hno e (List.mem_cons_of_mem _ he)) hdistinct.2 ?_
        (Bucket.nodup_set _ s v.copy hkeys) ?_)
    · refine iff_of_false Bool.false_ne_true ?_
      rintro ⟨⟨s', hs', t', ht', hkey'⟩, -⟩
      obtain rfl := Value.string.inj hs'
      have hrepeats : repeatsLiteral before (.value (.string s)) = true :=
        repeatsLiteral_eq_true_iff.2 ⟨s, rfl, hbefore t' ht' s hkey'⟩
      rw [id, hrepeats] at hdistinct
      cases hdistinct.1
    · intro k
      rw [hashGet_hashSet, storedValue_append, hacc k]
      by_cases hk : k = s
      · simp [hk]
      · rw [if_neg hk, if_neg fun h ↦ hk (Value.string.inj h).symm]
    · intro t ht s' hs'
      rw [isLiteralKey_append, Bool.or_eq_true]
      rcases List.mem_append.1 ht with hmem | hmem
      · exact .inl (hbefore t hmem s' hs')
      · obtain rfl := List.mem_singleton.1 hmem
        obtain rfl := Value.string.inj hs'
        exact .inr (by simp [literalKey])

/-- What evaluating a literal leaves. -/
theorem HashLiteral.Evaluates.leaves {l : HashLiteral} {ts : List EntryTrace} {u : Value}
    (h : l.Evaluates w env ts u env') : RunLeaves [] ts u := by
  cases h with
  | constant all distinct =>
    exact runLeaves_constant _ all l.no_deferred distinct (fun k ↦ rfl) List.nodup_nil (by simp)
  | entries notConstant run =>
    exact run.leaves (fun k ↦ rfl) (by simp [isLiteralKey])

/-! ### The evaluation -/

theorem returnsQuiet_evalEntries_iff_evaluates {before : List Expr} {acc : List (String × Value)}
    {es : List (Expr × Expr)} {u : Value} :
    w.ReturnsQuiet (evalEntries before acc es) env u env' ↔
      ∃ ts, EvaluatesEntries w before acc es env ts u env' := by
  induction es generalizing before acc env with
  | nil =>
    refine Prog.returns_pure_iff.trans ?_
    constructor
    · rintro ⟨rfl, rfl⟩
      exact ⟨[], .nil before acc _⟩
    · rintro ⟨ts, hts⟩
      cases hts
      exact ⟨rfl, rfl⟩
  | cons e es ih =>
    obtain ⟨keyExpr, valueExpr⟩ := e
    have hstring (k : String) (v : Value) (env₂ : Env) :
        w.ReturnsQuiet (do
          let factless ← read .factless
          if reportsKey before acc keyExpr k factless then
            emit .error ("The key '" ++ k ++ "' is declared more than once")
          evalEntries (before ++ [keyExpr]) (hashSet acc k v.copy) es) env₂ u env' ↔
        ∃ ts, EvaluatesEntries w (before ++ [keyExpr]) (hashSet acc k v.copy) es
          (if reportsKey before acc keyExpr k (EnvField.factless.get env₂) then
            env₂.emit (duplicateKey k) else env₂) ts u env' := by
      rw [← ih, returnsQuiet_bind_iff]
      simp only [returnsQuiet_read_iff]
      cases hreports : reportsKey before acc keyExpr k (EnvField.factless.get env₂) with
      | false =>
        rw [if_neg Bool.false_ne_true]
        constructor
        · rintro ⟨_, _, ⟨rfl, rfl⟩, hrun⟩
          rwa [hreports, if_neg Bool.false_ne_true] at hrun
        · intro hrun
          exact ⟨_, _, ⟨rfl, rfl⟩, by rwa [hreports, if_neg Bool.false_ne_true]⟩
      | true =>
        rw [if_pos rfl]
        constructor
        · rintro ⟨_, _, ⟨rfl, rfl⟩, hrun⟩
          rw [hreports, if_pos rfl, returnsQuiet_bind_iff] at hrun
          obtain ⟨_, env₃, hemit, hrun⟩ := hrun
          cases returnsQuiet_perform_iff.1 hemit
          exact hrun
        · intro hrun
          refine ⟨_, _, ⟨rfl, rfl⟩, ?_⟩
          rw [hreports, if_pos rfl, returnsQuiet_bind_iff]
          exact ⟨(), _, returnsQuiet_perform_iff.2 rfl, hrun⟩
    simp only [evalEntries, returnsQuiet_bind_iff]
    constructor
    · rintro ⟨key, env₁, hkey, v, env₂, hv, hrun⟩
      cases key
      case string k =>
        obtain ⟨ts, hts⟩ := (hstring k v env₂).1 hrun
        exact ⟨_, .string hkey hv rfl rfl hts⟩
      all_goals
        obtain ⟨ts, hts⟩ := ih.1 hrun
        exact ⟨_, .other hkey (by simp) hv hts⟩
    · rintro ⟨_, hts⟩
      cases hts with
      | @string _ _ _ _ _ _ env₁ env₂ _ k v _ ts _ _ hkey hv hfactless hreported rest =>
        subst hfactless hreported
        exact ⟨_, env₁, hkey, v, env₂, hv, (hstring k v env₂).2 ⟨ts, rest⟩⟩
      | @other _ _ _ _ _ _ env₁ env₂ _ k v _ ts hkey hno hv rest =>
        refine ⟨k, env₁, hkey, v, env₂, hv, ?_⟩
        cases k
        case string k => exact absurd rfl (hno k)
        all_goals exact ih.2 ⟨ts, rest⟩

/-- The runs that evaluate a literal. -/
theorem returnsQuiet_lowered_iff {l : HashLiteral} {u : Value} :
    w.ReturnsQuiet (evalExpr l.lowered) env u env' ↔ ∃ ts, l.Evaluates w env ts u env' := by
  rw [HashLiteral.lowered, convertHash]
  cases hconstant : allLiterals l.entries && !hasDupLiteralKey l.entries with
  | true =>
    have hboth := hconstant
    rw [Bool.and_eq_true, Bool.not_eq_true'] at hboth
    have hlowered : (if (true && !l.entries.isEmpty) = true then
        Expr.value (.hash (constantEntries [] l.entries))
        else if (!l.entries.isEmpty) = true then .hash l.entries else .value (.hash [])) =
        .value (.hash (constantEntries [] l.entries)) := by
      cases l.entries <;> rfl
    rw [hlowered, returnsQuiet_literal_iff]
    constructor
    · rintro ⟨rfl, rfl⟩
      exact ⟨_, .constant _ hboth.1 hboth.2⟩
    · rintro ⟨ts, hts⟩
      cases hts with
      | constant => exact ⟨rfl, rfl⟩
      | entries hnot =>
        rw [hconstant] at hnot
        cases hnot
  | false =>
    have hlowered : (if (false && !l.entries.isEmpty) = true then
        Expr.value (.hash (constantEntries [] l.entries))
        else if (!l.entries.isEmpty) = true then .hash l.entries else .value (.hash [])) =
        .hash l.entries := by
      cases hentries : l.entries with
      | nil =>
        rw [hentries] at hconstant
        cases hconstant
      | cons e es => rfl
    have hrun : w.ReturnsQuiet (evalExpr (.hash l.entries)) env u env' ↔
        w.ReturnsQuiet (evalEntries [] [] l.entries) env u env' := by
      rw [evalExpr, returnsQuiet_call_iff]
      exact returns_lift_iff
    rw [hlowered, hrun, returnsQuiet_evalEntries_iff_evaluates]
    refine exists_congr fun ts ↦ ⟨.entries hconstant, fun h ↦ ?_⟩
    cases h with
    | constant all distinct =>
      rw [all, distinct] at hconstant
      cases hconstant
    | entries _ run => exact run

end World

/-! ### Literals -/

/-- `{ 'a' => 1, 'a' => 2 }`. -/
def repeatedLiteral : HashLiteral where
  entries := [(textExpr "a", .value (.number 1)), (textExpr "a", .value (.number 2))]
  no_deferred := by simp

/-- `{ 1 => 'a' }`. -/
def numberKeyed : HashLiteral where
  entries := [(.value (.number 1), textExpr "a")]
  no_deferred := by simp [textExpr]

theorem exists_evaluates_numberKeyed :
    ∃ ts, numberKeyed.Evaluates World.bare Env.create ts (.hash []) Env.create ∧
      ∃ t ∈ ts, ∀ s, t.key ≠ .string s := by
  refine ⟨_, .entries rfl (.other (returnsQuiet_literal_iff.2 ⟨rfl, rfl⟩) (by
    intro s h
    cases h) (returnsQuiet_textExpr_iff.2 ⟨rfl, rfl⟩) (.nil _ _ _)), _, List.mem_cons_self, ?_⟩
  intro s h
  cases h

theorem exists_evaluates_repeatedLiteral :
    ∃ ts u env', repeatedLiteral.Evaluates World.bare Env.create ts u env' ∧
      ∃ t ∈ ts, t.literalRepeat = true := by
  have hkey (env : Env) :
      World.bare.ReturnsQuiet (evalExpr (textExpr "a")) env (.string "a") env :=
    returnsQuiet_textExpr_iff.2 ⟨rfl, rfl⟩
  refine ⟨_, _, _, .entries rfl (.string (hkey _) (returnsQuiet_literal_iff.2 ⟨rfl, rfl⟩) rfl rfl
    (.string (hkey _) (returnsQuiet_literal_iff.2 ⟨rfl, rfl⟩) rfl rfl (.nil _ _ _))),
    _, List.mem_cons_of_mem _ List.mem_cons_self, ?_⟩
  simp [repeatsLiteral, literalKey, isLiteralKey, textExpr]

end PuppetC
