import PuppetC.Interp.TypeText
import PuppetC.Support.Program
import PuppetC.Text

/-!
# Runs of the check of a type

The check of a value against the text of a type resolves aliases: their bodies are checked in
turn. A qualified name that is not in the table of aliases makes the program read a file, which may
add aliases to the table. A counter bounds the aliases that are resolved one in the other, by 16.

Here the check is a program on the table and the counter. Whatever the table holds, it returns and
leaves the counter as it was: an alias counts, and everything else goes on with a shorter text. If
every file has only the alias of its name, it answers what `matchLevels` does.

## Main definitions

* `AliasState`, `AliasOp`: the table and the counter, and what is done with them.
* `checkTypeStr`, `matchTypeAlias`: `value_matches_type_str`, `match_type_alias`.
* `Settled`, `Gives`: a program returns and leaves the counter alone; it returns a given answer.
* `foundBody`: the aliases in the table and in the files.

## Main results

* `settled_checkText`: the check returns from every state.
* `gives_checkText`: what it answers.
-/

namespace PuppetC

/-! ### The program -/

/-- The table of the aliases, and how many of them are being resolved. -/
structure AliasState where
  typeAliases : List (List Char × List Char)
  aliasDepth : ℕ

/-- What is done with the state. -/
inductive AliasOp : Type → Type where
  | lookup (name : List Char) : AliasOp (Option (List Char))
  | load (name : List Char) : AliasOp Unit
  | depth : AliasOp ℕ
  | enter : AliasOp Unit
  | leave : AliasOp Unit

/-- The recursive procedure. -/
inductive TypeCall : Type → Type where
  | check (t : List Char) : TypeCall Bool

/-- Programs that check a value. -/
abbrev Matching := Prog (Calls TypeCall AliasOp)

namespace AliasState

/-- `puppet_try_load_type_alias`, of a file with the given aliases: those that are there already
stay. -/
def load (s : AliasState) (found : List (List Char × List Char)) : AliasState :=
  { s with
    typeAliases := found.foldl (fun as e ↦
      if (as.lookup e.1).isSome then as else as ++ [e]) s.typeAliases }

end AliasState

/-- The meaning of the operations, where `files` are the aliases in the file of a name. -/
def AliasOp.handle (files : List Char → List (List Char × List Char)) :
    Handler AliasOp AliasState Unit
  | _, .lookup name, s => .ok (s.typeAliases.lookup name, s)
  | _, .load name, s => .ok ((), s.load (files name))
  | _, .depth, s => .ok (s.aliasDepth, s)
  | _, .enter, s => .ok ((), { s with aliasDepth := s.aliasDepth + 1 })
  | _, .leave, s => .ok ((), { s with aliasDepth := s.aliasDepth - 1 })

/-- Perform an operation on the state. -/
def onAliases {α : Type} (o : AliasOp α) : Matching α := Prog.perform (.prim o)

/-- Check the text of a type. -/
def checkText (t : List Char) : Matching Bool := Prog.perform (.call (.check t))

/-- The body of an alias, from the table or from the file of its name. -/
def findAlias (base : List Char) : Matching (Option (List Char)) := do
  match ← onAliases (.lookup base) with
  | some body => return some body
  | none =>
    if (cutColons base).isSome then
      onAliases (.load base)
      onAliases (.lookup base)
    else return none

/-- `match_type_alias`. -/
def matchTypeAlias (base : List Char) : Matching (Option Bool) := do
  if base = [] then return none
  else
    match ← findAlias base with
    | none => return none
    | some body =>
      if 16 ≤ (← onAliases .depth) then return none
      else
        onAliases .enter
        let m ← checkText body
        onAliases .leave
        return some m

/-- The names of types that are known without brackets. -/
def bareNames : List (List Char) :=
  ["Hash", "Array", "Boolean", "Numeric", "Integer", "String", "Regexp", "Undef",
    "NotUndef"].map String.toList

section Check

variable (T : TypeEnv) (v : Value)

/-- A type without brackets. -/
def checkBare (base : List Char) : Matching Bool :=
  if bareNames.contains base then return matchBare (fun _ ↦ none) v base
  else do return (← matchTypeAlias base).getD true

/-- `Optional[T]`. -/
def checkOptional (bracket : List Char) : Matching Bool :=
  match v with
  | .undef => return true
  | _ =>
    match beforeLastBracket bracket.tail with
    | none => return true
    | some inner => checkText ((inner.take 127).dropWhile isSpaceOrTab)

/-- The types of a `Variant`, up to the first that matches. -/
def checkParts : List (List Char) → Matching Bool
  | [] => return false
  | t :: ts =>
    if 256 ≤ t.length then return true
    else do if ← checkText t then return true else checkParts ts

/-- `Variant[T1, ...]`. -/
def checkVariant (bracket : List Char) : Matching Bool :=
  match beforeLastBracket bracket.tail with
  | none | some [] => return true
  | some inner =>
    if (variantParts inner).isEmpty then return true else checkParts (variantParts inner)

/-- Types with brackets that only their base tells apart. -/
def checkOther (base : List Char) : Matching Bool :=
  match matchKnown v base with
  | some b => return b
  | none => do return (← matchTypeAlias base).getD true

/-- `value_matches_type_str`. -/
def checkTypeStr (t : List Char) : Matching Bool :=
  if t = [] then return true
  else
    let base := trimEnd ((t.takeWhile (· ≠ '[')).take 63)
    let bracket := t.dropWhile (· ≠ '[')
    if bracket = [] then checkBare v base
    else if base = "String".toList then return matchString v bracket
    else if base = "Integer".toList then return matchInteger v bracket
    else if base = "Optional".toList then checkOptional v bracket
    else if base = "Enum".toList then return matchEnum v bracket
    else if base = "Pattern".toList then return matchPattern T v bracket
    else if base = "Variant".toList then checkVariant bracket
    else checkOther v base

/-- The body of the procedure. -/
def typeBody : (β : Type) → TypeCall β → Matching β
  | _, .check t => checkTypeStr T v t

end Check

/-- What a program returns, at some depth of calls. -/
abbrev MatchReturns (T : TypeEnv) (files : List Char → List (List Char × List Char)) (v : Value)
    {α : Type} (p : Matching α) (s : AliasState) (a : α) (s' : AliasState) : Prop :=
  p.Returns (Calls.handler (typeBody T v) (AliasOp.handle files) ()) s a s'

section Returns

variable {T : TypeEnv} {files : List Char → List (List Char × List Char)} {v : Value}
  {α β : Type} {s s' : AliasState}

theorem matchReturns_onAliases_iff {o : AliasOp α} {a : α} :
    MatchReturns T files v (onAliases o) s a s' ↔
      AliasOp.handle files α o s = .ok (a, s') := by
  refine Prog.returns_perform_iff.trans ?_
  have hprim : ∀ n, Calls.handler (typeBody T v) (AliasOp.handle files) () n α (.prim o) s =
      AliasOp.handle files α o s := by
    intro n
    cases n <;> rfl
  simp only [hprim, exists_const]

theorem matchReturns_checkText_iff {t : List Char} {b : Bool} :
    MatchReturns T files v (checkText t) s b s' ↔
      MatchReturns T files v (checkTypeStr T v t) s b s' := by
  refine Prog.returns_perform_iff.trans ?_
  constructor
  · rintro ⟨_ | n, hn⟩
    · cases hn
    · exact ⟨n, hn⟩
  · rintro ⟨n, hn⟩
    exact ⟨n + 1, hn⟩

/-! ### Programs that return -/

/-- From every state in which at least `16 - levels` aliases are being resolved, the program
returns, and as many are then. -/
def Settled (T : TypeEnv) (files : List Char → List (List Char × List Char)) (v : Value)
    (levels : ℕ) (p : Matching α) : Prop :=
  ∀ s : AliasState, 16 - s.aliasDepth ≤ levels →
    ∃ a s', MatchReturns T files v p s a s' ∧ s'.aliasDepth = s.aliasDepth

variable {levels : ℕ}

theorem Settled.pure (a : α) : Settled T files v levels (pure a) :=
  fun s _ ↦ ⟨a, s, Prog.returns_pure_iff.2 ⟨rfl, rfl⟩, rfl⟩

theorem Settled.bind {p : Matching α} {f : α → Matching β} (hp : Settled T files v levels p)
    (hf : ∀ a, Settled T files v levels (f a)) : Settled T files v levels (p >>= f) := by
  intro s hs
  obtain ⟨a, s₁, hret, hdepth⟩ := hp s hs
  obtain ⟨b, s', hret', hdepth'⟩ := hf a s₁ (hdepth ▸ hs)
  exact ⟨b, s', (Prog.returns_bind_iff Calls.increasing).2 ⟨a, s₁, hret, hret'⟩,
    hdepth'.trans hdepth⟩

theorem settled_lookup (name : List Char) :
    Settled T files v levels (onAliases (.lookup name)) :=
  fun s _ ↦ ⟨_, s, matchReturns_onAliases_iff.2 rfl, rfl⟩

theorem settled_findAlias (base : List Char) : Settled T files v levels (findAlias base) := by
  refine .bind (settled_lookup base) fun known ↦ ?_
  cases known with
  | some body => exact .pure _
  | none =>
    change Settled T files v levels (if (cutColons base).isSome then _ else _)
    split_ifs
    · refine .bind (fun s _ ↦ ?_) fun _ ↦ settled_lookup base
      exact ⟨(), _, matchReturns_onAliases_iff.2 rfl, rfl⟩
    · exact .pure _

/-- An alias is resolved if its body can be checked with one more alias being resolved. -/
theorem settled_matchTypeAlias
    (hcheck : ∀ levels' < levels, ∀ body, Settled T files v levels' (checkText body))
    (base : List Char) : Settled T files v levels (matchTypeAlias base) := by
  unfold matchTypeAlias
  split_ifs
  · exact .pure _
  · refine .bind (settled_findAlias base) fun found ↦ ?_
    cases found with
    | none => exact .pure _
    | some body =>
      intro s hs
      have hdepth : MatchReturns T files v (onAliases .depth) s s.aliasDepth s :=
        matchReturns_onAliases_iff.2 rfl
      by_cases hlimit : 16 ≤ s.aliasDepth
      · refine ⟨none, s, (Prog.returns_bind_iff Calls.increasing).2 ⟨_, s, hdepth, ?_⟩, rfl⟩
        rw [if_pos hlimit]
        exact Prog.returns_pure_iff.2 ⟨rfl, rfl⟩
      · let s₁ : AliasState := { s with aliasDepth := s.aliasDepth + 1 }
        have hone : 16 - s₁.aliasDepth ≤ 16 - (s.aliasDepth + 1) := le_rfl
        obtain ⟨m, s₂, hbody, hdepth₂⟩ := hcheck (16 - (s.aliasDepth + 1)) (by omega) body s₁ hone
        refine ⟨some m, { s₂ with aliasDepth := s₂.aliasDepth - 1 },
          (Prog.returns_bind_iff Calls.increasing).2 ⟨_, s, hdepth, ?_⟩, ?_⟩
        · rw [if_neg hlimit]
          have henter : MatchReturns T files v (onAliases .enter) s () s₁ :=
            matchReturns_onAliases_iff.2 rfl
          have hleave : MatchReturns T files v (onAliases .leave) s₂ ()
              { s₂ with aliasDepth := s₂.aliasDepth - 1 } := matchReturns_onAliases_iff.2 rfl
          simp only [Prog.returns_bind_iff Calls.increasing]
          exact ⟨(), s₁, henter, m, s₂, hbody, (), _, hleave, Prog.returns_pure_iff.2 ⟨rfl, rfl⟩⟩
        · change s₂.aliasDepth - 1 = s.aliasDepth
          rw [hdepth₂]
          exact Nat.add_sub_cancel ..

theorem settled_checkParts {ts : List (List Char)}
    (h : ∀ t ∈ ts, Settled T files v levels (checkText t)) :
    Settled T files v levels (checkParts ts) := by
  induction ts with
  | nil => exact .pure _
  | cons t ts ih =>
    rw [checkParts]
    split_ifs
    · exact .pure _
    · refine .bind (h t List.mem_cons_self) fun b ↦ ?_
      split_ifs
      · exact .pure _
      · exact ih fun u hu ↦ h u (List.mem_cons_of_mem t hu)

/-- The check of a text returns if that of shorter texts does, and that of aliases. -/
theorem settled_step {t : List Char}
    (hshort : ∀ u, u.length < t.length → Settled T files v levels (checkText u))
    (halias : ∀ base, Settled T files v levels (matchTypeAlias base)) :
    Settled T files v levels (checkTypeStr T v t) := by
  have hbracket : (t.dropWhile (· ≠ '[')).tail.length ≤ t.length :=
    (List.length_tail ▸ Nat.sub_le ..).trans (List.dropWhile_suffix _).length_le
  have hoptional : Settled T files v levels (checkOptional v (t.dropWhile (· ≠ '['))) := by
    unfold checkOptional
    split
    · exact .pure _
    · split
      · exact .pure _
      · next inner hinner =>
        refine hshort _ (lt_of_le_of_lt ?_
          ((length_lt_of_beforeLastBracket hinner).trans_le hbracket))
        exact (List.dropWhile_suffix _).length_le.trans (List.length_take_le' ..)
  have hvariant : Settled T files v levels (checkVariant (t.dropWhile (· ≠ '['))) := by
    unfold checkVariant
    split
    · exact .pure _
    · exact .pure _
    · next inner _ hinner =>
      split_ifs
      · exact .pure _
      · refine settled_checkParts fun u hu ↦ hshort u ?_
        exact (length_le_of_mem_variantParts hu).trans_lt
          ((length_lt_of_beforeLastBracket hinner).trans_le hbracket)
  have hresolve (base : List Char) : Settled T files v levels
      (do return (← matchTypeAlias base).getD true) := (halias base).bind fun _ ↦ .pure _
  have hbare (base : List Char) : Settled T files v levels (checkBare v base) := by
    unfold checkBare
    split_ifs
    exacts [.pure _, hresolve base]
  have hother (base : List Char) : Settled T files v levels (checkOther v base) := by
    unfold checkOther
    split
    exacts [.pure _, hresolve base]
  unfold checkTypeStr
  dsimp only
  split_ifs
  exacts [.pure _, hbare _, .pure _, .pure _, hoptional, .pure _, .pure _, hvariant, hother _]

/-- The check of a value against a text returns and leaves the counter alone, whatever aliases the
table has and the files add. -/
theorem settled_checkText (levels : ℕ) (t : List Char) :
    Settled T files v levels (checkText t) := by
  induction levels using Nat.strong_induction_on generalizing t with
  | _ levels ihlevels =>
    induction hn : t.length using Nat.strong_induction_on generalizing t with
    | _ n ih =>
      subst hn
      intro s hs
      obtain ⟨b, s', hret, hdepth⟩ := settled_step (fun u hu ↦ ih u.length hu u rfl)
        (settled_matchTypeAlias ihlevels) s hs
      exact ⟨b, s', matchReturns_checkText_iff.2 hret, hdepth⟩

end Returns

/-! ### What the check answers -/

/-- What an alias answers where that many aliases can be resolved one in the other. -/
def aliasAnswer (T : TypeEnv) (v : Value) : ℕ → List Char → Option Bool
  | 0, _ => none
  | levels + 1, base =>
    if base = [] then none else (T.aliasBody base).map (matchLevels T v levels)

theorem matchLevels_nil (T : TypeEnv) (v : Value) (levels : ℕ) :
    matchLevels T v levels [] = true := by
  cases levels <;> rfl

theorem matchLevels_eq (T : TypeEnv) (v : Value) (levels : ℕ) (t : List Char) :
    matchLevels T v levels t = matchText T (aliasAnswer T v levels) v t.length t := by
  cases levels <;> rfl

/-- The check of a text is a round on the checks of its parts. -/
theorem matchLevels_step {T : TypeEnv} {v : Value} {levels : ℕ} {t : List Char} (ht : t ≠ []) :
    matchLevels T v levels t =
      matchStep T (aliasAnswer T v levels) v (matchLevels T v levels) t := by
  rw [matchLevels_eq, matchText_length_eq ht]
  exact matchStep_congr fun u _ ↦ (matchLevels_eq T v levels u).symm

section Answers

variable {T : TypeEnv} {files : List Char → List (List Char × List Char)} {v : Value}
  {aliases : List (List Char × List Char)} {α β : Type} {levels : ℕ}

/-- The body of an alias that is in a table or in the file of its name. -/
def foundBody (files : List Char → List (List Char × List Char))
    (aliases : List (List Char × List Char)) (base : List Char) : Option (List Char) :=
  match aliases.lookup base with
  | some body => some body
  | none =>
    if (cutColons base).isSome then
      (AliasState.load ⟨aliases, 0⟩ (files base)).typeAliases.lookup base
    else none

/-- Every file has only the alias of its name. -/
def OwnFiles (files : List Char → List (List Char × List Char)) : Prop :=
  ∀ name, ∀ e ∈ files name, e.1 = name

theorem lookup_load {s : AliasState} {found : List (List Char × List Char)} {name : List Char}
    (h : ∀ e ∈ found, e.1 = name) (base : List Char) :
    (s.load found).typeAliases.lookup base =
      (s.typeAliases.lookup base).or (if base = name then found.head?.map Prod.snd else none) := by
  have hadd (as : List (List Char × List Char)) (e : List Char × List Char) (he : e.1 = name) :
      (if (as.lookup e.1).isSome then as else as ++ [e]).lookup base =
        (as.lookup base).or (if base = name then some e.2 else none) := by
    have hone : [e].lookup base = if base = name then some e.2 else none := by
      obtain ⟨n, body⟩ := e
      obtain rfl : n = name := he
      by_cases hbase : base = n
      · rw [if_pos hbase, hbase, List.lookup_cons_self]
      · rw [if_neg hbase, List.lookup_cons, beq_false_of_ne hbase]
        rfl
    rw [he, ← hone]
    by_cases hbase : base = name
    · subst hbase
      cases hlookup : as.lookup base <;> simp [hlookup, List.lookup_append]
    · rw [hone, if_neg hbase, Option.or_none]
      split_ifs
      · rfl
      · rw [List.lookup_append, hone, if_neg hbase, Option.or_none]
  have hload (found : List (List Char × List Char)) (h : ∀ e ∈ found, e.1 = name)
      (as : List (List Char × List Char)) :
      (found.foldl (fun as e ↦ if (as.lookup e.1).isSome then as else as ++ [e]) as).lookup base =
        (as.lookup base).or (if base = name then found.head?.map Prod.snd else none) := by
    induction found generalizing as with
    | nil => simp
    | cons e found ih =>
      rw [List.foldl_cons, ih (fun e' he' ↦ h e' (List.mem_cons_of_mem e he')),
        hadd as e (h e List.mem_cons_self)]
      by_cases hbase : base = name
      · cases as.lookup base <;> simp [hbase]
      · simp [hbase]
  exact hload found h s.typeAliases

theorem foundBody_eq (hfiles : OwnFiles files) (aliases : List (List Char × List Char))
    (base : List Char) :
    foundBody files aliases base =
      (aliases.lookup base).or
        (if (cutColons base).isSome then (files base).head?.map Prod.snd else none) := by
  unfold foundBody
  rw [lookup_load (hfiles base), if_pos rfl]
  cases aliases.lookup base <;> simp

/-- Reading a file does not change which aliases there are. -/
theorem foundBody_load (hfiles : OwnFiles files) (s : AliasState) {name : List Char}
    (hname : (cutColons name).isSome) (base : List Char) :
    foundBody files (s.load (files name)).typeAliases base =
      foundBody files s.typeAliases base := by
  rw [foundBody_eq hfiles, foundBody_eq hfiles, lookup_load (hfiles name), Option.or_assoc]
  by_cases hbase : base = name
  · subst hbase
    rw [if_pos rfl, if_pos hname, Option.or_self]
  · rw [if_neg hbase, Option.none_or]

/-- In every state whose table and files have the aliases of `T` and in which that many aliases can
still be resolved, the program returns the answer and leaves the counter alone, and the table and
the files still have these aliases. -/
def Gives (T : TypeEnv) (files : List Char → List (List Char × List Char)) (v : Value)
    (levels : ℕ) (p : Matching α) (a : α) : Prop :=
  ∀ s : AliasState, (∀ base, foundBody files s.typeAliases base = T.aliasBody base) →
    16 - s.aliasDepth = levels →
      ∃ s', MatchReturns T files v p s a s' ∧ s'.aliasDepth = s.aliasDepth ∧
        ∀ base, foundBody files s'.typeAliases base = T.aliasBody base

theorem Gives.pure (a : α) : Gives T files v levels (pure a) a :=
  fun s hs _ ↦ ⟨s, Prog.returns_pure_iff.2 ⟨rfl, rfl⟩, rfl, hs⟩

theorem Gives.bind {p : Matching α} {f : α → Matching β} {a : α} {b : β}
    (hp : Gives T files v levels p a) (hf : Gives T files v levels (f a) b) :
    Gives T files v levels (p >>= f) b := by
  intro s hs hlevels
  obtain ⟨s₁, hret, hdepth, hs₁⟩ := hp s hs hlevels
  obtain ⟨s', hret', hdepth', hs'⟩ := hf s₁ hs₁ (hdepth ▸ hlevels)
  exact ⟨s', (Prog.returns_bind_iff Calls.increasing).2 ⟨a, s₁, hret, hret'⟩,
    hdepth'.trans hdepth, hs'⟩

theorem gives_findAlias (hfiles : OwnFiles files) (base : List Char) :
    Gives T files v levels (findAlias base) (T.aliasBody base) := by
  intro s hs _
  have hlookup (s : AliasState) :
      MatchReturns T files v (onAliases (.lookup base)) s (s.typeAliases.lookup base) s :=
    matchReturns_onAliases_iff.2 rfl
  have hbody := hs base
  unfold foundBody at hbody
  unfold findAlias
  cases hfound : s.typeAliases.lookup base with
  | some body =>
    refine ⟨s, (Prog.returns_bind_iff Calls.increasing).2 ⟨_, s, hlookup s, ?_⟩, rfl, hs⟩
    rw [hfound] at hbody ⊢
    exact Prog.returns_pure_iff.2 ⟨hbody.symm, rfl⟩
  | none =>
    rw [hfound] at hbody
    dsimp only at hbody
    by_cases hname : (cutColons base).isSome
    · rw [if_pos hname] at hbody
      refine ⟨s.load (files base), (Prog.returns_bind_iff Calls.increasing).2 ⟨_, s, hlookup s, ?_⟩,
        rfl, fun base' ↦ (foundBody_load hfiles s hname base').trans (hs base')⟩
      rw [hfound]
      dsimp only
      rw [if_pos hname]
      have hload : MatchReturns T files v (onAliases (.load base)) s () (s.load (files base)) :=
        matchReturns_onAliases_iff.2 rfl
      refine (Prog.returns_bind_iff Calls.increasing).2 ⟨(), _, hload, ?_⟩
      exact hbody ▸ hlookup (s.load (files base))
    · rw [if_neg hname] at hbody
      refine ⟨s, (Prog.returns_bind_iff Calls.increasing).2 ⟨_, s, hlookup s, ?_⟩, rfl, hs⟩
      rw [hfound]
      dsimp only
      rw [if_neg hname]
      exact Prog.returns_pure_iff.2 ⟨hbody.symm, rfl⟩

/-- An alias answers what its body does. -/
theorem gives_matchTypeAlias (hfiles : OwnFiles files)
    (hcheck : ∀ levels', levels' + 1 = levels → ∀ body,
      Gives T files v levels' (checkText body) (matchLevels T v levels' body))
    (base : List Char) :
    Gives T files v levels (matchTypeAlias base) (aliasAnswer T v levels base) := by
  unfold matchTypeAlias
  split_ifs with hbase
  · have hnone : aliasAnswer T v levels base = none := by
      cases levels with
      | zero => rfl
      | succ levels => rw [aliasAnswer, if_pos hbase]
    rw [hnone]
    exact .pure _
  · refine (gives_findAlias hfiles base).bind ?_
    cases hfound : T.aliasBody base with
    | none =>
      have hnone : aliasAnswer T v levels base = none := by
        cases levels with
        | zero => rfl
        | succ levels => rw [aliasAnswer, if_neg hbase, hfound, Option.map_none]
      rw [hnone]
      exact .pure _
    | some body =>
      intro s hs hlevels
      have hdepth : MatchReturns T files v (onAliases .depth) s s.aliasDepth s :=
        matchReturns_onAliases_iff.2 rfl
      cases levels with
      | zero =>
        refine ⟨s, (Prog.returns_bind_iff Calls.increasing).2 ⟨_, s, hdepth, ?_⟩, rfl, hs⟩
        rw [if_pos (by omega)]
        exact Prog.returns_pure_iff.2 ⟨rfl, rfl⟩
      | succ levels =>
        let s₁ : AliasState := { s with aliasDepth := s.aliasDepth + 1 }
        obtain ⟨s₂, hbody, hdepth₂, hs₂⟩ :=
          hcheck levels rfl body s₁ hs (by change 16 - (s.aliasDepth + 1) = _; omega)
        refine ⟨{ s₂ with aliasDepth := s₂.aliasDepth - 1 },
          (Prog.returns_bind_iff Calls.increasing).2 ⟨_, s, hdepth, ?_⟩, ?_, hs₂⟩
        · have henter : MatchReturns T files v (onAliases .enter) s () s₁ :=
            matchReturns_onAliases_iff.2 rfl
          have hleave : MatchReturns T files v (onAliases .leave) s₂ ()
              { s₂ with aliasDepth := s₂.aliasDepth - 1 } := matchReturns_onAliases_iff.2 rfl
          rw [if_neg (by omega), aliasAnswer, if_neg hbase, hfound, Option.map_some]
          simp only [Prog.returns_bind_iff Calls.increasing]
          exact ⟨(), s₁, henter, _, s₂, hbody, (), _, hleave, Prog.returns_pure_iff.2 ⟨rfl, rfl⟩⟩
        · change s₂.aliasDepth - 1 = s.aliasDepth
          rw [hdepth₂]
          exact Nat.add_sub_cancel ..

theorem gives_checkParts {check : List Char → Bool} {ts : List (List Char)}
    (h : ∀ t ∈ ts, Gives T files v levels (checkText t) (check t)) :
    Gives T files v levels (checkParts ts)
      (ts.any fun t ↦ decide (256 ≤ t.length) || check t) := by
  induction ts with
  | nil => exact .pure _
  | cons t ts ih =>
    rw [checkParts, List.any_cons]
    by_cases hlength : 256 ≤ t.length
    · rw [if_pos hlength, decide_eq_true hlength]
      exact .pure _
    · rw [if_neg hlength, decide_eq_false hlength, Bool.false_or]
      refine (h t List.mem_cons_self).bind ?_
      cases check t with
      | true => exact .pure _
      | false => exact ih fun u hu ↦ h u (List.mem_cons_of_mem t hu)

theorem matchBare_eq {resolve : List Char → Option Bool} {base : List Char} :
    matchBare resolve v base =
      if bareNames.contains base then matchBare (fun _ ↦ none) v base
      else (resolve base).getD true := by
  split_ifs with hbase
  · have hmem := List.contains_iff_mem.1 hbase
    simp only [bareNames, List.map_cons, List.map_nil, List.mem_cons, List.not_mem_nil,
      or_false] at hmem
    rcases hmem with rfl | rfl | rfl | rfl | rfl | rfl | rfl | rfl | rfl <;> rfl
  · have hne (name : String) (hname : name ∈ ["Hash", "Array", "Boolean", "Numeric", "Integer",
        "String", "Regexp", "Undef", "NotUndef"]) : base ≠ name.toList :=
      fun heq ↦ hbase (List.contains_iff_mem.2 (heq ▸ List.mem_map_of_mem hname))
    have hknown : matchKnown v base = none := by
      unfold matchKnown
      rw [if_neg (hne "Hash" (by simp)), if_neg (hne "Array" (by simp)),
        if_neg (hne "Boolean" (by simp)), if_neg (hne "Numeric" (by simp))]
    unfold matchBare
    rw [hknown]
    dsimp only
    rw [if_neg (hne "Integer" (by simp)), if_neg (hne "String" (by simp)),
      if_neg (hne "Regexp" (by simp)), if_neg (hne "Undef" (by simp)),
      if_neg (hne "NotUndef" (by simp))]

/-- The check of a text answers what the round does. -/
theorem gives_step {t : List Char} {check : List Char → Bool} {resolve : List Char → Option Bool}
    (hshort : ∀ u, u.length < t.length → Gives T files v levels (checkText u) (check u))
    (halias : ∀ base, Gives T files v levels (matchTypeAlias base) (resolve base)) :
    Gives T files v levels (checkTypeStr T v t) (matchStep T resolve v check t) := by
  have hbracket : (t.dropWhile (· ≠ '[')).tail.length ≤ t.length :=
    (List.length_tail ▸ Nat.sub_le ..).trans (List.dropWhile_suffix _).length_le
  have hoptional : Gives T files v levels (checkOptional v (t.dropWhile (· ≠ '[')))
      (matchOptional check v (t.dropWhile (· ≠ '['))) := by
    unfold checkOptional matchOptional
    cases v with
    | undef => exact .pure _
    | bool | string | number | array | hash | regexp | deferred =>
      cases hinner : beforeLastBracket (t.dropWhile (· ≠ '[')).tail with
      | none =>
        exact .pure _
      | some inner =>
        refine hshort _ (lt_of_le_of_lt ?_
          ((length_lt_of_beforeLastBracket hinner).trans_le hbracket))
        exact (List.dropWhile_suffix _).length_le.trans (List.length_take_le' ..)
  have hvariant : Gives T files v levels (checkVariant (t.dropWhile (· ≠ '[')))
      (matchVariant check (t.dropWhile (· ≠ '['))) := by
    unfold checkVariant matchVariant
    cases hinner : beforeLastBracket (t.dropWhile (· ≠ '[')).tail with
    | none =>
      exact .pure _
    | some inner =>
      cases inner with
      | nil =>
        exact .pure _
      | cons c inner =>
        dsimp only
        split_ifs with hempty
        · rw [hempty]
          exact .pure _
        · rw [Bool.eq_false_iff.2 hempty, Bool.false_or]
          refine gives_checkParts fun u hu ↦ hshort u ?_
          exact (length_le_of_mem_variantParts hu).trans_lt
            ((length_lt_of_beforeLastBracket hinner).trans_le hbracket)
  have hresolve (base : List Char) : Gives T files v levels
      (do return (← matchTypeAlias base).getD true) ((resolve base).getD true) :=
    (halias base).bind (.pure _)
  have hbare (base : List Char) :
      Gives T files v levels (checkBare v base) (matchBare resolve v base) := by
    rw [matchBare_eq]
    unfold checkBare
    split_ifs
    exacts [.pure _, hresolve base]
  have hother (base : List Char) : Gives T files v levels (checkOther v base)
      (((matchKnown v base).orElse fun _ ↦ resolve base).getD true) := by
    unfold checkOther
    cases matchKnown v base with
    | some b => exact .pure _
    | none => exact hresolve base
  unfold checkTypeStr matchStep
  dsimp only
  split_ifs
  exacts [.pure _, hbare _, .pure _, .pure _, hoptional, .pure _, .pure _, hvariant, hother _]

/-- The check of a value against a text answers what `matchLevels` does. -/
theorem gives_checkText (hfiles : OwnFiles files) (levels : ℕ) (t : List Char) :
    Gives T files v levels (checkText t) (matchLevels T v levels t) := by
  induction levels using Nat.strong_induction_on generalizing t with
  | _ levels ihlevels =>
    induction hn : t.length using Nat.strong_induction_on generalizing t with
    | _ n ih =>
      subst hn
      intro s hs hlevels
      have hstep := gives_step (T := T) (fun u hu ↦ ih u.length hu u rfl)
        (gives_matchTypeAlias hfiles fun levels' hlevels' body ↦
          ihlevels levels' (by omega) body)
      have hanswer : matchLevels T v levels t =
          matchStep T (aliasAnswer T v levels) v (matchLevels T v levels) t := by
        cases t with
        | nil => rw [matchLevels_nil]; rfl
        | cons c t => exact matchLevels_step (List.cons_ne_nil c t)
      rw [hanswer]
      obtain ⟨s', hret, hrest⟩ := hstep s hs hlevels
      exact ⟨s', matchReturns_checkText_iff.2 hret, hrest⟩

end Answers

end PuppetC
