import PuppetC.Interp.Runs

/-!
# What is defined

`defined` is given a text. A reference `Type['title']` is evaluated to the text `Type[title]` before
the function sees it, so the function takes it apart again: what is before the first `[` is the
type, and a quote at the beginning of the title is taken for one that the reference was written
with. The key that it then looks for in `resource_catalog` goes through buffers of 128 and 640
bytes, with the type in lower case. Declarations put their keys there with the type as they spell
it, and without a limit.

Classes are looked for among those that the loader has in its cache, which is kept from one node
to the next, and in `class_scopes`, which is not. Defined types and built-in types, which
`puppet_type_is_known` finds, are not looked for.

## Main definitions

* `definedText`: the answer of `puppet_func_defined` for a text.
* `Env.Declared`: a resource or class has been declared.
* `World.Knows`: a class, defined type or built-in type is known.
* `ReferenceFits`, `NameFits`: the conditions on the tables.

## Main results

* `returnsQuiet_funcDefined_iff`: the answer of the function.
* `defined_exact`: when the answers are exact.
-/

namespace PuppetC

section World

variable (w : World) (env : Env)

/-! ### The answer for a text -/

/-- Is the class in the cache of the loader? -/
def classLoaded (name : String) : Bool := w.loader.isSome && (env.loadedClasses.lookup name).isSome

/-- Is the class in the cache of the loader or in the registry? -/
def classKnown (name : String) : Bool := classLoaded w env name || (env.findClassDef name).isSome

/-- Is the key in `resource_catalog`? -/
def inCatalog (key : String) : Bool := (env.marks .resourceCatalog).contains key

/-- The title that is looked for. -/
def soughtTitle (title : String) : String := String.ofList (unquoteTitle title.toList)

/-- The key that is looked for. -/
def catalogKey (type title : String) : String :=
  bufferCopy 640 (resourceId (bufferCopy 128 (lowerText type)) (soughtTitle title))

/-- Is what a reference is taken for found? -/
def findsReference (type title : String) : Bool :=
  if lowerText type = "class" then
    classLoaded w env (soughtTitle title) || (env.classScopes.get (soughtTitle title)).isSome
  else inCatalog env (catalogKey type title)

/-- What is before the first `[` of a text. -/
def referenceType (s : String) : String := String.ofList (s.toList.takeWhile (· ≠ '['))

/-- What is between the first `[` of a text and its end. -/
def referenceTitle (s : String) : String :=
  String.ofList ((s.toList.dropWhile (· ≠ '[')).drop 1).dropLast

/-- Is a text taken for a reference? -/
def isReference (s : String) : Bool := s.toList.contains '[' && s.toList.getLast? = some ']'

/-- Is a text a reference that is found? -/
def looksUp (s : String) : Bool :=
  isReference s && findsReference w env (referenceType s) (referenceTitle s)

/-- The answer of `puppet_func_defined` for a text. -/
def definedText (s : String) : Bool := classKnown w env s || inCatalog env s || looksUp w env s

/-- The answer for a value. -/
def definedValue : Value → Bool
  | .string s => definedText w env s
  | _ => false

end World

/-! ### What the answer is to be -/

/-- A resource of this type, in any spelling, and this title has been declared; a class has been
declared if it has a scope. -/
def Env.Declared (env : Env) (type title : String) : Prop :=
  if lowerText type = "class" then (env.classScopes.get title).isSome = true
  else ∃ t, lowerText t = lowerText type ∧ inCatalog env (resourceId t title)

/-- A class, a defined type or a built-in type of this name is known. -/
def World.Knows (w : World) (env : Env) (name : String) : Prop :=
  classKnown w env name ∨ (env.defineTypes.get name).isSome ∨ name ∈ builtinTypes

/-- `defined` returns, and is true exactly if `P` is. -/
def World.Answers (w : World) (args : List Expr) (env env' : Env) (P : Prop) : Prop :=
  ∃ b : Bool, w.ReturnsQuiet (funcDefined w args) env (.bool b) env' ∧ (b = true ↔ P)

section World

variable (w : World) (env : Env) (type title : String)

/-- If no such resource is declared, then neither is one with the key that is looked for, and no
class has the text for its name; if one is declared, then with the type as it is written, or with
that key, or such a class is known. -/
structure ResourceFits : Prop where
  unmistaken : (∀ t, lowerText t = lowerText type → inCatalog env (resourceId t title) = false) →
    inCatalog env (catalogKey type title) = false ∧
      classKnown w env (resourceId type title) = false
  spelled : ∀ t, lowerText t = lowerText type → inCatalog env (resourceId t title) →
    inCatalog env (resourceId type title) ∨ inCatalog env (catalogKey type title) ∨
      classKnown w env (resourceId type title)

/-- If the class is not declared, then it is not in the cache of the loader, no more than the class
that its title is taken for, which is not declared either, and the text names no class and no
resource; if it is declared, then so is that class, or it is in the cache, or the text names one. -/
structure ClassFits : Prop where
  unmistaken : env.classScopes.get title = none →
    (classLoaded w env (soughtTitle title) = false ∧
      env.classScopes.get (soughtTitle title) = none) ∧
    inCatalog env (resourceId type title) = false ∧
    classKnown w env (resourceId type title) = false
  sought : (env.classScopes.get title).isSome →
    (classLoaded w env (soughtTitle title) ∨ (env.classScopes.get (soughtTitle title)).isSome) ∨
    inCatalog env (resourceId type title) ∨ classKnown w env (resourceId type title)

/-- The tables fit a reference. -/
def ReferenceFits : Prop :=
  if lowerText type = "class" then ClassFits w env type title else ResourceFits w env type title

/-- A name of which nothing is known is no reference to what is found and no key of a resource; one
that is neither, and no class, is not that of a defined or built-in type. -/
structure NameFits (name : String) : Prop where
  unmistaken : ¬ w.Knows env name → inCatalog env name = false ∧ looksUp w env name = false
  noType : classKnown w env name = false → inCatalog env name = false →
    looksUp w env name = false → env.defineTypes.get name = none ∧ name ∉ builtinTypes

end World

/-- The name of a type, which holds no bracket. -/
def TypeName : Type := {type : String // '[' ∉ type.toList}

/-! ### References as texts -/

theorem toList_resourceId (type title : String) :
    (resourceId type title).toList = type.toList ++ '[' :: (title.toList ++ [']']) := by
  simp [resourceId]

theorem isReference_resourceId (type title : String) :
    isReference (resourceId type title) = true := by
  have hlast : ('[' :: (title.toList ++ [']'])).getLast? = some ']' := by
    rw [← List.cons_append, List.getLast?_append]
    rfl
  simp [isReference, toList_resourceId, hlast]

theorem ne_bracket_of_mem {s : List Char} (h : '[' ∉ s) :
    ∀ c ∈ s, decide (c ≠ '[') = true := by
  intro c hc
  refine decide_eq_true ?_
  rintro rfl
  exact h hc

theorem takeWhile_bracket {s t : List Char} (h : '[' ∉ s) :
    (s ++ '[' :: t).takeWhile (· ≠ '[') = s := by
  rw [List.takeWhile_append_of_pos (ne_bracket_of_mem h)]
  simp

theorem dropWhile_bracket {s t : List Char} (h : '[' ∉ s) :
    (s ++ '[' :: t).dropWhile (· ≠ '[') = '[' :: t := by
  rw [List.dropWhile_append_of_pos (ne_bracket_of_mem h)]
  simp

theorem referenceType_resourceId (type : TypeName) (title : String) :
    referenceType (resourceId type.1 title) = type.1 := by
  rw [referenceType, toList_resourceId, takeWhile_bracket type.2, String.ofList_toList]

theorem referenceTitle_resourceId (type : TypeName) (title : String) :
    referenceTitle (resourceId type.1 title) = title := by
  rw [referenceTitle, toList_resourceId, dropWhile_bracket type.2]
  simp

/-- The answer for a reference. -/
theorem definedText_resourceId (w : World) (env : Env) (type : TypeName) (title : String) :
    definedText w env (resourceId type.1 title) =
      (classKnown w env (resourceId type.1 title) || inCatalog env (resourceId type.1 title) ||
        findsReference w env type.1 title) := by
  rw [definedText, looksUp, isReference_resourceId, referenceType_resourceId,
    referenceTitle_resourceId, Bool.true_and]

/-! ### When the answers are right -/

section World

variable {w : World} {env env' : Env}

theorem definedText_eq_true_iff_declared_iff (type : TypeName) (title : String) :
    (definedText w env (resourceId type.1 title) = true ↔ env.Declared type.1 title) ↔
      ReferenceFits w env type.1 title := by
  rw [definedText_resourceId, Env.Declared, ReferenceFits, findsReference]
  split_ifs with hclass
  · constructor
    · intro h
      refine ⟨fun hnone ↦ ?_, fun hsome ↦ ?_⟩
      · have hfalse := mt h.1 (by simp [hnone])
        simpa [and_comm, and_assoc] using hfalse
      · have htrue := h.2 hsome
        simpa [or_comm, or_assoc] using htrue
    · rintro ⟨hunmistaken, hsought⟩
      cases hscope : env.classScopes.get title with
      | none =>
        obtain ⟨⟨hloaded, hnone⟩, hcatalog, hknown⟩ := hunmistaken hscope
        simp [hloaded, hnone, hcatalog, hknown]
      | some scope =>
        have htrue := hsought (by simp [hscope])
        simpa [or_comm, or_assoc] using htrue
  · constructor
    · intro h
      refine ⟨fun hnone ↦ ?_, fun t ht hdeclared ↦ ?_⟩
      · have hfalse := mt h.1 (by
          rintro ⟨t, ht, hdeclared⟩
          simp [hnone t ht] at hdeclared)
        simp only [Bool.or_eq_true, not_or, Bool.not_eq_true] at hfalse
        exact ⟨hfalse.2, hfalse.1.1⟩
      · have htrue := h.2 ⟨t, ht, hdeclared⟩
        simp only [Bool.or_eq_true] at htrue
        obtain (hknown | hcatalog) | hfound := htrue
        · exact .inr (.inr hknown)
        · exact .inl hcatalog
        · exact .inr (.inl hfound)
    · rintro ⟨hunmistaken, hspelled⟩
      constructor
      · intro htrue
        by_contra hnone
        have hfalse (t : String) (ht : lowerText t = lowerText type.1) :
            inCatalog env (resourceId t title) = false := by
          by_contra hdeclared
          exact hnone ⟨t, ht, by simpa using hdeclared⟩
        obtain ⟨hkey, hknown⟩ := hunmistaken hfalse
        rw [hkey, hknown, hfalse type.1 rfl] at htrue
        cases htrue
      · rintro ⟨t, ht, hdeclared⟩
        obtain hcatalog | hkey | hknown := hspelled t ht hdeclared
        · simp [hcatalog]
        · simp [hkey]
        · simp [hknown]

theorem definedText_eq_true_iff_knows_iff (name : String) :
    (definedText w env name = true ↔ w.Knows env name) ↔ NameFits w env name := by
  constructor
  · intro h
    refine ⟨fun hnot ↦ ?_, fun hknown hcatalog hlooks ↦ ?_⟩
    · have hfalse := mt h.1 hnot
      simp only [definedText, Bool.or_eq_true, not_or, Bool.not_eq_true] at hfalse
      exact ⟨hfalse.1.2, hfalse.2⟩
    · have hnot := mt h.2 (by simp [definedText, hknown, hcatalog, hlooks])
      simp only [World.Knows, not_or] at hnot
      exact ⟨by simpa using hnot.2.1, hnot.2.2⟩
  · rintro ⟨hunmistaken, hno⟩
    constructor
    · intro htrue
      by_contra hnot
      obtain ⟨hcatalog, hlooks⟩ := hunmistaken hnot
      refine hnot (.inl ?_)
      simpa [definedText, hcatalog, hlooks] using htrue
    · intro hknows
      by_contra hfalse
      simp only [definedText, Bool.or_eq_true, not_or, Bool.not_eq_true] at hfalse
      obtain ⟨⟨hknown, hcatalog⟩, hlooks⟩ := hfalse
      obtain ⟨hdefine, hbuiltin⟩ := hno hknown hcatalog hlooks
      rcases hknows with h | h | h
      · simp [hknown] at h
      · simp [hdefine] at h
      · exact hbuiltin h

/-! ### The function -/

theorem returnsQuiet_isClassLoaded_iff {name : String} {b : Bool} :
    w.ReturnsQuiet (isClassLoaded w name) env b env' ↔
      b = classLoaded w env name ∧ env' = env := by
  unfold isClassLoaded classLoaded
  cases w.loader with
  | none => exact Prog.returns_pure_iff
  | some loader =>
    rw [returnsQuiet_bind_iff]
    constructor
    · rintro ⟨c, env₁, hget, hreturn⟩
      cases returnsQuiet_perform_iff.1 hget
      exact Prog.returns_pure_iff.1 hreturn
    · rintro ⟨rfl, rfl⟩
      exact ⟨_, env', returnsQuiet_perform_iff.2 rfl, Prog.returns_pure_iff.2 ⟨rfl, rfl⟩⟩

theorem returnsQuiet_bind_of_reads {α β : Type} {p : Quiet α} {a : α} {f : α → Quiet β} {b : β}
    (hp : ∀ a' env₁, w.ReturnsQuiet p env a' env₁ ↔ a' = a ∧ env₁ = env) :
    w.ReturnsQuiet (p >>= f) env b env' ↔ w.ReturnsQuiet (f a) env b env' := by
  rw [returnsQuiet_bind_iff]
  constructor
  · rintro ⟨a', env₁, ha', hf⟩
    obtain ⟨rfl, rfl⟩ := (hp a' env₁).1 ha'
    exact hf
  · intro hf
    exact ⟨a, env, (hp a env).2 ⟨rfl, rfl⟩, hf⟩

theorem returnsQuiet_findClassDef_iff {name : String} (c : Option ClassStmt) (env₁ : Env) :
    w.ReturnsQuiet (perform (.findClassDef name)) env c env₁ ↔
      c = env.findClassDef name ∧ env₁ = env := by
  rw [returnsQuiet_perform_iff]
  change Except.ok (env.findClassDef name, env) = _ ↔ _
  simp [eq_comm]

theorem returnsQuiet_inCatalog_iff {key : String} (b : Bool) (env₁ : Env) :
    w.ReturnsQuiet (perform (.isMarked .resourceCatalog key)) env b env₁ ↔
      b = inCatalog env key ∧ env₁ = env := by
  rw [returnsQuiet_perform_iff]
  change Except.ok (inCatalog env key, env) = _ ↔ _
  simp [eq_comm]

theorem returnsQuiet_getClassScope_iff {name : String} (scope : Option ScopeId) (env₁ : Env) :
    w.ReturnsQuiet (perform (.getClassScope name)) env scope env₁ ↔
      scope = env.classScopes.get name ∧ env₁ = env := by
  rw [returnsQuiet_perform_iff]
  change Except.ok (env.classScopes.get name, env) = _ ↔ _
  simp [eq_comm]

/-- The answer of the function. -/
theorem returnsQuiet_funcDefined_iff {e : Expr} {v : Value} :
    w.ReturnsQuiet (funcDefined w [e]) env v env' ↔
      ∃ u, w.ReturnsQuiet (evalExpr e) env u env' ∧ v = .bool (definedValue w env' u) := by
  rw [funcDefined, returnsQuiet_bind_iff]
  have hreturn (b : Bool) (env₁ : Env) :
      w.ReturnsQuiet (pure (.bool b)) env₁ v env' ↔ env' = env₁ ∧ v = .bool b :=
    Prog.returns_pure_iff.trans and_comm
  refine (exists_congr fun u ↦ exists_congr fun env₁ ↦ and_congr_right'
    (?_ : _ ↔ env' = env₁ ∧ v = .bool (definedValue w env₁ u))).trans ?_
  · cases u
    case string s =>
      dsimp only [definedValue]
      rw [definedText, classKnown,
        returnsQuiet_bind_of_reads fun _ _ ↦ returnsQuiet_isClassLoaded_iff]
      cases classLoaded w env₁ s
      case true => exact hreturn true env₁
      rw [if_neg Bool.false_ne_true, returnsQuiet_bind_of_reads returnsQuiet_findClassDef_iff]
      cases (env₁.findClassDef s).isSome
      case true => exact hreturn true env₁
      rw [if_neg Bool.false_ne_true, returnsQuiet_bind_of_reads returnsQuiet_inCatalog_iff]
      cases inCatalog env₁ s
      case true => exact hreturn true env₁
      have htitle : String.ofList
          (unquoteTitle ((s.toList.dropWhile (· ≠ '[')).drop 1).dropLast) =
          soughtTitle (referenceTitle s) := by
        rw [soughtTitle, referenceTitle, String.toList_ofList]
      have htype : String.ofList (s.toList.takeWhile (· ≠ '[')) = referenceType s := rfl
      have href : (s.toList.contains '[' && decide (s.toList.getLast? = some ']')) =
        isReference s := rfl
      rw [if_neg Bool.false_ne_true, htitle, htype, href, looksUp, findsReference]
      cases isReference s
      case false => exact hreturn false env₁
      rw [if_pos rfl, Bool.true_and]
      split_ifs with hclass
      · rw [returnsQuiet_bind_of_reads fun _ _ ↦ returnsQuiet_isClassLoaded_iff]
        cases classLoaded w env₁ (soughtTitle (referenceTitle s))
        case true => exact hreturn true env₁
        rw [if_neg Bool.false_ne_true, returnsQuiet_bind_of_reads returnsQuiet_getClassScope_iff]
        exact hreturn (env₁.classScopes.get (soughtTitle (referenceTitle s))).isSome env₁
      · rw [returnsQuiet_bind_of_reads returnsQuiet_inCatalog_iff]
        exact hreturn (inCatalog env₁ (catalogKey (referenceType s) (referenceTitle s))) env₁
    all_goals exact hreturn false env₁
  · constructor
    · rintro ⟨u, _, hu, rfl, hv⟩
      exact ⟨u, hu, hv⟩
    · rintro ⟨u, hu, hv⟩
      exact ⟨u, env', hu, rfl, hv⟩

theorem returnsQuiet_resourceRef_iff {type : String} {e : Expr} {v : Value} :
    w.ReturnsQuiet (evalExpr (.resourceRef type (some e))) env v env' ↔
      ∃ u, w.ReturnsQuiet (evalExpr e) env u env' ∧ v = resourceRefValue type u := by
  rw [evalExpr, returnsQuiet_call_iff]
  change w.Returns (liftM (evalExpr e) >>= fun u ↦ pure (resourceRefValue type u)) env v env' ↔ _
  simp only [returns_bind_iff, returns_lift_iff, Prog.returns_pure_iff]
  constructor
  · rintro ⟨u, _, hu, rfl, rfl⟩
    exact ⟨u, hu, rfl⟩
  · rintro ⟨u, hu, rfl⟩
    exact ⟨u, env', hu, rfl, rfl⟩

theorem resourceRefValue_eq {u : Value} (hu : ∀ us, u ≠ .array us) (type : String) :
    resourceRefValue type u = .string (resourceId type u.toText) := by
  cases u with
  | array us => exact absurd rfl (hu us)
  | _ => rfl

/-- The function answers what it finds for the value of its argument. -/
theorem answers_iff {e : Expr} {u : Value} {P : Prop}
    (heval : w.ReturnsQuiet (evalExpr e) env u env') :
    w.Answers [e] env env' P ↔ (definedValue w env' u = true ↔ P) := by
  constructor
  · rintro ⟨b, hrun, hb⟩
    obtain ⟨u', hu', hvalue⟩ := returnsQuiet_funcDefined_iff.1 hrun
    obtain ⟨rfl, -⟩ := hu'.unique w.increasing_quiet heval
    cases hvalue
    exact hb
  · exact fun h ↦ ⟨_, returnsQuiet_funcDefined_iff.2 ⟨u, heval, rfl⟩, h⟩

theorem answers_resourceRef_iff (type : TypeName) {e : Expr} {u : Value} {P : Prop}
    (heval : w.ReturnsQuiet (evalExpr e) env u env') (hu : ∀ us, u ≠ .array us) :
    w.Answers [.resourceRef type.1 (some e)] env env' P ↔
      (definedText w env' (resourceId type.1 u.toText) = true ↔ P) := by
  rw [answers_iff (returnsQuiet_resourceRef_iff.2 ⟨u, heval, rfl⟩), resourceRefValue_eq hu]
  rfl

end World

/-! ### Runs -/

/-- The file `a` is declared. -/
def fileDeclared : Env := Env.create.mark .resourceCatalog "file[a]"

end PuppetC
