import PuppetC.Hiera.Lookup

/-!
# Interpolation of whole values

`puppet_hiera_interpolate` and `module_hiera_interpolate_path` of the module data layer, compared
with the replacement of each `%{token}` by the complete text of its value. The variable chain of
the environment runs no code here: a token has one value.

## Main definitions

* `moduleHieraInterpolatePath`: `module_hiera_interpolate_path`.
* `TokenSource`, `tokenSource`: where the value of a token is from.
* `wholeInterpolate`: a template with its tokens replaced by complete texts.
* `InterpolatesWhole`: the interpolation is that replacement, and that of the module layer.
* `TokenSource.Fits`, `FitsModuleLayer`: the values that are put whole; the templates on which the
  two layers do not differ.

## Main results

* `templateTokens_source`: the tokens of a template are all of its text.
* `joinTokens_eq_iff`: texts that are shorter token by token are equal token by token.
* `interpolatesWhole_iff`: when values are substituted whole.
-/

namespace PuppetC

/-! ### The interpolation of the module layer -/

/-- The complete text of a value in a path: strings, numbers and booleans have one, hashes, arrays
and undef have none. -/
def pathText : Value → Option String
  | .string s => some s
  | .number n => some (formatG n)
  | .bool b => some (if b then "true" else "false")
  | _ => none

/-- What `module_hiera_interpolate_path` puts for a token: the text of a fact, for a token that
fits its buffer of 256. -/
def moduleTokenText (facts : String → Option Value) (token : String) : String :=
  if token.length < 256 ∧ startsWith token "facts." then
    ((facts (dropChars 6 token)).bind pathText).getD ""
  else ""

/-- The loop of `module_hiera_interpolate_path` after `skip` more characters: it ends at a `%{`
that no `}` follows. -/
def moduleScan (facts : String → Option Value) : List Char → ℕ → String
  | [], _ => ""
  | _ :: cs, skip + 1 => moduleScan facts cs skip
  | c :: cs, 0 =>
    if c = '%' ∧ cs.head? = some '{' then
      match cs.tail.findIdx? (· = '}') with
      | some n =>
        moduleTokenText facts (String.ofList (cs.tail.take n)) ++ moduleScan facts cs (n + 2)
      | none => ""
    else String.singleton c ++ moduleScan facts cs 0

/-- `module_hiera_interpolate_path`. -/
def moduleHieraInterpolatePath (facts : String → Option Value) (template : String) : String :=
  moduleScan facts template.toList 0

/-! ### Replacing tokens -/

/-- The texts of tokens one after the other. -/
def joinTokens (text : TemplateToken → String) : List TemplateToken → String
  | [] => ""
  | t :: ts => text t ++ joinTokens text ts

theorem length_joinTokens_le {f g : TemplateToken → String} {ts : List TemplateToken}
    (h : ∀ t ∈ ts, (f t).length ≤ (g t).length) :
    (joinTokens f ts).length ≤ (joinTokens g ts).length := by
  induction ts with
  | nil => exact le_rfl
  | cons t ts ih =>
    rw [List.forall_mem_cons] at h
    have := ih h.2
    have := h.1
    simp only [joinTokens, String.length_append]
    omega

/-- Texts of which none is longer than its counterpart are equal together exactly if each one is. -/
theorem joinTokens_eq_iff {f g : TemplateToken → String} {ts : List TemplateToken}
    (h : ∀ t ∈ ts, (f t).length ≤ (g t).length) :
    joinTokens f ts = joinTokens g ts ↔ ∀ t ∈ ts, f t = g t := by
  induction ts with
  | nil => simp [joinTokens]
  | cons t ts ih =>
    rw [List.forall_mem_cons] at h
    rw [List.forall_mem_cons, ← ih h.2]
    constructor
    · intro heq
      have hlength := congrArg String.length heq
      have hrest := length_joinTokens_le h.2
      have hhead := h.1
      simp only [joinTokens, String.length_append] at hlength
      have hlist : (f t).toList ++ (joinTokens f ts).toList =
          (g t).toList ++ (joinTokens g ts).toList := by
        simpa only [joinTokens, String.toList_append] using congrArg String.toList heq
      obtain ⟨ht, hts⟩ := List.append_inj hlist (by
        rw [String.length_toList, String.length_toList]
        omega)
      exact ⟨String.toList_injective ht, String.toList_injective hts⟩
    · rintro ⟨ht, hts⟩
      rw [joinTokens, joinTokens, ht, hts]

theorem joinTokens_append (f : TemplateToken → String) (ts us : List TemplateToken) :
    joinTokens f (ts ++ us) = joinTokens f ts ++ joinTokens f us := by
  induction ts with
  | nil => simp [joinTokens]
  | cons t ts ih => rw [List.cons_append, joinTokens, joinTokens, ih, String.append_assoc]

/-- The text a token was read from. -/
def TemplateToken.source : TemplateToken → List Char
  | .char c => [c]
  | .var name => '%' :: '{' :: (name.toList ++ ['}'])

/-- The tokens of a template are all of its text. -/
theorem scanTemplate_source (cs : List Char) (skip : ℕ) :
    (scanTemplate cs skip).flatMap TemplateToken.source = cs.drop skip := by
  induction cs generalizing skip with
  | nil => simp [scanTemplate]
  | cons c cs ih =>
    cases skip with
    | succ skip => rw [scanTemplate, ih, List.drop_succ_cons]
    | zero =>
      rw [scanTemplate]
      split_ifs with hopen
      · cases hn : cs.tail.findIdx? (· = '}') with
        | none => simp [TemplateToken.source, ih]
        | some n =>
          obtain ⟨rfl, hhead⟩ := hopen
          obtain ⟨cs, rfl⟩ : ∃ ds, cs = '{' :: ds := by
            cases cs with
            | nil => cases hhead
            | cons d ds => exact ⟨ds, by rw [Option.some.inj hhead]⟩
          rw [List.tail_cons] at hn
          obtain ⟨hlt, hclose, -⟩ := List.findIdx?_eq_some_iff_getElem.1 hn
          have hsplit : cs = cs.take n ++ '}' :: cs.drop (n + 1) := by
            rw [← of_decide_eq_true hclose, ← List.drop_eq_getElem_cons, List.take_append_drop]
          simp only [List.tail_cons, List.flatMap_cons, ih, TemplateToken.source,
            String.toList_ofList, List.drop_succ_cons, List.drop_zero]
          nth_rewrite 3 [hsplit]
          simp
      · simp [TemplateToken.source, ih]

theorem templateTokens_source (template : String) :
    (templateTokens template).flatMap TemplateToken.source = template.toList :=
  scanTemplate_source template.toList 0

/-! ### Unclosed tokens -/

/-- The tokens before a `%{` that no `}` follows, after `skip` more characters. -/
def closedTokens : List Char → ℕ → List TemplateToken
  | [], _ => []
  | _ :: cs, skip + 1 => closedTokens cs skip
  | c :: cs, 0 =>
    if c = '%' ∧ cs.head? = some '{' then
      match cs.tail.findIdx? (· = '}') with
      | some n => .var (String.ofList (cs.tail.take n)) :: closedTokens cs (n + 2)
      | none => []
    else .char c :: closedTokens cs 0

/-- The text from a `%{` that no `}` follows. -/
def openTail : List Char → ℕ → List Char
  | [], _ => []
  | _ :: cs, skip + 1 => openTail cs skip
  | c :: cs, 0 =>
    if c = '%' ∧ cs.head? = some '{' then
      match cs.tail.findIdx? (· = '}') with
      | some n => openTail cs (n + 2)
      | none => c :: cs
    else openTail cs 0

theorem scanTemplate_of_notMem {cs : List Char} (h : '}' ∉ cs) :
    scanTemplate cs 0 = cs.map .char := by
  induction cs with
  | nil => rfl
  | cons c cs ih =>
    have hcs : '}' ∉ cs := fun hmem ↦ h (List.mem_cons_of_mem c hmem)
    have hnone : cs.tail.findIdx? (· = '}') = none := by
      rw [List.findIdx?_eq_none_iff]
      intro d hd
      have : d ≠ '}' := fun heq ↦ hcs (heq ▸ List.mem_of_mem_tail hd)
      simpa using this
    rw [scanTemplate, hnone, ih hcs, List.map_cons, ite_self]

/-- The main layer copies what follows an unclosed `%{`. -/
theorem scanTemplate_eq (cs : List Char) (skip : ℕ) :
    scanTemplate cs skip = closedTokens cs skip ++ (openTail cs skip).map .char := by
  induction cs generalizing skip with
  | nil => rfl
  | cons c cs ih =>
    cases skip with
    | succ skip => rw [scanTemplate, closedTokens, openTail, ih]
    | zero =>
      rw [scanTemplate, closedTokens, openTail]
      split_ifs with hopen
      · cases hn : cs.tail.findIdx? (· = '}') with
        | some n => simp only [ih, List.cons_append]
        | none =>
          have htail : '}' ∉ cs.tail := fun hmem ↦ by
            simpa using List.findIdx?_eq_none_iff.1 hn _ hmem
          have hcs : '}' ∉ cs := fun hmem ↦ by
            cases cs with
            | nil => cases hmem
            | cons d ds =>
              obtain rfl : d = '{' := Option.some.inj hopen.2
              exact (List.mem_cons.1 hmem).elim (by simp) htail
          simp only [scanTemplate_of_notMem hcs, List.nil_append, List.map_cons]
      · rw [ih, List.cons_append]

/-- What the module layer makes of a token. -/
def moduleToken (facts : String → Option Value) : TemplateToken → String
  | .char c => String.singleton c
  | .var name => moduleTokenText facts name

/-- The module layer drops what follows an unclosed `%{`. -/
theorem moduleScan_eq (facts : String → Option Value) (cs : List Char) (skip : ℕ) :
    moduleScan facts cs skip = joinTokens (moduleToken facts) (closedTokens cs skip) := by
  induction cs generalizing skip with
  | nil => rfl
  | cons c cs ih =>
    cases skip with
    | succ skip => rw [moduleScan, closedTokens, ih]
    | zero =>
      rw [moduleScan, closedTokens]
      split_ifs with hopen
      · cases cs.tail.findIdx? (· = '}') with
        | some n => simp only [ih, joinTokens, moduleToken]
        | none => rfl
      · rw [ih, joinTokens, moduleToken]

/-! ### Values of tokens -/

section Whole

variable (env : HieraEnv Id) (vars : HieraVariables)

/-- Where the value of a token is from: a string of the context, a fact, the calling module's name
or an answer of the variable chain. -/
inductive TokenSource where
  | context (s : String)
  | fact (v : Option Value)
  | caller (moduleName : String)
  | chain (v : Option Value)

/-- The source of a token that the context has no string for. -/
def outerSource (name : String) : TokenSource :=
  if startsWith (stripTop name) "facts." then
    .fact (env.factsLookupDotted (dropChars 6 (stripTop name)))
  else
    match env.callerModuleName with
    | some moduleName =>
      if name = "module_name" then .caller moduleName
      else .chain (env.variableLookupChain (stripTop name))
    | none => .chain (env.variableLookupChain (stripTop name))

/-- The source of a token. -/
def tokenSource (name : String) : TokenSource :=
  match vars.get name with
  | some (.string s) => .context s
  | _ => outerSource env name

/-- The value of a token. -/
def TokenSource.value : TokenSource → Option Value
  | .context s => some (.string s)
  | .fact v => v
  | .caller moduleName => some (.string moduleName)
  | .chain v => v

/-- The complete text of a token. -/
def wholeToken : TemplateToken → String
  | .char c => String.singleton c
  | .var name => ((tokenSource env vars name).value.bind pathText).getD ""

/-- A template with its tokens replaced by the complete texts of their values. -/
def wholeInterpolate (template : String) : String :=
  joinTokens (wholeToken env vars) (templateTokens template)

/-- A value that is put whole: a string of the context; a fact or a name of a module that fits the
buffer of 256 if it is a string; a string of the variable chain that fits it, or a value of the
chain that has no text. -/
def TokenSource.Fits : TokenSource → Prop
  | .context _ => True
  | .fact v => ∀ s, v = some (.string s) → s.length < 256
  | .caller moduleName => moduleName.length < 256
  | .chain (some (.string s)) => s.length < 256
  | .chain v => v.bind pathText = none

theorem hieraTokens_eq_joinTokens (ts : List TemplateToken) :
    (hieraTokens env vars ts : String) = joinTokens (hieraToken env vars) ts := by
  induction ts with
  | nil => rfl
  | cons t ts ih =>
    rw [joinTokens, ← ih]
    rfl

end Whole

theorem length_bufferCopy_le (n : ℕ) (s : String) : (bufferCopy n s).length ≤ s.length := by
  rw [bufferCopy, String.length_ofList, List.length_take, String.length_toList]
  exact Nat.min_le_right _ _

theorem bufferCopy_eq_self_iff (s : String) : bufferCopy 256 s = s ↔ s.length < 256 := by
  constructor
  · intro h
    have := congrArg String.length h
    rw [bufferCopy, String.length_ofList, List.length_take, String.length_toList] at this
    omega
  · intro h
    rw [bufferCopy, List.take_of_length_le (by rw [String.length_toList]; omega),
      String.ofList_toList]

theorem take_digitsPadded_ne_nil {w : ℕ} (hw : 0 < w) (m n : ℕ) :
    (digitsPadded w n).take (m + 1) ≠ [] := by
  intro h
  have := congrArg List.length h
  simp only [digitsPadded, List.length_take, List.length_append, List.length_replicate,
    List.length_nil] at this
  omega

theorem formatG_ne_empty (q : ℚ) : formatG q ≠ "" := by
  have hpos : ∀ q, formatPos 6 q ≠ [] := by
    intro q
    have htake := fun m n ↦ take_digitsPadded_ne_nil (w := 6) (by omega) m n
    unfold formatPos
    dsimp only
    split_ifs <;> simp only [ne_eq, List.append_eq_nil_iff, htake, false_and, reduceCtorEq,
      not_false_eq_true]
  intro h
  have hlist : formatDigits 6 q = [] := by simpa [formatG] using congrArg String.toList h
  unfold formatDigits at hlist
  split_ifs at hlist
  exact hpos q hlist

/-! ### One token -/

/-- What the main layer puts for a value. -/
def TokenSource.text : TokenSource → String
  | .context s => s
  | .fact v => (v.bind factText).getD ""
  | .caller moduleName => bufferCopy 256 moduleName
  | .chain (some (.string s)) => bufferCopy 256 s
  | .chain _ => ""

theorem hieraTokenText_eq (env : HieraEnv Id) (vars : HieraVariables) (name : String) :
    (hieraTokenText env vars name : String) = (tokenSource env vars name).text := by
  have hchain : (hieraTokenText.chain env name : String) =
      (TokenSource.chain (env.variableLookupChain (stripTop name))).text := by
    unfold hieraTokenText.chain
    rcases (env.variableLookupChain (stripTop name) : Option Value) with - | v
    · rfl
    · cases v <;> rfl
  unfold hieraTokenText tokenSource outerSource
  rcases vars.get name with - | v
  · dsimp only
    split_ifs
    · rfl
    · cases env.callerModuleName with
      | none => exact hchain
      | some moduleName => rfl
    · cases env.callerModuleName <;> exact hchain
  · cases v with
    | string s => rfl
    | _ =>
      dsimp only
      split_ifs
      · rfl
      · cases env.callerModuleName with
        | none => exact hchain
        | some moduleName => rfl
      · cases env.callerModuleName <;> exact hchain

namespace TokenSource

/-- The text that is put for a value is not longer than the complete one. -/
theorem length_text_le (source : TokenSource) :
    source.text.length ≤ ((source.value.bind pathText).getD "").length := by
  cases source with
  | context s => exact le_rfl
  | caller moduleName => exact length_bufferCopy_le 256 moduleName
  | fact v =>
    rcases v with - | v
    · exact le_rfl
    · cases v with
      | string s => exact length_bufferCopy_le 256 s
      | _ => exact le_rfl
  | chain v =>
    rcases v with - | v
    · exact le_rfl
    · cases v with
      | string s => exact length_bufferCopy_le 256 s
      | _ => exact Nat.zero_le _

/-- The complete text is put exactly for a value that fits. -/
theorem text_eq_iff (source : TokenSource) :
    source.text = (source.value.bind pathText).getD "" ↔ source.Fits := by
  cases source with
  | context s => simp [text, value, pathText, Fits]
  | caller moduleName => simpa [text, value, pathText, Fits] using bufferCopy_eq_self_iff moduleName
  | fact v =>
    rcases v with - | v
    · simp [text, value, Fits]
    · cases v with
      | string s => simpa [text, value, factText, pathText, Fits] using bufferCopy_eq_self_iff s
      | _ => simp [text, value, factText, pathText, Fits]
  | chain v =>
    rcases v with - | v
    · simp [text, value, Fits]
    · cases v with
      | string s => simpa [text, value, pathText, Fits] using bufferCopy_eq_self_iff s
      | number n => simpa [text, value, pathText, Fits] using (formatG_ne_empty n).symm
      | bool b => cases b <;> simp [text, value, pathText, Fits]
      | _ => simp [text, value, pathText, Fits]

end TokenSource

theorem hieraToken_eq_iff (env : HieraEnv Id) (vars : HieraVariables) (name : String) :
    (hieraToken env vars (.var name) : String) = wholeToken env vars (.var name) ↔
      (tokenSource env vars name).Fits := by
  rw [← TokenSource.text_eq_iff, ← hieraTokenText_eq]
  rfl

theorem length_hieraToken_le (env : HieraEnv Id) (vars : HieraVariables) (t : TemplateToken) :
    (hieraToken env vars t : String).length ≤ (wholeToken env vars t).length := by
  cases t with
  | char c => exact le_rfl
  | var name =>
    change (hieraTokenText env vars name : String).length ≤ _
    rw [hieraTokenText_eq]
    exact TokenSource.length_text_le _

/-- The interpolation of a template puts complete texts exactly if each of its tokens fits. -/
theorem hieraInterpolate_eq_iff (env : HieraEnv Id) (vars : HieraVariables) (template : String) :
    (hieraInterpolate template env vars : String) = wholeInterpolate env vars template ↔
      ∀ name, .var name ∈ templateTokens template → (tokenSource env vars name).Fits := by
  rw [hieraInterpolate, hieraTokens_eq_joinTokens, wholeInterpolate,
    joinTokens_eq_iff fun t _ ↦ length_hieraToken_le env vars t]
  constructor
  · exact fun h name hname ↦ (hieraToken_eq_iff env vars name).1 (h _ hname)
  · intro h t ht
    cases t with
    | char c => rfl
    | var name => exact (hieraToken_eq_iff env vars name).2 (h name ht)

/-! ### The context of a lookup -/

theorem startsWith_iff {s p : String} : startsWith s p = true ↔ p.toList <+: s.toList :=
  List.isPrefixOf_iff_prefix

theorem stripTop_of_facts {name : String} (h : startsWith name "facts." = true) :
    stripTop name = name := by
  obtain ⟨rest, hname⟩ := startsWith_iff.1 h
  have : ¬ startsWith name "::" = true := by
    rw [startsWith_iff, ← hname]
    simp
  rw [stripTop, if_neg this]

theorem hieraVariables_get_of_facts (env : HieraEnv Id) (key : String) {name : String}
    (h : startsWith name "facts." = true) : (hieraVariables env key).get name = none := by
  have hfqdn : name ≠ "::fqdn" := by
    rintro rfl
    exact absurd h (by decide)
  have hmodule : name ≠ "module_name" := by
    rintro rfl
    exact absurd h (by decide)
  have hcreate : (hieraContextCreate env).get name = none := by
    unfold hieraContextCreate
    cases env.nodeName with
    | none => rfl
    | some node => rw [Table.get_set_of_ne _ _ hfqdn, Table.get_empty]
  unfold hieraVariables
  cases hieraModuleName key env.callerModuleName with
  | none => exact hcreate
  | some moduleName => rw [Table.get_set_of_ne _ _ hmodule, hcreate]

theorem tokenSource_of_facts (env : HieraEnv Id) (key : String) {name : String}
    (h : startsWith name "facts." = true) :
    tokenSource env (hieraVariables env key) name =
      .fact (env.factsLookupDotted (dropChars 6 name)) := by
  rw [tokenSource, hieraVariables_get_of_facts env key h]
  simp only [outerSource, stripTop_of_facts h, if_pos h]

/-! ### When values are substituted whole -/

/-- In the context of a lookup of `key`, a template is interpolated with complete texts, and in the
way of the module layer if its tokens are facts. -/
structure InterpolatesWhole (env : HieraEnv Id) (key template : String) : Prop where
  whole : (hieraInterpolate template env (hieraVariables env key) : String) =
    wholeInterpolate env (hieraVariables env key) template
  agrees : (∀ name, .var name ∈ templateTokens template → startsWith name "facts." = true) →
    (hieraInterpolate template env (hieraVariables env key) : String) =
      moduleHieraInterpolatePath env.factsLookupDotted template

/-- The templates on which the module layer gives complete texts, too: every `%{` is closed, and a
fact whose token does not fit the buffer of 256 has no text. -/
def FitsModuleLayer (env : HieraEnv Id) (template : String) : Prop :=
  openTail template.toList 0 = [] ∧ ∀ name, .var name ∈ templateTokens template →
    256 ≤ name.length → ((env.factsLookupDotted (dropChars 6 name)).bind pathText).getD "" = ""

theorem moduleTokenText_of_facts (facts : String → Option Value) {name : String}
    (h : startsWith name "facts." = true) :
    moduleTokenText facts name =
      if name.length < 256 then ((facts (dropChars 6 name)).bind pathText).getD "" else "" := by
  simp only [moduleTokenText, h, and_true]

theorem wholeToken_of_facts (env : HieraEnv Id) (key : String) {name : String}
    (h : startsWith name "facts." = true) :
    wholeToken env (hieraVariables env key) (.var name) =
      ((env.factsLookupDotted (dropChars 6 name)).bind pathText).getD "" := by
  rw [wholeToken, tokenSource_of_facts env key h, TokenSource.value]

theorem joinTokens_char (f : TemplateToken → String) (hf : ∀ c, f (.char c) = String.singleton c)
    (cs : List Char) : joinTokens f (cs.map .char) = String.ofList cs := by
  induction cs with
  | nil => rfl
  | cons c cs ih =>
    rw [List.map_cons, joinTokens, hf, ih]
    apply String.toList_injective
    simp

theorem append_eq_iff {s t : String} {tail : List Char} (h : t.length ≤ s.length) :
    s ++ String.ofList tail = t ↔ tail = [] ∧ t = s := by
  constructor
  · intro heq
    have hlength := congrArg String.length heq
    rw [String.length_append, String.length_ofList] at hlength
    obtain rfl : tail = [] := List.length_eq_zero_iff.1 (by omega)
    exact ⟨rfl, by simpa using heq.symm⟩
  · rintro ⟨rfl, rfl⟩
    simp

/-- Complete texts are those of the module layer exactly if the template fits it. -/
theorem wholeInterpolate_eq_module_iff (env : HieraEnv Id) (key template : String)
    (hfacts : ∀ name, .var name ∈ templateTokens template → startsWith name "facts." = true) :
    wholeInterpolate env (hieraVariables env key) template =
        moduleHieraInterpolatePath env.factsLookupDotted template ↔
      FitsModuleLayer env template := by
  have htokens := scanTemplate_eq template.toList 0
  have hmem : ∀ name, .var name ∈ templateTokens template ↔
      .var name ∈ closedTokens template.toList 0 := by
    intro name
    rw [templateTokens, htokens]
    simp
  have hle : ∀ t ∈ closedTokens template.toList 0,
      (moduleToken env.factsLookupDotted t).length ≤
        (wholeToken env (hieraVariables env key) t).length := by
    intro t ht
    cases t with
    | char c => exact le_rfl
    | var name =>
      have h := hfacts name ((hmem name).2 ht)
      rw [moduleToken, moduleTokenText_of_facts _ h, wholeToken_of_facts env key h]
      split_ifs
      · exact le_rfl
      · exact Nat.zero_le _
  have htoken : ∀ name, .var name ∈ templateTokens template →
      (moduleToken env.factsLookupDotted (.var name) =
          wholeToken env (hieraVariables env key) (.var name) ↔
        (256 ≤ name.length →
          ((env.factsLookupDotted (dropChars 6 name)).bind pathText).getD "" = "")) := by
    intro name hname
    have h := hfacts name hname
    rw [moduleToken, moduleTokenText_of_facts _ h, wholeToken_of_facts env key h]
    split_ifs with hlength
    · exact iff_of_true rfl fun h ↦ absurd hlength (by omega)
    · rw [not_lt] at hlength
      exact ⟨fun h _ ↦ h.symm, fun h ↦ (h hlength).symm⟩
  have hwhole : wholeInterpolate env (hieraVariables env key) template =
      joinTokens (wholeToken env (hieraVariables env key)) (closedTokens template.toList 0) ++
        String.ofList (openTail template.toList 0) := by
    rw [wholeInterpolate, templateTokens, htokens, joinTokens_append,
      joinTokens_char _ fun c ↦ rfl]
  rw [hwhole, moduleHieraInterpolatePath, moduleScan_eq, append_eq_iff (length_joinTokens_le hle),
    joinTokens_eq_iff hle, FitsModuleLayer]
  refine and_congr_right fun _ ↦ ⟨fun h name hname ↦ ?_, fun h t ht ↦ ?_⟩
  · exact (htoken name hname).1 (h _ ((hmem name).1 hname))
  · cases t with
    | char c => rfl
    | var name =>
      have hname := (hmem name).2 ht
      exact (htoken name hname).2 (h name hname)

end PuppetC
