import PuppetC.Value

/-!
# Hiera configuration and path interpolation

A Hiera hierarchy is a list of levels, each with a path template in which `%{name}` stands for
the value of a variable or fact (`puppet_hiera.c`). The environment of a lookup is what
`puppet_hiera_interpolate` reads of it: the node name, the calling module, whether nodes are
compiled in parallel, the facts of the current node and the variable lookup chain. The chain may
run code of its own, so it answers in a monad `m`.

## Main definitions

* `HieraLevel`, `HieraConfig`: `puppet_hiera_level_t`, `puppet_hiera_config_t`.
* `HieraEnv`: the parts of `puppet_env_t` a lookup reads.
* `hieraContextCreate`: the interpolation variables of a lookup.
* `templateTokens`: a template cut into characters and `%{...}` names.
* `hieraInterpolate`: `puppet_hiera_interpolate`.
-/

namespace PuppetC

universe u

/-- `puppet_hiera_merge_t`. -/
inductive HieraMerge where
  | first
  | unique
  | hash
  | deep
  deriving DecidableEq

/-- `puppet_hiera_level_t`: one level of the hierarchy, of the YAML backend. -/
structure HieraLevel where
  name : String
  pathTemplate : String
  datadir : String
  deriving DecidableEq

/-- `puppet_hiera_config_t`, less its cache, which a lookup reaches through its environment. -/
structure HieraConfig where
  defaultMerge : HieraMerge
  hierarchy : List HieraLevel

/-- The parts of the environment that a Hiera lookup reads. `variableLookupChain` is
`puppet_variable_lookup_chain` with `in_hiera_interpolation` set. -/
structure HieraEnv (m : Type → Type u) where
  nodeName : Option String
  callerModuleName : Option String
  parallelNodes : Bool
  factsLookupDotted : String → Option Value
  variableLookupChain : String → m (Option Value)

/-- The interpolation variables of `puppet_hiera_context_t`. -/
abbrev HieraVariables : Type := Hash 16 Value

/-- `puppet_hiera_context_create`. -/
def hieraContextCreate {m : Type → Type u} (env : HieraEnv m) : HieraVariables :=
  match env.nodeName with
  | some node => Table.empty.set "::fqdn" (.string node)
  | none => Table.empty

/-! ### Templates -/

/-- A template is read as characters to copy and names to replace. -/
inductive TemplateToken where
  | char (c : Char)
  | var (name : String)
  deriving DecidableEq

/-- The scan of `puppet_hiera_interpolate` after `skip` more characters: a `%{` opens a name
when some `}` follows, and is copied otherwise. -/
def scanTemplate : List Char → ℕ → List TemplateToken
  | [], _ => []
  | _ :: cs, skip + 1 => scanTemplate cs skip
  | c :: cs, 0 =>
    if c = '%' ∧ cs.head? = some '{' then
      match cs.tail.findIdx? (· = '}') with
      | some n => .var (String.ofList (cs.tail.take n)) :: scanTemplate cs (n + 2)
      | none => .char c :: scanTemplate cs 0
    else .char c :: scanTemplate cs 0

/-- The tokens of a template. -/
def templateTokens (template : String) : List TemplateToken := scanTemplate template.toList 0

/-- The text of a fact in a path: strings, numbers and booleans have one, hashes, arrays and
undef have none. -/
def factText : Value → Option String
  | .string s => some (bufferCopy 256 s)
  | .number n => some (formatG n)
  | .bool b => some (if b then "true" else "false")
  | _ => none

section Interpolate

variable {m : Type → Type u} [Monad m]

/-- The text that replaces `%{varName}`: a string among the context variables; the fact of a
`facts.` name, or nothing; `module_name` from the calling module; or a string from the variable
lookup chain. -/
def hieraTokenText (env : HieraEnv m) (vars : HieraVariables) (varName : String) :
    m String :=
  match vars.get varName with
  | some (.string s) => pure s
  | _ =>
    if startsWith (stripTop varName) "facts." then
      pure (((env.factsLookupDotted (dropChars 6 (stripTop varName))).bind factText).getD "")
    else
      match env.callerModuleName with
      | some moduleName =>
        if varName = "module_name" then pure (bufferCopy 256 moduleName) else chain
      | none => chain
where
  chain : m String := do
    match ← env.variableLookupChain (stripTop varName) with
    | some (.string s) => pure (bufferCopy 256 s)
    | _ => pure ""

/-- The text of one token. -/
def hieraToken (env : HieraEnv m) (vars : HieraVariables) : TemplateToken → m String
  | .char c => pure (String.singleton c)
  | .var name => hieraTokenText env vars name

/-- Replace the tokens from left to right. -/
def hieraTokens (env : HieraEnv m) (vars : HieraVariables) : List TemplateToken → m String
  | [] => pure ""
  | t :: ts => do
    let text ← hieraToken env vars t
    let rest ← hieraTokens env vars ts
    pure (text ++ rest)

/-- `puppet_hiera_interpolate`. -/
def hieraInterpolate (template : String) (env : HieraEnv m) (vars : HieraVariables) :
    m String :=
  hieraTokens env vars (templateTokens template)

end Interpolate

end PuppetC
