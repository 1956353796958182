import PuppetC.Json.Reader
import PuppetC.Support.TextBuffer

/-!
# The resources of the agent

The agent reads the resources of a catalog, with a text for the value of every parameter. The
texts of arrays are assembled in buffers, where separators are written without a check of the
size; what is written past the end of a buffer has no meaning. A function of Ruby is whatever
Ruby answers.

## Main definitions

* `AgentResource`, `AgentResource.param?`: `resource_t`, `resource_get_param`.
* `buildArgsJson`, `evaluateDeferred`: `build_args_json`, `evaluate_deferred`.
* `arrayText`, `paramText`: the texts of values.
* `parseResource`: `parse_resource_from_json`.

## Main results

* `arrayText_isSome`: arrays of strings, numbers and booleans never leave their buffer.
-/

namespace PuppetC

/-! ### Resources -/

/-- `resource_t`. -/
structure AgentResource where
  type : Bytes
  title : Bytes
  params : List (Bytes × Bytes)
  deriving DecidableEq

/-- `resource_get_param`. -/
def AgentResource.param? (r : AgentResource) (name : String) : Option Bytes :=
  (r.params.find? fun p ↦ p.1 = name.toList).map Prod.snd

/-- `strcasecmp(s, t) == 0`. -/
def equalNoCase (s t : Bytes) : Bool := s.map lowerChar = t.map lowerChar

/-- What Ruby answers to the agent. -/
structure AgentRuby where
  hasType : Bytes → Bool
  callFunction : Bytes → Option Bytes → Option Bytes

/-! ### Deferred functions -/

/-- The text of a number: `%ld` if it is a `long`, else `%g`. -/
def numberText (q : ℚ) : Bytes :=
  if q = truncate q ∧ -2 ^ 63 ≤ q ∧ q < 2 ^ 63 then formatLong (truncate q) else formatDigits 6 q

/-- The text of a truth value. -/
def boolText (b : Bool) : Bytes := if b then "true".toList else "false".toList

/-- An argument of a deferred function, and whether it stands in quotes. Containers have none. -/
def argText : Json → Option (Bytes × Bool)
  | .string s => some (s, true)
  | .number q => some (numberText q, false)
  | .bool b => some (boolText b, false)
  | .null => some ("null".toList, false)
  | .array _ | .object _ => none

/-- An argument in quotes. -/
def quotedArg (s : Bytes) : Bytes :=
  '\x22' :: s.flatMap (fun c ↦ if c = '\x22' ∨ c = '\x5c' then ['\x5c', c] else [c]) ++ ['\x22']

/-- Write a separator before every element but the first one. -/
def putSeparator (separator : Bytes) (first : Bool) (b : TextBuffer) : Option TextBuffer :=
  if first then some b else b.put separator

/-- Write an argument. -/
def putArg (b : TextBuffer) (v : Json) : Option TextBuffer :=
  match argText v with
  | none => some b
  | some (s, quoted) => (b.reserve (s.length * 2 + 10)).put (if quoted then quotedArg s else s)

/-- The loop of `build_args_json`. -/
def putArgs (first : Bool) (b : TextBuffer) : List Json → Option TextBuffer
  | [] => some b
  | v :: vs => do putArgs false (← putArg (← putSeparator [','] first b) v) vs

/-- `build_args_json`: nothing if it writes past the end of its buffer. -/
def buildArgsJson : Option Json → Option (Option Bytes)
  | some (.array []) => some (some ['[', ']'])
  | some (.array vs) => do
    let b ← (TextBuffer.empty 1024 (by omega)).put ['[']
    let b ← putArgs true b vs
    let b ← b.put [']']
    return some (← b.finish)
  | _ => some none

/-- `evaluate_deferred`: no text for what is not a deferred function. -/
def evaluateDeferred (ruby : Option AgentRuby) (v : Json) : Option (Option Bytes) :=
  match v.get? "__ptype".toList, v.get? "name".toList with
  | some (.string ptype), some (.string name) =>
    if ptype ≠ "Deferred".toList then some none
    else
      let placeholder := ("<Deferred:".toList ++ name ++ ['>']).take 255
      match ruby with
      | none => some (some placeholder)
      | some ruby => do
        let args ← buildArgsJson (v.get? "arguments".toList)
        return some ((ruby.callFunction name args).getD placeholder)
  | _, _ => some none

/-! ### Values -/

/-- Write an element of a nested array, in a buffer of 1024 bytes: strings that fit are written. -/
def putNestedElement (b : TextBuffer) : Json → Option TextBuffer
  | .string s => if b.text.length + s.length + 10 < 1024 then b.put s else some b
  | _ => some b

/-- The loop over a nested array. -/
def putNested (first : Bool) (b : TextBuffer) : List Json → Option TextBuffer
  | [] => some b
  | v :: vs => do putNested false (← putNestedElement (← putSeparator [',', ' '] first b) v) vs

/-- The text of an element of an array, if it has one. -/
def elementText : Json → Option (Option Bytes)
  | .string s => some (some s)
  | .number q => some (some (numberText q))
  | .bool b => some (some (boolText b))
  | .array vs => do
    let b ← (TextBuffer.empty 1024 (by omega)).put ['[']
    let b ← putNested true b vs
    let b ← b.put [']']
    return some (← b.finish)
  | .null | .object _ => some none

/-- Write an element of an array. -/
def putElement (b : TextBuffer) (v : Json) : Option TextBuffer := do
  match ← elementText v with
  | none => return b
  | some s => (b.reserve (s.length + 10)).put s

/-- The loop over an array. -/
def putElements (first : Bool) (b : TextBuffer) : List Json → Option TextBuffer
  | [] => some b
  | v :: vs => do putElements false (← putElement (← putSeparator [',', ' '] first b) v) vs

/-- The text of an array. -/
def arrayText (vs : List Json) : Option Bytes := do
  let b ← (TextBuffer.empty 256 (by omega)).put ['[']
  let b ← putElements true b vs
  let b ← b.put [']']
  b.finish

/-- The text of the value of a parameter. -/
def paramText (ruby : Option AgentRuby) : Json → Option Bytes
  | .string s => some s
  | .bool b => some (boolText b)
  | .number q => some (numberText q)
  | .null => some []
  | .array vs => arrayText vs
  | .object ms => do return (← evaluateDeferred ruby (.object ms)).getD "\x7b\x7d".toList

/-- `parse_resource_from_json`: no resource is read from what has no type or no title. -/
def parseResource (ruby : Option AgentRuby) (v : Json) : Option (Option AgentResource) :=
  match v.get? "type".toList, v.get? "title".toList with
  | some (.string type), some (.string title) => do
    let params ←
      match v.get? "parameters".toList with
      | some (.object ms) => ms.mapM fun m ↦ do return (m.1, ← paramText ruby m.2)
      | _ => some []
    return some ⟨type, title, params⟩
  | _, _ => some none

/-! ### Arrays that fit -/

/-- A value that is written without a check of its own. -/
def IsScalar : Json → Prop
  | .string _ | .number _ | .bool _ => True
  | _ => False

/-- After an element there is room for a separator and the end. -/
theorem putElements_isSome {vs : List Json} (hvs : ∀ v ∈ vs, IsScalar v) (first : Bool)
    {b : TextBuffer} (hb : b.text.length + 4 ≤ b.size) :
    ∃ b', putElements first b vs = some b' ∧ b'.text.length + 4 ≤ b'.size := by
  induction vs generalizing first b with
  | nil => exact ⟨b, rfl, hb⟩
  | cons v vs ih =>
    obtain ⟨hv, hvs⟩ := List.forall_mem_cons.1 hvs
    obtain ⟨s, hs⟩ : ∃ s, elementText v = some (some s) := by
      cases v with
      | string | number | bool => exact ⟨_, rfl⟩
      | null | array | object => exact hv.elim
    obtain ⟨b₁, hput₁⟩ : ∃ b₁, putSeparator [',', ' '] first b = some b₁ := by
      cases first with
      | true => exact ⟨b, rfl⟩
      | false =>
        obtain ⟨b₁, h, -⟩ := TextBuffer.put_eq_some (b := b) (s := [',', ' '])
          (by rw [List.length_cons, List.length_singleton]; omega)
        exact ⟨b₁, h⟩
    have hroom := b₁.lt_size_reserve (s.length + 10)
    obtain ⟨b₂, hput₂, htext, hsize⟩ := TextBuffer.put_eq_some
      (b := b₁.reserve (s.length + 10)) (s := s) (show b₁.text.length + _ ≤ _ by omega)
    obtain ⟨b', hb', hlength⟩ := ih hvs false (b := b₂) (by
      rw [htext, hsize, List.length_append]
      change b₁.text.length + s.length + 4 ≤ _
      omega)
    have helement : putElement b₁ v = some b₂ := by
      rw [putElement, hs]
      exact hput₂
    refine ⟨b', ?_, hlength⟩
    rw [putElements, hput₁, Option.bind_eq_bind, Option.bind_some, helement]
    exact hb'

/-- Arrays of strings, numbers and truth values never leave their buffer. -/
theorem arrayText_isSome {vs : List Json} (hvs : ∀ v ∈ vs, IsScalar v) :
    (arrayText vs).isSome = true := by
  obtain ⟨b, hb, htext, hsize⟩ := TextBuffer.put_eq_some
    (b := TextBuffer.empty 256 (by omega)) (s := ['[']) (by decide)
  obtain ⟨b', hb', hlength⟩ := putElements_isSome hvs true (b := b) (by
    rw [htext, hsize]
    decide)
  obtain ⟨b'', hb'', htext', hsize'⟩ := TextBuffer.put_eq_some (b := b') (s := [']'])
    (by rw [List.length_singleton]; omega)
  have hfinish : b''.text.length < b''.size := by
    rw [htext', hsize', List.length_append, List.length_singleton]
    omega
  rw [arrayText, hb]
  simp only [Option.bind_eq_bind, Option.bind_some, hb', hb'']
  rw [TextBuffer.finish, if_pos hfinish]
  rfl

end PuppetC
