import PuppetC.Json.Reader
import PuppetC.Strtod
import PuppetC.Support.FiniteDescent

/-!
# Data from YAML documents

A YAML document is a table of nodes; sequences and mappings name their parts by index, and an alias
names the node of its anchor. The conversion to a value follows the indices, without a note of
where it has been. It ends exactly if no node that it comes to has itself among its parts.

A scalar should be a truth value, `undef` or a number only if it is a plain scalar that spells one,
and otherwise be its text. The conversion makes an exception only for scalars in quotes, and takes
the text up to its first NUL.

## Main definitions

* `YamlNode`, `YamlDocument`: `yaml_node_t`, `yaml_document_t`.
* `yamlScalarToValue`, `yamlNodeToValue`: the conversion, down to a given depth.
* `Spells`: the texts of truth values, `undef` and numbers.
* `IsPart`, `Converts`: what the conversion comes to, and whether it ends.

## Main results

* `converts_iff_acc`: the conversion ends exactly if the descents into parts do.
* `convertsByStyle_iff`: when it ends and types scalars by their style.
-/

namespace PuppetC

/-! ### Documents -/

/-- `yaml_scalar_style_t`, of a scalar that was read. -/
inductive YamlStyle where
  | plain
  | singleQuoted
  | doubleQuoted
  | literal
  | folded
  deriving DecidableEq

/-- `yaml_node_t`. -/
inductive YamlNode where
  | scalar (value : Bytes) (style : YamlStyle)
  | sequence (items : List ℤ)
  | mapping (pairs : List (ℤ × ℤ))
  deriving DecidableEq

/-- `yaml_document_t`: its nodes, which are numbered from one on. -/
structure YamlDocument where
  nodes : List YamlNode

/-- `yaml_document_get_node`. -/
def YamlDocument.node? (document : YamlDocument) (index : ℤ) : Option YamlNode :=
  if 0 < index then document.nodes[(index - 1).toNat]? else none

/-- The values that YAML data is converted to. -/
inductive YamlValue where
  | undef
  | bool (b : Bool)
  | number (x : Double)
  | string (s : Bytes)
  | array (items : List YamlValue)
  | hash (entries : List (Bytes × YamlValue))

/-! ### The conversion -/

/-- `yaml_scalar_to_value`. -/
def yamlScalarToValue (value : Bytes) (style : YamlStyle) : YamlValue :=
  let scalar := cString value
  if style = .singleQuoted ∨ style = .doubleQuoted then .string scalar
  else if scalar ∈ ["true".toList, "yes".toList, "on".toList, "TRUE".toList] then .bool true
  else if scalar ∈ ["false".toList, "no".toList, "off".toList, "FALSE".toList] then .bool false
  else if scalar ∈ ["null".toList, "~".toList, "NULL".toList, []] then .undef
  else
    match strtodPrefix scalar with
    | some (x, []) => .number x
    | _ => .string scalar

/-- `puppet_hash_set` on the entries of a hash that is read. -/
def yamlHashSet (entries : List (Bytes × YamlValue)) (key : Bytes) (v : YamlValue) :
    List (Bytes × YamlValue) :=
  match entries with
  | [] => [(key, v)]
  | (k, w) :: es => if k = key then (k, v) :: es else (k, w) :: yamlHashSet es key v

/-- The value node of a pair of a mapping, with its key: keys are scalars. -/
def YamlDocument.entry (document : YamlDocument) (pair : ℤ × ℤ) : Option (Bytes × YamlNode) :=
  match document.node? pair.1, document.node? pair.2 with
  | some (.scalar key _), some node => some (cString key, node)
  | _, _ => none

/-- `yaml_node_to_puppet_value`, `yaml_sequence_to_array`, `yaml_mapping_to_hash`: the value, if
parts are nested less than `depth` deep. -/
def yamlNodeToValue (document : YamlDocument) (depth : ℕ) (node : YamlNode) : Option YamlValue :=
  match depth, node with
  | 0, _ => none
  | _ + 1, .scalar value style => some (yamlScalarToValue value style)
  | depth + 1, .sequence items =>
    ((items.filterMap document.node?).mapM fun item ↦ yamlNodeToValue document depth item).map
      .array
  | depth + 1, .mapping pairs =>
    ((pairs.filterMap document.entry).mapM fun e ↦
      (yamlNodeToValue document depth e.2).map (Prod.mk e.1)).map fun entries ↦
        .hash (entries.foldl (fun es e ↦ yamlHashSet es e.1 e.2) [])

/-! ### What it comes to -/

section

variable (document : YamlDocument)

/-- The parts of a node that the conversion comes to. -/
def YamlDocument.parts : YamlNode → List YamlNode
  | .scalar .. => []
  | .sequence items => items.filterMap document.node?
  | .mapping pairs => (pairs.filterMap document.entry).map Prod.snd

/-- One node is part of another one. -/
def IsPart (node part : YamlNode) : Prop := part ∈ document.parts node

/-- The conversion of a node ends. -/
def Converts (node : YamlNode) : Prop :=
  ∃ depth, (yamlNodeToValue document depth node).isSome = true

end

variable {document : YamlDocument} {node : YamlNode}

theorem isSome_mapM_iff {α β : Type} {f : α → Option β} {xs : List α} :
    (xs.mapM f).isSome = true ↔ ∀ x ∈ xs, (f x).isSome = true := by
  induction xs with
  | nil => simp
  | cons x xs ih =>
    rw [List.mapM_cons, List.forall_mem_cons, ← ih]
    cases f x with
    | none => simp
    | some y => cases xs.mapM f <;> simp

/-- A node is converted at some depth exactly if its parts are at the depth below. -/
theorem isSome_yamlNodeToValue_succ {depth : ℕ} :
    (yamlNodeToValue document (depth + 1) node).isSome = true ↔
      ∀ part ∈ document.parts node, (yamlNodeToValue document depth part).isSome = true := by
  cases node with
  | scalar value style => simp [yamlNodeToValue, YamlDocument.parts]
  | sequence items =>
    rw [YamlDocument.parts, yamlNodeToValue, Option.isSome_map, isSome_mapM_iff]
  | mapping pairs =>
    rw [YamlDocument.parts, List.forall_mem_map, yamlNodeToValue, Option.isSome_map,
      isSome_mapM_iff]
    simp only [Option.isSome_map]

theorem isSome_yamlNodeToValue_mono {depth depth' : ℕ} (hle : depth ≤ depth')
    (h : (yamlNodeToValue document depth node).isSome = true) :
    (yamlNodeToValue document depth' node).isSome = true := by
  induction depth generalizing depth' node with
  | zero => simp [yamlNodeToValue] at h
  | succ depth ih =>
    cases depth' with
    | zero => omega
    | succ depth' =>
      rw [isSome_yamlNodeToValue_succ] at h ⊢
      exact fun part hpart ↦ ih (Nat.le_of_succ_le_succ hle) (h part hpart)

/-- The conversion ends exactly if the descents into parts do. -/
theorem converts_iff_acc :
    Converts document node ↔ Acc (fun part node ↦ IsPart document node part) node := by
  constructor
  · rintro ⟨depth, h⟩
    induction depth generalizing node with
    | zero => simp [yamlNodeToValue] at h
    | succ depth ih =>
      exact ⟨_, fun part hpart ↦ ih (isSome_yamlNodeToValue_succ.1 h part hpart)⟩
  · intro h
    induction h with
    | intro node _ ih =>
      have hall : ∀ parts ⊆ document.parts node, ∃ depth, ∀ part ∈ parts,
          (yamlNodeToValue document depth part).isSome = true := by
        intro parts hparts
        induction parts with
        | nil => exact ⟨0, fun part hpart ↦ absurd hpart List.not_mem_nil⟩
        | cons part parts ih' =>
          obtain ⟨hpart, hparts⟩ := List.cons_subset.1 hparts
          obtain ⟨depth, hdepth⟩ := ih part hpart
          obtain ⟨depth', hdepth'⟩ := ih' hparts
          refine ⟨max depth depth', List.forall_mem_cons.2 ⟨?_, fun part hpart ↦ ?_⟩⟩
          · exact isSome_yamlNodeToValue_mono (le_max_left ..) hdepth
          · exact isSome_yamlNodeToValue_mono (le_max_right ..) (hdepth' part hpart)
      obtain ⟨depth, hdepth⟩ := hall _ (List.Subset.refl _)
      exact ⟨depth + 1, isSome_yamlNodeToValue_succ.2 hdepth⟩

/-- The conversion of a node ends exactly if no node that it comes to is part of itself. -/
theorem converts_iff_forall_not_transGen : Converts document node ↔
    ∀ part, Relation.ReflTransGen (IsPart document) node part →
      ¬ Relation.TransGen (IsPart document) part part := by
  rw [converts_iff_acc]
  refine acc_iff_forall_not_transGen document.nodes fun node part hpart ↦ ?_
  have hnode {index : ℤ} {n : YamlNode} (h : document.node? index = some n) :
      n ∈ document.nodes := by
    rw [YamlDocument.node?] at h
    split_ifs at h
    exact List.mem_of_getElem? h
  cases node with
  | scalar value style => cases hpart
  | sequence items =>
    obtain ⟨index, -, h⟩ := List.mem_filterMap.1 hpart
    exact hnode h
  | mapping pairs =>
    obtain ⟨e, he, rfl⟩ := List.mem_map.1 hpart
    obtain ⟨pair, -, h⟩ := List.mem_filterMap.1 he
    rw [YamlDocument.entry] at h
    split at h
    · next hvalue =>
      obtain rfl := Option.some.inj h
      exact hnode hvalue
    · cases h

/-! ### Scalars -/

/-- The texts that spell a truth value, `undef` or a number. -/
inductive Spells : Bytes → YamlValue → Prop where
  | yes {text : Bytes} (h : text ∈ ["true".toList, "yes".toList, "on".toList, "TRUE".toList]) :
      Spells text (.bool true)
  | no {text : Bytes} (h : text ∈ ["false".toList, "no".toList, "off".toList, "FALSE".toList]) :
      Spells text (.bool false)
  | undef {text : Bytes} (h : text ∈ ["null".toList, "~".toList, "NULL".toList, []]) :
      Spells text .undef
  | number {text : Bytes} {x : Double} (hnul : '\x00' ∉ text)
      (h : strtodPrefix text = some (x, [])) : Spells text (.number x)

/-- A scalar becomes its text, unless it is plain and spells something else. -/
def IsTypedByStyle (value : Bytes) (style : YamlStyle) (v : YamlValue) : Prop :=
  (style ≠ .plain → v = .string value) ∧
    ((∀ s, v ≠ .string s) → style = .plain ∧ Spells value v)

/-- The scalars that are typed by their style: they have no NUL, unless they are plain and do not
spell anything up to it; and a block scalar does not spell anything. -/
def FitsStyle (value : Bytes) : YamlStyle → Prop
  | .plain => (∃ v, Spells (cString value) v) → '\x00' ∉ value
  | .singleQuoted | .doubleQuoted => '\x00' ∉ value
  | .literal | .folded => '\x00' ∉ value ∧ ∀ v, ¬ Spells value v

theorem cString_eq_self_iff {value : Bytes} : cString value = value ↔ '\x00' ∉ value := by
  rw [cString, List.takeWhile_eq_self_iff]
  simp only [ne_eq, decide_eq_true_eq]
  exact ⟨fun h hmem ↦ h _ hmem rfl, fun h c hc heq ↦ h (heq ▸ hc)⟩

theorem noNul_cString (value : Bytes) : '\x00' ∉ cString value :=
  fun h ↦ by simpa using List.mem_takeWhile_imp h

theorem Spells.noNul {text : Bytes} {v : YamlValue} (h : Spells text v) : '\x00' ∉ text := by
  cases h with
  | number hnul => exact hnul
  | yes h | no h | undef h =>
    revert h
    simp only [List.mem_cons, List.not_mem_nil, or_false]
    rintro (rfl | rfl | rfl | rfl) <;> simp

theorem Spells.not_string {text s : Bytes} : ¬ Spells text (.string s) := by
  intro h
  cases h

/-- What a scalar is converted to: its text up to a NUL, or what this text spells. -/
theorem yamlScalarToValue_cases (value : Bytes) (style : YamlStyle) :
    yamlScalarToValue value style = .string (cString value) ∧
        ((style = .singleQuoted ∨ style = .doubleQuoted) ∨ ∀ v, ¬ Spells (cString value) v) ∨
      ¬ (style = .singleQuoted ∨ style = .doubleQuoted) ∧
        Spells (cString value) (yamlScalarToValue value style) := by
  rw [yamlScalarToValue]
  split_ifs with hquoted hyes hno hundef
  · exact .inl ⟨rfl, .inl hquoted⟩
  · exact .inr ⟨hquoted, .yes hyes⟩
  · exact .inr ⟨hquoted, .no hno⟩
  · exact .inr ⟨hquoted, .undef hundef⟩
  · split
    · next hnumber => exact .inr ⟨hquoted, .number (noNul_cString value) hnumber⟩
    · next hnumber =>
      refine .inl ⟨rfl, .inr fun v hv ↦ ?_⟩
      cases hv with
      | yes h => exact hyes h
      | no h => exact hno h
      | undef h => exact hundef h
      | number _ h => exact hnumber _ h

/-- When a scalar is typed by its style. -/
theorem isTypedByStyle_iff (value : Bytes) (style : YamlStyle) :
    IsTypedByStyle value style (yamlScalarToValue value style) ↔ FitsStyle value style := by
  rcases yamlScalarToValue_cases value style with ⟨heq, htext⟩ | ⟨hquoted, hspells⟩
  · have hstring : IsTypedByStyle value style (yamlScalarToValue value style) ↔
        (style ≠ .plain → '\x00' ∉ value) := by
      rw [IsTypedByStyle, heq, YamlValue.string.injEq, cString_eq_self_iff]
      exact and_iff_left fun h ↦ absurd rfl (h _)
    rw [hstring]
    have hblock (hblock : ¬ (style = .singleQuoted ∨ style = .doubleQuoted)) (hnul : '\x00' ∉ value)
        (v : YamlValue) : ¬ Spells value v := by
      have hnone := htext.resolve_left hblock v
      rwa [cString_eq_self_iff.2 hnul] at hnone
    cases style with
    | plain =>
      have hnone := htext.resolve_left (by simp)
      simp [FitsStyle, hnone]
    | singleQuoted | doubleQuoted => simp [FitsStyle]
    | literal | folded =>
      simp only [ne_eq, reduceCtorEq, not_false_eq_true, true_imp_iff, FitsStyle]
      exact ⟨fun hnul ↦ ⟨hnul, hblock (by simp) hnul⟩, And.left⟩
  · have hnot : ∀ s, yamlScalarToValue value style ≠ .string s :=
      fun s h ↦ Spells.not_string (h ▸ hspells)
    -- what is spelled up to a NUL is not spelled by the whole text
    have hwhole : Spells value (yamlScalarToValue value style) ↔ '\x00' ∉ value :=
      ⟨Spells.noNul, fun hnul ↦ by rwa [cString_eq_self_iff.2 hnul] at hspells⟩
    cases style with
    | plain =>
      simp only [IsTypedByStyle, ne_eq, not_true_eq_false, false_imp_iff, true_and, FitsStyle]
      exact ⟨fun h _ ↦ hwhole.1 (h hnot), fun h _ ↦ hwhole.2 (h ⟨_, hspells⟩)⟩
    | singleQuoted | doubleQuoted => simp at hquoted
    | literal | folded =>
      refine iff_of_false (fun h ↦ hnot value (h.1 (by simp))) fun h ↦ ?_
      exact h.2 _ (hwhole.2 h.1)

/-! ### Documents -/

variable (document node) in
/-- The conversion of a document from a node ends, and types every scalar by its style. -/
structure ConvertsByStyle : Prop where
  converts : Converts document node
  typed : ∀ value style, Relation.ReflTransGen (IsPart document) node (.scalar value style) →
    IsTypedByStyle value style (yamlScalarToValue value style)

/-- The conversion from a node ends and types scalars by their style exactly if no node that it
comes to is part of itself, and all scalars that it comes to fit their styles. -/
theorem convertsByStyle_iff (document : YamlDocument) (node : YamlNode) :
    ConvertsByStyle document node ↔
      (∀ part, Relation.ReflTransGen (IsPart document) node part →
        ¬ Relation.TransGen (IsPart document) part part) ∧
      ∀ value style, Relation.ReflTransGen (IsPart document) node (.scalar value style) →
        FitsStyle value style := by
  rw [← converts_iff_forall_not_transGen]
  simp only [← isTypedByStyle_iff]
  exact ⟨fun h ↦ ⟨h.converts, h.typed⟩, fun h ↦ ⟨h.1, h.2⟩⟩

/-- A sequence with an alias for itself, and a block scalar that becomes a truth value. -/
theorem not_convertsByStyle :
    ¬ ConvertsByStyle ⟨[.sequence [1]]⟩ (.sequence [1]) ∧
      ¬ ConvertsByStyle ⟨[]⟩ (.scalar "true".toList .literal) := by
  constructor
  · intro h
    exact ((convertsByStyle_iff _ _).1 h).1 _ .refl (.single (by simp [IsPart, YamlDocument.parts,
      YamlDocument.node?]))
  · intro h
    have htyped := (h.typed _ _ .refl).1 (by decide)
    simp [yamlScalarToValue, cString] at htyped

end PuppetC
