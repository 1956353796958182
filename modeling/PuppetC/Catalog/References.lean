import PuppetC.Interp.Catalog
import PuppetC.Value.Look

/-!
# References to resources in a catalog

A compile ends with a look at the relationship parameters of all resources. Their values are texts
`Type[title]`, or arrays of them. Each text is copied into two buffers, of 128 bytes for the type
and 512 for the title, and skipped where one of them is too small, as is a text that is no
reference. The type is compared without case, and a leading `::` of it is dropped; one in the type
of a resource is not.

## Main definitions

* `parseRef`, `checkRefString`, `checkValueRefs`, `Catalog.validateRefs`: the functions of
  `puppet_catalog_validate.c`.
* `Reference`: a type, with a `::` or without, and a title.
* `Catalog.Has`: a resource or class that a reference names is in the catalog.
* `Catalog.Checkable`: the condition on a reference.

## Main results

* `Catalog.mem_validateRefs_iff`: the errors that are reported.
* `Catalog.validateRefs_exact_iff`: when they are those of the references that name nothing.
-/

namespace PuppetC

/-- `parse_ref`, with buffers of the given sizes. -/
def parseRef (typeSize titleSize : ℕ) (ref : String) : Option (String × String) :=
  let start := (stripTop ref).toList
  let type := start.takeWhile (· ≠ '[')
  -- what is between the first `[` and the last `]` after it; empty if one of them is missing
  let title := ((start.dropWhile (· ≠ '[')).reverse.dropWhile (· ≠ ']')).tail.reverse.tail
  if title = [] ∨ typeSize ≤ type.length ∨ titleSize ≤ title.length ∨
      ¬ type.head?.any Char.isAlpha then none
  else some (String.ofList type, String.ofList title)

/-- What the error about a reference is made of. -/
structure RefError where
  type : String
  title : String
  paramName : String
  srcType : String
  srcTitle : String
  deriving DecidableEq

/-- The text of an error. -/
def RefError.message (e : RefError) : String :=
  "Could not find resource '" ++ resourceId e.type e.title ++ "' in parameter '" ++ e.paramName ++
    "' on " ++ resourceId e.srcType e.srcTitle

/-- The parameters that hold references. -/
def relParams : List String := ["require", "subscribe", "before", "notify"]

namespace Catalog

/-- `catalog_has_resource`. -/
def hasResource (c : Catalog) (type title : String) : Bool :=
  (lowerText type == "class" && c.classes.any fun name ↦ stripTop name == stripTop title) ||
    c.resources.any fun r ↦ r.isNamed type title

variable (c : Catalog) (src : CatalogResource) (paramName : String)

/-- `check_ref_string`. -/
def checkRefString (ref : String) : Option RefError :=
  match parseRef 128 512 ref with
  | none => none
  | some (type, title) =>
    if c.hasResource type title then none else some ⟨type, title, paramName, src.type, src.title⟩

mutual

/-- `check_value_refs`. -/
def checkValueRefs : Value → List RefError
  | .string s => (c.checkRefString src paramName (String.ofList (beforeNul s.toList))).toList
  | .array items => checkItemRefs items
  | _ => []

/-- The items of an array. -/
def checkItemRefs : List Value → List RefError
  | [] => []
  | v :: vs => checkValueRefs v ++ checkItemRefs vs

end

/-- The errors that `puppet_catalog_validate_refs` reports. -/
def validateRefs : List RefError :=
  c.resources.flatMap fun r ↦ r.parameters.flatMap fun p ↦
    if p.1 ∈ relParams then c.checkValueRefs r p.1 p.2 else []

end Catalog

/-! ### References -/

/-- A reference `Type[title]` or `::Type[title]`. -/
structure Reference where
  top : Bool
  type : String
  title : String
  isAlpha_head : type.toList.head?.any Char.isAlpha = true
  noBracket : '[' ∉ type.toList

/-- The text of a reference. -/
def Reference.text (r : Reference) : String :=
  (if r.top then "::" else "") ++ resourceId r.type r.title

/-- A reference that the buffers hold, with a title. -/
def Reference.Fits (r : Reference) : Prop :=
  r.type.length < 128 ∧ r.title ≠ "" ∧ r.title.length < 512 ∧ '\x00' ∉ r.text.toList

/-- A value is a string, or an array with such a value. -/
inductive Value.HasString : Value → String → Prop
  | string (s : String) : HasString (.string s) s
  | array {items : List Value} {v : Value} {s : String} (hv : v ∈ items) (h : HasString v s) :
    HasString (.array items) s

namespace Catalog

variable (c : Catalog)

/-- A class that a reference names is in the catalog. -/
def HasClass (r : Reference) : Prop :=
  lowerText r.type = "class" ∧ ∃ name ∈ c.classes, stripTop name = stripTop r.title

/-- A resource or class that a reference names is in the catalog. -/
def Has (r : Reference) : Prop :=
  c.HasClass r ∨
    ∃ s ∈ c.resources, lowerText (stripTop s.type) = lowerText r.type ∧ s.title = r.title

/-- A class that a reference names is in the catalog, or a resource whose type has no `::` before
it. -/
def HasPlain (r : Reference) : Prop :=
  c.HasClass r ∨ ∃ s ∈ c.resources, lowerText s.type = lowerText r.type ∧ s.title = r.title

/-- A reference that names nothing fits into the buffers, and one that does names something else
than resources whose types have a `::` before them, if it names anything. -/
def Checkable (r : Reference) : Prop :=
  (¬ c.Has r → r.Fits) ∧ (c.Has r → r.Fits → c.HasPlain r)

end Catalog

/-! ### What a text is taken for -/

theorem mem_of_mem_dropWhile_tail {α : Type} {p q : α → Bool} {l : List α} {x : α}
    (h : x ∈ ((l.dropWhile p).reverse.dropWhile q).tail.reverse.tail) : x ∈ l := by
  have hreverse := List.mem_reverse.1 (List.mem_of_mem_tail h)
  have hdrop := (List.dropWhile_suffix q).subset (List.mem_of_mem_tail hreverse)
  exact (List.dropWhile_suffix p).subset (List.mem_reverse.1 hdrop)

theorem mem_of_mem_stripTop {s : String} {x : Char} (h : x ∈ (stripTop s).toList) :
    x ∈ s.toList := by
  rw [stripTop] at h
  split_ifs at h
  · rw [dropChars, String.toList_ofList] at h
    exact List.mem_of_mem_drop h
  · exact h

/-- The type and title of a text fit into the buffers, and their bytes come from the text. -/
theorem parseRef_eq_some {m n : ℕ} {s type title : String}
    (h : parseRef m n s = some (type, title)) :
    type.length < m ∧ title ≠ "" ∧ title.length < n ∧
      ∀ x ∈ type.toList ++ title.toList, x ∈ s.toList := by
  rw [parseRef] at h
  split_ifs at h with hcond
  obtain ⟨rfl, rfl⟩ := Prod.mk.inj (Option.some.inj h)
  simp only [not_or, not_le] at hcond
  obtain ⟨htitle, htype, hlength, -⟩ := hcond
  refine ⟨by simpa using htype, fun hempty ↦ htitle ?_, by simpa using hlength, fun x hx ↦ ?_⟩
  · simpa using congrArg String.toList hempty
  · rw [String.toList_ofList, String.toList_ofList, List.mem_append] at hx
    refine mem_of_mem_stripTop (hx.elim (fun hx ↦ ?_) mem_of_mem_dropWhile_tail)
    exact (List.takeWhile_prefix _).subset hx

namespace Reference

variable (r : Reference)

theorem exists_toList_type : ∃ x xs, r.type.toList = x :: xs ∧ x.isAlpha := by
  have h := r.isAlpha_head
  cases htype : r.type.toList with
  | nil => simp [htype] at h
  | cons x xs => exact ⟨x, xs, rfl, by simpa [htype] using h⟩

theorem toList_resourceId_type :
    (resourceId r.type r.title).toList = r.type.toList ++ '[' :: (r.title.toList ++ [']']) := by
  simp [resourceId]

/-- The text without the `::` that a reference may begin with. -/
theorem stripTop_text : stripTop r.text = resourceId r.type r.title := by
  cases htop : r.top with
  | true => simp [text, htop, stripTop, startsWith, dropChars]
  | false =>
    obtain ⟨x, xs, htype, hx⟩ := r.exists_toList_type
    have hcolon : x ≠ ':' := by
      rintro rfl
      exact absurd hx (by decide)
    simp [text, htop, stripTop, startsWith, toList_resourceId_type, htype, hcolon.symm]

/-- A reference that fits is recognized. -/
theorem parseRef_text (h : r.Fits) : parseRef 128 512 r.text = some (r.type, r.title) := by
  obtain ⟨htype, htitle, hlength, -⟩ := h
  have hbracket : ∀ x ∈ r.type.toList, decide (x ≠ '[') = true := fun x hx ↦
    decide_eq_true fun hxb ↦ r.noBracket (hxb ▸ hx)
  have htake : (r.type.toList ++ '[' :: (r.title.toList ++ [']'])).takeWhile (· ≠ '[') =
      r.type.toList := by
    rw [List.takeWhile_append_of_pos hbracket]
    simp
  have hdrop : (r.type.toList ++ '[' :: (r.title.toList ++ [']'])).dropWhile (· ≠ '[') =
      '[' :: (r.title.toList ++ [']']) := by
    rw [List.dropWhile_append_of_pos hbracket]
    simp
  have hlast : (('[' :: (r.title.toList ++ [']'])).reverse.dropWhile (· ≠ ']')).tail.reverse.tail =
      r.title.toList := by
    simp
  rw [parseRef, r.stripTop_text, toList_resourceId_type]
  simp only [htake, hdrop, hlast, String.ofList_toList, String.length_toList, r.isAlpha_head]
  rw [if_neg]
  simp only [not_or, not_le]
  exact ⟨by simpa using htitle, htype, hlength, by simp⟩

end Reference

/-! ### The errors that are reported -/

theorem eq_colon_of_lowerChar {x : Char} (h : lowerChar x = ':') : x = ':' := by
  rw [lowerChar] at h
  split_ifs at h with hx
  · have hlow : 65 ≤ x.toNat := hx.1
    have hhigh : x.toNat ≤ 90 := hx.2
    have hvalid : (x.toNat + 32).isValidChar := Or.inl (by omega)
    have hnat : (Char.ofNat (x.toNat + 32)).toNat = x.toNat + 32 := by
      rw [Char.ofNat, dif_pos hvalid]
      rfl
    have hcolon : (Char.ofNat (x.toNat + 32)).toNat = 58 := congrArg Char.toNat h
    omega
  · exact h

namespace Catalog

variable {c : Catalog}

theorem hasResource_iff_hasPlain {r : Reference} :
    c.hasResource r.type r.title = true ↔ c.HasPlain r := by
  simp [hasResource, HasPlain, HasClass, CatalogResource.isNamed]

/-- A type that is spelled like that of a reference, up to case, has no `::` before it. -/
theorem stripTop_eq_self {type : String} {r : Reference} (h : lowerText type = lowerText r.type) :
    stripTop type = type := by
  obtain ⟨x, xs, htype, hx⟩ := r.exists_toList_type
  rw [lowerText, lowerText, String.ofList_inj, htype, List.map_cons] at h
  rw [stripTop, if_neg]
  intro hcolons
  cases hlist : type.toList with
  | nil => simp [hlist] at h
  | cons y ys =>
    have hy : ':' = y := by
      simp only [startsWith, hlist] at hcolons
      simpa using (List.isPrefixOf_iff_prefix.1 hcolons).head (by simp)
    subst hy
    rw [hlist, List.map_cons] at h
    obtain rfl := eq_colon_of_lowerChar (List.cons.inj h).1.symm
    exact absurd hx (by decide)

theorem HasPlain.has {r : Reference} (h : c.HasPlain r) : c.Has r := by
  refine h.imp_right fun ⟨s, hs, htype, htitle⟩ ↦ ⟨s, hs, ?_, htitle⟩
  rw [stripTop_eq_self htype, htype]

section Values

variable {src : CatalogResource} {paramName : String} {e : RefError}

theorem mem_checkItemRefs_iff {items : List Value} :
    e ∈ c.checkItemRefs src paramName items ↔
      ∃ v ∈ items, e ∈ c.checkValueRefs src paramName v := by
  induction items with
  | nil => simp [checkItemRefs]
  | cons v vs ih => rw [checkItemRefs, List.mem_append, ih, List.exists_mem_cons_iff]

/-- The errors for a value are those for the strings in it. -/
theorem mem_checkValueRefs_iff {v : Value} :
    e ∈ c.checkValueRefs src paramName v ↔ ∃ s, v.HasString s ∧
      c.checkRefString src paramName (String.ofList (beforeNul s.toList)) = some e := by
  induction v using Value.induct with
  | string s =>
    rw [checkValueRefs, Option.mem_toList]
    constructor
    · exact fun h ↦ ⟨s, .string s, h⟩
    · rintro ⟨s', ⟨⟩, h⟩
      exact h
  | array items ih =>
    rw [checkValueRefs, mem_checkItemRefs_iff]
    constructor
    · rintro ⟨v, hv, he⟩
      obtain ⟨s, hs, he⟩ := (ih v hv).1 he
      exact ⟨s, .array hv hs, he⟩
    · rintro ⟨s, hs, he⟩
      cases hs with
      | array hv hs => exact ⟨_, hv, (ih _ hv).2 ⟨s, hs, he⟩⟩
  | undef | bool | number | regexp | hash | deferred =>
    rw [checkValueRefs]
    · simp only [List.not_mem_nil, false_iff, not_exists, not_and]
      rintro s ⟨⟩
    all_goals simp

theorem checkRefString_eq_some {s : String} (h : c.checkRefString src paramName s = some e) :
    parseRef 128 512 s = some (e.type, e.title) ∧ c.hasResource e.type e.title = false := by
  rw [checkRefString] at h
  cases hparse : parseRef 128 512 s with
  | none => simp [hparse] at h
  | some ref =>
    simp only [hparse] at h
    split_ifs at h with hres
    obtain rfl := Option.some.inj h
    exact ⟨rfl, by simpa using hres⟩

end Values

/-- The error about a reference of a parameter. -/
def refError (src : CatalogResource) (paramName : String) (r : Reference) : RefError :=
  ⟨r.type, r.title, paramName, src.type, src.title⟩

/-- An error is reported for a reference that fits into the buffers, if the lookup finds nothing. -/
theorem mem_validateRefs_iff {src : CatalogResource} (hsrc : src ∈ c.resources)
    {p : String × Value} (hp : p ∈ src.parameters) (hrel : p.1 ∈ relParams) {r : Reference}
    (hr : p.2.HasString r.text) :
    refError src p.1 r ∈ c.validateRefs ↔ r.Fits ∧ ¬ c.HasPlain r := by
  constructor
  · intro h
    obtain ⟨src', -, h⟩ := List.mem_flatMap.1 h
    obtain ⟨p', -, h⟩ := List.mem_flatMap.1 h
    split_ifs at h with hrel'
    · obtain ⟨s, -, h⟩ := mem_checkValueRefs_iff.1 h
      obtain ⟨hparse, hres⟩ := checkRefString_eq_some h
      obtain ⟨htype, htitle, hlength, hmem⟩ := parseRef_eq_some hparse
      refine ⟨⟨htype, htitle, hlength, fun hnul ↦ ?_⟩, fun hplain ↦ ?_⟩
      · have hnul' : '\x00' ∈ r.type.toList ++ r.title.toList := by
          rw [Reference.text, String.toList_append, r.toList_resourceId_type] at hnul
          cases htop : r.top <;> simpa [htop] using hnul
        have hseen := hmem _ hnul'
        rw [String.toList_ofList] at hseen
        exact nul_not_mem_beforeNul _ hseen
      · change c.hasResource r.type r.title = false at hres
        rw [hasResource_iff_hasPlain.2 hplain] at hres
        cases hres
    · cases h
  · rintro ⟨hfits, hplain⟩
    refine List.mem_flatMap.2 ⟨src, hsrc, List.mem_flatMap.2 ⟨p, hp, ?_⟩⟩
    rw [if_pos hrel]
    refine mem_checkValueRefs_iff.2 ⟨r.text, hr, ?_⟩
    rw [beforeNul_eq_self_iff.2 hfits.2.2.2, String.ofList_toList, checkRefString,
      r.parseRef_text hfits]
    exact if_neg fun hres ↦ hplain (hasResource_iff_hasPlain.1 hres)

/-- `puppet_catalog_validate_refs` reports an error exactly for the references that name nothing in
the catalog, if they are checkable. -/
theorem validateRefs_exact_iff (c : Catalog) :
    (∀ src ∈ c.resources, ∀ p ∈ src.parameters, p.1 ∈ relParams →
      ∀ r : Reference, p.2.HasString r.text →
        (refError src p.1 r ∈ c.validateRefs ↔ ¬ c.Has r)) ↔
    ∀ src ∈ c.resources, ∀ p ∈ src.parameters, p.1 ∈ relParams →
      ∀ r : Reference, p.2.HasString r.text → c.Checkable r := by
  refine forall₂_congr fun src hsrc ↦ forall₂_congr fun p hp ↦ forall_congr' fun hrel ↦
    forall₂_congr fun r hr ↦ ?_
  rw [mem_validateRefs_iff hsrc hp hrel hr, Checkable]
  by_cases hhas : c.Has r
  · simp [hhas]
  · have hplain : ¬ c.HasPlain r := fun hplain ↦ hhas hplain.has
    simp [hhas, hplain]

/-- A reference to a file whose title has 512 characters. -/
def longReference : Reference where
  top := false
  type := "File"
  title := String.ofList (List.replicate 512 'a')
  isAlpha_head := rfl
  noBracket := by decide

/-- A resource that requires the file. -/
def longRequire : CatalogResource :=
  ⟨"notify", "n", [("require", .string longReference.text)], [], false⟩

/-- The file is missing, and no error is reported. -/
theorem not_validateRefs_exact :
    ¬ ∀ (c : Catalog), ∀ src ∈ c.resources, ∀ p ∈ src.parameters, p.1 ∈ relParams →
      ∀ r : Reference, p.2.HasString r.text →
        (refError src p.1 r ∈ c.validateRefs ↔ ¬ c.Has r) := by
  intro h
  let c : Catalog := { create none none with resources := [longRequire] }
  have hrel : "require" ∈ relParams := List.mem_cons_self
  have hsrc : longRequire ∈ c.resources := List.mem_singleton_self _
  have hp : ("require", Value.string longReference.text) ∈ longRequire.parameters :=
    List.mem_singleton_self _
  have hmissing : ¬ c.Has longReference := by
    have hfile : lowerText "File" ≠ "class" := by decide
    have hnotify : lowerText (stripTop "notify") ≠ lowerText "File" := by decide
    rintro (⟨hclass, -⟩ | ⟨s, hs, htype, -⟩)
    · exact hfile hclass
    · obtain rfl := List.mem_singleton.1 hs
      exact hnotify htype
  have hexact := h c longRequire hsrc _ hp hrel longReference (.string _)
  rw [mem_validateRefs_iff hsrc hp hrel (.string _)] at hexact
  have hlength : (String.ofList (List.replicate 512 'a')).length < 512 :=
    (hexact.2 hmissing).1.2.2.1
  rw [String.length_ofList, List.length_replicate] at hlength
  omega

end Catalog

end PuppetC
