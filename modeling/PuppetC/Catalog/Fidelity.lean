import PuppetC.Catalog.Document
import PuppetC.Json.RoundTrip

/-!
# Reading the document of a catalog

What the JSON library reads where a catalog was written. The document stands for a JSON value,
in which every number is known with the format it is written in; what is read is this value with
its texts and numbers as they are read back.

## Main definitions

* `Printed`: a number and its format.
* `Value.image`, `CatalogDocument.image`: what the document stands for.
* `CatalogDocument.IsRecovered`: a value has the resources and edges of a catalog.

## Main results

* `lexes_document`: the document consists of the tokens of what it stands for.
* `isRecovered_iff`: when resources and edges are recovered from the document.
-/

namespace PuppetC

/-! ### What a document stands for -/

/-- A number and its format. -/
inductive Printed where
  /-- A number written with `%g`. -/
  | general (q : ℚ)
  /-- A number written with `%d`. -/
  | decimal (n : ℤ)

namespace Printed

/-- The number itself. -/
def value : Printed → ℚ
  | general q => q
  | decimal n => n

/-- The number as it is written. -/
def text : Printed → Bytes
  | general q => formatDigits 6 q
  | decimal n => formatLong n

/-- The number as it is read back. -/
def read (p : Printed) : ℚ := strtod p.text

/-- The number is written as a numeral. -/
def IsNumeral (p : Printed) : Prop := ∃ x : Numeral, x.text = p.text

end Printed

/-- A text in a document. -/
def imageText {N : Type} (s : String) : JsonOf N := .string s.toList

namespace Value

mutual

/-- What a value stands for in a document. -/
def image : Value → JsonOf Printed
  | .string s => imageText s
  | .number q => .number (.general q)
  | .bool b => .bool b
  | .undef => .null
  | .array items => .array (imageItems items)
  | .hash entries => .object (imageEntries entries)
  | .deferred f args => .object [("__ptype".toList, imageText "Deferred"),
      ("name".toList, imageText f), ("arguments".toList, .array (imageItems args))]
  | .regexp _ => .null

/-- What the items of an array stand for. -/
def imageItems : List Value → List (JsonOf Printed)
  | [] => []
  | v :: vs => image v :: imageItems vs

/-- What the entries of a hash stand for. -/
def imageEntries : List (String × Value) → List (Bytes × JsonOf Printed)
  | [] => []
  | (k, v) :: es => (k.toList, image v) :: imageEntries es

end

end Value

/-- What a resource stands for in a document. -/
def DocumentResource.image (r : DocumentResource) : JsonOf Printed :=
  .object <|
    [("type".toList, imageText r.type), ("title".toList, imageText r.title),
      ("exported".toList, .bool r.exported), ("tags".toList, .array (r.tags.map imageText))] ++
    (match r.location with
      | some (file, line) =>
        [("file".toList, imageText file), ("line".toList, .number (.decimal line))]
      | none => []) ++
    [("parameters".toList, .object (r.parameters.map fun p ↦ (p.1.toList, p.2.image)))]

/-- What an end of an edge stands for in a document. -/
def imageRef (type title : String) : JsonOf Printed :=
  .object [("type".toList, imageText type), ("title".toList, imageText title)]

/-- What an edge stands for in a document. -/
def CatalogEdge.image (e : CatalogEdge) : JsonOf Printed :=
  .object [("source".toList, imageRef e.sourceType e.sourceTitle),
    ("target".toList, imageRef e.targetType e.targetTitle),
    ("relationship".toList, imageText e.relationship.toText)]

namespace CatalogDocument

variable (d : CatalogDocument)

/-- What the resources of a document stand for. -/
def resourcesImage : JsonOf Printed := .array (d.resources.map DocumentResource.image)

/-- What the edges of a document stand for. -/
def edgesImage : JsonOf Printed := .array (d.edges.map CatalogEdge.image)

/-- What a document stands for. -/
def image : JsonOf Printed :=
  .object [("certname".toList, imageText d.certname), ("version".toList, imageText d.version),
    ("environment".toList, imageText d.environment),
    ("catalog_format".toList, .number (.decimal 1)),
    ("tags".toList, .array (d.tags.map imageText)),
    ("classes".toList, .array (d.classes.map imageText)),
    ("resources".toList, d.resourcesImage), ("edges".toList, d.edgesImage)]

end CatalogDocument

/-! ### The tokens of a text -/

theorem Lexes.blanks_of_ne {b r r' : Bytes} {ts : List Token} (hb : ∀ c ∈ b, isBlank c = true)
    (hts : ts ≠ []) (h : Lexes r ts r') : Lexes (b ++ r) ts r' := by
  obtain ⟨t, ts, rfl⟩ := List.exists_cons_of_ne_nil hts
  exact h.blanks hb

/-- A text consists of the tokens of a value as it is read back. -/
def LexesAs (text : Bytes) (v : JsonOf Printed) : Prop :=
  ∀ (r r' : Bytes) (ts : List Token), Ends r → Lexes r ts r' →
    Lexes (text ++ r) ((v.map readBack Printed.read).tokens ++ ts) r'

/-- A text consists of the tokens of elements as they are read back. -/
def LexesElements (first : Bool) (text : Bytes) (vs : List (JsonOf Printed)) : Prop :=
  ∀ (r r' : Bytes) (ts : List Token), Ends r → Lexes r ts r' →
    Lexes (text ++ r)
      (JsonOf.elementTokens first (JsonOf.mapElements readBack Printed.read vs) ++ ts) r'

/-- A text consists of the tokens of members as they are read back. -/
def LexesMembers (first : Bool) (text : Bytes) (ms : List (Bytes × JsonOf Printed)) : Prop :=
  ∀ (r r' : Bytes) (ts : List Token), Ends r → Lexes r ts r' →
    Lexes (text ++ r)
      (JsonOf.memberTokens first (JsonOf.mapMembers readBack Printed.read ms) ++ ts) r'

theorem ends_separated {α : Type} {b r : Bytes} {f : α → Bytes} {xs : List α} (hr : Ends r) :
    Ends (separated (',' :: b) f false xs ++ r) := by
  cases xs with
  | nil => exact hr
  | cons x xs => exact ends_cons (by decide)

theorem ends_blanks {b r : Bytes} (hb : ∀ c ∈ b, isBlank c = true) (hr : Ends r) :
    Ends (b ++ r) := by
  cases b with
  | nil => exact hr
  | cons c b =>
    have hc := hb c List.mem_cons_self
    simp only [isBlank, Bool.or_eq_true, decide_eq_true_eq] at hc
    rcases hc with ((rfl | rfl) | rfl) | rfl <;> exact ends_cons (by decide)

theorem isBlank_indentation (level : ℕ) : ∀ c ∈ indentation level, isBlank c = true :=
  fun c hc ↦ by rw [(List.mem_replicate.1 hc).2]; rfl

/-- The items of a list with commas and blanks between them. -/
theorem lexesElements_separated {α : Type} (b pre : Bytes) (hb : ∀ c ∈ b, isBlank c = true)
    (hpre : ∀ c ∈ pre, isBlank c = true) {f : α → Bytes} {g : α → JsonOf Printed} (first : Bool)
    {xs : List α} (h : ∀ x ∈ xs, LexesAs (f x) (g x)) :
    LexesElements first (separated (',' :: b) (fun x ↦ pre ++ f x) first xs) (xs.map g) := by
  induction xs generalizing first with
  | nil => exact fun r r' ts _ hlex ↦ hlex
  | cons x xs ih =>
    intro r r' ts hr hlex
    have hrest := ih false (fun y hy ↦ h y (List.mem_cons_of_mem _ hy)) r r' ts hr hlex
    have hx := h x List.mem_cons_self _ _ _ (ends_separated hr) hrest
    obtain ⟨t₀, ts₀, htok, -⟩ := ((g x).map readBack Printed.read).exists_tokens_eq
    cases first with
    | true =>
      simp only [List.map_cons, separated, JsonOf.mapElements, JsonOf.elementTokens, htok, if_true,
        List.nil_append, List.append_assoc, List.cons_append] at hx ⊢
      exact hx.blanks hpre
    | false =>
      simp only [List.map_cons, separated, JsonOf.mapElements, JsonOf.elementTokens, htok,
        Bool.false_eq_true, if_false, List.nil_append, List.append_assoc, List.cons_append] at hx ⊢
      exact ((hx.blanks hpre).blanks hb).punctuation rfl

/-- A member of an object and the member of a value that it stands for. -/
def LexesMember (m : String × Bytes) (u : Bytes × JsonOf Printed) : Prop :=
  m.1.toList = u.1 ∧ LexesAs m.2 u.2

/-- The members of an object with commas and blanks between them. -/
theorem lexesMembers_separated (b pre : Bytes) (hb : ∀ c ∈ b, isBlank c = true)
    (hpre : ∀ c ∈ pre, isBlank c = true) (first : Bool) {ms : List (String × Bytes)}
    {us : List (Bytes × JsonOf Printed)} (h : List.Forall₂ LexesMember ms us) :
    LexesMembers first (separated (',' :: b) (fun m ↦ pre ++ jsonMember m) first ms) us := by
  induction h generalizing first with
  | nil => exact fun r r' ts _ hlex ↦ hlex
  | @cons m u ms us hm _ ih =>
    intro r r' ts hr hlex
    obtain ⟨k, v⟩ := u
    obtain ⟨hk, hv⟩ := hm
    have hx := hv _ _ _ (ends_separated hr) (ih false r r' ts hr hlex)
    obtain ⟨t₀, ts₀, htok, -⟩ := (v.map readBack Printed.read).exists_tokens_eq
    rw [htok] at hx
    have hkey := ((hx.blank (c := ' ') rfl).punctuation (c := ':') rfl).string k
    cases first with
    | true =>
      simp only [separated, jsonMember, jsonEscapeString, hk, JsonOf.mapMembers,
        JsonOf.memberTokens, htok, if_true, List.nil_append, List.append_assoc,
        List.cons_append] at hkey ⊢
      exact hkey.blanks hpre
    | false =>
      simp only [separated, jsonMember, jsonEscapeString, hk, JsonOf.mapMembers,
        JsonOf.memberTokens, htok, Bool.false_eq_true, if_false, List.nil_append,
        List.append_assoc, List.cons_append] at hkey ⊢
      exact ((hkey.blanks hpre).blanks hb).punctuation rfl

namespace LexesAs

theorem string (s : String) : LexesAs (jsonEscapeString s) (imageText s) :=
  fun _ _ _ _ h ↦ h.string s.toList

theorem null : LexesAs ['n', 'u', 'l', 'l'] .null :=
  fun _ _ _ _ h ↦ .cons rfl (by simp; omega) h

theorem bool (b : Bool) : LexesAs (jsonBool b) (.bool b) := by
  intro r r' ts _ h
  cases b <;> exact .cons rfl (by simp [jsonBool]; omega) h

theorem number {p : Printed} (hp : p.IsNumeral) : LexesAs p.text (.number p) := by
  intro r r' ts hr h
  obtain ⟨x, hx⟩ := hp
  simp only [JsonOf.map, JsonOf.tokens, Printed.read]
  rw [← hx]
  exact h.number x hr

theorem array (b₁ b₂ : Bytes) {text : Bytes} {vs : List (JsonOf Printed)}
    (hb₁ : ∀ c ∈ b₁, isBlank c = true) (hb₂ : ∀ c ∈ b₂, isBlank c = true)
    (h : LexesElements true text vs) :
    LexesAs ('[' :: (b₁ ++ (text ++ (b₂ ++ [']'])))) (.array vs) := by
  intro r r' ts _ hlex
  have hend := (hlex.punctuation (c := ']') (t := .arrayEnd) rfl).blanks hb₂
  have hbody := h _ _ _ (ends_blanks hb₂ (ends_cons (by decide))) hend
  have hall := (hbody.blanks_of_ne hb₁ (by simp)).punctuation (c := '[') (t := .arrayStart) rfl
  simpa [JsonOf.map, JsonOf.tokens] using hall

theorem object (b₁ b₂ : Bytes) {text : Bytes} {ms : List (Bytes × JsonOf Printed)}
    (hb₁ : ∀ c ∈ b₁, isBlank c = true) (hb₂ : ∀ c ∈ b₂, isBlank c = true)
    (h : LexesMembers true text ms) :
    LexesAs ('\x7b' :: (b₁ ++ (text ++ (b₂ ++ ['\x7d'])))) (.object ms) := by
  intro r r' ts _ hlex
  have hend := (hlex.punctuation (c := '\x7d') (t := .objectEnd) rfl).blanks hb₂
  have hbody := h _ _ _ (ends_blanks hb₂ (ends_cons (by decide))) hend
  have hall := (hbody.blanks_of_ne hb₁ (by simp)).punctuation (c := '\x7b') (t := .objectStart) rfl
  simpa [JsonOf.map, JsonOf.tokens] using hall

theorem list {α : Type} {f : α → Bytes} {g : α → JsonOf Printed} {xs : List α}
    (h : ∀ x ∈ xs, LexesAs (f x) (g x)) : LexesAs (jsonList f xs) (.array (xs.map g)) :=
  array [] [] (by simp) (by simp)
    (lexesElements_separated [' '] [] (List.forall_mem_singleton.2 rfl) (by simp) true h)

theorem record {ms : List (String × Bytes)} {us : List (Bytes × JsonOf Printed)}
    (h : List.Forall₂ LexesMember ms us) : LexesAs (jsonRecord ms) (.object us) :=
  object [] [] (by simp) (by simp)
    (lexesMembers_separated [' '] [] (List.forall_mem_singleton.2 rfl) (by simp) true h)

theorem block (level : ℕ) {ms : List (String × Bytes)} {us : List (Bytes × JsonOf Printed)}
    (h : List.Forall₂ LexesMember ms us) : LexesAs (jsonBlock level ms) (.object us) := by
  have hnewline : ∀ c ∈ ['\n'], isBlank c = true := List.forall_mem_singleton.2 rfl
  have hlines := object ['\n'] ('\n' :: indentation level) hnewline
    (List.forall_mem_cons.2 ⟨rfl, isBlank_indentation level⟩)
    (lexesMembers_separated ['\n'] _ hnewline (isBlank_indentation (level + 1)) true h)
  simpa [jsonBlock] using hlines

theorem blocks (level : ℕ) {α : Type} {f : α → Bytes} {g : α → JsonOf Printed} {xs : List α}
    (h : ∀ x ∈ xs, LexesAs (f x) (g x)) :
    LexesAs (jsonBlocks level f xs) (.array (xs.map g)) := by
  have hnewline : ∀ c ∈ ['\n'], isBlank c = true := List.forall_mem_singleton.2 rfl
  have hlines := array ['\n'] ('\n' :: indentation level) hnewline
    (List.forall_mem_cons.2 ⟨rfl, isBlank_indentation level⟩)
    (lexesElements_separated ['\n'] _ hnewline (isBlank_indentation (level + 1)) true h)
  simpa [jsonBlocks] using hlines

end LexesAs

/-! ### The tokens of a document -/

namespace Value

theorem imageItems_eq (vs : List Value) : imageItems vs = vs.map image := by
  induction vs with
  | nil => rfl
  | cons v vs ih => rw [imageItems, ih, List.map_cons]

theorem imageEntries_eq (es : List (String × Value)) :
    imageEntries es = es.map fun e ↦ (e.1.toList, e.2.image) := by
  induction es with
  | nil => rfl
  | cons e es ih => rw [imageEntries, ih, List.map_cons]

theorem writeItems_eq (first : Bool) (vs : List Value) :
    writeItems first vs = separated [',', ' '] jsonWriteValue first vs := by
  induction vs generalizing first with
  | nil => rfl
  | cons v vs ih => rw [writeItems, ih, separated]

theorem writeEntries_eq (first : Bool) (es : List (String × Value)) :
    writeEntries first es =
      separated [',', ' '] jsonMember first (es.map fun e ↦ (e.1, e.2.jsonWriteValue)) := by
  induction es generalizing first with
  | nil => rfl
  | cons e es ih => rw [writeEntries, ih, List.map_cons, separated]

/-- A list of values in brackets. -/
theorem lexesAs_items {vs : List Value}
    (h : ∀ v ∈ vs, LexesAs v.jsonWriteValue v.image) :
    LexesAs ('[' :: (writeItems true vs ++ [']'])) (.array (imageItems vs)) := by
  rw [writeItems_eq, imageItems_eq]
  exact .list h

mutual

/-- The text of a value consists of the tokens of what it stands for. -/
theorem lexesAs : (v : Value) → (∀ p, v.image.Has (.number p) → p.IsNumeral) →
    LexesAs v.jsonWriteValue v.image
  | .string s, _ => .string s
  | .number q, h => .number (h _ (.self _))
  | .bool b, _ => .bool b
  | .undef, _ => .null
  | .regexp _, _ => .null
  | .array items, h =>
    lexesAs_items (lexesAs_all items fun v hv p hp ↦
      h p (.element (by rw [imageItems_eq]; exact List.mem_map_of_mem hv) hp))
  | .hash entries, h => by
    have hvalues := lexesAs_entries entries fun e he p hp ↦
      h p (.member (by rw [imageEntries_eq]; exact List.mem_map_of_mem he) hp)
    rw [jsonWriteValue, writeEntries_eq, image, imageEntries_eq]
    refine .record (List.forall₂_map_left_iff.2 (List.forall₂_map_right_iff.2 ?_))
    exact List.forall₂_same.2 fun e he ↦ ⟨rfl, hvalues e he⟩
  | .deferred f args, h => by
    have hmem : ∀ v ∈ args, v.image ∈ imageItems args := fun v hv ↦ by
      rw [imageItems_eq]
      exact List.mem_map_of_mem hv
    have hargs := lexesAs_items (lexesAs_all args fun v hv p hp ↦
      h p (.member (k := "arguments".toList) (by simp) (.element (hmem v hv) hp)))
    have hmembers : List.Forall₂ LexesMember
        [("__ptype", jsonEscapeString "Deferred"), ("name", jsonEscapeString f),
          ("arguments", '[' :: (writeItems true args ++ [']']))]
        [("__ptype".toList, imageText "Deferred"), ("name".toList, imageText f),
          ("arguments".toList, .array (imageItems args))] :=
      .cons ⟨rfl, .string "Deferred"⟩ (.cons ⟨rfl, .string f⟩ (.cons ⟨rfl, hargs⟩ .nil))
    simpa [jsonRecord, separated, jsonWriteValue, image] using LexesAs.record hmembers

theorem lexesAs_all : (vs : List Value) →
    (∀ v ∈ vs, ∀ p, v.image.Has (.number p) → p.IsNumeral) →
      ∀ v ∈ vs, LexesAs v.jsonWriteValue v.image
  | [], _ => by simp
  | v :: vs, h => List.forall_mem_cons.2 ⟨lexesAs v (h v List.mem_cons_self),
      lexesAs_all vs fun u hu ↦ h u (List.mem_cons_of_mem _ hu)⟩

theorem lexesAs_entries : (es : List (String × Value)) →
    (∀ e ∈ es, ∀ p, e.2.image.Has (.number p) → p.IsNumeral) →
      ∀ e ∈ es, LexesAs e.2.jsonWriteValue e.2.image
  | [], _ => by simp
  | (k, v) :: es, h => List.forall_mem_cons.2 ⟨lexesAs v (h (k, v) List.mem_cons_self),
      lexesAs_entries es fun u hu ↦ h u (List.mem_cons_of_mem _ hu)⟩

end

end Value

theorem DocumentResource.lexesAs {r : DocumentResource}
    (h : ∀ p, r.image.Has (.number p) → p.IsNumeral) : LexesAs r.toJson r.image := by
  have hparams : LexesAs (jsonRecord (r.parameters.map fun p ↦ (p.1, p.2.jsonWriteValue)))
      (.object (r.parameters.map fun p ↦ (p.1.toList, p.2.image))) := by
    refine .record (List.forall₂_map_left_iff.2 (List.forall₂_map_right_iff.2 ?_))
    refine List.forall₂_same.2 fun e he ↦ ⟨rfl, e.2.lexesAs fun p hp ↦ h p ?_⟩
    refine .member (k := "parameters".toList) (List.mem_append_right _ List.mem_cons_self) ?_
    exact .member (List.mem_map_of_mem he) hp
  have htags : LexesAs (jsonList jsonEscapeString r.tags) (.array (r.tags.map imageText)) :=
    .list fun t _ ↦ .string t
  refine .block 2 (List.rel_append (List.rel_append ?_ ?_) (.cons ⟨rfl, hparams⟩ .nil))
  · exact .cons ⟨rfl, .string r.type⟩ (.cons ⟨rfl, .string r.title⟩
      (.cons ⟨rfl, .bool r.exported⟩ (.cons ⟨rfl, htags⟩ .nil)))
  · cases hloc : r.location with
    | none => exact .nil
    | some l =>
      obtain ⟨file, line⟩ := l
      have hline : (Printed.decimal line).IsNumeral :=
        h _ (.member (k := "line".toList) (by simp [hloc]) (.self _))
      exact .cons ⟨rfl, .string file⟩ (.cons ⟨rfl, .number hline⟩ .nil)

theorem lexesAs_ref (type title : String) :
    LexesAs (jsonRecord [("type", jsonEscapeString type), ("title", jsonEscapeString title)])
      (imageRef type title) :=
  .record (.cons ⟨rfl, .string type⟩ (.cons ⟨rfl, .string title⟩ .nil))

theorem CatalogEdge.lexesAs (e : CatalogEdge) : LexesAs e.toJson e.image :=
  .block 2 (.cons ⟨rfl, lexesAs_ref _ _⟩ (.cons ⟨rfl, lexesAs_ref _ _⟩
    (.cons ⟨rfl, .string e.relationship.toText⟩ .nil)))

namespace CatalogDocument

variable {d : CatalogDocument}

/-- The document consists of the tokens of what it stands for. -/
theorem lexes_document (h : ∀ p, d.image.Has (.number p) → p.IsNumeral) :
    Lexes d.toJson (d.image.map readBack Printed.read).tokens ['\n'] := by
  have hformat : LexesAs ['1'] (.number (.decimal 1)) :=
    .number (p := .decimal 1) ⟨Numeral.ofInt 1, Numeral.text_ofInt 1⟩
  have htags : LexesAs (jsonList jsonEscapeString d.tags) (.array (d.tags.map imageText)) :=
    .list fun t _ ↦ .string t
  have hclasses : LexesAs (jsonList jsonEscapeString d.classes)
      (.array (d.classes.map imageText)) :=
    .list fun t _ ↦ .string t
  have hresources : LexesAs (jsonBlocks 1 DocumentResource.toJson d.resources)
      d.resourcesImage :=
    .blocks 1 fun r hr ↦ r.lexesAs fun p hp ↦ h p
      (.member (k := "resources".toList) (v := d.resourcesImage) (by simp)
        (.element (List.mem_map_of_mem hr) hp))
  have hedges : LexesAs (jsonBlocks 1 CatalogEdge.toJson d.edges) d.edgesImage :=
    .blocks 1 fun e _ ↦ e.lexesAs
  obtain ⟨t, ht, hlex⟩ : ∃ t, d.toJson = t ++ ['\n'] ∧ LexesAs t d.image :=
    ⟨_, rfl, .block 0 <| .cons ⟨rfl, .string d.certname⟩ <| .cons ⟨rfl, .string d.version⟩ <|
      .cons ⟨rfl, .string d.environment⟩ <| .cons ⟨rfl, hformat⟩ <| .cons ⟨rfl, htags⟩ <|
      .cons ⟨rfl, hclasses⟩ <| .cons ⟨rfl, hresources⟩ <| .cons ⟨rfl, hedges⟩ .nil⟩
  have hall := hlex ['\n'] ['\n'] [] (ends_cons (by decide)) (.nil _)
  rwa [List.append_nil, ← ht] at hall

theorem get?_assembled_resources :
    (d.image.map readBack Printed.read).assembled.get? "resources".toList =
      some (d.resourcesImage.map readBack Printed.read).assembled := rfl

theorem get?_assembled_edges :
    (d.image.map readBack Printed.read).assembled.get? "edges".toList =
      some (d.edgesImage.map readBack Printed.read).assembled := rfl

/-- Resources and edges of a document are the ones of a value that is read. -/
def IsRecovered (d : CatalogDocument) (j : Json) : Prop :=
  j.get? "resources".toList = some (d.resourcesImage.map id Printed.value) ∧
    j.get? "edges".toList = some (d.edgesImage.map id Printed.value)

/-- A value is read back where it was written. -/
def ReadsBack (v : JsonOf Printed) : Prop :=
  v.DistinctKeys ∧ (∀ s, v.HasText s → readBack s = s) ∧ ∀ p, v.Has (.number p) → p.read = p.value

/-- Resources and edges are recovered if the document is not nested too deep and they are read
back. -/
theorem exists_isRecovered_iff (h : ∀ p, d.image.Has (.number p) → p.IsNumeral) :
    (∃ j, jsonParse d.toJson = .ok j ∧ d.IsRecovered j) ↔
      d.image.depth ≤ jsonMaxDepth ∧ ReadsBack d.resourcesImage ∧ ReadsBack d.edgesImage := by
  have hlex := lexes_document h
  rcases le_or_gt d.image.depth jsonMaxDepth with hdepth | hdepth
  · rw [jsonParse_of_lexes hlex (by rwa [JsonOf.depth_map])]
    simp only [Except.ok.injEq, exists_eq_left', IsRecovered, get?_assembled_resources,
      get?_assembled_edges, Option.some.injEq, JsonOf.assembled_map_readBack_iff, hdepth, true_and,
      ReadsBack]
  · obtain ⟨e, he⟩ := jsonParse_of_lexes_refused hlex (by rwa [JsonOf.depth_map])
    simp [he, not_le.2 hdepth]

end CatalogDocument

/-! ### Catalogs in the range where doubles are exact -/

/-- A value nested from strings, booleans, `undef`, arrays, hashes and integers up to
`2 ^ 53`. -/
inductive Value.IsData : Value → Prop where
  | undef : IsData .undef
  | bool (b : Bool) : IsData (.bool b)
  | string (s : String) : IsData (.string s)
  | integer {n : ℤ} (hn : |n| ≤ 2 ^ 53) : IsData (.number n)
  | array {items : List Value} (h : ∀ v ∈ items, IsData v) : IsData (.array items)
  | hash {entries : List (String × Value)} (h : ∀ e ∈ entries, IsData e.2) : IsData (.hash entries)

namespace CatalogDocument

/-- The catalogs that a C program can hold: texts without NUL, parameters made of data, and lines
that fit an `int`. -/
structure InRange (d : CatalogDocument) : Prop where
  texts : ∀ s, d.image.HasText s → ∀ c ∈ s, 1 ≤ c.toNat ∧ c.toNat ≤ 255
  values : ∀ r ∈ d.resources, ∀ p ∈ r.parameters, p.2.IsData
  lines : ∀ r ∈ d.resources, ∀ l ∈ r.location, |l.2| ≤ 2 ^ 31

/-- What a catalog must be like for the agent to read it: parameters nested at most 196 deep, no
key twice, no control character that is written with `\u`, and at most six significant digits in
a number. -/
structure IsReadable (d : CatalogDocument) : Prop where
  depth : ∀ r ∈ d.resources, ∀ p ∈ r.parameters, p.2.image.depth ≤ 196
  keys : d.resourcesImage.DistinctKeys
  texts : ∀ s, d.resourcesImage.HasText s ∨ d.edgesImage.HasText s →
    ∀ c ∈ s, hasUnicodeEscape c = false
  numbers : ∀ n : ℤ, d.resourcesImage.Has (.number (.general n)) →
    ∃ m k : ℕ, m < 10 ^ 6 ∧ n.natAbs = m * 10 ^ k

end CatalogDocument

/-- The numbers in a value are written with `%g`. -/
theorem Value.IsData.exists_eq_general {v : Value} (hv : v.IsData) {p : Printed}
    (hp : v.image.Has (.number p)) : ∃ n : ℤ, |n| ≤ 2 ^ 53 ∧ p = .general n := by
  induction hv with
  | undef | bool | string => cases hp
  | integer hn => cases hp; exact ⟨_, hn, rfl⟩
  | array _ ih =>
    rw [image, imageItems_eq, JsonOf.has_number_array_iff] at hp
    obtain ⟨u, hu, hp⟩ := hp
    obtain ⟨v, hv, rfl⟩ := List.mem_map.1 hu
    exact ih v hv hp
  | hash _ ih =>
    rw [image, imageEntries_eq, JsonOf.has_number_object_iff] at hp
    obtain ⟨u, hu, hp⟩ := hp
    obtain ⟨e, he, rfl⟩ := List.mem_map.1 hu
    exact ih e he hp

namespace CatalogDocument

variable {d : CatalogDocument}

/-- The numbers of a document are the format of the catalog and those of its resources. -/
theorem eq_one_or_has_of_has {p : Printed} (hp : d.image.Has (.number p)) :
    p = .decimal 1 ∨ d.resourcesImage.Has (.number p) := by
  simp only [image, JsonOf.has_number_object_iff, List.mem_cons, List.not_mem_nil, or_false,
    exists_eq_or_imp, exists_eq_left, JsonOf.has_number_array_iff, edgesImage, List.mem_map,
    exists_exists_and_eq_and, CatalogEdge.image, imageRef, imageText,
    JsonOf.not_has_number_string, false_or, and_false, exists_false] at hp
  rcases hp with hp | hp
  · cases hp
    exact .inl rfl
  · exact .inr hp

theorem InRange.exists_eq (hd : d.InRange) {p : Printed}
    (hp : d.resourcesImage.Has (.number p)) :
    (∃ n : ℤ, |n| ≤ 2 ^ 53 ∧ p = .general n) ∨ ∃ n : ℤ, |n| ≤ 2 ^ 53 ∧ p = .decimal n := by
  rw [resourcesImage, JsonOf.has_number_array_iff] at hp
  obtain ⟨u, hu, hp⟩ := hp
  obtain ⟨r, hr, rfl⟩ := List.mem_map.1 hu
  rw [DocumentResource.image, JsonOf.has_number_object_iff] at hp
  obtain ⟨m, hm, hp⟩ := hp
  rcases List.mem_append.1 hm with hm | hm
  · rcases List.mem_append.1 hm with hm | hm
    · simp only [List.mem_cons, List.not_mem_nil, or_false] at hm
      rcases hm with rfl | rfl | rfl | rfl
      · exact absurd hp JsonOf.not_has_number_string
      · exact absurd hp JsonOf.not_has_number_string
      · exact absurd hp JsonOf.not_has_number_bool
      · obtain ⟨u, hu, hp⟩ := JsonOf.has_number_array_iff.1 hp
        obtain ⟨t, -, rfl⟩ := List.mem_map.1 hu
        exact absurd hp JsonOf.not_has_number_string
    · cases hloc : r.location with
      | none => simp [hloc] at hm
      | some l =>
        obtain ⟨file, line⟩ := l
        simp only [hloc, List.mem_cons, List.not_mem_nil, or_false] at hm
        rcases hm with rfl | rfl
        · exact absurd hp JsonOf.not_has_number_string
        · cases hp
          have := hd.lines r hr (file, line) hloc
          exact .inr ⟨line, by dsimp only at this; omega, rfl⟩
  · obtain rfl := List.mem_singleton.1 hm
    obtain ⟨m, hm, hp⟩ := JsonOf.has_number_object_iff.1 hp
    obtain ⟨e, he, rfl⟩ := List.mem_map.1 hm
    exact .inl ((hd.values r hr e he).exists_eq_general hp)

theorem InRange.isNumeral (hd : d.InRange) {p : Printed} (hp : d.image.Has (.number p)) :
    p.IsNumeral := by
  rcases eq_one_or_has_of_has hp with rfl | hp
  · exact ⟨Numeral.ofInt 1, Numeral.text_ofInt 1⟩
  · rcases hd.exists_eq hp with ⟨n, -, rfl⟩ | ⟨n, -, rfl⟩
    · obtain ⟨x, -, hx⟩ := formatDigits_intCast n
      exact ⟨x, hx⟩
    · exact ⟨Numeral.ofInt n, Numeral.text_ofInt n⟩

/-- Only parameters can be nested deep. -/
theorem depth_image_le_iff : d.image.depth ≤ jsonMaxDepth ↔
    ∀ r ∈ d.resources, ∀ p ∈ r.parameters, p.2.image.depth ≤ 196 := by
  have htexts : ∀ ts : List String,
      JsonOf.depthElements (ts.map imageText : List (JsonOf Printed)) = 0 := by
    intro ts
    refine Nat.le_zero.1 (JsonOf.depthElements_le_iff.2 fun v hv ↦ ?_)
    obtain ⟨t, -, rfl⟩ := List.mem_map.1 hv
    exact le_rfl
  have hparams : ∀ r : DocumentResource,
      r.image.depth ≤ 198 ↔ ∀ p ∈ r.parameters, p.2.image.depth ≤ 196 := by
    intro r
    have hmembers : ∀ ps : List (String × Value),
        JsonOf.depthMembers (ps.map fun p ↦ (p.1.toList, p.2.image)) ≤ 196 ↔
          ∀ p ∈ ps, p.2.image.depth ≤ 196 := by
      intro ps
      rw [JsonOf.depthMembers_le_iff, List.forall_mem_map]
    rw [← hmembers]
    cases hloc : r.location <;>
      simp only [DocumentResource.image, hloc, JsonOf.depth, JsonOf.depthMembers, imageText, htexts,
        List.cons_append, List.nil_append] <;>
      omega
  have hedges : d.edgesImage.depth ≤ 199 := by
    rw [edgesImage, JsonOf.depth, Nat.succ_le_succ_iff, JsonOf.depthElements_le_iff]
    intro v hv
    obtain ⟨e, -, rfl⟩ := List.mem_map.1 hv
    simp [CatalogEdge.image, imageRef, imageText, JsonOf.depth, JsonOf.depthMembers]
  have hresources : d.resourcesImage.depth ≤ 199 ↔ ∀ r ∈ d.resources, r.image.depth ≤ 198 := by
    rw [resourcesImage, JsonOf.depth, Nat.succ_le_succ_iff, JsonOf.depthElements_le_iff,
      List.forall_mem_map]
  simp only [← hparams, ← hresources]
  simp only [image, JsonOf.depth, JsonOf.depthMembers, imageText, htexts, jsonMaxDepth]
  omega

theorem readsBack_edgesImage_iff : ReadsBack d.edgesImage ↔
    ∀ s, d.edgesImage.HasText s → readBack s = s := by
  have hkeys : d.edgesImage.DistinctKeys := by
    refine JsonOf.distinctKeys_array_iff.2 fun v hv ↦ ?_
    obtain ⟨e, -, rfl⟩ := List.mem_map.1 hv
    simp only [CatalogEdge.image, imageRef, JsonOf.distinctKeys_object_iff, imageText]
    simp [JsonOf.distinctKeys_object_iff, JsonOf.distinctKeys_string]
  have hnumbers : ∀ p, ¬ d.edgesImage.Has (.number p) := by
    intro p hp
    simp [edgesImage, JsonOf.has_number_array_iff, CatalogEdge.image, imageRef, imageText,
      JsonOf.has_number_object_iff, JsonOf.not_has_number_string] at hp
  exact ⟨fun h ↦ h.2.1, fun h ↦ ⟨hkeys, h, fun p hp ↦ absurd hp (hnumbers p)⟩⟩

theorem InRange.readBack_eq_self_iff (hd : d.InRange) {v : JsonOf Printed}
    (hv : ∀ s, v.HasText s → d.image.HasText s) :
    (∀ s, v.HasText s → readBack s = s) ↔
      ∀ s, v.HasText s → ∀ c ∈ s, hasUnicodeEscape c = false := by
  refine forall₂_congr fun s hs ↦ readBack_eq_self_iff_of_ne ?_
  rintro c hc rfl
  exact absurd (hd.texts s (hv s hs) _ hc).1 (by decide)

theorem InRange.readsBack_resourcesImage_iff (hd : d.InRange) : ReadsBack d.resourcesImage ↔
    d.resourcesImage.DistinctKeys ∧ (∀ s, d.resourcesImage.HasText s → readBack s = s) ∧
      ∀ n : ℤ, d.resourcesImage.Has (.number (.general n)) →
        ∃ m k : ℕ, m < 10 ^ 6 ∧ n.natAbs = m * 10 ^ k := by
  refine and_congr_right fun _ ↦ and_congr_right fun _ ↦ ⟨fun h n hn ↦ ?_, fun h p hp ↦ ?_⟩
  · obtain ⟨n', hn', heq⟩ | ⟨n', -, heq⟩ := hd.exists_eq hn
    · have hcast : n = n' := by simpa using heq
      have hread := h _ hn
      rw [Printed.read, Printed.text, hcast, strtod_formatDigits hn', Printed.value] at hread
      rw [hcast, ← sixDigits_eq_self_iff]
      exact_mod_cast hread
    · cases heq
  · obtain ⟨n, hn, rfl⟩ | ⟨n, hn, rfl⟩ := hd.exists_eq hp
    · rw [Printed.read, Printed.text, strtod_formatDigits hn, (sixDigits_eq_self_iff n).2 (h n hp)]
      rfl
    · exact strtod_formatLong hn

/-- The agent recovers all resources and edges of a catalog from its document exactly if the
catalog is readable. -/
theorem isRecovered_iff_isReadable (d : CatalogDocument) (hd : d.InRange) :
    (∃ j, jsonParse d.toJson = .ok j ∧ d.IsRecovered j) ↔ d.IsReadable := by
  have hresources : ∀ s, d.resourcesImage.HasText s → d.image.HasText s := fun s hs ↦
    hs.imp (.member (k := "resources".toList) (by simp))
      fun ⟨ms, u, h, hm⟩ ↦ ⟨ms, u, .member (k := "resources".toList) (by simp) h, hm⟩
  have hedges : ∀ s, d.edgesImage.HasText s → d.image.HasText s := fun s hs ↦
    hs.imp (.member (k := "edges".toList) (by simp))
      fun ⟨ms, u, h, hm⟩ ↦ ⟨ms, u, .member (k := "edges".toList) (by simp) h, hm⟩
  rw [exists_isRecovered_iff fun _ ↦ hd.isNumeral, depth_image_le_iff,
    hd.readsBack_resourcesImage_iff, readsBack_edgesImage_iff, hd.readBack_eq_self_iff hresources,
    hd.readBack_eq_self_iff hedges]
  constructor
  · rintro ⟨hdepth, ⟨hkeys, htexts, hnumbers⟩, htexts'⟩
    exact ⟨hdepth, hkeys, fun s hs ↦ hs.elim (htexts s) (htexts' s), hnumbers⟩
  · rintro ⟨hdepth, hkeys, htexts, hnumbers⟩
    exact ⟨hdepth, ⟨hkeys, fun s hs ↦ htexts s (.inl hs), hnumbers⟩, fun s hs ↦ htexts s (.inr hs)⟩

/-- A catalog with one resource that has one parameter. -/
def single (title : String) (value : Value) : CatalogDocument where
  certname := "a"
  version := "1"
  environment := "production"
  tags := []
  classes := []
  resources := [⟨⟨"File", title, [("size", value)], [], false⟩, none⟩]
  edges := []

theorem inRange_single {title : String} (htitle : ∀ c ∈ title.toList, 1 ≤ c.toNat ∧ c.toNat ≤ 255)
    {n : ℤ} (hn : |n| ≤ 2 ^ 53) : (single title (.number n)).InRange where
  texts := by
    simpa [image, single, imageText, JsonOf.hasText_object_iff, JsonOf.hasText_array_iff,
      JsonOf.hasText_string_iff, resourcesImage, edgesImage, DocumentResource.image, Value.image,
      JsonOf.not_hasText_number, JsonOf.not_hasText_bool, or_imp, forall_and] using htitle
  values r hr p hp := by
    cases List.mem_singleton.1 hr
    cases List.mem_singleton.1 hp
    exact .integer hn
  lines r hr l hl := by
    cases List.mem_singleton.1 hr
    cases hl

/-- A resource with a parameter of six significant digits is recovered. -/
theorem isRecovered_iff_isReadable_single :
    ∃ j, jsonParse (single "/f" (.number 20)).toJson = .ok j ∧
      (single "/f" (.number 20)).IsRecovered j := by
  have hrange : (single "/f" (.number (20 : ℤ))).InRange :=
    inRange_single (by simp) (by norm_num)
  refine (isRecovered_iff_isReadable (single "/f" (.number (20 : ℤ))) hrange).2 ⟨?_, ?_, ?_, ?_⟩
  · intro r hr p hp
    cases List.mem_singleton.1 hr
    cases List.mem_singleton.1 hp
    decide
  · simp [single, resourcesImage, DocumentResource.image, Value.image, imageText,
      JsonOf.distinctKeys_array_iff, JsonOf.distinctKeys_object_iff, JsonOf.distinctKeys_string,
      JsonOf.distinctKeys_bool, JsonOf.distinctKeys_number]
  · simp [single, imageText, JsonOf.hasText_object_iff, JsonOf.hasText_array_iff,
      JsonOf.hasText_string_iff, resourcesImage, edgesImage, DocumentResource.image, Value.image,
      JsonOf.not_hasText_number, JsonOf.not_hasText_bool, or_imp, forall_and, hasUnicodeEscape]
  · intro n hn
    have h20 : (n : ℚ) = 20 := by
      simpa [single, resourcesImage, DocumentResource.image, Value.image, imageText,
        JsonOf.has_number_array_iff, JsonOf.has_number_object_iff, JsonOf.not_has_number_string,
        JsonOf.not_has_number_bool, JsonOf.has_number_number_iff, eq_comm] using hn
    exact ⟨20, 0, by norm_num, by rw [show n = 20 by exact_mod_cast h20]; rfl⟩

/-- A parameter of seven significant digits is not recovered. -/
theorem not_isRecovered_single :
    ¬ ∀ d : CatalogDocument, d.InRange → ∃ j, jsonParse d.toJson = .ok j ∧ d.IsRecovered j := by
  intro h
  have hrange : (single "/f" (.number (1234567 : ℤ))).InRange :=
    inRange_single (by simp) (by norm_num)
  have hread := ((exists_isRecovered_iff fun _ ↦ hrange.isNumeral).1 (h _ hrange)).2.1.2.2
    (.general (1234567 : ℤ)) (.element List.mem_cons_self (.member (k := "parameters".toList)
      (List.mem_append_right _ List.mem_cons_self) (.member List.mem_cons_self (.self _))))
  rw [Printed.read, Printed.text, strtod_formatDigits (by norm_num), Printed.value] at hread
  have hdigits : sixDigits 1234567 = 1234567 := by exact_mod_cast hread
  exact absurd hdigits (by decide +kernel)

end CatalogDocument

end PuppetC
