import PuppetC.Json.RoundTrip
import PuppetC.Json.Spliced
import PuppetC.Server.ExportedResources

/-!
# What a collector reads

The parameters of an exported resource are written as JSON and read again, and so are the rows
of a query. A value survives this if it is nested from texts, numbers that are written as they
are read, booleans and `undef` by arrays only: a hash loses its entries, and regular expressions
and deferred calls become hashes. A type, a title or a certname survives if it has no quote and
no backslash.

## Main definitions

* `Value.Survives`: values that a collector reads as they were exported.
* `VirtualResource.Exportable`: resources that a collector reads as they were exported.
* `IsRowOf`: a row of a query is that of a resource.

## Main results

* `Value.Survives.lexes`, `Value.Survives.toValue_exportImage`: such values are read back.
* `readExported_rows`: the rows of such resources are read as these resources.
-/

namespace PuppetC

/-! ### Values -/

/-- The text of a number in the parameters of an exported resource. -/
def exportNumber (q : ℚ) : Bytes :=
  if q = truncate q ∧ |q| < 2 ^ 63 then formatLong (truncate q) else formatDigits 6 q

/-- A value that a collector reads as it was exported, nested at most `depth` deep. -/
inductive Value.Survives : ℕ → Value → Prop where
  | undef (depth : ℕ) : Survives depth .undef
  | bool (depth : ℕ) (b : Bool) : Survives depth (.bool b)
  | string (depth : ℕ) {s : String} (h : ∀ c ∈ s.toList, hasUnicodeEscape c = false) :
      Survives depth (.string s)
  | number (depth : ℕ) {q : ℚ} {x : Numeral} (htext : x.text = exportNumber q)
      (hread : strtod x.text = q) : Survives depth (.number q)
  | array {depth : ℕ} {items : List Value} (h : ∀ v ∈ items, Survives depth v) :
      Survives (depth + 1) (.array items)
  | emptyHash (depth : ℕ) : Survives (depth + 1) (.hash [])

theorem readBack_eq_self_of_forall {s : Bytes} (hs : ∀ c ∈ s, hasUnicodeEscape c = false) :
    readBack s = s := by
  refine readBack_eq_self_iff.2 fun c hc ↦ ?_
  have hc := hs c hc
  rw [byteRead, hc, if_neg Bool.false_ne_true]
  rintro rfl
  exact absurd hc (by decide)

namespace Value

mutual

/-- The JSON value that an exported value is written as, if it survives. -/
def exportImage : Value → Json
  | .bool b => .bool b
  | .string s => .string s.toList
  | .number q => .number q
  | .array items => .array (exportImages items)
  | .hash _ => .object []
  | .undef | .regexp _ | .deferred .. => .null

/-- The JSON values of the items of an array. -/
def exportImages : List Value → List Json
  | [] => []
  | v :: vs => exportImage v :: exportImages vs

end

theorem exportImages_eq (vs : List Value) : exportImages vs = vs.map exportImage := by
  induction vs with
  | nil => rfl
  | cons v vs ih => rw [exportImages, ih, List.map_cons]

/-- The text of a value consists of the tokens of a JSON value, wherever it stands. -/
def LexesExported (v : Value) : Prop :=
  ∀ (indent : ℕ) (r r' : Bytes) (ts : List Token), Ends r → Lexes r ts r' →
    Lexes (v.toExportJson indent ++ r) (v.exportImage.tokens ++ ts) r'

theorem ends_exportItems {indent : ℕ} {vs : List Value} {r : Bytes} (hr : Ends r) :
    Ends (exportItems indent false vs ++ r) := by
  cases vs with
  | nil => exact hr
  | cons v vs => exact ends_cons (by decide)

/-- The items of an array. -/
theorem lexes_exportItems {vs : List Value} (hvs : ∀ v ∈ vs, v.LexesExported) (indent : ℕ)
    (first : Bool) {r r' : Bytes} {ts : List Token} (hr : Ends r) (h : Lexes r ts r') :
    Lexes (exportItems indent first vs ++ r)
      (JsonOf.elementTokens first (vs.map exportImage) ++ ts) r' := by
  induction vs generalizing first with
  | nil => exact h
  | cons v vs ih =>
    have hrest := ih (fun u hu ↦ hvs u (List.mem_cons_of_mem _ hu)) false
    have hv := hvs v List.mem_cons_self indent _ r' _ (ends_exportItems hr) hrest
    obtain ⟨t₀, ts₀, htok, -⟩ := v.exportImage.exists_tokens_eq
    simp only [exportItems, List.map_cons, JsonOf.elementTokens, List.append_assoc]
    rw [htok] at hv ⊢
    cases first with
    | true => exact hv.indent indent
    | false => exact ((hv.indent indent).blank rfl).punctuation rfl

/-- The text of a value that survives. -/
theorem Survives.lexes {depth : ℕ} {v : Value} (h : v.Survives depth) : v.LexesExported := by
  induction h with
  | undef => exact fun _ r _ _ _ hlex ↦ .cons rfl (Nat.lt_add_of_pos_right four_pos) hlex
  | bool depth b =>
    intro indent r r' ts _ hlex
    cases b with
    | true => exact .cons rfl (Nat.lt_add_of_pos_right four_pos) hlex
    | false => exact .cons rfl (Nat.lt_add_of_pos_right (n := r.length) (k := 5) (by decide)) hlex
  | @string depth s hs =>
    intro indent r r' ts _ hlex
    have hall := hlex.string s.toList
    rw [readBack_eq_self_of_forall hs] at hall
    exact hall
  | @number depth q x htext hread =>
    intro indent r r' ts hr hlex
    have hall := hlex.number x hr
    rw [hread, htext] at hall
    exact hall
  | @array depth items _ ih =>
    intro indent r r' ts hr hlex
    have hend := hlex.punctuation (c := ']') (t := .arrayEnd) rfl
    have hlast := (hend.indent indent).blank (c := '\n') rfl
    have hitems := lexes_exportItems ih (indent + 1) true (ends_cons (by decide)) hlast
    obtain ⟨t, ts₀, hts⟩ : ∃ t ts₀, JsonOf.elementTokens true (items.map exportImage) ++
        .arrayEnd :: ts = t :: ts₀ := List.exists_cons_of_ne_nil (by simp)
    rw [hts] at hitems
    have hall := (hitems.blank (c := '\n') rfl).punctuation (c := '[') (t := .arrayStart) rfl
    rw [← hts] at hall
    have htext : (Value.array items).toExportJson indent ++ r =
        '[' :: '\n' :: (exportItems (indent + 1) true items ++
          '\n' :: (indentation indent ++ ']' :: r)) := by
      change (['[', '\n'] ++ exportItems (indent + 1) true items ++
        '\n' :: indentation indent ++ [']']) ++ r = _
      simp
    rw [htext, exportImage, exportImages_eq, JsonOf.tokens]
    simpa using hall
  | emptyHash depth =>
    intro indent r r' ts hr hlex
    exact (hlex.punctuation (c := '\x7d') rfl).punctuation (c := '\x7b') rfl

/-- A value that survives is not nested deeper than it may be. -/
theorem Survives.depth_exportImage_le {depth : ℕ} {v : Value} (h : v.Survives depth) :
    v.exportImage.depth ≤ depth := by
  induction h with
  | undef | bool | string | number => exact Nat.zero_le _
  | array _ ih =>
    rw [exportImage, exportImages_eq, JsonOf.depth]
    refine Nat.succ_le_succ (JsonOf.depthElements_le_iff.2 fun u hu ↦ ?_)
    obtain ⟨v, hv, rfl⟩ := List.mem_map.1 hu
    exact ih v hv
  | emptyHash => exact Nat.succ_le_succ (Nat.zero_le _)

/-- A value that survives is read back. -/
theorem Survives.toValue_exportImage {depth : ℕ} {v : Value} (h : v.Survives depth) :
    Json.toValue v.exportImage.assembled = v := by
  induction h with
  | undef | bool | number | emptyHash => rfl
  | @string depth s hs => simp [exportImage, JsonOf.assembled, Json.toValue]
  | @array depth items _ ih =>
    have hmap : ∀ vs : List Value, (∀ v ∈ vs, Json.toValue v.exportImage.assembled = v) →
        Json.elementsToValues ((vs.map exportImage).map JsonOf.assembled) = vs := by
      intro vs
      induction vs with
      | nil => exact fun _ ↦ rfl
      | cons v vs ihvs =>
        intro h
        obtain ⟨hv, hvs⟩ := List.forall_mem_cons.1 h
        rw [List.map_cons, List.map_cons, Json.elementsToValues, hv, ihvs hvs]
    rw [exportImage, exportImages_eq, JsonOf.assembled, JsonOf.assembledElements_eq, Json.toValue,
      hmap items ih]

end Value

/-! ### Resources -/

/-- A text that is read as it is where it stands between quotes. -/
def IsSplicedText (s : String) : Prop := IsPlain s.toList ∧ '\x00' ∉ s.toList

/-- A resource that a collector reads as it was exported. -/
structure VirtualResource.Exportable (r : VirtualResource) : Prop where
  type : IsSplicedText r.type
  title : IsSplicedText r.title
  distinct : (r.attrs.map Prod.fst).Nodup
  names : ∀ a ∈ r.attrs, ∀ c ∈ a.1.toList, hasUnicodeEscape c = false
  values : ∀ a ∈ r.attrs, a.2.Survives 197

/-- The JSON value of the parameters of a resource. -/
def parametersImage (attrs : List (String × Value)) : Json :=
  .object (attrs.map fun a ↦ (a.1.toList, a.2.exportImage))

theorem ends_exportParameters {attrs : List (String × Value)} {r : Bytes} (hr : Ends r) :
    Ends (exportParameters false attrs ++ r) := by
  cases attrs with
  | nil => exact hr
  | cons a attrs => exact ends_cons (by decide)

/-- The parameters of a resource. -/
theorem lexes_exportParameters {attrs : List (String × Value)}
    (hnames : ∀ a ∈ attrs, ∀ c ∈ a.1.toList, hasUnicodeEscape c = false)
    (hvalues : ∀ a ∈ attrs, a.2.LexesExported) (first : Bool) {r r' : Bytes} {ts : List Token}
    (hr : Ends r) (h : Lexes r ts r') :
    Lexes (exportParameters first attrs ++ r)
      (JsonOf.memberTokens first (attrs.map fun a ↦ (a.1.toList, a.2.exportImage)) ++ ts) r' := by
  induction attrs generalizing first with
  | nil => exact h
  | cons a attrs ih =>
    obtain ⟨name, v⟩ := a
    have hrest := ih (fun b hb ↦ hnames b (List.mem_cons_of_mem _ hb))
      (fun b hb ↦ hvalues b (List.mem_cons_of_mem _ hb)) false
    have hv := hvalues _ List.mem_cons_self 0 _ r' _ (ends_exportParameters hr) hrest
    have hkey := (hv.punctuation (c := ':') (t := .colon) rfl).string name.toList
    rw [readBack_eq_self_of_forall (hnames _ List.mem_cons_self)] at hkey
    simp only [exportParameters, List.map_cons, JsonOf.memberTokens, List.append_assoc,
      List.cons_append]
    cases first with
    | true => simpa using hkey
    | false => simpa using hkey.punctuation (c := ',') (t := .comma) rfl

/-- The text of the parameters of a resource. -/
theorem lexes_parametersJson {r : VirtualResource} (h : r.Exportable) {s s' : Bytes}
    {ts : List Token} (hlex : Lexes s ts s') :
    Lexes (parametersJson r.attrs ++ s) ((parametersImage r.attrs).tokens ++ ts) s' := by
  have hend := hlex.punctuation (c := '\x7d') (t := .objectEnd) rfl
  have hbody := lexes_exportParameters h.names (fun a ha ↦ (h.values a ha).lexes) true
    (ends_cons (by decide)) hend
  have hall := hbody.punctuation (c := '\x7b') (t := .objectStart) rfl
  simpa [parametersJson, parametersImage, JsonOf.tokens] using hall

/-- The parameters of a resource are read back. -/
theorem membersToEntries_parameters {attrs : List (String × Value)} {depth : ℕ}
    (h : ∀ a ∈ attrs, a.2.Survives depth) :
    Json.membersToEntries (attrs.map fun a ↦ (a.1.toList, a.2.exportImage.assembled)) = attrs := by
  induction attrs with
  | nil => rfl
  | cons a attrs ih =>
    obtain ⟨ha, hattrs⟩ := List.forall_mem_cons.1 h
    rw [List.map_cons, Json.membersToEntries, ih hattrs, ha.toValue_exportImage,
      String.ofList_toList]

/-! ### Rows -/

/-- A row of a query is that of a resource and the certname that exported it. -/
structure IsRowOf (e : ExportedRow × Bytes) (p : String × VirtualResource) : Prop where
  certname : e.2 = p.1.toList
  type : e.1.type = p.2.type.toList
  title : e.1.title = p.2.title.toList
  parameters : e.1.parameters = parametersJson p.2.attrs
  tags : e.1.tags = ['[', ']']

/-- The JSON value of a row. -/
def rowImage (p : String × VirtualResource) : Json :=
  .object [("type".toList, .string p.2.type.toList), ("title".toList, .string p.2.title.toList),
    ("parameters".toList, parametersImage p.2.attrs), ("tags".toList, .array []),
    ("certname".toList, .string p.1.toList)]

theorem exportedJson_eq (e : ExportedRow) (certname : Bytes) : PuppetDb.exportedJson e certname =
    '\x7b' :: (quoted "type".toList ++ ':' :: (quoted e.type ++ ',' ::
      (quoted "title".toList ++ ':' :: (quoted e.title ++ ',' ::
        (quoted "parameters".toList ++ ':' :: (e.parameters ++ ',' ::
          (quoted "tags".toList ++ ':' :: (e.tags ++ ',' ::
            (quoted "certname".toList ++ ':' :: (quoted certname ++ ['\x7d'])))))))))) := by
  unfold PuppetDb.exportedJson
  simp [quoted]

/-- The text of a row of a resource that is read as it was exported. -/
theorem IsRowOf.lexes {e : ExportedRow × Bytes} {p : String × VirtualResource} (h : IsRowOf e p)
    (hp : p.2.Exportable) (hc : IsSplicedText p.1) {s s' : Bytes} {ts : List Token}
    (hlex : Lexes s ts s') :
    Lexes (PuppetDb.exportedJson e.1 e.2 ++ s) ((rowImage p).tokens ++ ts) s' := by
  have hend := hlex.punctuation (c := '\x7d') (t := .objectEnd) rfl
  have hcertname := ((hend.quoted hc.1 hc.2).punctuation (c := ':') (t := .colon) rfl).quoted
    (s := "certname".toList) (by simp [IsPlain]) (by simp)
  have htags := hcertname.punctuation (c := ',') (t := .comma) rfl
  have htags := (htags.punctuation (c := ']') (t := .arrayEnd) rfl).punctuation (c := '[')
    (t := .arrayStart) rfl
  have htags := (htags.punctuation (c := ':') (t := .colon) rfl).quoted
    (s := "tags".toList) (by simp [IsPlain]) (by simp)
  have hparameters := lexes_parametersJson hp (htags.punctuation (c := ',') (t := .comma) rfl)
  have hparameters := (hparameters.punctuation (c := ':') (t := .colon) rfl).quoted
    (s := "parameters".toList) (by simp [IsPlain]) (by simp)
  have htitle := (hparameters.punctuation (c := ',') (t := .comma) rfl).quoted hp.title.1 hp.title.2
  have htitle := (htitle.punctuation (c := ':') (t := .colon) rfl).quoted
    (s := "title".toList) (by simp [IsPlain]) (by simp)
  have htype := (htitle.punctuation (c := ',') (t := .comma) rfl).quoted hp.type.1 hp.type.2
  have htype := (htype.punctuation (c := ':') (t := .colon) rfl).quoted
    (s := "type".toList) (by simp [IsPlain]) (by simp)
  have hall := htype.punctuation (c := '\x7b') (t := .objectStart) rfl
  rw [exportedJson_eq, h.certname, h.type, h.title, h.parameters, h.tags]
  simpa [rowImage, JsonOf.tokens, JsonOf.memberTokens, JsonOf.elementTokens] using hall

theorem assembled_parametersImage {r : VirtualResource} (h : r.Exportable) :
    (parametersImage r.attrs).assembled =
      .object (r.attrs.map fun a ↦ (a.1.toList, a.2.exportImage.assembled)) := by
  have hkeys : ((r.attrs.map fun a ↦ (a.1.toList, a.2.exportImage)).map Prod.fst).Nodup := by
    have hmap : (r.attrs.map fun a ↦ (a.1.toList, a.2.exportImage)).map Prod.fst =
        (r.attrs.map Prod.fst).map String.toList := by simp
    rw [hmap]
    exact h.distinct.map fun _ _ heq ↦ String.toList_injective heq
  rw [parametersImage, JsonOf.assembled, JsonOf.assembledMembers_of_nodup hkeys]
  simp

/-- The resource of a row, as a collector reads it. -/
def collected (p : String × VirtualResource) : ExportedResource :=
  ⟨p.2.type, p.2.title, some p.1, p.2.attrs⟩

theorem readExportedElement_rowImage {p : String × VirtualResource} (hp : p.2.Exportable) :
    readExportedElement (rowImage p).assembled = some (collected p) := by
  have hassembled : (rowImage p).assembled =
      .object [("type".toList, .string p.2.type.toList), ("title".toList, .string p.2.title.toList),
        ("parameters".toList, .object (p.2.attrs.map fun a ↦
          (a.1.toList, a.2.exportImage.assembled))),
        ("tags".toList, .array []), ("certname".toList, .string p.1.toList)] := by
    rw [rowImage, JsonOf.assembled, JsonOf.assembledMembers_of_nodup (by simp), List.nil_append]
    simp [JsonOf.assembled, assembled_parametersImage hp]
  rw [hassembled]
  have hget (v : Json) (k : Bytes) (ms : List (Bytes × Json)) :
      (JsonOf.object ((k, v) :: ms)).get? k = some v := by
    simp [JsonOf.get?]
  have hskip (v : Json) (k k' : String) (ms : List (Bytes × Json)) (hk : k' ≠ k) :
      (JsonOf.object ((k'.toList, v) :: ms)).get? k.toList =
        (JsonOf.object ms).get? k.toList := by
    have hne : k'.toList ≠ k.toList := fun h ↦ hk (String.toList_inj.1 h)
    simp [JsonOf.get?, hne]
  simp (disch := decide) only [readExportedElement, JsonOf.getString?, hget, hskip,
    Option.bind_eq_bind, Option.bind_some, Option.map_some, String.ofList_toList,
    membersToEntries_parameters hp.values, collected]
  rfl

/-- The rows of a query. -/
theorem lexes_exportedRowsJson {es : List (ExportedRow × Bytes)}
    {ps : List (String × VirtualResource)} (h : List.Forall₂ IsRowOf es ps)
    (hp : ∀ p ∈ ps, p.2.Exportable ∧ IsSplicedText p.1) (first : Bool) {r r' : Bytes}
    {ts : List Token} (hlex : Lexes r ts r') :
    Lexes (PuppetDb.exportedRowsJson first es ++ r)
      (JsonOf.elementTokens first (ps.map rowImage) ++ ts) r' := by
  induction h generalizing first with
  | nil => exact hlex
  | @cons e p es ps he _ ih =>
    obtain ⟨⟨hexportable, hcertname⟩, hps⟩ := List.forall_mem_cons.1 hp
    have hrow := he.lexes hexportable hcertname (ih hps false)
    simp only [PuppetDb.exportedRowsJson, List.map_cons, JsonOf.elementTokens, List.append_assoc]
    cases first with
    | true => exact hrow
    | false => exact hrow.punctuation rfl

theorem depth_rowImage_le {p : String × VirtualResource} (hp : p.2.Exportable) :
    (rowImage p).depth ≤ 199 := by
  have hparameters : (parametersImage p.2.attrs).depth ≤ 198 := by
    rw [parametersImage, JsonOf.depth]
    refine Nat.succ_le_succ (JsonOf.depthMembers_le_iff.2 fun m hm ↦ ?_)
    obtain ⟨a, ha, rfl⟩ := List.mem_map.1 hm
    exact (hp.values a ha).depth_exportImage_le
  rw [rowImage, JsonOf.depth]
  refine Nat.succ_le_succ (JsonOf.depthMembers_le_iff.2 ?_)
  simp [JsonOf.depth, JsonOf.depthElements, hparameters]

/-- The rows of resources that are read as they were exported. -/
theorem readExported_rows {es : List (ExportedRow × Bytes)} {ps : List (String × VirtualResource)}
    (h : List.Forall₂ IsRowOf es ps) (hp : ∀ p ∈ ps, p.2.Exportable ∧ IsSplicedText p.1) :
    readExported ('[' :: (PuppetDb.exportedRowsJson true es ++ [']'])) = ps.map collected := by
  have hend : Lexes [']'] [.arrayEnd] [] := Lexes.punctuation rfl (.nil [])
  have hall := (lexes_exportedRowsJson h hp true hend).punctuation (c := '[') (t := .arrayStart) rfl
  have hlex : Lexes ('[' :: (PuppetDb.exportedRowsJson true es ++ [']']))
      (JsonOf.array (ps.map rowImage) : Json).tokens [] := by
    simpa [JsonOf.tokens] using hall
  have hdepth : (JsonOf.array (ps.map rowImage) : Json).depth ≤ jsonMaxDepth := by
    rw [JsonOf.depth]
    refine Nat.succ_le_succ (JsonOf.depthElements_le_iff.2 fun v hv ↦ ?_)
    obtain ⟨p, hp', rfl⟩ := List.mem_map.1 hv
    exact depth_rowImage_le (hp p hp').1
  have hread : ∀ qs : List (String × VirtualResource), (∀ q ∈ qs, q.2.Exportable) →
      ((qs.map rowImage).map JsonOf.assembled).filterMap readExportedElement =
        qs.map collected := by
    intro qs
    induction qs with
    | nil => exact fun _ ↦ rfl
    | cons q qs ih =>
      intro hq
      obtain ⟨hq, hqs⟩ := List.forall_mem_cons.1 hq
      rw [List.map_cons, List.map_cons, List.filterMap_cons_some (readExportedElement_rowImage hq),
        ih hqs, List.map_cons]
  rw [readExported, jsonParse_of_lexes hlex hdepth, JsonOf.assembled, JsonOf.assembledElements_eq]
  exact hread ps fun q hq ↦ (hp q hq).1

end PuppetC
