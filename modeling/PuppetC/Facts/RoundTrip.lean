import Mathlib.Data.List.Induction
import PuppetC.Facts.Load
import PuppetC.Json.Assembly
import PuppetC.Value.Look

/-!
# Structured facts after loading

An object of facts is loaded into the flat store and rebuilt from it as the hash `$facts`. The
store holds each value under its keys joined by dots, and the rebuilding splits the names at
the dots, so an object comes back if what the segments of each name lead to in the object is
the value under that name.

## Main definitions

* `FactsObject`: an object of facts, with its entries in the order in which they are loaded.
* `FactsObject.RoundTrips`: the object is rebuilt and read by dotted paths as it is, whatever
  the order of the flat store.
* `FactsObject.IsRecoverable`: no key at the top has a dot, and the name of each leaf leads to
  the leaf.

## Main results

* `FactsObject.roundTrips_iff`: an object round trips exactly if it is recoverable.
* `FactsObject.isRecoverable_of_forall_not_mem`: so does every object without dots in its keys,
  if it has nothing below `puppetversion`.
-/

namespace PuppetC

/-! ### Segments of a name -/

theorem not_mem_of_mem_splitOn {a : Char} {cs l : List Char} (h : l ∈ cs.splitOn a) : a ∉ l := by
  induction cs generalizing l with
  | nil =>
    rw [List.mem_singleton.1 h]
    exact List.not_mem_nil
  | cons c cs ih =>
    rw [List.splitOn_cons_eq_if_modifyHead] at h
    split_ifs at h with hc
    · rcases List.mem_cons.1 h with rfl | h
      exacts [List.not_mem_nil, ih h]
    · obtain ⟨l', ls, hsplit⟩ := List.exists_cons_of_ne_nil (List.splitOn_ne_nil a cs)
      rw [hsplit, List.modifyHead_cons, List.mem_cons] at h
      rcases h with rfl | h
      · have hl' : a ∉ l' := ih (hsplit ▸ List.mem_cons_self)
        simp only [List.mem_cons, hl', or_false]
        rintro rfl
        simp at hc
      · exact ih (hsplit ▸ List.mem_cons_of_mem _ h)

theorem ne_empty_of_mem_dotTokens {s t : String} (h : t ∈ dotTokens s) : t ≠ "" := by
  obtain ⟨l, hl, rfl⟩ := List.mem_map.1 h
  have hne : l ≠ [] := by simpa using (List.mem_filter.1 hl).2
  rw [Ne, ← String.toList_inj, String.toList_ofList]
  exact hne

theorem not_mem_of_mem_dotTokens {s t : String} (h : t ∈ dotTokens s) : '.' ∉ t.toList := by
  obtain ⟨l, hl, rfl⟩ := List.mem_map.1 h
  rw [String.toList_ofList]
  exact not_mem_of_mem_splitOn (List.mem_filter.1 hl).1

/-- The keys joined by dots. -/
def dotted (keys : List String) : String :=
  String.ofList (['.'].intercalate (keys.map String.toList))

theorem dotted_singleton (k : String) : dotted [k] = k := by
  simp [dotted]

theorem dotted_cons_cons (k k' : String) (ks : List String) :
    dotted (k :: k' :: ks) = k ++ "." ++ dotted (k' :: ks) := by
  simp [dotted, List.intercalate_cons_cons, ← String.toList_inj]

theorem dotted_factName {before : String} (hbefore : before ≠ "") (k : String)
    (ks : List String) : dotted (factName before k :: ks) = dotted (before :: k :: ks) := by
  rw [factName, if_neg hbefore]
  cases ks with
  | nil => rw [dotted_cons_cons, dotted_singleton, dotted_singleton]
  | cons k' ks => simp only [dotted_cons_cons, String.append_assoc]

theorem dotTokens_of_not_mem {k : String} (hk : k ≠ "") (hdot : '.' ∉ k.toList) :
    dotTokens k = [k] := by
  have hne : k.toList ≠ [] := by
    rwa [Ne, String.toList_eq_nil_iff]
  simp [dotTokens, List.splitOn_eq_singleton hdot, hne]

theorem dotTokens_dotted_cons {k : String} (hk : k ≠ "") (hdot : '.' ∉ k.toList)
    (ks : List String) : dotTokens (dotted (k :: ks)) = k :: dotTokens (dotted ks) := by
  cases ks with
  | nil =>
    rw [dotted_singleton, dotTokens_of_not_mem hk hdot]
    rfl
  | cons k' ks =>
    have hne : k.toList ≠ [] := by
      rwa [Ne, String.toList_eq_nil_iff]
    rw [dotted_cons_cons, dotTokens, String.toList_append, String.toList_append,
      List.append_assoc]
    change (((k.toList ++ '.' :: (dotted (k' :: ks)).toList).splitOn '.').filter _).map _ = _
    rw [List.splitOn_append_cons_self_of_not_mem hdot, List.filter_cons_of_pos (by simpa using hne),
      List.map_cons, String.ofList_toList]
    rfl

/-! ### The flat store -/

mutual

/-- The values inside nested hashes that are not hashes, with the keys that lead to them. -/
def Value.leaves : Value → List (List String × Value)
  | .hash entries => entriesLeaves entries
  | v => [([], v)]

/-- The leaves of the entries of a hash. -/
def entriesLeaves : List (String × Value) → List (List String × Value)
  | [] => []
  | (k, v) :: es => v.leaves.map (fun l ↦ (k :: l.1, l.2)) ++ entriesLeaves es

end

theorem entriesLeaves_eq_flatMap (es : List (String × Value)) :
    entriesLeaves es = es.flatMap fun e ↦ e.2.leaves.map fun l ↦ (e.1 :: l.1, l.2) := by
  induction es with
  | nil => rfl
  | cons e es ih => rw [entriesLeaves, ih, List.flatMap_cons]

/-- Enter values one after the other. -/
def factsAddAll (facts : Hash 16 Value) (adds : List (String × Value)) : Hash 16 Value :=
  adds.foldl (fun facts a ↦ factsAddFromValue facts a.1 a.2) facts

theorem factsAddAll_append (facts : Hash 16 Value) (adds adds' : List (String × Value)) :
    factsAddAll facts (adds ++ adds') = factsAddAll (factsAddAll facts adds) adds' :=
  List.foldl_append

/-- The last value under a name. -/
def lastNamed (adds : List (String × Value)) (name : String) : Option Value :=
  (adds.filter (·.1 = name)).getLast?.map Prod.snd

theorem get_factsAddAll (facts : Hash 16 Value) (adds : List (String × Value)) (name : String) :
    (factsAddAll facts adds).get name =
      ((lastNamed adds name).map Value.copy <|> facts.get name) := by
  induction adds using List.reverseRecOn with
  | nil => rfl
  | append_singleton adds a ih =>
    rw [factsAddAll_append, lastNamed, List.filter_append]
    change ((factsAddAll facts adds).set a.1 a.2.copy).get name = _
    rw [Table.get_set]
    by_cases ha : a.1 = name
    · simp [ha]
    · rw [if_neg (Ne.symm ha), ih, List.filter_cons_of_neg (by simpa using ha), List.filter_nil,
        List.append_nil]
      rfl

/-- What is entered for a value below a name. -/
def namedLeaves (name : String) (v : Value) : List (String × Value) :=
  v.leaves.map fun l ↦ (dotted (name :: l.1), l.2)

/-- The branch for a value in the loop of `puppet_facts_process_value`. -/
def factsProcess (facts : Hash 16 Value) (name : String) (v : Value) : Hash 16 Value :=
  match v with
  | .hash _ => factsProcessValue facts name v
  | _ => factsAddFromValue facts name v

theorem factsProcessEntries_cons (facts : Hash 16 Value) (before : String) (e : String × Value)
    (es : List (String × Value)) :
    factsProcessEntries facts before (e :: es) =
      factsProcessEntries
        (if before = "" then
          factsAddFromValue (factsProcess facts (factName before e.1) e.2) e.1 e.2
        else factsProcess facts (factName before e.1) e.2) before es := by
  obtain ⟨k, v⟩ := e
  cases v <;> rfl

/-- The leaves of a value are entered under their names. -/
theorem factsProcess_eq {v : Value} (hv : v.IsPlain) {name : String} (hname : name ≠ "")
    (facts : Hash 16 Value) :
    factsProcess facts name v = factsAddAll facts (namedLeaves name v) := by
  induction hv generalizing name facts with
  | undef | bool | string | number | array =>
    simp [factsProcess, namedLeaves, Value.leaves, dotted_singleton, factsAddAll]
  | @hash es hkeys hne h ih =>
    change factsProcessEntries facts name es = factsAddAll facts (namedLeaves name (.hash es))
    rw [namedLeaves, Value.leaves]
    clear hkeys
    induction es generalizing facts with
    | nil => rfl
    | cons e es ihes =>
      obtain ⟨hk, hne⟩ := List.forall_mem_cons.1 hne
      obtain ⟨hv, h⟩ := List.forall_mem_cons.1 h
      have hname' : factName name e.1 ≠ "" := by
        simp [factName, hname]
      rw [factsProcessEntries_cons, if_neg hname, entriesLeaves, List.map_append,
        factsAddAll_append, ihes hne h fun e he ↦ ih e (List.mem_cons_of_mem _ he),
        ih e List.mem_cons_self hname', namedLeaves, List.map_map]
      congr 2
      refine List.map_congr_left fun l _ ↦ ?_
      rw [dotted_factName hname]
      rfl

/-- What is entered for an object: the leaves of each of its values, and then the value under
its own key. -/
def objectAdds (es : List (String × Value)) : List (String × Value) :=
  es.flatMap fun e ↦ namedLeaves e.1 e.2 ++ [e]

theorem objectAdds_cons (e : String × Value) (es : List (String × Value)) :
    objectAdds (e :: es) = namedLeaves e.1 e.2 ++ [e] ++ objectAdds es :=
  List.flatMap_cons

theorem factsProcessValue_eq {es : List (String × Value)} (hes : (Value.hash es).IsPlain)
    (facts : Hash 16 Value) :
    factsProcessValue facts "" (.hash es) = factsAddAll facts (objectAdds es) := by
  obtain ⟨-, hne, h⟩ := Value.isPlain_hash_iff.1 hes
  clear hes
  rw [factsProcessValue]
  induction es generalizing facts with
  | nil => rfl
  | cons e es ih =>
    obtain ⟨hk, hne⟩ := List.forall_mem_cons.1 hne
    obtain ⟨hv, h⟩ := List.forall_mem_cons.1 h
    rw [factsProcessEntries_cons, if_pos rfl, ih _ hne h, factName, if_pos rfl,
      objectAdds_cons, factsAddAll_append, factsAddAll_append, ← factsProcess_eq hv hk]
    rfl

/-! ### Objects in JSON -/

namespace Json

mutual

/-- The value of a JSON text with the members of its objects in the order of the text. -/
def asWritten : Json → Value
  | .null => .undef
  | .bool b => .bool b
  | .number q => .number q
  | .string s => .string (String.ofList s)
  | .array elements => .array (elementsAsWritten elements)
  | .object members => .hash (membersAsWritten members)

/-- The values of the elements of an array. -/
def elementsAsWritten : List Json → List Value
  | [] => []
  | v :: vs => v.asWritten :: elementsAsWritten vs

/-- The values of the members of an object. -/
def membersAsWritten : List (Bytes × Json) → List (String × Value)
  | [] => []
  | (k, v) :: ms => (String.ofList k, v.asWritten) :: membersAsWritten ms

end

/-- Reading a JSON value sets the members one after the other, as a copy does. -/
theorem toValue_eq_copy (v : Json) : v.toValue = v.asWritten.copy := by
  induction v using JsonOf.induct with
  | null | bool | number | string => rfl
  | array vs ih =>
    suffices h : elementsToValues vs = Value.copyList (elementsAsWritten vs) by
      rw [toValue, asWritten, Value.copy, h]
    induction vs with
    | nil => rfl
    | cons v vs ihvs =>
      obtain ⟨hv, hvs⟩ := List.forall_mem_cons.1 ih
      rw [elementsToValues, elementsAsWritten, Value.copyList, hv, ihvs hvs]
  | object ms ih =>
    suffices h : membersToEntries ms = Value.copyEntries (membersAsWritten ms) by
      rw [toValue, asWritten, Value.copy, h]
    induction ms with
    | nil => rfl
    | cons m ms ihms =>
      obtain ⟨hv, hms⟩ := List.forall_mem_cons.1 ih
      rw [membersToEntries, membersAsWritten, Value.copyEntries, hv, ihms hms]

/-- A JSON object is loaded like the hash it writes. -/
theorem factsProcessObject_eq (v : Json) (facts : Hash 16 Value) (before : String) :
    factsProcessObject facts before v = factsProcessValue facts before v.asWritten := by
  induction v using JsonOf.induct generalizing facts before with
  | null | bool | number | string | array => rfl
  | object ms ih =>
    rw [factsProcessObject, asWritten, factsProcessValue]
    induction ms generalizing facts with
    | nil => rfl
    | cons m ms ihms =>
      obtain ⟨k, v⟩ := m
      obtain ⟨hv, hms⟩ := List.forall_mem_cons.1 ih
      have hadd (facts : Hash 16 Value) (name : String) :
          factsAddFact facts name v = factsAddFromValue facts name (asWritten v) := by
        rw [factsAddFact, toValue_eq_copy, factsAddFromValue]
      rw [membersAsWritten, factsProcessEntries_cons, ← ihms hms]
      cases v with
      | object ms' =>
        change factsProcessMembers
          (if before = "" then
            factsAddFact (factsProcessObject facts (factName before (String.ofList k)) _) _ _
          else factsProcessObject facts (factName before (String.ofList k)) _) before ms = _
        rw [hv, hadd]
        rfl
      | _ =>
        change factsProcessMembers
          (if before = "" then
            factsAddFact (factsAddFact facts (factName before (String.ofList k)) _) _ _
          else factsAddFact facts (factName before (String.ofList k)) _) before ms = _
        rw [hadd, hadd]
        rfl

end Json

/-! ### Insertion of a fact -/

/-- The entries of the hash below a key, or none if there is no hash. -/
def nestedEntries (es : List (String × Value)) (t : String) : List (String × Value) :=
  match hashGet es t with
  | some (.hash nested) => nested
  | _ => []

theorem insertFact_singleton (es : List (String × Value)) (t : String) (v : Value) :
    insertFact es [t] v = hashSet es t v.copy := rfl

theorem insertFact_cons_cons (es : List (String × Value)) (t t' : String) (ts : List String)
    (v : Value) :
    insertFact es (t :: t' :: ts) v =
      hashSet es t (.hash (insertFact (nestedEntries es t) (t' :: ts) v)) := by
  rw [insertFact, nestedEntries]
  · cases h : hashGet es t with
    | none => rfl
    | some w => cases w <;> rfl
  · simp

theorem hashGet_insertFact_of_ne {k t : String} (h : k ≠ t) (es : List (String × Value))
    (ts : List String) (v : Value) : hashGet (insertFact es (t :: ts) v) k = hashGet es k := by
  cases ts with
  | nil => rw [insertFact_singleton, hashGet_hashSet_of_ne h]
  | cons t' ts => rw [insertFact_cons_cons, hashGet_hashSet_of_ne h]

/-- The segments of the fact that was inserted lead to it. -/
theorem atKeys_insertFact (es : List (String × Value)) {ts : List String} (hts : ts ≠ [])
    (v : Value) : (Value.hash (insertFact es ts v)).atKeys ts = some v.copy := by
  induction ts generalizing es with
  | nil => exact absurd rfl hts
  | cons t ts ih =>
    cases ts with
    | nil => simp [insertFact_singleton, Value.atKeys]
    | cons t' ts =>
      rw [insertFact_cons_cons, Value.atKeys, hashGet_hashSet_self]
      exact ih _ (List.cons_ne_nil _ _)

/-- Inserting what is already below a key changes nothing that can be looked up there. -/
theorem alike_hashGet_insertFact {es os : List (String × Value)} {t : String} {ts : List String}
    {v : Value} (hv : v.IsPlain)
    (hget : ts ≠ [] → Value.Alike (hashGet es t) (hashGet os t))
    (hwalk : Value.Alike ((Value.hash os).atKeys (t :: ts)) (some v)) :
    Value.Alike (hashGet (insertFact es (t :: ts) v) t) (hashGet os t) := by
  induction ts generalizing es os t with
  | nil =>
    rw [insertFact_singleton, hashGet_hashSet_self]
    refine hv.alike_copy.trans (hwalk.symm.trans ?_)
    rw [Value.atKeys]
    cases hashGet os t <;> exact .refl _
  | cons t' ts ih =>
    rw [insertFact_cons_cons, hashGet_hashSet_self]
    have hnested := hget (List.cons_ne_nil _ _)
    rw [Value.atKeys] at hwalk
    cases ho : hashGet os t with
    | none => simpa [ho] using hwalk.isSome
    | some w =>
      rw [ho] at hwalk hnested
      cases w with
      | hash os' =>
        obtain ⟨es', hes'⟩ := hnested.exists_hash
        rw [hes', Value.alike_hash_iff] at hnested
        rw [nestedEntries, hes', Value.alike_hash_iff]
        intro k
        by_cases hk : k = t'
        · subst hk
          exact ih (fun _ ↦ hnested k) hwalk
        · rw [hashGet_insertFact_of_ne hk]
          exact hnested k
      | _ => simpa [Value.atKeys] using hwalk.isSome

theorem isPlain_insertFact {es : List (String × Value)} (hes : (Value.hash es).IsPlain)
    {ts : List String} (hts : ∀ t ∈ ts, t ≠ "") {v : Value} (hv : v.IsPlain) :
    (Value.hash (insertFact es ts v)).IsPlain := by
  induction ts generalizing es with
  | nil => exact hes
  | cons t ts ih =>
    obtain ⟨ht, hts⟩ := List.forall_mem_cons.1 hts
    cases ts with
    | nil => exact hes.hashSet ht hv.copy
    | cons t' ts =>
      rw [insertFact_cons_cons]
      refine hes.hashSet ht (ih ?_ hts)
      unfold nestedEntries
      split
      · next h => exact (Value.isPlain_hash_iff.1 hes).2.2 _ (mem_of_hashGet h)
      · exact Value.isPlain_empty

/-! ### Walks -/

theorem walkFacts_hash (es : List (String × Value)) (t : String) (ts : List String) :
    walkFacts (.hash es) (t :: ts) = (hashGet es t).bind fun v ↦ walkFacts v.copy ts := by
  cases h : hashGet es t <;> simp [walkFacts, h]

theorem walkFacts_array (vs : List Value) (t : String) (ts : List String) :
    walkFacts (.array vs) (t :: ts) =
      ((parseIndex t).bind (vs[·]?)).bind fun v ↦ walkFacts v.copy ts := by
  cases h : (parseIndex t).bind (vs[·]?) <;> simp [walkFacts, h]

/-- Walks along the same segments in values that are alike lead to values that are alike. -/
theorem Value.Alike.walkFacts {v w : Value} (h : Alike (some v) (some w)) (hv : v.IsPlain)
    (hw : w.IsPlain) (ts : List String) :
    Alike (PuppetC.walkFacts v ts) (PuppetC.walkFacts w ts) := by
  induction ts generalizing v w with
  | nil => cases v <;> cases w <;> simpa [PuppetC.walkFacts] using h
  | cons t ts ih =>
    have hstep : ∀ {a b : Option Value}, Alike a b → (∀ x ∈ a, x.IsPlain) →
        (∀ x ∈ b, x.IsPlain) →
        Alike (a.bind fun x ↦ PuppetC.walkFacts x.copy ts)
          (b.bind fun x ↦ PuppetC.walkFacts x.copy ts) := by
      intro a b hab ha hb
      have hsome := hab.isSome
      cases a with
      | none =>
        cases b with
        | none => exact .refl _
        | some y => simp at hsome
      | some x =>
        cases b with
        | none => simp at hsome
        | some y =>
          have hx := ha x rfl
          have hy := hb y rfl
          exact ih (hx.alike_copy.trans (hab.trans hy.alike_copy.symm)) hx.copy hy.copy
    have hhead := h.head
    cases hv with
    | @hash es hkeys hne hplain =>
      cases hw with
      | @hash fs hkeys' hne' hplain' =>
        rw [walkFacts_hash, walkFacts_hash]
        exact hstep (alike_hash_iff.1 h t) (fun x hx ↦ hplain _ (mem_of_hashGet hx))
          fun x hx ↦ hplain' _ (mem_of_hashGet hx)
      | _ => cases hhead
    | @array vs hplain =>
      cases hw with
      | @array ws hplain' =>
        rw [walkFacts_array, walkFacts_array]
        cases parseIndex t with
        | none => exact .refl _
        | some i =>
          exact hstep ((alike_array_iff.1 h).2 i) (fun x hx ↦ hplain x (List.mem_of_getElem? hx))
            fun x hx ↦ hplain' x (List.mem_of_getElem? hx)
      | _ => cases hhead
    | undef | bool | string | number =>
      cases hw with
      | hash | array => cases hhead
      | _ => exact .refl _

/-- A walk through hashes leads to what is below their keys. -/
theorem Value.IsPlain.alike_walkFacts {v w : Value} (hv : v.IsPlain) {ts : List String}
    (h : v.atKeys ts = some w) : Alike (PuppetC.walkFacts v ts) (some w) := by
  induction ts generalizing v with
  | nil =>
    obtain rfl : v = w := by cases v <;> simpa [atKeys] using h
    cases v <;> exact .refl _
  | cons t ts ih =>
    cases hv with
    | @hash es hkeys hne hplain =>
      obtain ⟨u, hu, h⟩ := Option.bind_eq_some_iff.1 h
      have hu' := hplain _ (mem_of_hashGet hu)
      rw [walkFacts_hash, hu]
      exact (hu'.alike_copy.walkFacts hu'.copy hu' ts).trans (ih hu' h)
    | _ => cases h

/-! ### Objects of facts -/

/-- An object of facts, with its entries in the order in which they are loaded. -/
structure FactsObject where
  entries : List (String × Value)
  isPlain : (Value.hash entries).IsPlain

namespace FactsObject

variable (o : FactsObject)

/-- The object with the version of Puppet. -/
def withVersion : Value := .hash (hashSet o.entries "puppetversion" (.string "puppetc"))

/-- The flat store after loading the object from a file. -/
inductive IsLoadedAs : Hash 16 Value → Prop where
  | yaml : IsLoadedAs (factsProcessValue .empty "" (.hash o.entries))
  | json {v : Json} (h : v.asWritten = .hash o.entries) :
    IsLoadedAs (factsProcessObject .empty "" v)

/-- The object is rebuilt and read by dotted paths as it is, whatever the order of the flat
store. -/
def RoundTrips : Prop :=
  ∀ facts, o.IsLoadedAs facts → ∀ node : NodeFacts, node.facts.entries.Perm facts.entries →
    Value.Alike (factsGetAllAsHash (some node)) (some o.withVersion) ∧
      ∀ path, path ≠ "" →
        Value.Alike (factsLookupDotted (some node) path) (walkFacts o.withVersion (dotTokens path))

/-- The last leaf whose keys, joined by dots, are a name. -/
def leafNamed (name : String) : Option Value :=
  lastNamed ((entriesLeaves o.entries).map fun l ↦ (dotted l.1, l.2)) name

/-- No key at the top has a dot, and the segments of the name of each leaf lead to the leaf. -/
structure IsRecoverable : Prop where
  not_mem : ∀ e ∈ o.entries, '.' ∉ e.1.toList
  leads : ∀ name v, name ≠ "puppetversion" → o.leafNamed name = some v →
    Value.Alike (o.withVersion.atKeys (dotTokens name)) (some v)

/-- The flat store after loading the object. -/
def store : Hash 16 Value := factsAddAll .empty (objectAdds o.entries)

variable {o}

theorem IsLoadedAs.eq_store {facts : Hash 16 Value} (h : o.IsLoadedAs facts) :
    facts = o.store := by
  cases h with
  | yaml => exact factsProcessValue_eq o.isPlain _
  | json h => rw [Json.factsProcessObject_eq, h, factsProcessValue_eq o.isPlain, store]

end FactsObject

/-! ### The store of an object without dots at the top -/

theorem mem_entriesLeaves {es : List (String × Value)} {l : List String × Value}
    (h : l ∈ entriesLeaves es) :
    ∃ e ∈ es, ∃ l' ∈ e.2.leaves, l = (e.1 :: l'.1, l'.2) := by
  rw [entriesLeaves_eq_flatMap, List.mem_flatMap] at h
  obtain ⟨e, he, hl⟩ := h
  obtain ⟨l', hl', rfl⟩ := List.mem_map.1 hl
  exact ⟨e, he, l', hl', rfl⟩

theorem mem_of_lastNamed {adds : List (String × Value)} {name : String} {v : Value}
    (h : lastNamed adds name = some v) : (name, v) ∈ adds := by
  obtain ⟨a, ha, rfl⟩ := Option.map_eq_some_iff.1 h
  obtain ⟨hmem, hname⟩ := List.mem_filter.1 (List.mem_of_getLast? ha)
  rw [← of_decide_eq_true hname]
  exact hmem

theorem lastNamed_append (adds adds' : List (String × Value)) (name : String) :
    lastNamed (adds ++ adds') name = (lastNamed adds' name <|> lastNamed adds name) := by
  rw [lastNamed, List.filter_append, List.getLast?_append]
  cases h : (adds'.filter (·.1 = name)).getLast? <;> simp [lastNamed, h]

theorem lastNamed_singleton (a : String × Value) (name : String) :
    lastNamed [a] name = if a.1 = name then some a.2 else none := by
  by_cases h : a.1 = name <;> simp [lastNamed, h]

/-- A name without dots is the name of a leaf at the top. -/
theorem eq_singleton_of_dotted {keys : List String} (hkeys : keys ≠ [])
    (hdot : '.' ∉ (dotted keys).toList) : keys = [dotted keys] := by
  match keys, hkeys with
  | [k], _ => rw [dotted_singleton]
  | k :: k' :: ks, _ =>
    refine absurd ?_ hdot
    rw [dotted_cons_cons, String.toList_append, String.toList_append]
    simp

/-- A leaf whose name has no dots is the value under its name. -/
theorem eq_of_mem_entriesLeaves {es : List (String × Value)} {l : List String × Value}
    (h : l ∈ entriesLeaves es) (hdot : '.' ∉ (dotted l.1).toList) : (dotted l.1, l.2) ∈ es := by
  obtain ⟨⟨k, v⟩, he, l', hl', rfl⟩ := mem_entriesLeaves h
  have hkeys := eq_singleton_of_dotted (List.cons_ne_nil _ _) hdot
  obtain ⟨hk, hnil⟩ := List.cons.inj hkeys
  rw [← hk]
  cases v with
  | hash es' =>
    obtain ⟨e, -, l'', -, rfl⟩ := mem_entriesLeaves hl'
    cases hnil
  | _ =>
    obtain rfl := List.mem_singleton.1 hl'
    exact he

theorem lastNamed_objectAdds {es : List (String × Value)} (hes : (es.map Prod.fst).Nodup)
    (hdot : ∀ e ∈ es, '.' ∉ e.1.toList) (name : String) :
    lastNamed (objectAdds es) name =
      (hashGet es name <|> lastNamed ((entriesLeaves es).map fun l ↦ (dotted l.1, l.2)) name) := by
  induction es with
  | nil => rfl
  | cons e es ih =>
    obtain ⟨hnot, hes⟩ := List.nodup_cons.1 hes
    obtain ⟨he, hdot⟩ := List.forall_mem_cons.1 hdot
    rw [objectAdds_cons, lastNamed_append, lastNamed_append, lastNamed_singleton, ih hes hdot,
      hashGet_cons, entriesLeaves, List.map_append, List.map_map, lastNamed_append]
    by_cases hk : e.1 = name
    · subst hk
      have hleaf : lastNamed ((entriesLeaves es).map fun l ↦ (dotted l.1, l.2)) e.1 = none := by
        refine Option.eq_none_iff_forall_ne_some.2 fun v hv ↦ ?_
        obtain ⟨l, hl, heq⟩ := List.mem_map.1 (mem_of_lastNamed hv)
        obtain ⟨hname, -⟩ := Prod.mk.inj heq
        have hmem := eq_of_mem_entriesLeaves hl (hname ▸ he)
        rw [hname] at hmem
        exact hnot (List.mem_map.2 ⟨_, hmem, rfl⟩)
      rw [hashGet_eq_none_iff.2 hnot, hleaf]
      simp
    · rw [if_neg hk, if_neg hk]
      cases hashGet es name <;> simp [namedLeaves, Function.comp_def]

namespace FactsObject

variable {o : FactsObject}

theorem get_store (hdot : ∀ e ∈ o.entries, '.' ∉ e.1.toList) (name : String) :
    o.store.get name = (hashGet o.entries name <|> o.leafNamed name).map Value.copy := by
  rw [store, get_factsAddAll, Table.get_empty,
    lastNamed_objectAdds (Value.isPlain_hash_iff.1 o.isPlain).1 hdot, leafNamed]
  simp

/-! ### Rebuilding -/

/-- The nested hash of flat entries. -/
def rebuild (flat : List (String × Value)) : List (String × Value) :=
  flat.foldl (fun es f ↦ insertFact es (dotTokens f.1) f.2) []

theorem rebuild_append_singleton (flat : List (String × Value)) (f : String × Value) :
    rebuild (flat ++ [f]) = insertFact (rebuild flat) (dotTokens f.1) f.2 := by
  rw [rebuild, List.foldl_append]
  rfl

theorem factsGetAllAsHash_eq (node : NodeFacts) :
    factsGetAllAsHash (some node) =
      some (.hash (hashSet (rebuild node.facts.entries) "puppetversion" (.string "puppetc"))) :=
  rfl

/-- No key of the rebuilt hash has a dot. -/
theorem hashGet_rebuild_eq_none {k : String} (hk : '.' ∈ k.toList)
    (flat : List (String × Value)) : hashGet (rebuild flat) k = none := by
  induction flat using List.reverseRecOn with
  | nil => rfl
  | append_singleton flat f ih =>
    rw [rebuild_append_singleton]
    cases htokens : dotTokens f.1 with
    | nil => exact ih
    | cons t ts =>
      have hne : k ≠ t := by
        rintro rfl
        exact not_mem_of_mem_dotTokens (htokens ▸ List.mem_cons_self) hk
      rw [hashGet_insertFact_of_ne hne, ih]

theorem isPlain_rebuild {flat : List (String × Value)} (hflat : ∀ f ∈ flat, f.2.IsPlain) :
    (Value.hash (rebuild flat)).IsPlain := by
  induction flat using List.reverseRecOn with
  | nil => exact Value.isPlain_empty
  | append_singleton flat f ih =>
    rw [List.forall_mem_append] at hflat
    rw [rebuild_append_singleton]
    exact isPlain_insertFact (ih hflat.1) (fun t ht ↦ ne_empty_of_mem_dotTokens ht)
      (hflat.2 f List.mem_cons_self)

theorem not_mem_puppetversion : '.' ∉ "puppetversion".toList := by
  decide +kernel

theorem dotTokens_puppetversion : dotTokens "puppetversion" = ["puppetversion"] :=
  dotTokens_of_not_mem (by decide) not_mem_puppetversion

/-- If the segments of the names lead to the values in an object, the rebuilt hash has no keys
but those of the object, and those that were entered lead to what they lead to there. -/
theorem rebuild_spec {os flat : List (String × Value)}
    (hos : ∀ e ∈ os, e.1 ≠ "" ∧ '.' ∉ e.1.toList)
    (hflat : ∀ f ∈ flat, f.2.IsPlain ∧ (f.1 ≠ "puppetversion" →
      Value.Alike ((Value.hash os).atKeys (dotTokens f.1)) (some f.2)))
    {k : String} (hk : k ≠ "puppetversion") :
    (hashGet os k = none → hashGet (rebuild flat) k = none) ∧
      (k ∈ flat.map Prod.fst → Value.Alike (hashGet (rebuild flat) k) (hashGet os k)) := by
  induction flat using List.reverseRecOn generalizing k with
  | nil => simp [rebuild]
  | append_singleton flat f ih =>
    rw [List.forall_mem_append, List.forall_mem_singleton] at hflat
    obtain ⟨hflat, hplain, hleads⟩ := hflat
    have htop : ∀ {t}, hashGet os t ≠ none → dotTokens t = [t] := by
      intro t ht
      obtain ⟨v, hv⟩ := Option.ne_none_iff_exists'.1 ht
      exact dotTokens_of_not_mem (hos _ (mem_of_hashGet hv)).1 (hos _ (mem_of_hashGet hv)).2
    -- An insertion below another key leaves this one as it is.
    have hother : (∀ t ts, dotTokens f.1 = t :: ts → k ≠ t) →
        (hashGet os k = none → hashGet (rebuild (flat ++ [f])) k = none) ∧
          (k ∈ (flat ++ [f]).map Prod.fst →
            Value.Alike (hashGet (rebuild (flat ++ [f])) k) (hashGet os k)) := by
      intro hne
      have hsame : hashGet (rebuild (flat ++ [f])) k = hashGet (rebuild flat) k := by
        rw [rebuild_append_singleton]
        cases htokens : dotTokens f.1 with
        | nil => rfl
        | cons t ts => exact hashGet_insertFact_of_ne (hne t ts htokens) ..
      rw [hsame]
      refine ⟨(ih hflat hk).1, fun hmem ↦ ?_⟩
      rw [List.map_append, List.mem_append, List.map_singleton, List.mem_singleton] at hmem
      rcases hmem with hmem | rfl
      · exact (ih hflat hk).2 hmem
      · cases hget : hashGet os f.1 with
        | none =>
          rw [(ih hflat hk).1 hget]
          exact .refl _
        | some v => exact absurd rfl (hne f.1 [] (htop (by simp [hget])))
    by_cases hversion : f.1 = "puppetversion"
    · refine hother fun t ts htokens ↦ ?_
      rw [hversion, dotTokens_puppetversion] at htokens
      rwa [← (List.cons.inj htokens).1]
    · by_cases hhead : ∃ ts, dotTokens f.1 = k :: ts
      · obtain ⟨ts, htokens⟩ := hhead
        have hwalk := hleads hversion
        rw [htokens] at hwalk
        have hsome : hashGet os k ≠ none := by
          intro hnone
          simpa [Value.atKeys, hnone] using hwalk.isSome
        refine ⟨fun hnone ↦ absurd hnone hsome, fun hmem ↦ ?_⟩
        rw [rebuild_append_singleton, htokens]
        refine alike_hashGet_insertFact hplain (fun hts ↦ (ih hflat hk).2 ?_) hwalk
        rw [List.map_append, List.mem_append, List.map_singleton, List.mem_singleton] at hmem
        refine hmem.resolve_right ?_
        rintro rfl
        rw [htop hsome] at htokens
        exact hts (List.cons.inj htokens).2.symm
      · refine hother fun t ts htokens hkt ↦ hhead ⟨ts, ?_⟩
        rw [hkt, htokens]

/-! ### The round trip -/

variable (o) in
/-- The entries of the object with the version of Puppet. -/
abbrev versioned : List (String × Value) :=
  hashSet o.entries "puppetversion" (.string "puppetc")

theorem isPlain_withVersion : o.withVersion.IsPlain :=
  o.isPlain.hashSet (by decide) (.string _)

theorem hashGet_versioned_of_ne {k : String} (hk : k ≠ "puppetversion") :
    hashGet o.versioned k = hashGet o.entries k :=
  hashGet_hashSet_of_ne hk ..

theorem leaf_of_leafNamed {name : String} {v : Value} (h : o.leafNamed name = some v) :
    ∃ l ∈ entriesLeaves o.entries, dotted l.1 = name ∧ l.2 = v := by
  obtain ⟨l, hl, heq⟩ := List.mem_map.1 (mem_of_lastNamed h)
  exact ⟨l, hl, Prod.mk.inj heq⟩

/-- The first segment of the name of a leaf is a key at the top. -/
theorem dotTokens_eq_cons_of_leafNamed (hdot : ∀ e ∈ o.entries, '.' ∉ e.1.toList)
    {name : String} {v : Value} (h : o.leafNamed name = some v) :
    ∃ t ts, dotTokens name = t :: ts := by
  obtain ⟨l, hl, rfl, -⟩ := leaf_of_leafNamed h
  obtain ⟨e, he, l', -, rfl⟩ := mem_entriesLeaves hl
  exact ⟨e.1, _, dotTokens_dotted_cons ((Value.isPlain_hash_iff.1 o.isPlain).2.1 e he)
    (hdot e he) _⟩

theorem isPlain_of_leafNamed {name : String} {v : Value} (h : o.leafNamed name = some v) :
    v.IsPlain := by
  have hleaves : ∀ {v : Value}, v.IsPlain → ∀ l ∈ v.leaves, l.2.IsPlain := by
    intro v hv
    induction hv with
    | undef => exact List.forall_mem_singleton.2 .undef
    | bool b => exact List.forall_mem_singleton.2 (.bool b)
    | string s => exact List.forall_mem_singleton.2 (.string s)
    | number n => exact List.forall_mem_singleton.2 (.number n)
    | array h => exact List.forall_mem_singleton.2 (.array h)
    | hash _ _ _ ih =>
      intro l hl
      obtain ⟨e, he, l', hl', rfl⟩ := mem_entriesLeaves hl
      exact ih e he l' hl'
  obtain ⟨l, hl, -, rfl⟩ := leaf_of_leafNamed h
  exact hleaves o.isPlain l hl

/-- What the store holds under a name is what the segments of the name lead to. -/
theorem IsRecoverable.alike_store (ho : o.IsRecoverable) {name : String} {v : Value}
    (h : o.store.get name = some v) :
    v.IsPlain ∧ (name ≠ "puppetversion" →
      Value.Alike (o.withVersion.atKeys (dotTokens name)) (some v)) := by
  obtain ⟨hkeys, hne, hplain⟩ := Value.isPlain_hash_iff.1 o.isPlain
  rw [get_store ho.not_mem] at h
  obtain ⟨w, hw, rfl⟩ := Option.map_eq_some_iff.1 h
  cases hget : hashGet o.entries name with
  | none =>
    rw [hget] at hw
    have hw' := isPlain_of_leafNamed hw
    exact ⟨hw'.copy, fun hversion ↦ (ho.leads name w hversion hw).trans hw'.alike_copy.symm⟩
  | some w' =>
    rw [hget] at hw
    obtain rfl : w' = w := by simpa using hw
    have hmem := mem_of_hashGet hget
    have hw' := hplain _ hmem
    refine ⟨hw'.copy, fun hversion ↦ ?_⟩
    rw [dotTokens_of_not_mem (hne _ hmem) (ho.not_mem _ hmem), withVersion, Value.atKeys,
      hashGet_versioned_of_ne hversion, hget]
    exact hw'.alike_copy.symm

theorem IsRecoverable.roundTrips (ho : o.IsRecoverable) : o.RoundTrips := by
  intro facts hfacts node hperm
  obtain rfl := hfacts.eq_store
  obtain ⟨hkeys, hne, hplain⟩ := Value.isPlain_hash_iff.1 o.isPlain
  have hflat : ∀ f ∈ node.facts.entries, f.2.IsPlain ∧ (f.1 ≠ "puppetversion" →
      Value.Alike ((Value.hash o.versioned).atKeys (dotTokens f.1)) (some f.2)) := by
    intro f hf
    exact ho.alike_store ((Table.get_eq_some_iff _).2 (hperm.mem_iff.1 hf))
  obtain ⟨hkeys', hne', -⟩ := Value.isPlain_hash_iff.1 (isPlain_withVersion (o := o))
  have hversioned : ∀ e ∈ o.versioned, e.1 ≠ "" ∧ '.' ∉ e.1.toList := by
    rintro ⟨k, v⟩ he
    refine ⟨hne' _ he, ?_⟩
    by_cases hk : k = "puppetversion"
    · subst hk
      exact not_mem_puppetversion
    · rw [← hashGet_eq_some_iff hkeys', hashGet_versioned_of_ne hk] at he
      exact ho.not_mem _ (mem_of_hashGet he)
  have hall : Value.Alike (factsGetAllAsHash (some node)) (some o.withVersion) := by
    rw [factsGetAllAsHash_eq, withVersion, Value.alike_hash_iff]
    intro k
    by_cases hk : k = "puppetversion"
    · subst hk
      rw [hashGet_hashSet_self, hashGet_hashSet_self]
      exact .refl _
    · obtain ⟨hnone, halike⟩ := rebuild_spec hversioned hflat hk
      rw [hashGet_hashSet_of_ne hk]
      cases hget : hashGet o.versioned k with
      | none =>
        rw [hnone hget]
        exact .refl _
      | some v =>
        rw [← hget]
        refine halike (List.mem_map.2 ⟨(k, v.copy), hperm.mem_iff.2 ?_, rfl⟩)
        rw [← Table.get_eq_some_iff, get_store ho.not_mem, ← hashGet_versioned_of_ne hk, hget]
        rfl
  refine ⟨hall, fun path hpath ↦ ?_⟩
  rw [factsLookupDotted, if_neg hpath, factsGet]
  by_cases hversion : path = "puppetversion"
  · subst hversion
    rw [if_pos rfl, dotTokens_puppetversion, withVersion, walkFacts_hash, hashGet_hashSet_self]
    exact .refl _
  · rw [if_neg hversion, Option.bind_some, Table.get_eq_of_perm hperm]
    cases hget : o.store.get path with
    | none =>
      have hplain' : (Value.hash (rebuild node.facts.entries)).IsPlain :=
        isPlain_rebuild fun f hf ↦ (hflat f hf).1
      rw [factsGetAllAsHash_eq] at hall ⊢
      exact hall.walkFacts (hplain'.hashSet (by decide) (.string _)) isPlain_withVersion _
    | some v =>
      obtain ⟨hv, hleads⟩ := ho.alike_store hget
      have hleads := hleads hversion
      obtain ⟨w, hw⟩ := Option.isSome_iff_exists.1 (hleads.isSome.trans rfl)
      rw [hw] at hleads
      refine hv.alike_copy.trans (hleads.symm.trans ?_)
      exact (isPlain_withVersion.alike_walkFacts hw).symm

/-- An object that comes back has no key with a dot at the top: the rebuilt hash has none. -/
theorem RoundTrips.not_mem (ho : o.RoundTrips) : ∀ e ∈ o.entries, '.' ∉ e.1.toList := by
  rintro ⟨k, v⟩ he hdot
  obtain ⟨hkeys, -, -⟩ := Value.isPlain_hash_iff.1 o.isPlain
  have hk : k ≠ "puppetversion" := by
    rintro rfl
    exact not_mem_puppetversion hdot
  obtain ⟨hall, -⟩ := ho _ .yaml ⟨"", _⟩ (.refl _)
  rw [factsGetAllAsHash_eq, withVersion, Value.alike_hash_iff] at hall
  have hsome := (hall k).isSome
  rw [hashGet_hashSet_of_ne hk, hashGet_hashSet_of_ne hk, hashGet_rebuild_eq_none hdot,
    (hashGet_eq_some_iff hkeys).2 he] at hsome
  cases hsome

/-- In an object that comes back, the name of a leaf leads to the leaf: the flat store may have
the leaf as its last entry. -/
theorem RoundTrips.leads (ho : o.RoundTrips) {name : String} {v : Value}
    (hname : name ≠ "puppetversion") (h : o.leafNamed name = some v) :
    Value.Alike (o.withVersion.atKeys (dotTokens name)) (some v) := by
  obtain ⟨hkeys, hne, hplain⟩ := Value.isPlain_hash_iff.1 o.isPlain
  have hdot := ho.not_mem
  have hv := isPlain_of_leafNamed h
  cases hget : hashGet o.entries name with
  | some w =>
    have hmem := mem_of_hashGet hget
    obtain ⟨l, hl, rfl, rfl⟩ := leaf_of_leafNamed h
    have hleaf := (hashGet_eq_some_iff hkeys).2 (eq_of_mem_entriesLeaves hl (hdot _ hmem))
    rw [dotTokens_of_not_mem (hne _ hmem) (hdot _ hmem), withVersion, Value.atKeys,
      hashGet_versioned_of_ne hname, hleaf]
    exact .refl _
  | none =>
    have hstore : o.store.get name = some v.copy := by
      rw [get_store hdot, hget, h]
      rfl
    obtain ⟨before, after, hsplit⟩ := List.append_of_mem (o.store.get_eq_some_iff.1 hstore)
    have hperm : (before ++ after ++ [(name, v.copy)]).Perm o.store.entries := by
      rw [hsplit, List.append_assoc]
      exact (List.perm_append_singleton _ _).append_left before
    let node : NodeFacts :=
      ⟨"", ⟨before ++ after ++ [(name, v.copy)],
        (hperm.map Prod.fst).nodup_iff.2 o.store.nodup_keys⟩⟩
    obtain ⟨hall, hlookup⟩ := ho _ .yaml node (by
      rw [IsLoadedAs.yaml.eq_store]
      exact hperm)
    obtain ⟨t, ts, htokens⟩ := dotTokens_eq_cons_of_leafNamed hdot h
    by_cases ht : t = "puppetversion"
    · -- Below the version there is nothing, so the name must be read like it.
      subst ht
      have hempty : name ≠ "" := by
        rintro rfl
        cases htokens
      have hdirect : factsLookupDotted (some node) name = some v.copy.copy := by
        rw [factsLookupDotted, if_neg hempty, factsGet, if_neg hname, Option.bind_some,
          Table.get_eq_of_perm hperm, hstore]
        rfl
      have hwalk := hlookup name hempty
      rw [hdirect, htokens, withVersion, walkFacts_hash, hashGet_hashSet_self] at hwalk
      rw [htokens, withVersion, Value.atKeys, hashGet_hashSet_self]
      cases ts with
      | nil => exact hwalk.symm.trans (hv.copy.alike_copy.trans hv.alike_copy)
      | cons t ts => cases hwalk.isSome
    · have hrebuilt : (Value.hash (hashSet (rebuild node.facts.entries) "puppetversion"
          (.string "puppetc"))).atKeys (dotTokens name) = some v.copy.copy := by
        have hinsert := atKeys_insertFact (rebuild (before ++ after))
          (htokens ▸ List.cons_ne_nil t ts) v.copy
        rw [rebuild_append_singleton, ← hinsert, htokens, Value.atKeys, Value.atKeys,
          hashGet_hashSet_of_ne ht]
      rw [factsGetAllAsHash_eq] at hall
      have hwalk := hall.atKeys (dotTokens name)
      rw [hrebuilt] at hwalk
      exact hwalk.symm.trans (hv.copy.alike_copy.trans hv.alike_copy)

/-- An object of facts is rebuilt and read by dotted paths as it is exactly if no key at the
top has a dot and the name of each leaf leads to the leaf. -/
theorem roundTrips_iff (o : FactsObject) : o.RoundTrips ↔ o.IsRecoverable :=
  ⟨fun ho ↦ ⟨ho.not_mem, fun _ _ ↦ ho.leads⟩, IsRecoverable.roundTrips⟩

/-- Facts about a VLAN interface. -/
def vlanFacts : FactsObject where
  entries := [("networking", .hash [("eth0.100", .number 1)])]
  isPlain := by simp [Value.isPlain_hash_iff, Value.IsPlain.number]

/-- The interface is found under its dotted name, which no walk leads to. -/
theorem not_forall_roundTrips : ¬ ∀ o : FactsObject, o.RoundTrips := by
  intro h
  let node : NodeFacts := ⟨"", factsProcessValue .empty "" (.hash vlanFacts.entries)⟩
  obtain ⟨-, hlookup⟩ := h vlanFacts _ .yaml node (.refl _)
  have hfound : (factsLookupDotted (some node) "networking.eth0.100").isSome = true := by
    decide +kernel
  have hnone : (walkFacts vlanFacts.withVersion (dotTokens "networking.eth0.100")).isSome =
      false := by
    decide +kernel
  have hsome := (hlookup "networking.eth0.100" (by decide)).isSome
  rw [hfound, hnone] at hsome
  cases hsome

/-! ### Objects without dots -/

theorem dotTokens_dotted {keys : List String} (hne : ∀ k ∈ keys, k ≠ "")
    (hdot : ∀ k ∈ keys, '.' ∉ k.toList) : dotTokens (dotted keys) = keys := by
  induction keys with
  | nil => rfl
  | cons k ks ih =>
    obtain ⟨hk, hne⟩ := List.forall_mem_cons.1 hne
    obtain ⟨hkdot, hdot⟩ := List.forall_mem_cons.1 hdot
    rw [dotTokens_dotted_cons hk hkdot, ih hne hdot]

/-- The keys of a leaf lead to it, and none of them is empty. -/
theorem atKeys_of_mem_leaves {v : Value} (hv : v.IsPlain) :
    ∀ l ∈ v.leaves, v.atKeys l.1 = some l.2 ∧ ∀ k ∈ l.1, k ≠ "" := by
  induction hv with
  | undef | bool | string | number | array =>
    exact List.forall_mem_singleton.2 ⟨by simp [Value.atKeys], by simp⟩
  | hash hkeys hne _ ih =>
    intro l hl
    obtain ⟨e, he, l', hl', rfl⟩ := mem_entriesLeaves hl
    obtain ⟨hat, hne'⟩ := ih e he l' hl'
    refine ⟨?_, List.forall_mem_cons.2 ⟨hne e he, hne'⟩⟩
    rw [Value.atKeys, (hashGet_eq_some_iff hkeys).2 he]
    exact hat

/-- An object is recoverable if no key has a dot and there is no hash under `puppetversion`. -/
theorem isRecoverable_of_forall_not_mem (o : FactsObject)
    (htop : ∀ e ∈ o.entries, '.' ∉ e.1.toList ∧ (e.1 = "puppetversion" → ∀ es, e.2 ≠ .hash es))
    (hdot : ∀ l ∈ entriesLeaves o.entries, ∀ k ∈ l.1, '.' ∉ k.toList) : o.IsRecoverable := by
  refine ⟨fun e he ↦ (htop e he).1, fun name v hname h ↦ ?_⟩
  obtain ⟨l, hl, rfl, rfl⟩ := leaf_of_leafNamed h
  obtain ⟨hat, hne⟩ := atKeys_of_mem_leaves o.isPlain l hl
  rw [dotTokens_dotted hne (hdot l hl)]
  obtain ⟨e, he, l', hl', rfl⟩ := mem_entriesLeaves hl
  have hversion : e.1 ≠ "puppetversion" := by
    intro hk
    have hleaf : e.2.leaves = [([], e.2)] := by
      cases hv : e.2 with
      | hash es => exact absurd hv ((htop e he).2 hk es)
      | _ => rfl
    rw [hleaf, List.mem_singleton] at hl'
    subst hl'
    exact hname (by rw [dotted_singleton, hk])
  rw [Value.atKeys] at hat
  rw [withVersion, Value.atKeys, hashGet_versioned_of_ne hversion, hat]
  exact .refl _

end FactsObject

end PuppetC
