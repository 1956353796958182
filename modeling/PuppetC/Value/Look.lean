import PuppetC.Value

/-!
# What can be looked up in a value

A program reads a hash by its keys, and the order of the entries within a bucket depends on how
the hash came about: a copy turns it around. Values are compared here by what is found at the
end of each path of keys and indexes.

## Main definitions

* `Value.look`: what a path leads to in a value.
* `Value.Alike`: two values, or the absence of both, that no path tells apart.
* `Value.atKeys`: the value below the keys of nested hashes.
* `Value.Keyed`: a value whose hashes have distinct keys.
* `Value.IsPlain`: a value as a data file holds it.

## Main results

* `Value.alike_hash_iff`: hashes are alike if each key leads to values that are alike.
* `Value.Keyed.alike_copy`: a copy is like the original.
-/

namespace PuppetC

/-! ### Entries of a hash -/

@[simp] theorem hashGet_nil (k : String) : hashGet [] k = none := rfl

theorem hashGet_cons (e : String × Value) (es : List (String × Value)) (k : String) :
    hashGet (e :: es) k = if e.1 = k then some e.2 else hashGet es k := rfl

theorem hashGet_hashSet (es : List (String × Value)) (k k' : String) (v : Value) :
    hashGet (hashSet es k v) k' = if k' = k then some v else hashGet es k' :=
  Bucket.get_set _ k k' v es

@[simp] theorem hashGet_hashSet_self (es : List (String × Value)) (k : String) (v : Value) :
    hashGet (hashSet es k v) k = some v := by
  rw [hashGet_hashSet, if_pos rfl]

theorem hashGet_hashSet_of_ne {k k' : String} (h : k' ≠ k) (es : List (String × Value))
    (v : Value) : hashGet (hashSet es k v) k' = hashGet es k' := by
  rw [hashGet_hashSet, if_neg h]

theorem mem_of_hashGet {es : List (String × Value)} {k : String} {v : Value}
    (h : hashGet es k = some v) : (k, v) ∈ es := by
  induction es with
  | nil => cases h
  | cons e es ih =>
    rw [hashGet_cons] at h
    split_ifs at h with hk
    · obtain ⟨rfl, rfl⟩ := And.intro hk (Option.some.inj h)
      exact List.mem_cons_self
    · exact List.mem_cons_of_mem _ (ih h)

theorem hashGet_eq_some_iff {es : List (String × Value)} (hes : (es.map Prod.fst).Nodup)
    {k : String} {v : Value} : hashGet es k = some v ↔ (k, v) ∈ es :=
  Bucket.get_eq_some_iff hes

theorem hashGet_eq_none_iff {es : List (String × Value)} {k : String} :
    hashGet es k = none ↔ k ∉ es.map Prod.fst :=
  Bucket.get_eq_none_iff

/-- Entries with distinct keys that are set one after the other cover what was there before. -/
theorem hashGet_setEntries {es : List (String × Value)} (hes : (es.map Prod.fst).Nodup)
    (fs : List (String × Value)) (k : String) :
    hashGet (setEntries fs es) k = (hashGet es k <|> hashGet fs k) := by
  induction es generalizing fs with
  | nil => rfl
  | cons e es ih =>
    obtain ⟨hnot, hes⟩ := List.nodup_cons.1 hes
    rw [setEntries, ih hes, hashGet_hashSet, hashGet_cons]
    by_cases hk : k = e.1
    · subst hk
      rw [if_pos rfl, if_pos rfl, hashGet_eq_none_iff.2 hnot]
      rfl
    · rw [if_neg hk, if_neg (Ne.symm hk)]

theorem nodup_hashSet {es : List (String × Value)} (hes : (es.map Prod.fst).Nodup) (k : String)
    (v : Value) : ((hashSet es k v).map Prod.fst).Nodup :=
  Bucket.nodup_set _ k v hes

theorem eq_or_mem_of_mem_hashSet {es : List (String × Value)} {k : String} {v : Value}
    {e : String × Value} (h : e ∈ hashSet es k v) : e = (k, v) ∨ e ∈ es :=
  Bucket.eq_or_mem_of_mem_set _ h

theorem mem_or_mem_of_mem_setEntries {es fs : List (String × Value)} {e : String × Value}
    (h : e ∈ setEntries es fs) : e ∈ es ∨ e ∈ fs := by
  induction fs generalizing es with
  | nil => exact .inl h
  | cons f fs ih =>
    rcases ih h with h | h
    · rcases eq_or_mem_of_mem_hashSet h with rfl | h
      exacts [.inr List.mem_cons_self, .inl h]
    · exact .inr (List.mem_cons_of_mem _ h)

theorem nodup_setEntries {es : List (String × Value)} (hes : (es.map Prod.fst).Nodup)
    (fs : List (String × Value)) : ((setEntries es fs).map Prod.fst).Nodup := by
  induction fs generalizing es with
  | nil => exact hes
  | cons f fs ih => exact ih (nodup_hashSet hes f.1 f.2)

theorem nodup_setEntries_nil (fs : List (String × Value)) :
    ((setEntries [] fs).map Prod.fst).Nodup := by
  have hnil : (([] : List (String × Value)).map Prod.fst).Nodup := List.nodup_nil
  exact nodup_setEntries hnil fs

namespace Value

theorem copyList_eq_map (vs : List Value) : copyList vs = vs.map copy := by
  induction vs with
  | nil => rfl
  | cons v vs ih => rw [copyList, ih, List.map_cons]

theorem copyEntries_eq_map (es : List (String × Value)) :
    copyEntries es = es.map fun e ↦ (e.1, e.2.copy) := by
  induction es with
  | nil => rfl
  | cons e es ih => rw [copyEntries, ih, List.map_cons]

theorem keys_copyEntries (es : List (String × Value)) :
    (copyEntries es).map Prod.fst = es.map Prod.fst := by
  simp [copyEntries_eq_map]

theorem hashGet_copyEntries (es : List (String × Value)) (k : String) :
    hashGet (copyEntries es) k = (hashGet es k).map copy := by
  induction es with
  | nil => rfl
  | cons e es ih =>
    rw [copyEntries, hashGet_cons, hashGet_cons, ih]
    split_ifs <;> rfl

/-! ### Paths -/

/-- One step into a value. -/
inductive Step where
  | key (k : String)
  | index (i : ℕ)

/-- The kind of a value, with its text, number or length. -/
inductive Head where
  | undef
  | bool (b : Bool)
  | string (s : String)
  | number (n : ℚ)
  | array (length : ℕ)
  | hash
  | regexp (pattern : String)
  | deferred (functionName : String) (length : ℕ)

/-- The head of a value. -/
def head : Value → Head
  | .undef => .undef
  | .bool b => .bool b
  | .string s => .string s
  | .number n => .number n
  | .array items => .array items.length
  | .hash _ => .hash
  | .regexp pattern => .regexp pattern
  | .deferred f args => .deferred f args.length

/-- The head of the value that a path leads to. -/
def look : Value → List Step → Option Head
  | v, [] => some v.head
  | .array items, .index i :: path => (items[i]?).bind fun v ↦ look v path
  | .deferred _ args, .index i :: path => (args[i]?).bind fun v ↦ look v path
  | .hash entries, .key k :: path => (hashGet entries k).bind fun v ↦ look v path
  | _, _ :: _ => none

/-- No path tells the two apart. -/
def Alike (v w : Option Value) : Prop := ∀ path, v.bind (look · path) = w.bind (look · path)

theorem Alike.refl (v : Option Value) : Alike v v := fun _ ↦ rfl

theorem Alike.symm {v w : Option Value} (h : Alike v w) : Alike w v := fun path ↦ (h path).symm

theorem Alike.trans {u v w : Option Value} (h : Alike u v) (h' : Alike v w) : Alike u w :=
  fun path ↦ (h path).trans (h' path)

theorem Alike.isSome {v w : Option Value} (h : Alike v w) : v.isSome = w.isSome := by
  have := h []
  cases v <;> cases w <;> simp_all [look]

theorem Alike.head {v w : Value} (h : Alike (some v) (some w)) : v.head = w.head := by
  simpa [look] using h []

/-- Hashes are alike if each key leads to values that are alike. -/
theorem alike_hash_iff {es fs : List (String × Value)} :
    Alike (some (.hash es)) (some (.hash fs)) ↔ ∀ k, Alike (hashGet es k) (hashGet fs k) := by
  constructor
  · exact fun h k path ↦ by simpa [look] using h (.key k :: path)
  · rintro h (_ | ⟨_ | _, path⟩)
    · rfl
    · simpa [look] using h _ path
    · rfl

/-- Arrays are alike if they have the same length and each index leads to values that are
alike. -/
theorem alike_array_iff {vs ws : List Value} :
    Alike (some (.array vs)) (some (.array ws)) ↔
      vs.length = ws.length ∧ ∀ i : ℕ, Alike vs[i]? ws[i]? := by
  constructor
  · exact fun h ↦ ⟨by simpa [head] using h.head,
      fun i path ↦ by simpa [look] using h (.index i :: path)⟩
  · rintro ⟨hlength, h⟩ (_ | ⟨_ | _, path⟩)
    · simp [look, head, hlength]
    · rfl
    · simpa [look] using h _ path

theorem alike_deferred_iff {f g : String} {vs ws : List Value} :
    Alike (some (.deferred f vs)) (some (.deferred g ws)) ↔
      f = g ∧ vs.length = ws.length ∧ ∀ i : ℕ, Alike vs[i]? ws[i]? := by
  constructor
  · intro h
    obtain ⟨hf, hlength⟩ : f = g ∧ vs.length = ws.length := by simpa [head] using h.head
    exact ⟨hf, hlength, fun i path ↦ by simpa [look] using h (.index i :: path)⟩
  · rintro ⟨rfl, hlength, h⟩ (_ | ⟨_ | _, path⟩)
    · simp [look, head, hlength]
    · rfl
    · simpa [look] using h _ path

/-- What is like a hash is a hash. -/
theorem Alike.exists_hash {v : Option Value} {fs : List (String × Value)}
    (h : Alike v (some (.hash fs))) : ∃ es, v = some (.hash es) := by
  cases v with
  | none => simpa using h.isSome
  | some v =>
    have := h.head
    cases v <;> simp_all [Value.head]

/-- The value below the keys of nested hashes. -/
def atKeys : Value → List String → Option Value
  | v, [] => some v
  | .hash entries, k :: ks => (hashGet entries k).bind fun v ↦ atKeys v ks
  | _, _ :: _ => none

theorem look_keys (v : Value) (ks : List String) (path : List Step) :
    look v (ks.map .key ++ path) = (atKeys v ks).bind (look · path) := by
  induction ks generalizing v with
  | nil => rfl
  | cons k ks ih =>
    cases v with
    | hash es =>
      cases h : hashGet es k <;> simp [look, atKeys, h, ih]
    | _ => rfl

/-- Values that are alike are so below any keys. -/
theorem Alike.atKeys {v w : Value} (h : Alike (some v) (some w)) (ks : List String) :
    Alike (v.atKeys ks) (w.atKeys ks) := by
  intro path
  rw [← look_keys, ← look_keys]
  exact h _

/-! ### Copies -/

/-- Induction on a value. -/
theorem induct {P : Value → Prop} (undef : P undef) (bool : ∀ b, P (bool b))
    (string : ∀ s, P (string s)) (number : ∀ n, P (number n))
    (array : ∀ items : List Value, (∀ v ∈ items, P v) → P (array items))
    (hash : ∀ entries : List (String × Value), (∀ e ∈ entries, P e.2) → P (hash entries))
    (regexp : ∀ pattern, P (regexp pattern))
    (deferred : ∀ f (args : List Value), (∀ v ∈ args, P v) → P (deferred f args)) (v : Value) :
    P v :=
  @Value.rec P (fun vs ↦ ∀ v ∈ vs, P v) (fun es ↦ ∀ e ∈ es, P e.2) (fun e ↦ P e.2)
    undef bool string number array hash regexp deferred (by simp)
    (fun v vs hv hvs ↦ List.forall_mem_cons.2 ⟨hv, hvs⟩) (by simp)
    (fun e es he hes ↦ List.forall_mem_cons.2 ⟨he, hes⟩) (fun _ _ hv ↦ hv) v

/-- No hash in a value has a key twice. -/
inductive Keyed : Value → Prop where
  | undef : Keyed undef
  | bool (b : Bool) : Keyed (bool b)
  | string (s : String) : Keyed (string s)
  | number (n : ℚ) : Keyed (number n)
  | array {items : List Value} (h : ∀ v ∈ items, Keyed v) : Keyed (array items)
  | hash {entries : List (String × Value)} (hkeys : (entries.map Prod.fst).Nodup)
      (h : ∀ e ∈ entries, Keyed e.2) : Keyed (hash entries)
  | regexp (pattern : String) : Keyed (regexp pattern)
  | deferred (f : String) {args : List Value} (h : ∀ v ∈ args, Keyed v) : Keyed (deferred f args)

theorem keyed_copy (v : Value) : v.copy.Keyed := by
  induction v using induct with
  | undef => exact .undef
  | bool b => exact .bool b
  | string s => exact .string s
  | number n => exact .number n
  | regexp pattern => exact .regexp pattern
  | array items ih =>
    rw [copy, copyList_eq_map]
    exact .array (List.forall_mem_map.2 ih)
  | deferred f args ih =>
    rw [copy, copyList_eq_map]
    exact .deferred f (List.forall_mem_map.2 ih)
  | hash es ih =>
    rw [copy, copyEntries_eq_map]
    refine .hash (nodup_setEntries_nil _) fun e he ↦ ?_
    rcases mem_or_mem_of_mem_setEntries he with he | he
    · cases he
    · obtain ⟨e', he', rfl⟩ := List.mem_map.1 he
      exact ih e' he'

theorem alike_getElem?_copyList {vs : List Value}
    (h : ∀ v ∈ vs, Alike (some v.copy) (some v)) (i : ℕ) :
    Alike (copyList vs)[i]? vs[i]? := by
  rw [copyList_eq_map, List.getElem?_map]
  cases hi : vs[i]? with
  | none => exact .refl _
  | some v => exact h v (List.mem_of_getElem? hi)

/-- A copy is like the original. -/
theorem Keyed.alike_copy {v : Value} (hv : v.Keyed) : Alike (some v.copy) (some v) := by
  induction hv with
  | undef | bool | string | number | regexp => exact .refl _
  | @array items _ ih =>
    exact alike_array_iff.2 ⟨by simp [copyList_eq_map], alike_getElem?_copyList ih⟩
  | @deferred f args _ ih =>
    exact alike_deferred_iff.2 ⟨rfl, by simp [copyList_eq_map], alike_getElem?_copyList ih⟩
  | @hash es hkeys _ ih =>
    rw [copy]
    refine alike_hash_iff.2 fun k ↦ ?_
    rw [hashGet_setEntries (by rwa [keys_copyEntries]), hashGet_copyEntries]
    cases hk : hashGet es k with
    | none => exact .refl _
    | some v => exact ih (k, v) (mem_of_hashGet hk)

/-! ### Data -/

/-- A value as a data file holds it: made of hashes, with distinct keys that are not empty, of
arrays and of scalars. -/
inductive IsPlain : Value → Prop where
  | undef : IsPlain undef
  | bool (b : Bool) : IsPlain (bool b)
  | string (s : String) : IsPlain (string s)
  | number (n : ℚ) : IsPlain (number n)
  | array {items : List Value} (h : ∀ v ∈ items, IsPlain v) : IsPlain (array items)
  | hash {entries : List (String × Value)} (hkeys : (entries.map Prod.fst).Nodup)
      (hne : ∀ e ∈ entries, e.1 ≠ "") (h : ∀ e ∈ entries, IsPlain e.2) : IsPlain (hash entries)

theorem isPlain_hash_iff {es : List (String × Value)} :
    (Value.hash es).IsPlain ↔
      (es.map Prod.fst).Nodup ∧ (∀ e ∈ es, e.1 ≠ "") ∧ ∀ e ∈ es, e.2.IsPlain := by
  constructor
  · rintro (_ | _ | _ | _ | _ | ⟨hkeys, hne, h⟩)
    exact ⟨hkeys, hne, h⟩
  · exact fun h ↦ .hash h.1 h.2.1 h.2.2

theorem isPlain_empty : (Value.hash []).IsPlain :=
  isPlain_hash_iff.2 ⟨List.nodup_nil, by simp, by simp⟩

theorem IsPlain.keyed {v : Value} (hv : v.IsPlain) : v.Keyed := by
  induction hv with
  | undef => exact .undef
  | bool b => exact .bool b
  | string s => exact .string s
  | number n => exact .number n
  | array _ ih => exact .array ih
  | hash hkeys _ _ ih => exact .hash hkeys ih

theorem IsPlain.alike_copy {v : Value} (hv : v.IsPlain) : Alike (some v.copy) (some v) :=
  hv.keyed.alike_copy

theorem IsPlain.hashSet {es : List (String × Value)} (h : (Value.hash es).IsPlain) {k : String}
    (hk : k ≠ "") {v : Value} (hv : v.IsPlain) : (Value.hash (hashSet es k v)).IsPlain := by
  obtain ⟨hkeys, hne, h⟩ := isPlain_hash_iff.1 h
  refine .hash (nodup_hashSet hkeys k v) (fun e he ↦ ?_) fun e he ↦ ?_
  · rcases eq_or_mem_of_mem_hashSet he with rfl | he
    exacts [hk, hne e he]
  · rcases eq_or_mem_of_mem_hashSet he with rfl | he
    exacts [hv, h e he]

theorem IsPlain.copy {v : Value} (hv : v.IsPlain) : v.copy.IsPlain := by
  induction hv with
  | undef => exact .undef
  | bool b => exact .bool b
  | string s => exact .string s
  | number n => exact .number n
  | array _ ih =>
    rw [Value.copy, copyList_eq_map]
    exact .array (List.forall_mem_map.2 ih)
  | @hash es hkeys hne _ ih =>
    rw [Value.copy, copyEntries_eq_map]
    have hmem : ∀ e ∈ setEntries [] (es.map fun e ↦ (e.1, e.2.copy)),
        ∃ e' ∈ es, e = (e'.1, e'.2.copy) := by
      intro e he
      rcases mem_or_mem_of_mem_setEntries he with he | he
      · cases he
      · obtain ⟨e', he', rfl⟩ := List.mem_map.1 he
        exact ⟨e', he', rfl⟩
    refine .hash (nodup_setEntries_nil _) (fun e he ↦ ?_) fun e he ↦ ?_
    · obtain ⟨e', he', rfl⟩ := hmem e he
      exact hne e' he'
    · obtain ⟨e', he', rfl⟩ := hmem e he
      exact ih e' he'

end Value

theorem keyed_hash_cons_iff {k : String} {v : Value} {es : List (String × Value)} :
    (Value.hash ((k, v) :: es)).Keyed ↔
      k ∉ es.map Prod.fst ∧ v.Keyed ∧ (Value.hash es).Keyed := by
  constructor
  · rintro (_ | _ | _ | _ | _ | ⟨hkeys, h⟩)
    rw [List.map_cons, List.nodup_cons] at hkeys
    rw [List.forall_mem_cons] at h
    exact ⟨hkeys.1, h.1, .hash hkeys.2 h.2⟩
  · rintro ⟨hk, hv, _ | _ | _ | _ | _ | ⟨hkeys, h⟩⟩
    exact .hash (List.nodup_cons.2 ⟨hk, hkeys⟩) (List.forall_mem_cons.2 ⟨hv, h⟩)

theorem keyed_hashSet {es : List (String × Value)} {k : String} {v : Value}
    (hes : (Value.hash es).Keyed) (hv : v.Keyed) : (Value.hash (hashSet es k v)).Keyed := by
  obtain _ | _ | _ | _ | _ | ⟨hkeys, h⟩ := hes
  refine .hash (nodup_hashSet hkeys k v) fun e he ↦ ?_
  rcases eq_or_mem_of_mem_hashSet he with rfl | he
  · exact hv
  · exact h e he

end PuppetC
