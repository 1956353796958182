import Mathlib.Data.List.Nodup
import Mathlib.Tactic.Common

/-!
# Configuration data and how levels of it are merged

Data of one level of a hierarchy is a tree of mappings, lists and scalars. A mapping is a partial
function, so the order in which a table lists its keys is no part of it. Levels are merged from
the one with the highest priority down, by one of four strategies.

## Main definitions

* `ConfigTree`: data, with scalars of any type.
* `ConfigTree.deep`: the recursive union in which the first tree wins.
* `ConfigTree.override`: the one in which the second tree wins.
* `ConfigTree.overlay`: the latter on mappings only.
* `ConfigTree.Kept`, `ConfigTree.Agrees`: nothing that is set is overridden; two trees set nothing
  differently.
* `ConfigTree.Regroups`: three trees whose union does not depend on the grouping.
* `withoutRepeats`: a list without later duplicates.

## Main results

* `ConfigTree.override_eq_deep`: the unions of trees that agree are equal.
* `ConfigTree.kept_override_iff`: the second tree overrides nothing exactly if they agree.
* `ConfigTree.pairwise_compatible_iff`: no level overrides what those before it set exactly if they
  set nothing differently.
* `ConfigTree.override_assoc_iff`: when a union does not depend on the grouping.
* `appendNew_eq_withoutRepeats_iff`: when it is enough to look for duplicates of some kinds.
-/

namespace PuppetC

/-- Configuration data. -/
inductive ConfigTree (S : Type) where
  | atom (s : S)
  | list (items : List (ConfigTree S))
  | node (entries : String → Option (ConfigTree S))

namespace ConfigTree

variable {S : Type}

/-! ### Unions of mappings -/

mutual

/-- The recursive union of mappings in which the first one wins; other trees are not merged. -/
def deep : ConfigTree S → ConfigTree S → ConfigTree S
  | .node f, .node g => .node fun k ↦ deepEntry (f k) (g k)
  | a, _ => a

/-- The union at one key. -/
def deepEntry : Option (ConfigTree S) → Option (ConfigTree S) → Option (ConfigTree S)
  | some a, some b => some (deep a b)
  | some a, none => some a
  | none, b => b

end

mutual

/-- The recursive union of mappings in which the second one wins. -/
def override : ConfigTree S → ConfigTree S → ConfigTree S
  | .node f, .node g => .node fun k ↦ overrideEntry (f k) (g k)
  | _, b => b

/-- The union at one key. -/
def overrideEntry : Option (ConfigTree S) → Option (ConfigTree S) → Option (ConfigTree S)
  | some a, some b => some (override a b)
  | some a, none => some a
  | none, b => b

end

mutual

/-- Everything that the first tree sets is set in the second one, too. -/
def Kept : ConfigTree S → ConfigTree S → Prop
  | .node f, .node g => ∀ k, KeptEntry (f k) (g k)
  | a, b => b = a

/-- What is set at one key is kept. -/
def KeptEntry : Option (ConfigTree S) → Option (ConfigTree S) → Prop
  | some a, some b => Kept a b
  | some _, none => False
  | none, _ => True

end

mutual

/-- Two trees do not set anything differently. -/
def Agrees : ConfigTree S → ConfigTree S → Prop
  | .node f, .node g => ∀ k, AgreesEntry (f k) (g k)
  | a, b => b = a

/-- What both trees set at one key agrees. -/
def AgreesEntry : Option (ConfigTree S) → Option (ConfigTree S) → Prop
  | some a, some b => Agrees a b
  | _, _ => True

end

mutual

theorem kept_refl : ∀ a : ConfigTree S, Kept a a
  | .atom s => by rw [Kept]; simp
  | .list items => by rw [Kept]; simp
  | .node f => by
    rw [Kept]
    exact fun k ↦ keptEntry_refl (f k)

theorem keptEntry_refl : ∀ a : Option (ConfigTree S), KeptEntry a a
  | some a => by
    rw [KeptEntry]
    exact kept_refl a
  | none => by rw [KeptEntry]; trivial

end

/-! ### Unions of trees that agree -/

mutual

/-- Whichever tree wins, the unions of trees that agree are equal. -/
theorem override_eq_deep : ∀ {a b : ConfigTree S}, Agrees a b → override a b = deep a b
  | .node f, .node g, h => by
    rw [Agrees] at h
    rw [override, deep]
    exact congrArg node (funext fun k ↦ overrideEntry_eq_deepEntry (h k))
  | .atom _, b, h => by
    rw [Agrees] at h
    · rw [override, deep, h] <;> simp
    · simp
  | .list _, b, h => by
    rw [Agrees] at h
    · rw [override, deep, h] <;> simp
    · simp
  | .node f, .atom _, h => by
    rw [Agrees] at h
    · cases h
    · simp
  | .node f, .list _, h => by
    rw [Agrees] at h
    · cases h
    · simp

theorem overrideEntry_eq_deepEntry : ∀ {a b : Option (ConfigTree S)}, AgreesEntry a b →
    overrideEntry a b = deepEntry a b
  | some a, some b, h => by
    rw [AgreesEntry] at h
    rw [overrideEntry, deepEntry, override_eq_deep h]
  | some a, none, _ => by rw [overrideEntry, deepEntry]
  | none, b, _ => by rw [overrideEntry, deepEntry]

end

mutual

/-- The second tree of a union in which it wins overrides nothing exactly if the trees agree. -/
theorem kept_override_iff : ∀ a b : ConfigTree S, Kept a (override a b) ↔ Agrees a b
  | .node f, .node g => by
    rw [override, Kept, Agrees]
    exact forall_congr' fun k ↦ keptEntry_overrideEntry_iff (f k) (g k)
  | .atom _, b => by rw [override, Kept, Agrees] <;> simp
  | .list _, b => by rw [override, Kept, Agrees] <;> simp
  | .node f, .atom _ => by rw [override, Kept, Agrees] <;> simp
  | .node f, .list _ => by rw [override, Kept, Agrees] <;> simp

theorem keptEntry_overrideEntry_iff : ∀ a b : Option (ConfigTree S),
    KeptEntry a (overrideEntry a b) ↔ AgreesEntry a b
  | some a, some b => by
    rw [overrideEntry, KeptEntry, AgreesEntry]
    exact kept_override_iff a b
  | some a, none => by
    rw [overrideEntry, KeptEntry, AgreesEntry]
    · exact iff_of_true (kept_refl a) trivial
    · simp
  | none, b => by
    rw [overrideEntry, KeptEntry, AgreesEntry]
    simp

end

/-- Induction on what a mapping sets. -/
theorem induct {P : ConfigTree S → Prop} (atom : ∀ s, P (atom s)) (list : ∀ items, P (list items))
    (node : ∀ f, (∀ k a, f k = some a → P a) → P (node f)) (a : ConfigTree S) : P a :=
  @ConfigTree.rec S P (fun _ ↦ True) (fun a ↦ ∀ x, a = some x → P x) atom
    (fun items _ ↦ list items) (fun f hf ↦ node f hf) trivial (fun _ _ _ _ ↦ trivial)
    (fun _ h ↦ by cases h) (fun _ ha _ h ↦ Option.some.inj h ▸ ha) a

theorem agreesEntry_none_left (a : Option (ConfigTree S)) : AgreesEntry none a := by
  rw [AgreesEntry]
  · trivial
  · simp

theorem agreesEntry_none_right (a : Option (ConfigTree S)) : AgreesEntry a none := by
  rw [AgreesEntry]
  · trivial
  · simp

theorem agreesEntry_deepEntry_iff {x y : Option (ConfigTree S)}
    (ih : ∀ a, x = some a → ∀ {b : ConfigTree S} (c : ConfigTree S), Agrees a b →
      (Agrees (deep a b) c ↔ Agrees a c ∧ Agrees b c)) (z : Option (ConfigTree S))
    (hxy : AgreesEntry x y) :
    AgreesEntry (deepEntry x y) z ↔ AgreesEntry x z ∧ AgreesEntry y z := by
  rcases x with - | a
  · rw [deepEntry]
    exact (and_iff_right (agreesEntry_none_left z)).symm
  rcases y with - | b
  · rw [deepEntry]
    exact (and_iff_left (agreesEntry_none_left z)).symm
  rcases z with - | c
  · exact iff_of_true (agreesEntry_none_right _)
      ⟨agreesEntry_none_right _, agreesEntry_none_right _⟩
  rw [AgreesEntry] at hxy
  rw [deepEntry, AgreesEntry, AgreesEntry, AgreesEntry]
  exact ih a rfl c hxy

/-- A third tree agrees with the union of two trees that agree if it agrees with both. -/
theorem agrees_deep_iff {a b : ConfigTree S} (c : ConfigTree S) (hab : Agrees a b) :
    Agrees (deep a b) c ↔ Agrees a c ∧ Agrees b c := by
  induction a using induct generalizing b c with
  | atom s | list items =>
    rw [Agrees] at hab
    · rw [hab, deep, and_self]
      simp
    · simp
  | node f ih =>
    cases b with
    | atom _ | list _ => simp [Agrees] at hab
    | node g =>
      cases c with
      | atom _ | list _ => simp [deep, Agrees]
      | node h =>
        rw [Agrees] at hab
        rw [deep, Agrees, Agrees, Agrees, ← forall_and]
        exact forall_congr' fun k ↦ agreesEntry_deepEntry_iff (ih k) (h k) (hab k)

/-! ### Regrouping a union -/

mutual

/-- Three trees are merged alike in either grouping, the later ones winning: where a mapping is
overridden by something else and this by a mapping, the first mapping adds nothing to the third. -/
def Regroups : ConfigTree S → ConfigTree S → ConfigTree S → Prop
  | .node f, .node g, .node h => ∀ k, RegroupsEntry (f k) (g k) (h k)
  | .node f, _, .node h => override (.node f) (.node h) = .node h
  | _, _, _ => True

/-- What three mappings set at one key is merged alike in either grouping. -/
def RegroupsEntry : Option (ConfigTree S) → Option (ConfigTree S) → Option (ConfigTree S) → Prop
  | some a, some b, some c => Regroups a b c
  | _, _, _ => True

end

theorem override_of_not_node_left {a : ConfigTree S} (h : ∀ f, a ≠ .node f) (b : ConfigTree S) :
    override a b = b := by
  cases a with
  | node f => exact absurd rfl (h f)
  | atom | list => rw [override]; simp

theorem override_of_not_node_right (a : ConfigTree S) {b : ConfigTree S} (h : ∀ f, b ≠ .node f) :
    override a b = b := by
  cases b with
  | node f => exact absurd rfl (h f)
  | atom | list => cases a <;> rw [override] <;> simp

theorem overrideEntry_none_left (b : Option (ConfigTree S)) : overrideEntry none b = b := by
  rw [overrideEntry]

theorem overrideEntry_none_right (a : Option (ConfigTree S)) : overrideEntry a none = a := by
  cases a <;> rw [overrideEntry]

theorem regroups_of_not_node_left {a : ConfigTree S} (h : ∀ f, a ≠ .node f) (b c : ConfigTree S) :
    Regroups a b c := by
  cases a with
  | node f => exact absurd rfl (h f)
  | atom | list => simp [Regroups]

theorem regroups_of_not_node_right (a b : ConfigTree S) {c : ConfigTree S} (h : ∀ f, c ≠ .node f) :
    Regroups a b c := by
  cases c with
  | node f => exact absurd rfl (h f)
  | atom | list => cases a <;> cases b <;> simp [Regroups]

theorem regroupsEntry_iff {x y z : Option (ConfigTree S)}
    (ih : ∀ a, x = some a → ∀ b c : ConfigTree S,
      override (override a b) c = override a (override b c) ↔ Regroups a b c) :
    overrideEntry (overrideEntry x y) z = overrideEntry x (overrideEntry y z) ↔
      RegroupsEntry x y z := by
  rcases x with - | a
  · simp [overrideEntry_none_left, RegroupsEntry]
  rcases y with - | b
  · simp [overrideEntry_none_left, overrideEntry_none_right, RegroupsEntry]
  rcases z with - | c
  · simp [overrideEntry_none_right, RegroupsEntry]
  · simp only [overrideEntry, RegroupsEntry, Option.some_inj]
    exact ih a rfl b c

/-- When a union of three trees does not depend on the grouping. -/
theorem override_assoc_iff (a b c : ConfigTree S) :
    override (override a b) c = override a (override b c) ↔ Regroups a b c := by
  induction a using induct generalizing b c with
  | atom s | list items =>
    refine iff_of_true ?_ (regroups_of_not_node_left (by simp) b c)
    rw [override_of_not_node_left (by simp) b, override_of_not_node_left (by simp) (override b c)]
  | node f ih =>
    cases c with
    | atom | list =>
      refine iff_of_true ?_ (regroups_of_not_node_right _ _ (by simp))
      rw [override_of_not_node_right _ (by simp), override_of_not_node_right b (by simp),
        override_of_not_node_right _ (by simp)]
    | node h =>
      cases b with
      | atom | list =>
        rw [override_of_not_node_right (node f) (by simp), override_of_not_node_left (by simp),
          Regroups]
        · exact eq_comm
        · simp
      | node g =>
        simp only [override, Regroups, node.injEq, funext_iff]
        exact forall_congr' fun k ↦ regroupsEntry_iff (ih k)

/-! ### Levels that are merged into a mapping -/

/-- The items of a list. -/
def itemsOf : ConfigTree S → Option (List (ConfigTree S))
  | list items => some items
  | _ => none

/-- The entries of a mapping. -/
def entriesOf : ConfigTree S → Option (String → Option (ConfigTree S))
  | node entries => some entries
  | _ => none

/-- Mappings are merged so that the second one wins; other trees are not merged. -/
def overlay : ConfigTree S → ConfigTree S → ConfigTree S
  | .node f, .node g => override (.node f) (.node g)
  | a, _ => a

/-- Two trees agree if both are mappings. -/
def Compatible (a b : ConfigTree S) : Prop :=
  a.entriesOf.isSome → b.entriesOf.isSome → Agrees a b

/-- What a tree sets as a mapping is kept. -/
def KeysKept (a b : ConfigTree S) : Prop := a.entriesOf.isSome → Kept a b

theorem overlay_eq_self {a b : ConfigTree S} (h : a.entriesOf = none ∨ b.entriesOf = none) :
    overlay a b = a := by
  cases a <;> cases b <;> simp_all [overlay, entriesOf]

theorem deep_eq_self {a b : ConfigTree S} (h : a.entriesOf = none ∨ b.entriesOf = none) :
    deep a b = a := by
  cases a <;> cases b <;> simp_all [deep, entriesOf]

theorem foldl_deep_eq_self {a : ConfigTree S} (h : a.entriesOf = none)
    (as : List (ConfigTree S)) : as.foldl deep a = a := by
  induction as with
  | nil => rfl
  | cons b bs ih => rw [List.foldl_cons, deep_eq_self (.inl h), ih]

theorem overlay_eq_deep {a b : ConfigTree S} (h : Compatible a b) : overlay a b = deep a b := by
  cases ha : a.entriesOf with
  | none => rw [overlay_eq_self (.inl ha), deep_eq_self (.inl ha)]
  | some f =>
    cases hb : b.entriesOf with
    | none => rw [overlay_eq_self (.inr hb), deep_eq_self (.inr hb)]
    | some g =>
      rw [← override_eq_deep (h (by simp [ha]) (by simp [hb]))]
      cases a <;> cases b <;> simp_all [overlay, entriesOf]

theorem keysKept_self (a : ConfigTree S) : KeysKept a a := fun _ ↦ kept_refl a

theorem keysKept_overlay_iff (a b : ConfigTree S) :
    KeysKept a (overlay a b) ↔ Compatible a b := by
  cases ha : a.entriesOf with
  | none => simp [KeysKept, Compatible, ha]
  | some f =>
    cases hb : b.entriesOf with
    | none =>
      rw [overlay_eq_self (.inr hb)]
      exact iff_of_true (keysKept_self a) fun _ h ↦ by simp [hb] at h
    | some g =>
      simp only [KeysKept, Compatible, ha, hb, Option.isSome_some, true_imp_iff]
      rw [← kept_override_iff]
      cases a <;> cases b <;> simp_all [overlay, entriesOf]

theorem isSome_entriesOf_deep {a : ConfigTree S} (h : a.entriesOf.isSome) (b : ConfigTree S) :
    (deep a b).entriesOf.isSome := by
  cases a <;> cases b <;> simp_all [deep, entriesOf]

/-- A tree is compatible with the union of compatible trees if it is with both. -/
theorem compatible_deep_iff {a b : ConfigTree S} (ha : a.entriesOf.isSome) (c : ConfigTree S)
    (h : Compatible a b) : Compatible (deep a b) c ↔ Compatible a c ∧ Compatible b c := by
  cases hb : b.entriesOf with
  | none =>
    rw [deep_eq_self (.inr hb)]
    exact (and_iff_left fun h ↦ by simp [hb] at h).symm
  | some g =>
    simp only [Compatible, ha, hb, isSome_entriesOf_deep ha b, Option.isSome_some, true_imp_iff,
      ← imp_and]
    exact imp_congr_right fun _ ↦ agrees_deep_iff c (h ha (by simp [hb]))

theorem pairwise_cons_deep_iff {a b : ConfigTree S} {bs : List (ConfigTree S)}
    (ha : a.entriesOf.isSome) :
    (a :: b :: bs).Pairwise Compatible ↔
      Compatible a b ∧ (deep a b :: bs).Pairwise Compatible := by
  simp only [List.pairwise_cons, List.forall_mem_cons, and_assoc]
  refine and_congr_right fun hab ↦ ?_
  simp only [compatible_deep_iff ha _ hab, ← and_assoc, ← forall_and]

/-- Whichever tree wins, a mapping and levels that are compatible give one union. -/
theorem foldl_overlay_eq_deep {a : ConfigTree S} {as : List (ConfigTree S)}
    (ha : a.entriesOf.isSome) (h : (a :: as).Pairwise Compatible) :
    as.foldl overlay a = as.foldl deep a := by
  induction as generalizing a with
  | nil => rfl
  | cons b bs ih =>
    obtain ⟨hab, h⟩ := (pairwise_cons_deep_iff ha).1 h
    rw [List.foldl_cons, List.foldl_cons, overlay_eq_deep hab]
    exact ih (isSome_entriesOf_deep ha b) h

/-- Levels are compatible with a mapping and with each other if none of them overrides what the
union of those before it sets. -/
theorem pairwise_compatible_iff {a : ConfigTree S} {as : List (ConfigTree S)}
    (ha : a.entriesOf.isSome) :
    (a :: as).Pairwise Compatible ↔ ∀ pre b post, as = pre ++ b :: post →
      KeysKept (pre.foldl overlay a) (overlay (pre.foldl overlay a) b) := by
  induction as generalizing a with
  | nil => simp
  | cons b bs ih =>
    rw [pairwise_cons_deep_iff ha, ih (isSome_entriesOf_deep ha b)]
    constructor
    · rintro ⟨hab, h⟩ pre c post hsplit
      cases pre with
      | nil =>
        obtain ⟨rfl, -⟩ := List.cons.inj hsplit
        exact (keysKept_overlay_iff a b).2 hab
      | cons d pre =>
        obtain ⟨rfl, htail⟩ := List.cons.inj hsplit
        rw [List.foldl_cons, overlay_eq_deep hab]
        exact h pre c post htail
    · intro h
      have hab : Compatible a b := (keysKept_overlay_iff a b).1 (h [] b bs rfl)
      refine ⟨hab, fun pre c post htail ↦ ?_⟩
      have := h (b :: pre) c post (by rw [htail, List.cons_append])
      rwa [List.foldl_cons, overlay_eq_deep hab] at this

end ConfigTree

/-! ### Lists without duplicates -/

section Repeats

open Classical

variable {α : Type}

/-- Append an item unless it is there already; only items of some kinds are looked for. -/
noncomputable def appendNew (looked : α → Prop) (acc : List α) (x : α) : List α :=
  if looked x ∧ x ∈ acc then acc else acc ++ [x]

/-- A list without later duplicates. -/
noncomputable def withoutRepeats (xs : List α) : List α := xs.foldl (appendNew fun _ ↦ True) []

theorem mem_appendNew {looked : α → Prop} {acc : List α} {x y : α} :
    y ∈ appendNew looked acc x ↔ y ∈ acc ∨ y = x := by
  unfold appendNew
  split_ifs with h
  · exact ⟨.inl, fun hy ↦ hy.elim id fun hy ↦ hy ▸ h.2⟩
  · simp

theorem nodup_appendNew (acc : List α) (x : α) (h : acc.Nodup) :
    (appendNew (fun _ ↦ True) acc x).Nodup := by
  unfold appendNew
  split_ifs with hx
  · exact h
  · exact List.nodup_append'.2 ⟨h, List.nodup_singleton x, by simpa using hx⟩

theorem nodup_foldl_appendNew {acc : List α} (h : acc.Nodup) (xs : List α) :
    (xs.foldl (appendNew fun _ ↦ True) acc).Nodup := by
  induction xs generalizing acc with
  | nil => exact h
  | cons x xs ih => exact ih (nodup_appendNew acc x h)

theorem foldl_appendNew_eq_append {acc xs : List α} (h : (acc ++ xs).Nodup) :
    xs.foldl (appendNew fun _ ↦ True) acc = acc ++ xs := by
  induction xs generalizing acc with
  | nil => simp
  | cons x xs ih =>
    have hx : x ∉ acc := fun hx ↦ (List.nodup_append'.1 h).2.2 hx (by simp)
    have hacc : appendNew (fun _ ↦ True) acc x = acc ++ [x] := by simp [appendNew, hx]
    rw [List.foldl_cons, hacc, ih (by simpa using h), List.append_assoc, List.singleton_append]

/-- An item that is not looked for differs from all items before it. -/
def NoHiddenRepeat (looked : α → Prop) (xs ys : List α) : Prop :=
  ∀ pre y post, ys = pre ++ y :: post → y ∈ xs ++ pre → looked y

theorem noHiddenRepeat_cons_iff {looked : α → Prop} {xs ys : List α} {y : α} :
    NoHiddenRepeat looked xs (y :: ys) ↔
      (y ∈ xs → looked y) ∧ NoHiddenRepeat looked (appendNew looked xs y) ys := by
  constructor
  · intro h
    refine ⟨fun hy ↦ h [] y ys rfl (by simpa using hy), fun pre x post hys hx ↦ ?_⟩
    refine h (y :: pre) x post (by rw [hys, List.cons_append]) ?_
    rw [List.mem_append, mem_appendNew] at hx
    rw [List.mem_append, List.mem_cons]
    tauto
  · rintro ⟨hy, h⟩ pre x post hys hx
    cases pre with
    | nil =>
      obtain ⟨rfl, -⟩ := List.cons.inj hys
      exact hy (by simpa using hx)
    | cons z pre =>
      obtain ⟨rfl, htail⟩ := List.cons.inj hys
      refine h pre x post htail ?_
      rw [List.mem_append, List.mem_cons] at hx
      rw [List.mem_append, mem_appendNew]
      tauto

theorem foldl_appendNew_eq {looked : α → Prop} {xs ys : List α} (h : NoHiddenRepeat looked xs ys) :
    ys.foldl (appendNew looked) xs = ys.foldl (appendNew fun _ ↦ True) xs := by
  induction ys generalizing xs with
  | nil => rfl
  | cons y ys ih =>
    obtain ⟨hy, h⟩ := noHiddenRepeat_cons_iff.1 h
    have hstep : appendNew looked xs y = appendNew (fun _ ↦ True) xs y := by
      simp only [appendNew, true_and, and_iff_right_of_imp hy]
    rw [List.foldl_cons, List.foldl_cons, ih h, hstep]

theorem noHiddenRepeat_of_nodup {looked : α → Prop} {xs ys : List α}
    (h : (ys.foldl (appendNew looked) xs).Nodup) : xs.Nodup ∧ NoHiddenRepeat looked xs ys := by
  induction ys generalizing xs with
  | nil => exact ⟨h, fun pre y post hys ↦ by simp at hys⟩
  | cons y ys ih =>
    obtain ⟨hxs, hrest⟩ := ih h
    have hy : y ∈ xs → looked y := by
      intro hy
      by_contra hlooked
      rw [appendNew, if_neg fun h ↦ hlooked h.1] at hxs
      exact (List.nodup_append'.1 hxs).2.2 hy (by simp)
    refine ⟨?_, noHiddenRepeat_cons_iff.2 ⟨hy, hrest⟩⟩
    unfold appendNew at hxs
    split_ifs at hxs with hif
    · exact hxs
    · exact (List.nodup_append'.1 hxs).1

/-- Appending the new items of `ys` to `xs` leaves the later duplicates out if there are none
before, and none that is not looked for. -/
theorem appendNew_eq_withoutRepeats_iff (looked : α → Prop) (xs ys : List α) :
    ys.foldl (appendNew looked) xs = withoutRepeats (xs ++ ys) ↔
      xs.Nodup ∧ NoHiddenRepeat looked xs ys := by
  constructor
  · intro h
    refine noHiddenRepeat_of_nodup ?_
    rw [h]
    exact nodup_foldl_appendNew List.nodup_nil _
  · rintro ⟨hxs, h⟩
    have hfirst : xs.foldl (appendNew fun _ ↦ True) [] = xs :=
      foldl_appendNew_eq_append (by simpa using hxs)
    rw [foldl_appendNew_eq h, withoutRepeats, List.foldl_append, hfirst]

end Repeats

end PuppetC
