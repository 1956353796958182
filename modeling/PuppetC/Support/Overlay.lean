import PuppetC.Support.BucketTable
import Mathlib.Data.List.Perm.Basic

/-!
# Entries under overrides

A list of entries is given, and a table of overrides, at most one for a key. The entries take the
values of the overrides (`applied`), and the overrides of keys that no entry has come after them
(`outside`). This is the list in which every key of either has its value.

## Main definitions

* `Overlay.outside`: the overrides of keys outside a list.
* `Overlay.applied`: entries with the values of the overrides.

## Main results

* `Overlay.outside_perm_iff`: when entries that are left out are among the overrides.
-/

namespace PuppetC

namespace Overlay

variable {κ β : Type} [DecidableEq κ]

/-- The overrides of keys that are not in a list. -/
def outside (keys : List κ) (overrides : List (κ × β)) : List (κ × β) :=
  overrides.filter fun e ↦ e.1 ∉ keys

/-- Entries, with the values that the overrides give to their keys. -/
def applied (overrides es : List (κ × β)) : List (κ × β) :=
  es.map fun e ↦ (e.1, (Bucket.get e.1 overrides).getD e.2)

@[simp] theorem mem_outside {keys : List κ} {overrides : List (κ × β)} {e : κ × β} :
    e ∈ outside keys overrides ↔ e ∈ overrides ∧ e.1 ∉ keys := by
  simp [outside]

@[simp] theorem keys_applied (overrides es : List (κ × β)) :
    (applied overrides es).map Prod.fst = es.map Prod.fst := by
  simp [applied]

theorem keys_outside (keys : List κ) (overrides : List (κ × β)) :
    (outside keys overrides).map Prod.fst = (overrides.map Prod.fst).filter (· ∉ keys) := by
  rw [List.filter_map]
  rfl

theorem nodup_keys_outside (keys : List κ) {overrides : List (κ × β)}
    (h : (overrides.map Prod.fst).Nodup) :
    ((outside keys overrides).map Prod.fst).Nodup := by
  rw [keys_outside]
  exact h.filter _

/-- The keys of entries and the overrides outside them are distinct where those of the entries
are. -/
theorem nodup_keys_append_outside {es overrides : List (κ × β)}
    (h : (overrides.map Prod.fst).Nodup) :
    ((es ++ outside (es.map Prod.fst) overrides).map Prod.fst).Nodup ↔ (es.map Prod.fst).Nodup := by
  rw [List.map_append, List.nodup_append']
  refine ⟨And.left, fun hes ↦ ⟨hes, nodup_keys_outside _ h, ?_⟩⟩
  intro k hk hk'
  rw [keys_outside] at hk'
  exact absurd hk (by simpa using (List.mem_filter.1 hk').2)

theorem mem_applied {overrides es : List (κ × β)} {e : κ × β} :
    e ∈ applied overrides es ↔ ∃ f ∈ es, f.1 = e.1 ∧ (Bucket.get e.1 overrides).getD f.2 = e.2 := by
  simp only [applied, List.mem_map]
  refine exists_congr fun f ↦ and_congr_right fun _ ↦ ?_
  constructor
  · rintro rfl
    exact ⟨rfl, rfl⟩
  · rintro ⟨hkey, hvalue⟩
    exact Prod.ext hkey (by rwa [hkey])

/-- Entries beside those with the given keys may be left out of a list of overrides exactly if the
overrides give every one of them, once. -/
theorem outside_perm_iff {keys : List κ} {overrides es : List (κ × β)}
    (h : (overrides.map Prod.fst).Nodup) :
    (outside keys overrides).Perm
        (applied overrides es ++ outside (keys ++ es.map Prod.fst) overrides) ↔
      (es.map Prod.fst).Nodup ∧ ∀ e ∈ es, e.1 ∈ overrides.map Prod.fst ∧ e.1 ∉ keys := by
  constructor
  · intro hperm
    have hnodup := (hperm.map Prod.fst).nodup (nodup_keys_outside keys h)
    rw [List.map_append, keys_applied] at hnodup
    refine ⟨(List.nodup_append'.1 hnodup).1, fun e he ↦ ?_⟩
    have hmem : (e.1, (Bucket.get e.1 overrides).getD e.2) ∈ outside keys overrides :=
      hperm.mem_iff.2 (List.mem_append_left _ (List.mem_map_of_mem he))
    obtain ⟨hover, hkeys⟩ := mem_outside.1 hmem
    exact ⟨List.mem_map.2 ⟨_, hover, rfl⟩, hkeys⟩
  · rintro ⟨hnodup, hgiven⟩
    have hleft : (outside keys overrides).Nodup := (nodup_keys_outside keys h).of_map _
    have hright : (applied overrides es ++ outside (keys ++ es.map Prod.fst) overrides).Nodup := by
      refine List.Nodup.of_map Prod.fst ?_
      rw [List.map_append, keys_applied, List.nodup_append']
      refine ⟨hnodup, nodup_keys_outside _ h, fun k hk hk' ↦ ?_⟩
      rw [keys_outside] at hk'
      have hnot : k ∉ keys ++ es.map Prod.fst := by simpa using (List.mem_filter.1 hk').2
      exact hnot (List.mem_append_right _ hk)
    refine (List.perm_ext_iff_of_nodup hleft hright).2 fun e ↦ ?_
    rw [List.mem_append, mem_outside, mem_outside, mem_applied, List.mem_append, not_or]
    constructor
    · rintro ⟨hover, hkeys⟩
      by_cases hes : e.1 ∈ es.map Prod.fst
      · obtain ⟨f, hf, hkey⟩ := List.mem_map.1 hes
        have hget : Bucket.get e.1 overrides = some e.2 := (Bucket.get_eq_some_iff h).2 hover
        exact .inl ⟨f, hf, hkey, by rw [hget, Option.getD_some]⟩
      · exact .inr ⟨hover, hkeys, hes⟩
    · rintro (⟨f, hf, hkey, hvalue⟩ | ⟨hover, hkeys, -⟩)
      · obtain ⟨hover, hkeys⟩ := hgiven f hf
        rw [hkey] at hover hkeys
        cases hget : Bucket.get e.1 overrides with
        | none => exact absurd hover (Bucket.get_eq_none_iff.1 hget)
        | some v =>
          rw [hget, Option.getD_some] at hvalue
          subst hvalue
          exact ⟨(Bucket.get_eq_some_iff h).1 hget, hkeys⟩
      · exact ⟨hover, hkeys⟩

end Overlay

end PuppetC
