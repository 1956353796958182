import Mathlib.Data.Finset.Card
import Mathlib.Data.Finset.Dedup
import Mathlib.Data.List.Nodup
import Mathlib.Data.Set.Finite.Basic
import Mathlib.Logic.Relation
import Mathlib.Order.WellFounded
import Mathlib.Tactic.Common

/-!
# Visits that mark late

A vertex of a graph is visited once: it is marked, and a visit to a marked vertex does nothing.
Here a vertex may have a predecessor that is visited before the vertex itself is marked; its
successors are visited afterwards. Between the two visits of a vertex that its predecessor leads
back to, it is not marked yet, so the visits may go on forever, or happen twice.

They do neither if and only if no predecessor leads back to its vertex.

## Main definitions

* `LateGraph`: a finite graph with predecessors and successors.
* `LateGraph.visit`: the visits, as the list of the marks, the last one first.
* `LateGraph.Leads`: a vertex leads to another one.
* `LateGraph.Safe`: no predecessor leads back.

## Main results

* `LateGraph.Safe.exists_visit`: visits in a safe graph end, and mark every vertex once.
* `LateGraph.not_nodup_of_leads`: a vertex whose predecessor leads back is not marked once.
-/

namespace PuppetC

open Relation

/-- A finite graph; a vertex may have a predecessor, which is visited before the vertex is marked,
and has successors, which are visited afterwards. -/
structure LateGraph (κ : Type) where
  vertices : Finset κ
  before : κ → Option κ
  after : κ → List κ
  before_mem : ∀ x ∈ vertices, ∀ y, before x = some y → y ∈ vertices
  after_mem : ∀ x ∈ vertices, ∀ y ∈ after x, y ∈ vertices

namespace LateGraph

variable {κ : Type} [DecidableEq κ] (G : LateGraph κ)

/-- Visit a vertex that has `visitOne` for the vertices it leads to. -/
def visitStep (visitOne : List κ → κ → Option (List κ)) (marks : List κ) (x : κ) :
    Option (List κ) :=
  if x ∈ marks then some marks
  else
    (match G.before x with
      | none => some marks
      | some y => visitOne marks y).bind fun marks ↦ (G.after x).foldlM visitOne (x :: marks)

/-- Visit a vertex, with visits nested `fuel` deep at most. -/
def visit : ℕ → List κ → κ → Option (List κ)
  | 0, _, _ => none
  | fuel + 1, marks, x => G.visitStep (visit fuel) marks x

/-- The vertex is the predecessor or a successor of the other one. -/
def Edge (x y : κ) : Prop := G.before x = some y ∨ y ∈ G.after x

/-- A vertex leads to another one. -/
abbrev Leads : κ → κ → Prop := ReflTransGen G.Edge

/-- No predecessor leads back to its vertex. -/
def Safe : Prop := ∀ x ∈ G.vertices, ∀ y, G.before x = some y → ¬ G.Leads y x

variable {G}

/-! ### One visit -/

/-- The parts of a visit to a vertex that is not marked. -/
theorem visit_eq_some_iff {fuel : ℕ} {t t' : List κ} {x : κ} (hx : x ∉ t) :
    G.visit (fuel + 1) t x = some t' ↔
      ∃ t₁, (G.before x = none ∧ t₁ = t ∨ ∃ y, G.before x = some y ∧ G.visit fuel t y = some t₁) ∧
        (G.after x).foldlM (G.visit fuel) (x :: t₁) = some t' := by
  rw [visit, visitStep, if_neg hx, Option.bind_eq_some_iff]
  refine exists_congr fun t₁ ↦ and_congr_left fun _ ↦ ?_
  cases G.before x with
  | none => simp [eq_comm]
  | some y => simp

theorem visit_of_mem {fuel : ℕ} {t : List κ} {x : κ} (hx : x ∈ t) :
    G.visit (fuel + 1) t x = some t := by
  rw [visit, visitStep, if_pos hx]

omit [DecidableEq κ] in
/-- A relation that is kept by every visit of a list is kept by the visits of the list. -/
theorem foldlM_induction {R : List κ → List κ → Prop} {f : List κ → κ → Option (List κ)}
    (hrefl : ∀ t, R t t) (htrans : ∀ t u v, R t u → R u v → R t v) {xs : List κ}
    (hf : ∀ x ∈ xs, ∀ t t', f t x = some t' → R t t') {t t' : List κ}
    (h : xs.foldlM f t = some t') : R t t' := by
  induction xs generalizing t with
  | nil =>
    cases h
    exact hrefl _
  | cons x xs ih =>
    rw [List.foldlM_cons] at h
    obtain ⟨u, hu, h⟩ := Option.bind_eq_some_iff.1 h
    obtain ⟨hx, hxs⟩ := List.forall_mem_cons.1 hf
    exact htrans _ u t' (hx _ u hu) (ih hxs h)

omit [DecidableEq κ] in
/-- The visits of a list end as they do with other visits that end alike. -/
theorem visits_of_imp {f g : List κ → κ → Option (List κ)}
    (hfg : ∀ t x t', f t x = some t' → g t x = some t') {xs t t' : List κ}
    (h : xs.foldlM f t = some t') : xs.foldlM g t = some t' := by
  induction xs generalizing t with
  | nil => exact h
  | cons x xs ih =>
    rw [List.foldlM_cons] at h ⊢
    obtain ⟨u, hu, h⟩ := Option.bind_eq_some_iff.1 h
    exact Option.bind_eq_some_iff.2 ⟨u, hfg _ x u hu, ih h⟩

/-- A visit keeps the marks, and marks its vertex. -/
theorem suffix_visit {fuel : ℕ} {t t' : List κ} {x : κ} (h : G.visit fuel t x = some t') :
    t <:+ t' ∧ x ∈ t' := by
  induction fuel generalizing t t' x with
  | zero => cases h
  | succ fuel ih =>
    by_cases hx : x ∈ t
    · rw [visit_of_mem hx] at h
      cases h
      exact ⟨List.suffix_rfl, hx⟩
    · obtain ⟨t₁, hbefore, hafter⟩ := (visit_eq_some_iff hx).1 h
      have ht₁ : t <:+ t₁ := by
        rcases hbefore with ⟨-, rfl⟩ | ⟨y, -, hy⟩
        exacts [List.suffix_rfl, (ih hy).1]
      have hrest : x :: t₁ <:+ t' := foldlM_induction (fun _ ↦ List.suffix_rfl)
        (fun _ _ _ ↦ List.IsSuffix.trans) (fun y _ u u' hu ↦ (ih hu).1) hafter
      exact ⟨ht₁.trans ((List.suffix_cons x t₁).trans hrest), hrest.subset List.mem_cons_self⟩

/-- The visits of a list keep the marks, and mark the vertices of the list. -/
theorem suffix_visits {fuel : ℕ} {t t' : List κ} {xs : List κ}
    (h : xs.foldlM (G.visit fuel) t = some t') : t <:+ t' ∧ ∀ x ∈ xs, x ∈ t' := by
  induction xs generalizing t with
  | nil =>
    cases h
    exact ⟨List.suffix_rfl, by simp⟩
  | cons x xs ih =>
    rw [List.foldlM_cons] at h
    obtain ⟨u, hu, h⟩ := Option.bind_eq_some_iff.1 h
    obtain ⟨hsuffix, hx⟩ := suffix_visit hu
    obtain ⟨hsuffix', hxs⟩ := ih h
    exact ⟨hsuffix.trans hsuffix', List.forall_mem_cons.2 ⟨hsuffix'.subset hx, hxs⟩⟩

/-- With more fuel a visit ends alike. -/
theorem visit_mono {fuel fuel' : ℕ} (hle : fuel ≤ fuel') {t t' : List κ} {x : κ}
    (h : G.visit fuel t x = some t') : G.visit fuel' t x = some t' := by
  induction fuel generalizing fuel' t t' x with
  | zero => cases h
  | succ fuel ih =>
    obtain ⟨fuel', rfl⟩ : ∃ n, fuel' = n + 1 := ⟨fuel' - 1, by omega⟩
    by_cases hx : x ∈ t
    · rw [visit_of_mem hx] at h ⊢
      exact h
    · have ih' {t t' : List κ} {x : κ} (hv : G.visit fuel t x = some t') :
          G.visit fuel' t x = some t' := ih (by omega) hv
      obtain ⟨t₁, hbefore, hafter⟩ := (visit_eq_some_iff hx).1 h
      refine (visit_eq_some_iff hx).2 ⟨t₁, hbefore.imp_right fun ⟨y, hy, hv⟩ ↦ ⟨y, hy, ih' hv⟩, ?_⟩
      exact visits_of_imp (fun _ _ _ ↦ ih') hafter

/-! ### What a visit marks -/

/-- What a visit marks, its vertex leads to. -/
theorem leads_of_visit {fuel : ℕ} {t t' : List κ} {x : κ} (h : G.visit fuel t x = some t') :
    ∀ y ∈ t', y ∈ t ∨ G.Leads x y := by
  induction fuel generalizing t t' x with
  | zero => cases h
  | succ fuel ih =>
    by_cases hx : x ∈ t
    · rw [visit_of_mem hx] at h
      cases h
      exact fun y hy ↦ Or.inl hy
    · obtain ⟨t₁, hbefore, hafter⟩ := (visit_eq_some_iff hx).1 h
      have ht₁ : ∀ y ∈ t₁, y ∈ t ∨ G.Leads x y := by
        rcases hbefore with ⟨-, rfl⟩ | ⟨p, hp, hv⟩
        · exact fun y hy ↦ Or.inl hy
        · exact fun y hy ↦ (ih hv y hy).imp_right (ReflTransGen.head (Or.inl hp))
      have hrest : ∀ y ∈ t', y ∈ x :: t₁ ∨ G.Leads x y := by
        refine foldlM_induction (R := fun u u' ↦ ∀ y ∈ u', y ∈ u ∨ G.Leads x y)
          (fun _ _ hy ↦ Or.inl hy) (fun _ u _ htu huv y hy ↦ ?_) (fun z hz u u' hu y hy ↦ ?_) hafter
        · exact (huv y hy).elim (htu y) Or.inr
        · exact (ih hu y hy).imp_right (ReflTransGen.head (Or.inr hz))
      intro y hy
      rcases hrest y hy with hy | hy
      · rcases List.mem_cons.1 hy with rfl | hy
        exacts [Or.inr .refl, ht₁ y hy]
      · exact Or.inr hy

/-- Where a vertex leads that is marked in a visit is marked when the visit ends. -/
theorem edge_of_visit {fuel : ℕ} {t t' : List κ} {x : κ} (h : G.visit fuel t x = some t') :
    ∀ y ∈ t', y ∉ t → ∀ z, G.Edge y z → z ∈ t' := by
  induction fuel generalizing t t' x with
  | zero => cases h
  | succ fuel ih =>
    by_cases hx : x ∈ t
    · rw [visit_of_mem hx] at h
      cases h
      exact fun y hy hyt ↦ absurd hy hyt
    · obtain ⟨t₁, hbefore, hafter⟩ := (visit_eq_some_iff hx).1 h
      obtain ⟨hsuffix, hsuccessors⟩ := suffix_visits hafter
      have ht₁ : ∀ y ∈ t₁, y ∉ t → ∀ z, G.Edge y z → z ∈ t₁ := by
        rcases hbefore with ⟨-, rfl⟩ | ⟨p, -, hv⟩
        exacts [fun y hy hyt ↦ absurd hy hyt, ih hv]
      have hrest : x :: t₁ <:+ t' ∧ ∀ y ∈ t', y ∉ x :: t₁ → ∀ z, G.Edge y z → z ∈ t' := by
        refine foldlM_induction
          (R := fun u u' ↦ u <:+ u' ∧ ∀ y ∈ u', y ∉ u → ∀ z, G.Edge y z → z ∈ u')
          (fun _ ↦ ⟨List.suffix_rfl, fun y hy hyt ↦ absurd hy hyt⟩)
          (fun u v v' huv hvv' ↦ ⟨huv.1.trans hvv'.1, fun y hy hyu z hz ↦ ?_⟩)
          (fun z _ u u' hu ↦ ⟨(suffix_visit hu).1, ih hu⟩) hafter
        by_cases hyv : y ∈ v
        · exact hvv'.1.subset (huv.2 y hyv hyu z hz)
        · exact hvv'.2 y hy hyv z hz
      intro y hy hyt z hz
      by_cases hyx : y = x
      · subst hyx
        rcases hz with hz | hz
        · rcases hbefore with ⟨hnone, -⟩ | ⟨p, hp, hv⟩
          · rw [hnone] at hz
            cases hz
          · rw [hp] at hz
            cases hz
            exact hsuffix.subset (List.mem_cons_of_mem y (suffix_visit hv).2)
        · exact hsuccessors z hz
      · by_cases hyt₁ : y ∈ t₁
        · exact hsuffix.subset (List.mem_cons_of_mem x (ht₁ y hyt₁ hyt z hz))
        · exact hrest.2 y hy (by simp [hyx, hyt₁]) z hz

/-- A first visit marks all that its vertex leads to. -/
theorem mem_of_leads {fuel : ℕ} {t : List κ} {x y : κ} (h : G.visit fuel [] x = some t)
    (hy : G.Leads x y) : y ∈ t := by
  induction hy with
  | refl => exact (suffix_visit h).2
  | tail _ hz ih => exact edge_of_visit h _ ih List.not_mem_nil _ hz

/-- A vertex whose predecessor leads back to it is marked twice, if its visit ends. -/
theorem not_nodup_of_leads {fuel : ℕ} {t : List κ} {x y : κ} (hxy : G.before x = some y)
    (hyx : G.Leads y x) (h : G.visit fuel [] x = some t) : ¬ t.Nodup := by
  cases fuel with
  | zero => cases h
  | succ fuel =>
    obtain ⟨t₁, hbefore, hafter⟩ := (visit_eq_some_iff List.not_mem_nil).1 h
    rcases hbefore with ⟨hnone, -⟩ | ⟨y', hy', hv⟩
    · rw [hnone] at hxy
      cases hxy
    · rw [hy'] at hxy
      cases hxy
      intro hnodup
      have hnodup' : (x :: t₁).Nodup := hnodup.sublist (suffix_visits hafter).1.sublist
      exact (List.nodup_cons.1 hnodup').1 (mem_of_leads hv hyx)

/-! ### Safe graphs -/

namespace Safe

variable (hG : G.Safe)
include hG

/-- In a safe graph every vertex is marked once. -/
theorem nodup_visit {fuel : ℕ} {t t' : List κ} {x : κ} (hx : x ∈ G.vertices) (ht : t.Nodup)
    (h : G.visit fuel t x = some t') : t'.Nodup := by
  induction fuel generalizing t t' x with
  | zero => cases h
  | succ fuel ih =>
    by_cases hxt : x ∈ t
    · rw [visit_of_mem hxt] at h
      cases h
      exact ht
    · obtain ⟨t₁, hbefore, hafter⟩ := (visit_eq_some_iff hxt).1 h
      have ht₁ : t₁.Nodup ∧ x ∉ t₁ := by
        rcases hbefore with ⟨-, rfl⟩ | ⟨y, hy, hv⟩
        · exact ⟨ht, hxt⟩
        · refine ⟨ih (G.before_mem x hx y hy) ht hv, fun hxt₁ ↦ ?_⟩
          exact (leads_of_visit hv x hxt₁).elim hxt (hG x hx y hy)
      exact foldlM_induction (R := fun u u' ↦ u.Nodup → u'.Nodup) (fun _ ↦ id)
        (fun _ _ _ htu huv ht ↦ huv (htu ht))
        (fun y hy u u' hu hnodup ↦ ih (G.after_mem x hx y hy) hnodup hu) hafter
        (List.nodup_cons.2 ⟨ht₁.2, ht₁.1⟩)

omit [DecidableEq κ] in
/-- The predecessors of a vertex come to an end. -/
theorem wellFounded_before :
    WellFounded fun y x : G.vertices ↦ TransGen (fun a b ↦ G.before a = some b) x.1 y.1 := by
  have : IsTrans G.vertices fun y x ↦ TransGen (fun a b ↦ G.before a = some b) x.1 y.1 :=
    ⟨fun _ _ _ hyx hzy ↦ hzy.trans hyx⟩
  have : Std.Irrefl fun y x : G.vertices ↦ TransGen (fun a b ↦ G.before a = some b) x.1 y.1 := by
    refine ⟨fun x hx ↦ ?_⟩
    obtain ⟨y, hxy, hyx⟩ := TransGen.head'_iff.1 hx
    exact hG x.1 x.2 y hxy (ReflTransGen.mono (fun _ _ ↦ Or.inl) y x.1 hyx)
  exact Finite.wellFounded_of_trans_of_irrefl _

omit hG in
/-- The visits of a list end if every visit does that has the marks. -/
theorem exists_visits {t xs : List κ}
    (h : ∀ x ∈ xs, ∀ u : List κ, t ⊆ u → ∃ fuel u', G.visit fuel u x = some u') :
    ∃ fuel t', xs.foldlM (G.visit fuel) t = some t' := by
  induction xs generalizing t with
  | nil => exact ⟨0, t, rfl⟩
  | cons x xs ih =>
    obtain ⟨hx, hxs⟩ := List.forall_mem_cons.1 h
    obtain ⟨m, u, hu⟩ := hx t (List.Subset.refl t)
    obtain ⟨n, t', ht'⟩ := ih fun y hy v hv ↦
      hxs y hy v (List.Subset.trans (suffix_visit hu).1.subset hv)
    refine ⟨max m n, t', ?_⟩
    rw [List.foldlM_cons]
    exact Option.bind_eq_some_iff.2 ⟨u, visit_mono (le_max_left m n) hu,
      visits_of_imp (fun _ _ _ ↦ visit_mono (le_max_right m n)) ht'⟩

/-- In a safe graph every visit ends. The vertices that are not marked become fewer, or the vertex
is replaced by its predecessor. -/
theorem exists_visit_of_card (t : List κ) (x : κ) (hx : x ∈ G.vertices) :
    ∃ fuel t', G.visit fuel t x = some t' := by
  induction hn : (G.vertices \ t.toFinset).card using Nat.strong_induction_on
    generalizing t x with
  | _ n ihn =>
    subst hn
    suffices h : ∀ x : G.vertices, ∃ fuel t', G.visit fuel t x.1 = some t' from h ⟨x, hx⟩
    intro x
    induction x using (wellFounded_before hG).induction with
    | _ x ihx =>
      by_cases hxt : x.1 ∈ t
      · exact ⟨1, t, visit_of_mem hxt⟩
      · obtain ⟨m, t₁, hbefore, hsuffix⟩ : ∃ m t₁, (G.before x.1 = none ∧ t₁ = t ∨
            ∃ y, G.before x.1 = some y ∧ G.visit m t y = some t₁) ∧ t <:+ t₁ := by
          cases hy : G.before x.1 with
          | none => exact ⟨0, t, Or.inl ⟨rfl, rfl⟩, List.suffix_rfl⟩
          | some y =>
            obtain ⟨m, t₁, hv⟩ := ihx ⟨y, G.before_mem _ x.2 y hy⟩ (.single hy)
            exact ⟨m, t₁, Or.inr ⟨y, rfl, hv⟩, (suffix_visit hv).1⟩
        have hfewer : ∀ y ∈ G.after x.1, ∀ u : List κ, x.1 :: t₁ ⊆ u →
            ∃ fuel u', G.visit fuel u y = some u' := by
          intro y hy u hu
          refine ihn _ (Finset.card_lt_card ?_) u y (G.after_mem _ x.2 y hy) rfl
          refine Finset.ssubset_iff_of_subset (fun z hz ↦ ?_) |>.2
            ⟨x.1, by simp [hxt, x.2], by simpa using hu List.mem_cons_self⟩
          have hz' := Finset.mem_sdiff.1 hz
          refine Finset.mem_sdiff.2 ⟨hz'.1, fun hzt ↦ hz'.2 (List.mem_toFinset.2 ?_)⟩
          exact hu (List.mem_cons_of_mem _ (hsuffix.subset (List.mem_toFinset.1 hzt)))
        obtain ⟨n, t', hafter⟩ := exists_visits hfewer
        refine ⟨max m n + 1, t', (visit_eq_some_iff hxt).2 ⟨t₁, ?_, ?_⟩⟩
        · exact hbefore.imp_right fun ⟨y, hy, hv⟩ ↦ ⟨y, hy, visit_mono (le_max_left m n) hv⟩
        · exact visits_of_imp (fun _ _ _ ↦ visit_mono (le_max_right m n)) hafter

/-- In a safe graph every visit ends, and marks every vertex once. -/
theorem exists_visit {t : List κ} (ht : t.Nodup) {x : κ} (hx : x ∈ G.vertices) :
    ∃ fuel t', G.visit fuel t x = some t' ∧ t'.Nodup := by
  obtain ⟨fuel, t', h⟩ := hG.exists_visit_of_card t x hx
  exact ⟨fuel, t', h, hG.nodup_visit hx ht h⟩

end Safe

/-- Exactly in a safe graph the first visit of every vertex ends and marks every vertex once. -/
theorem safe_iff : G.Safe ↔
    ∀ x ∈ G.vertices, ∃ fuel t, G.visit fuel [] x = some t ∧ t.Nodup := by
  constructor
  · exact fun hG x hx ↦ hG.exists_visit List.nodup_nil hx
  · intro h x hx y hxy hyx
    obtain ⟨fuel, t, hv, hnodup⟩ := h x hx
    exact not_nodup_of_leads hxy hyx hv hnodup

end LateGraph

end PuppetC
