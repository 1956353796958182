import Mathlib.Data.List.Basic
import Mathlib.Data.List.Count
import Mathlib.Data.List.Nodup
import Mathlib.Tactic.SplitIfs

/-!
# Replacing spans of a list

A search finds spans of a list one after the other, each from the position where the last one ended.
`splice` puts a replacement in the place of each span and keeps what lies between them. After a span
that ends where the search for it began, the next search must start later: a substitution that
resumes its copy there too loses the element in between.

## Main definitions

* `Span`: a span with the position where its search began and its replacement.
* `splice`: the list with spans replaced, for any way of resuming the copy.
* `Span.skip`: the next search position; `InOrder`: spans found by such searches.
* `lost`: the number of spans after which an element is lost.

## Main results

* `length_splice_skip`: what a splice loses that resumes at the next search position.
* `splice_skip_eq_iff`: it loses nothing exactly if no span ends where its search began, save at
  the end of the list.
* `splice_skip_eq_and_nodup_iff`: moreover no span is found twice.
-/

namespace PuppetC

variable {α : Type}

/-- A span that a search from `origin` has found, and its replacement. -/
structure Span (α : Type) where
  origin : ℕ
  start : ℕ
  stop : ℕ
  text : List α

/-- The list with the spans replaced, from `pos` on; after a span the copy resumes at `resume`. -/
def splice (resume : Span α → ℕ) (src : List α) : ℕ → List (Span α) → List α
  | pos, [] => src.drop pos
  | pos, h :: hs => (src.take h.start).drop pos ++ h.text ++ splice resume src (resume h) hs

namespace Span

/-- A span ends where its search began. -/
def Stays (h : Span α) : Prop := h.stop = h.origin

instance (h : Span α) : Decidable h.Stays := inferInstanceAs (Decidable (_ = _))

/-- Where the next search begins: one further if the span ends where its search began. -/
def skip (h : Span α) : ℕ := if h.Stays then h.stop + 1 else h.stop

/-- The place of a span. -/
def place (h : Span α) : ℕ × ℕ := (h.start, h.stop)

end Span

/-- Spans that searches find in a list, the first one from `pos`. -/
def InOrder (src : List α) : ℕ → List (Span α) → Prop
  | _, [] => True
  | pos, h :: hs => h.origin = pos ∧ pos ≤ h.start ∧ h.start ≤ h.stop ∧ h.stop ≤ src.length ∧
      InOrder src h.skip hs

/-- The number of spans after which an element is lost: they end where their search began, before
the end of the list. -/
def lost (src : List α) (hs : List (Span α)) : ℕ :=
  hs.countP fun h ↦ h.Stays ∧ h.origin < src.length

variable {src : List α} {pos pos' : ℕ} {hs : List (Span α)}

theorem splice_cons (resume : Span α → ℕ) (src : List α) (pos : ℕ) (h : Span α)
    (hs : List (Span α)) : splice resume src pos (h :: hs) =
      (src.take h.start).drop pos ++ h.text ++ splice resume src (resume h) hs := rfl

theorem lost_cons (src : List α) (h : Span α) (hs : List (Span α)) :
    lost src (h :: hs) = lost src hs + if h.Stays ∧ h.origin < src.length then 1 else 0 := by
  rw [lost, List.countP_cons]
  simp only [decide_eq_true_eq]
  rfl

/-- Nothing is found beyond the end of a list. -/
theorem InOrder.eq_nil (h : InOrder src pos hs) (hpos : src.length < pos) : hs = [] := by
  cases hs with
  | nil => rfl
  | cons g gs =>
    obtain ⟨-, hstart, hle, hstop, -⟩ := h
    omega

/-- A splice that resumes its copy at the next search position is shorter by the number of lost
elements than one that resumes it where the span ends. -/
theorem length_splice_skip (h : InOrder src pos' hs) (hle : pos ≤ pos') (hlt : pos' ≤ pos + 1)
    (hpos : pos ≤ src.length) :
    (splice Span.skip src pos' hs).length + lost src hs + (min pos' src.length - pos) =
      (splice Span.stop src pos hs).length := by
  induction hs generalizing pos pos' with
  | nil =>
    simp only [splice, lost, List.countP_nil, List.length_drop]
    omega
  | cons g gs ih =>
    obtain ⟨horigin, hstart, hstop, hend, hrest⟩ := h
    have hskip : g.stop ≤ g.skip ∧ g.skip ≤ g.stop + 1 := by
      rw [Span.skip]
      split_ifs <;> omega
    have hgs := ih hrest hskip.1 hskip.2 hend
    have hone : min g.skip src.length - g.stop =
        if g.Stays ∧ g.origin < src.length then 1 else 0 := by
      rw [Span.skip]
      by_cases hstays : g.Stays
      · have heq : g.stop = g.origin := hstays
        simp only [hstays, true_and, if_true]
        split_ifs <;> omega
      · simp only [hstays, false_and, if_false]
        omega
    simp only [splice_cons, lost_cons, List.length_append, List.length_drop, List.length_take]
    omega

theorem lost_eq_zero_iff : lost src hs = 0 ↔ ∀ h ∈ hs, h.Stays → src.length ≤ h.origin := by
  simp [lost, List.countP_eq_zero]

/-- A splice that resumes at the next search position loses nothing exactly if no span ends where
its search began, save at the end of the list. -/
theorem splice_skip_eq_iff (h : InOrder src pos hs) (hpos : pos ≤ src.length) :
    splice Span.skip src pos hs = splice Span.stop src pos hs ↔
      ∀ h ∈ hs, h.Stays → src.length ≤ h.origin := by
  rw [← lost_eq_zero_iff]
  constructor
  · intro heq
    have hlength := length_splice_skip h (Nat.le_refl pos) (Nat.le_succ pos) hpos
    rw [heq] at hlength
    omega
  · intro hnone
    rw [lost_eq_zero_iff] at hnone
    clear hpos
    induction hs generalizing pos with
    | nil => rfl
    | cons g gs ih =>
      obtain ⟨horigin, hstart, hstop, hend, hrest⟩ := h
      rw [splice_cons, splice_cons, ih hrest fun h hmem ↦ hnone h (List.mem_cons_of_mem _ hmem)]
      congr 1
      by_cases hstays : g.Stays
      · -- the span ends at the end of the list, and nothing follows it
        have horig := hnone g List.mem_cons_self hstays
        have hskip : g.skip = g.stop + 1 := if_pos hstays
        have hnil : gs = [] := hrest.eq_nil (by omega)
        rw [hnil, splice, splice, List.drop_eq_nil_of_le (by omega),
          List.drop_eq_nil_of_le (by omega)]
      · rw [Span.skip, if_neg hstays]

/-! ### Spans found twice -/

theorem InOrder.bounds (h : InOrder src pos hs) : ∀ g ∈ hs, pos ≤ g.origin ∧ g.origin ≤ g.start ∧
    g.start ≤ g.stop ∧ g.stop ≤ src.length := by
  induction hs generalizing pos with
  | nil => exact fun _ h ↦ absurd h List.not_mem_nil
  | cons g gs ih =>
    obtain ⟨rfl, hstart, hstop, hend, hrest⟩ := h
    rw [List.forall_mem_cons]
    refine ⟨⟨Nat.le_refl _, hstart, hstop, hend⟩, fun h hmem ↦ ?_⟩
    obtain ⟨hskip, hbounds⟩ := ih hrest h hmem
    refine ⟨Nat.le_trans ?_ hskip, hbounds⟩
    rw [Span.skip]
    split_ifs <;> omega

/-- A search begins after the search before it, and where that one's span ends or later. -/
theorem InOrder.pairwise (h : InOrder src pos hs) :
    hs.Pairwise fun g h ↦ g.origin < h.origin ∧ g.stop ≤ h.origin := by
  induction hs generalizing pos with
  | nil => exact .nil
  | cons g gs ih =>
    obtain ⟨rfl, hstart, hstop, hend, hrest⟩ := h
    refine .cons (fun h hmem ↦ ?_) (ih hrest)
    have hskip := (hrest.bounds h hmem).1
    rw [Span.skip] at hskip
    split_ifs at hskip with hstays
    · rw [Span.Stays] at hstays
      omega
    · rw [Span.Stays] at hstays
      omega

/-- Each span is replaced, once, and nothing else is lost exactly if a span ends where its search
began only at the end of the list, and there only the first time it is found. -/
theorem splice_skip_eq_and_nodup_iff (h : InOrder src pos hs) (hpos : pos ≤ src.length) :
    (splice Span.skip src pos hs = splice Span.stop src pos hs ∧ (hs.map Span.place).Nodup) ↔
      ∀ h ∈ hs, h.Stays → src.length ≤ h.origin ∧
        ∀ g ∈ hs, g.origin < h.origin → g.start < src.length := by
  rw [splice_skip_eq_iff h hpos]
  constructor
  · rintro ⟨hend, hnodup⟩ g hg hstays
    refine ⟨hend g hg hstays, fun g' hg' hbefore ↦ ?_⟩
    by_contra hstart
    have horigin := hend g hg hstays
    have hbounds := h.bounds g hg
    have hbounds' := h.bounds g' hg'
    have hplace : g'.place = g.place := by
      rw [Span.place, Span.place, Prod.mk.injEq]
      omega
    have heq : g' = g := List.inj_on_of_nodup_map hnodup hg' hg hplace
    exact absurd (heq ▸ hbefore) (Nat.lt_irrefl _)
  · intro hall
    refine ⟨fun g hg hstays ↦ (hall g hg hstays).1, ?_⟩
    rw [List.Nodup, List.pairwise_map]
    refine h.pairwise.imp_of_mem fun {g g'} hg hg' ⟨hbefore, hstop⟩ hplace ↦ ?_
    obtain ⟨hstart, hend⟩ := Prod.mk.inj hplace
    have hbounds := h.bounds g hg
    have hbounds' := h.bounds g' hg'
    -- the second of two spans in one place ends where its search began
    obtain ⟨hlast, hfirst⟩ := hall g' hg' (show g'.stop = g'.origin by omega)
    have := hfirst g hg hbefore
    omega

end PuppetC
