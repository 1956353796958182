import Mathlib.Data.Fintype.Card
import Mathlib.Data.Set.Finite.List
import Mathlib.Data.List.Perm.Subperm
import Mathlib.Logic.Relation
import Mathlib.Order.WellFounded

/-!
# Topological sorting

Kahn's algorithm on a list of nodes, each with a list of the nodes it depends on. A node waits
for as many nodes as it depends on; nodes that wait for none are queued, and every node that
leaves the queue is one less to wait for.

## Main definitions

* `Acyclic`: relations without cycles.
* `Precedes`, `Respects`: orders in which nodes come after what they depend on.
* `Sorting`, `Sorting.step`, `topologicalOrder`: the algorithm.
* `Sorting.Sound`: its invariant.

## Main results

* `Respects.precedes_of_transGen`: such an order respects chains of dependencies, too.
* `topologicalOrder_eq_some`: an order that is found is one of all nodes, and respects the
  dependencies.
* `topologicalOrder_isSome_iff`: an order is found exactly if there is no cycle.
-/

namespace PuppetC

/-! ### Orders -/

/-- A relation without cycles. -/
def Acyclic {α : Type*} (R : α → α → Prop) : Prop := ∀ a, ¬ Relation.TransGen R a a

variable {α : Type*}

/-- One element of a list is before another one. -/
def Precedes (l : List α) (a b : α) : Prop := ∃ l₁ l₂, l = l₁ ++ b :: l₂ ∧ a ∈ l₁

theorem Precedes.filter {l : List α} {a b : α} (h : Precedes l a b) {p : α → Bool}
    (ha : p a = true) (hb : p b = true) : Precedes (l.filter p) a b := by
  obtain ⟨l₁, l₂, rfl, hmem⟩ := h
  refine ⟨l₁.filter p, l₂.filter p, ?_, List.mem_filter.2 ⟨hmem, ha⟩⟩
  rw [List.filter_append, List.filter_cons_of_pos hb]

theorem Precedes.ne {l : List α} (hl : l.Nodup) {a b : α} (h : Precedes l a b) : a ≠ b := by
  obtain ⟨l₁, l₂, rfl, hmem⟩ := h
  rintro rfl
  exact List.disjoint_of_nodup_append hl hmem List.mem_cons_self

/-- Every element comes after what it depends on. -/
def Respects (R : α → α → Prop) (l : List α) : Prop :=
  ∀ l₁ a l₂, l = l₁ ++ a :: l₂ → ∀ d, R a d → d ∈ l₁

variable {R : α → α → Prop} {l : List α}

theorem respects_nil : Respects R [] := by
  intro l₁ a l₂ h
  simp at h

/-- An element may follow if what it depends on is there. -/
theorem Respects.concat (h : Respects R l) {b : α} (hb : ∀ d, R b d → d ∈ l) :
    Respects R (l ++ [b]) := by
  intro l₁ a l₂ heq d hd
  rcases List.eq_nil_or_concat l₂ with rfl | ⟨l₂, c, rfl⟩
  · obtain ⟨rfl, hab⟩ := List.append_inj' heq rfl
    obtain rfl := List.head_eq_of_cons_eq hab
    exact hb d hd
  · rw [List.concat_eq_append, ← List.cons_append, ← List.append_assoc] at heq
    obtain ⟨heq, -⟩ := List.append_inj' heq rfl
    exact h l₁ a l₂ heq d hd

theorem Respects.mem (h : Respects R l) {a d : α} (ha : a ∈ l) (hd : R a d) : d ∈ l := by
  obtain ⟨l₁, l₂, rfl⟩ := List.append_of_mem ha
  exact List.mem_append_left _ (h l₁ a l₂ rfl d hd)

theorem Respects.mem_of_transGen (h : Respects R l) {a d : α}
    (hd : Relation.TransGen R a d) : ∀ l₁ l₂, l = l₁ ++ a :: l₂ → d ∈ l₁ := by
  induction hd using Relation.TransGen.head_induction_on with
  | single hd => exact fun l₁ l₂ heq ↦ h l₁ _ l₂ heq _ hd
  | head hstep _ ih =>
    intro l₁ l₂ heq
    obtain ⟨k₁, k₂, rfl⟩ := List.append_of_mem (h l₁ _ l₂ heq _ hstep)
    have hmem := ih k₁ (k₂ ++ _ :: l₂) (by rw [heq, List.append_assoc, List.cons_append])
    exact List.mem_append_left _ hmem

/-- Chains of dependencies are respected, too. -/
theorem Respects.precedes_of_transGen (h : Respects R l) {a d : α} (ha : a ∈ l)
    (hd : Relation.TransGen R a d) : Precedes l d a := by
  obtain ⟨l₁, l₂, heq⟩ := List.append_of_mem ha
  exact ⟨l₁, l₂, heq, h.mem_of_transGen hd l₁ l₂ heq⟩

/-! ### The algorithm -/

variable [DecidableEq α] (deps : α → List α) (nodes : List α)

/-- The state of the algorithm: for how many nodes each one waits, the queue, and the order so
far. -/
structure Sorting (α : Type*) where
  inDegree : α → ℕ
  queue : List α
  result : List α

namespace Sorting

/-- Nodes that depend on nothing are queued at the start. -/
def start : Sorting α :=
  ⟨fun a ↦ (deps a).length, nodes.filter fun a ↦ (deps a).length = 0, []⟩

/-- A node does not wait any more for one that is done. -/
def settle (done : α) (s : (α → ℕ) × List α) (a : α) : (α → ℕ) × List α :=
  if done ∈ deps a then
    (Function.update s.1 a (s.1 a - 1), if s.1 a - 1 = 0 then s.2 ++ [a] else s.2)
  else s

/-- The first node of the queue is done. -/
def step (s : Sorting α) : Sorting α :=
  match s.queue with
  | [] => s
  | done :: queue =>
    let settled := nodes.foldl (settle deps done) (s.inDegree, queue)
    ⟨settled.1, settled.2, s.result ++ [done]⟩

end Sorting

/-- An order of the nodes, unless there is a cycle. Every node is queued once, so the number of
nodes bounds the number of steps. -/
def topologicalOrder : Option (List α) :=
  let order := ((Sorting.step deps nodes)^[nodes.length] (Sorting.start deps nodes)).result
  if order.length = nodes.length then some order else none

/-! ### One step -/

namespace Sorting

variable {deps nodes}

/-- Settling all nodes makes those that depend on the one that is done wait for one less, and
queues those that wait for none. -/
theorem foldl_settle (done : α) (hnodes : nodes.Nodup) (s : (α → ℕ) × List α) :
    nodes.foldl (settle deps done) s =
      (fun a ↦ if a ∈ nodes ∧ done ∈ deps a then s.1 a - 1 else s.1 a,
        s.2 ++ nodes.filter fun a ↦ done ∈ deps a ∧ s.1 a - 1 = 0) := by
  induction nodes generalizing s with
  | nil => simp
  | cons a nodes ih =>
    obtain ⟨ha, hnodes⟩ := List.nodup_cons.1 hnodes
    rw [List.foldl_cons, ih hnodes]
    by_cases hdep : done ∈ deps a
    · have hfilter : (nodes.filter fun b ↦ done ∈ deps b ∧
          Function.update s.1 a (s.1 a - 1) b - 1 = 0) =
          nodes.filter fun b ↦ done ∈ deps b ∧ s.1 b - 1 = 0 := by
        refine List.filter_congr fun b hb ↦ ?_
        rw [Function.update_of_ne (fun hba : b = a ↦ ha (hba ▸ hb))]
      rw [settle, if_pos hdep, hfilter]
      refine Prod.ext (funext fun b ↦ ?_) ?_
      · by_cases hba : b = a
        · subst hba
          simp [ha, hdep]
        · simp [hba]
      · by_cases hzero : s.1 a - 1 = 0
        · simp [hdep, hzero]
        · simp [hdep, hzero]
    · rw [settle, if_neg hdep, List.filter_cons_of_neg (by simp [hdep])]
      refine Prod.ext (funext fun b ↦ ?_) rfl
      by_cases hba : b = a
      · subst hba
        simp [hdep]
      · simp [hba]

/-- What holds after every step: a node waits for those of its dependencies that are not done, and
those that wait for none are done or queued. -/
structure Sound (deps : α → List α) (nodes : List α) (s : Sorting α) : Prop where
  inDegree : ∀ a ∈ nodes, s.inDegree a = (deps a).countP (· ∉ s.result)
  nodup : (s.result ++ s.queue).Nodup
  mem_iff : ∀ a, a ∈ s.result ++ s.queue ↔ a ∈ nodes ∧ ∀ d ∈ deps a, d ∈ s.result
  respects : Respects (fun a d ↦ d ∈ deps a) s.result

theorem sound_start (hnodes : nodes.Nodup) : (start deps nodes).Sound deps nodes where
  inDegree a _ := by simp [start]
  nodup := hnodes.filter _
  mem_iff a := by
    simp [start, List.eq_nil_iff_forall_not_mem]
  respects := respects_nil

/-- One more node is done: its dependents wait for one less. -/
theorem countP_concat {ds result : List α} (hds : ds.Nodup) {done : α} (hdone : done ∉ result) :
    ds.countP (· ∉ result ++ [done]) =
      if done ∈ ds then ds.countP (· ∉ result) - 1 else ds.countP (· ∉ result) := by
  induction ds with
  | nil => simp
  | cons d ds ih =>
    obtain ⟨hd, hds⟩ := List.nodup_cons.1 hds
    have ih := ih hds
    rw [List.countP_cons, List.countP_cons, ih]
    by_cases heq : done = d
    · subst heq
      simp [hd, hdone]
    · have hcount : (d ∉ result ++ [done]) ↔ d ∉ result := by simp [Ne.symm heq]
      have hmem : done ∈ d :: ds ↔ done ∈ ds := by simp [heq]
      simp only [hcount, hmem]
      split_ifs with hin
      · have hpos : 0 < ds.countP (· ∉ result) :=
          List.countP_pos_iff.2 ⟨done, hin, by simpa using hdone⟩
        omega
      · omega
      · rfl
      · rfl

theorem Sound.step {s : Sorting α} (hnodes : nodes.Nodup) (hdeps : ∀ a, (deps a).Nodup)
    (h : s.Sound deps nodes) : (s.step deps nodes).Sound deps nodes := by
  cases hqueue : s.queue with
  | nil => rwa [Sorting.step, hqueue]
  | cons done queue =>
    obtain ⟨hinDegree, hnodup, hmem, hrespects⟩ := h
    rw [hqueue] at hnodup hmem
    have hdone : done ∉ s.result := fun hin ↦
      List.disjoint_of_nodup_append hnodup hin List.mem_cons_self
    have hcount (a : α) := countP_concat (hdeps a) hdone
    have hdoneDeps := ((hmem done).1 (by simp)).2
    have hsplit : (s.result ++ [done]) ++ queue = s.result ++ done :: queue := by simp
    -- those that are queued now: those that waited only for the one that is done
    have hnew (a : α) : a ∈ nodes.filter (fun a ↦ done ∈ deps a ∧ s.inDegree a - 1 = 0) ↔
        a ∈ nodes ∧ done ∈ deps a ∧ ∀ d ∈ deps a, d ∈ s.result ++ [done] := by
      rw [List.mem_filter, decide_eq_true_iff]
      refine and_congr_right fun ha ↦ and_congr_right fun hin ↦ ?_
      rw [hinDegree a ha]
      have hzero := hcount a
      rw [if_pos hin] at hzero
      rw [← hzero, List.countP_eq_zero]
      simp [or_iff_not_imp_left]
    simp only [Sorting.step, hqueue, foldl_settle done hnodes]
    constructor
    · intro a ha
      simp only [ha, true_and]
      rw [hcount a, hinDegree a ha]
    · rw [← List.append_assoc, hsplit]
      refine List.Nodup.append hnodup (hnodes.filter _) fun a hold hnew' ↦ ?_
      have hin := ((hnew a).1 hnew').2.1
      exact hdone (((hmem a).1 hold).2 done hin)
    · intro a
      rw [← List.append_assoc, hsplit, List.mem_append, hnew, hmem]
      constructor
      · rintro (⟨ha, hall⟩ | ⟨ha, -, hall⟩)
        · exact ⟨ha, fun d hd ↦ List.mem_append_left _ (hall d hd)⟩
        · exact ⟨ha, hall⟩
      · rintro ⟨ha, hall⟩
        by_cases hin : done ∈ deps a
        · exact .inr ⟨ha, hin, hall⟩
        · refine .inl ⟨ha, fun d hd ↦ ?_⟩
          rcases List.mem_append.1 (hall d hd) with hd' | hd'
          · exact hd'
          · exact absurd (List.mem_singleton.1 hd' ▸ hd) hin
    · exact hrespects.concat hdoneDeps

theorem sound_iterate (hnodes : nodes.Nodup) (hdeps : ∀ a, (deps a).Nodup) (k : ℕ) :
    ((step deps nodes)^[k] (start deps nodes)).Sound deps nodes := by
  induction k with
  | zero => exact sound_start hnodes
  | succ k ih =>
    rw [Function.iterate_succ_apply']
    exact ih.step hnodes hdeps

/-- The nodes that are done after some steps, unless the queue is empty. -/
theorem length_result_iterate (k : ℕ) :
    ((step deps nodes)^[k] (start deps nodes)).queue = [] ∨
      ((step deps nodes)^[k] (start deps nodes)).result.length = k := by
  induction k with
  | zero => exact .inr rfl
  | succ k ih =>
    rw [Function.iterate_succ_apply']
    cases hqueue : ((step deps nodes)^[k] (start deps nodes)).queue with
    | nil =>
      rw [step, hqueue]
      exact .inl hqueue
    | cons done queue =>
      have hlength := ih.resolve_left (by simp [hqueue])
      simp [step, hqueue, hlength]

theorem Sound.length_le {s : Sorting α} (h : s.Sound deps nodes) :
    (s.result ++ s.queue).length ≤ nodes.length :=
  (h.nodup.subperm fun a ha ↦ ((h.mem_iff a).1 ha).1).length_le

/-- The queue is empty at the end. -/
theorem queue_iterate_length (hnodes : nodes.Nodup) (hdeps : ∀ a, (deps a).Nodup) :
    ((step deps nodes)^[nodes.length] (start deps nodes)).queue = [] := by
  refine (length_result_iterate nodes.length).elim id fun hlength ↦ ?_
  have hle := (sound_iterate hnodes hdeps nodes.length).length_le
  rw [List.length_append, hlength] at hle
  exact List.length_eq_zero_iff.1 (by omega)

end Sorting

/-! ### Orders that are found -/

variable {deps nodes}

open Sorting

/-- An order that is found has all nodes, and respects the dependencies. -/
theorem topologicalOrder_eq_some (hnodes : nodes.Nodup) (hdeps : ∀ a, (deps a).Nodup)
    {order : List α} (h : topologicalOrder deps nodes = some order) :
    order.Perm nodes ∧ Respects (fun a d ↦ d ∈ deps a) order := by
  have hsound := sound_iterate hnodes hdeps nodes.length
  rw [topologicalOrder] at h
  split_ifs at h with hlength
  obtain rfl := Option.some.inj h
  refine ⟨?_, hsound.respects⟩
  have hnodup := (List.nodup_append.1 hsound.nodup).1
  refine (hnodup.subperm fun a ha ↦ ?_).perm_of_length_le hlength.ge
  exact ((hsound.mem_iff a).1 (List.mem_append_left _ ha)).1

omit [DecidableEq α] in
/-- Dependencies without cycles between finitely many nodes are well-founded. -/
theorem wellFounded_deps (hacyclic : Acyclic fun a d ↦ d ∈ deps a) :
    WellFounded fun d a : { a // a ∈ nodes } ↦ d.1 ∈ deps a.1 := by
  have hlift {d a : { a // a ∈ nodes }}
      (h : Relation.TransGen (fun d a : { a // a ∈ nodes } ↦ d.1 ∈ deps a.1) d a) :
      Relation.TransGen (fun a d ↦ d ∈ deps a) a.1 d.1 := by
    induction h with
    | single h => exact .single h
    | tail _ h ih => exact .head h ih
  have : Std.Irrefl
      (Relation.TransGen fun d a : { a // a ∈ nodes } ↦ d.1 ∈ deps a.1) :=
    ⟨fun a h ↦ hacyclic a.1 (hlift h)⟩
  have : Finite { a // a ∈ nodes } := (List.finite_toSet nodes).to_subtype
  have hwf := Finite.wellFounded_of_trans_of_irrefl
    (Relation.TransGen fun d a : { a // a ∈ nodes } ↦ d.1 ∈ deps a.1)
  exact Subrelation.wf (fun h ↦ Relation.TransGen.single h) hwf

/-- An order is found exactly if there is no cycle. -/
theorem topologicalOrder_isSome_iff (hnodes : nodes.Nodup) (hdeps : ∀ a, (deps a).Nodup)
    (hclosed : ∀ a d, d ∈ deps a → a ∈ nodes ∧ d ∈ nodes) :
    (topologicalOrder deps nodes).isSome = true ↔ Acyclic fun a d ↦ d ∈ deps a := by
  constructor
  · intro h a hcycle
    obtain ⟨order, horder⟩ := Option.isSome_iff_exists.1 h
    obtain ⟨hperm, hrespects⟩ := topologicalOrder_eq_some hnodes hdeps horder
    obtain ⟨d, hd, -⟩ := Relation.TransGen.head'_iff.1 hcycle
    have ha : a ∈ order := hperm.mem_iff.2 (hclosed a d hd).1
    exact (hrespects.precedes_of_transGen ha hcycle).ne (hperm.nodup_iff.2 hnodes) rfl
  · intro hacyclic
    have hsound := sound_iterate hnodes hdeps nodes.length
    have hqueue := queue_iterate_length hnodes hdeps
    -- by induction on what a node depends on, every node is done
    have hall (a : { a // a ∈ nodes }) :
        a.1 ∈ ((step deps nodes)^[nodes.length] (start deps nodes)).result := by
      induction a using (wellFounded_deps hacyclic).induction with
      | _ a ih =>
        have hmem := (hsound.mem_iff a.1).2
          ⟨a.2, fun d hd ↦ ih ⟨d, (hclosed a.1 d hd).2⟩ hd⟩
        rwa [hqueue, List.append_nil] at hmem
    have hnodup := (List.nodup_append.1 hsound.nodup).1
    have hle := hsound.length_le
    rw [hqueue, List.append_nil] at hle
    have hge := (hnodes.subperm fun a ha ↦ hall ⟨a, ha⟩).length_le
    rw [topologicalOrder, if_pos (le_antisymm hle hge)]
    rfl

end PuppetC
