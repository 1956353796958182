import Mathlib.Algebra.GroupWithZero.Nat
import Mathlib.Data.List.Basic
import Mathlib.Data.Prod.Lex
import Mathlib.Order.WellFounded
import PuppetC.Support.StepSystem

/-!
# Pools of tasks

A main thread takes items one by one and may start a task for each; it then waits for the tasks, in
the order in which it started them, and at last collects their results in that order. The tasks
take their steps whenever they like.

## Main definitions

* `TaskPool`: what the main thread and the tasks do.
* `TaskPool.launch`: what is started, with given answers of the system.
* `TaskPool.Finishes`: a function that is the result of a task.

## Main results

* `TaskPool.acc_of_run`: the results are collected as if each task had run at once, in any order of
  the steps.
* `TaskPool.exists_run`: a pool does not get stuck.
-/

namespace PuppetC

/-- Items `I`, tasks `W` and what the main thread accumulates `A`: what it does with an item and the
answer of the system, with the task that is started; a step of a task that is not over; what the
main thread does with a task that is over. -/
structure TaskPool (I W A : Type*) where
  start : A → I → Bool → A × Option W
  work : W → Option W
  collect : A → W → A

/-- The items that are left, the tasks that were started, how many of them were waited for and
collected, what was accumulated, and the items that were taken with the answers of the system. -/
structure PoolState (I W A : Type*) where
  todo : List I
  tasks : List W
  joined : ℕ
  collected : ℕ
  acc : A
  taken : List (I × Bool)

/-- A step of the main thread, or of one of the tasks. -/
inductive PoolAction where
  | start (answer : Bool)
  | work (i : ℕ)
  | join
  | collect
deriving DecidableEq

namespace PoolState

variable {I W A : Type*}

/-- All items are left. -/
def initial (a : A) (items : List I) : PoolState I W A := ⟨items, [], 0, 0, a, []⟩

/-- The main thread has nothing left to do. -/
def IsDone (s : PoolState I W A) : Prop := s.todo = [] ∧ s.collected = s.tasks.length

end PoolState

namespace TaskPool

variable {I W A : Type*} (F : TaskPool I W A)

/-- The threads of a pool. -/
def system : StepSystem (PoolState I W A) PoolAction where
  step s
    | .start answer =>
      match s.todo with
      | [] => none
      | item :: todo => some { s with
          todo := todo
          tasks := s.tasks ++ (F.start s.acc item answer).2.toList
          acc := (F.start s.acc item answer).1
          taken := s.taken ++ [(item, answer)] }
    | .work i => (s.tasks[i]?.bind F.work).map fun w ↦ { s with tasks := s.tasks.set i w }
    | .join =>
      if s.todo.isEmpty && s.tasks[s.joined]?.any fun w ↦ (F.work w).isNone then
        some { s with joined := s.joined + 1 }
      else none
    | .collect =>
      if s.todo.isEmpty && s.joined = s.tasks.length then
        s.tasks[s.collected]?.map fun w ↦
          { s with acc := F.collect s.acc w, collected := s.collected + 1 }
      else none

/-- What the main thread makes of items with their answers, and the tasks it starts. -/
def launch (a : A) : List (I × Bool) → A × List W
  | [] => (a, [])
  | p :: ps =>
    ((launch (F.start a p.1 p.2).1 ps).1,
      (F.start a p.1 p.2).2.toList ++ (launch (F.start a p.1 p.2).1 ps).2)

/-- What the tasks come to. -/
structure Finishes (final : W → W) : Prop where
  work : ∀ w w', F.work w = some w' → final w' = final w
  ended : ∀ w, F.work w = none → final w = w

variable {F} {final : W → W} {a : A} {items : List I} {s s' : PoolState I W A}

theorem launch_append_singleton (a : A) (ps : List (I × Bool)) (p : I × Bool) :
    F.launch a (ps ++ [p]) = ((F.start (F.launch a ps).1 p.1 p.2).1,
      (F.launch a ps).2 ++ (F.start (F.launch a ps).1 p.1 p.2).2.toList) := by
  induction ps generalizing a with
  | nil => simp [launch]
  | cons q ps ih => rw [List.cons_append, launch, ih, launch, List.append_assoc]

/-- What a step can do. -/
inductive Moves (F : TaskPool I W A) (s : PoolState I W A) : PoolState I W A → Prop
  | start (item : I) (todo : List I) (answer : Bool) : s.todo = item :: todo →
      Moves F s { s with
        todo := todo
        tasks := s.tasks ++ (F.start s.acc item answer).2.toList
        acc := (F.start s.acc item answer).1
        taken := s.taken ++ [(item, answer)] }
  | work (i : ℕ) (w w' : W) : s.tasks[i]? = some w → F.work w = some w' →
      Moves F s { s with tasks := s.tasks.set i w' }
  | join (w : W) : s.todo = [] → s.tasks[s.joined]? = some w → F.work w = none →
      Moves F s { s with joined := s.joined + 1 }
  | collect (w : W) : s.todo = [] → s.joined = s.tasks.length →
      s.tasks[s.collected]? = some w →
      Moves F s { s with acc := F.collect s.acc w, collected := s.collected + 1 }

theorem exists_step_iff : (∃ b, F.system.step s b = some s') ↔ Moves F s s' := by
  constructor
  · rintro ⟨b, h⟩
    cases b with
    | start answer =>
      cases htodo : s.todo with
      | nil => simp [system, htodo] at h
      | cons item todo =>
        simp only [system, htodo] at h
        exact Option.some.inj h ▸ .start item todo answer htodo
    | work i =>
      obtain ⟨w', hw', rfl⟩ := Option.map_eq_some_iff.1 h
      obtain ⟨w, hw, hwork⟩ := Option.bind_eq_some_iff.1 hw'
      exact .work i w w' hw hwork
    | join =>
      simp only [system] at h
      split_ifs at h with hjoin
      simp only [Bool.and_eq_true, List.isEmpty_iff, Option.any_eq_true,
        Option.isNone_iff_eq_none] at hjoin
      obtain ⟨htodo, w, hw, hwork⟩ := hjoin
      exact Option.some.inj h ▸ .join w htodo hw hwork
    | collect =>
      simp only [system] at h
      split_ifs at h with hcollect
      simp only [Bool.and_eq_true, List.isEmpty_iff, decide_eq_true_eq] at hcollect
      obtain ⟨w, hw, rfl⟩ := Option.map_eq_some_iff.1 h
      exact .collect w hcollect.1 hcollect.2 hw
  · intro h
    cases h with
    | start item todo answer htodo => exact ⟨.start answer, by simp [system, htodo]⟩
    | work i w w' hw hwork => exact ⟨.work i, by simp [system, hw, hwork]⟩
    | join w htodo hw hwork => exact ⟨.join, by simp [system, htodo, hw, hwork]⟩
    | collect w htodo hjoined hw =>
      exact ⟨.collect, by rw [system]; simp only [htodo, hjoined, hw]; simp⟩

/-! ### Results -/

/-- The tasks come to what the tasks that were started come to; the first `joined` ones are over;
`acc` is what collecting the first `collected` ones gives. -/
structure Consistent (F : TaskPool I W A) (final : W → W) (a : A) (items : List I)
    (s : PoolState I W A) : Prop where
  items : s.taken.map Prod.fst ++ s.todo = items
  tasks : s.tasks.map final = (F.launch a s.taken).2.map final
  acc : s.acc = (s.tasks.take s.collected).foldl F.collect (F.launch a s.taken).1
  ended : ∀ i < s.joined, ∀ w, s.tasks[i]? = some w → F.work w = none
  joined : s.joined ≤ s.tasks.length
  joining : s.joined = 0 ∨ s.todo = []
  collected : s.collected ≤ s.tasks.length
  collecting : s.collected = 0 ∨ s.todo = [] ∧ s.joined = s.tasks.length

theorem consistent_initial (a : A) (items : List I) :
    Consistent F final a items (.initial a items) where
  items := rfl
  tasks := rfl
  acc := rfl
  ended i hi := absurd hi (Nat.not_lt_zero i)
  joined := Nat.le_refl 0
  joining := .inl rfl
  collected := Nat.le_refl 0
  collecting := .inl rfl

theorem Consistent.of_moves (hf : F.Finishes final) (hs : Consistent F final a items s)
    (h : Moves F s s') : Consistent F final a items s' := by
  cases h with
  | start item todo answer htodo =>
    have hjoined : s.joined = 0 := hs.joining.resolve_right (by simp [htodo])
    have hcollected : s.collected = 0 := hs.collecting.resolve_right (by simp [htodo])
    have hacc : s.acc = (F.launch a s.taken).1 := by
      rw [hs.acc, hcollected]
      rfl
    constructor
    · rw [List.map_append, List.map_cons, List.map_nil, List.append_assoc, ← hs.items, htodo]
      rfl
    · rw [launch_append_singleton, List.map_append, List.map_append, hs.tasks, hacc]
    · rw [launch_append_singleton, hcollected, hacc]
      rfl
    · rw [hjoined]
      exact fun i hi ↦ absurd hi (Nat.not_lt_zero i)
    · rw [hjoined]
      exact Nat.zero_le _
    · exact .inl hjoined
    · rw [hcollected]
      exact Nat.zero_le _
    · exact .inl hcollected
  | work i w w' hw hwork =>
    have hi : s.joined ≤ i := Nat.le_of_not_lt fun hi ↦ by simp [hs.ended i hi w hw] at hwork
    have hlt : i < s.tasks.length := (List.getElem?_eq_some_iff.1 hw).1
    have hcollected : s.collected ≤ i := by
      obtain h | h := hs.collecting
      · exact h ▸ Nat.zero_le i
      · exact absurd hlt (Nat.not_lt.2 (h.2 ▸ hi))
    refine ⟨hs.items, ?_, ?_, fun j hj v hv ↦ ?_, ?_, hs.joining, ?_, ?_⟩
    · rw [List.map_set, hf.work w w' hwork, hs.tasks.symm]
      refine List.ext_getElem? fun j ↦ ?_
      rw [List.getElem?_set]
      split_ifs with hij hlen
      · subst hij
        rw [List.getElem?_map, hw, Option.map_some]
      · exact absurd hlt (by simpa [hij] using hlen)
      · rfl
    · rw [List.take_set_of_le hcollected]
      exact hs.acc
    · rw [List.getElem?_set_ne (Nat.ne_of_gt (Nat.lt_of_lt_of_le hj hi))] at hv
      exact hs.ended j hj v hv
    · exact (List.length_set ..).symm ▸ hs.joined
    · exact (List.length_set ..).symm ▸ hs.collected
    · exact hs.collecting.imp_right fun h ↦ ⟨h.1, h.2.trans (List.length_set ..).symm⟩
  | join w htodo hw hwork =>
    have hlt : s.joined < s.tasks.length := (List.getElem?_eq_some_iff.1 hw).1
    refine ⟨hs.items, hs.tasks, hs.acc, fun i hi v hv ↦ ?_, hlt, .inr htodo, hs.collected, ?_⟩
    · obtain hlt | rfl := Nat.lt_or_eq_of_le (Nat.le_of_lt_succ hi)
      · exact hs.ended i hlt v hv
      · exact Option.some.inj (hv.symm.trans hw) ▸ hwork
    · exact hs.collecting.imp_right fun h ↦ absurd hlt (Nat.not_lt.2 (Nat.le_of_eq h.2.symm))
  | collect w htodo hjoined hw =>
    have hlt : s.collected < s.tasks.length := (List.getElem?_eq_some_iff.1 hw).1
    refine ⟨hs.items, hs.tasks, ?_, hs.ended, hs.joined, hs.joining, hlt, .inr ⟨htodo, hjoined⟩⟩
    rw [List.take_add_one, hw, List.foldl_append, ← hs.acc]
    rfl

theorem consistent_of_run {as : List PoolAction} (hf : F.Finishes final)
    (hrun : F.system.run (.initial a items) as = some s) : Consistent F final a items s :=
  StepSystem.Along.invariant (P := fun _ _ ↦ True)
    (fun _ _ _ hs _ hstep ↦ hs.of_moves hf (exists_step_iff.1 ⟨_, hstep⟩))
    (StepSystem.along_of_forall_mem fun _ _ _ ↦ trivial) (consistent_initial a items) hrun

/-- **Pools are sequential.** When the main thread is done it has taken all items, and what it has
accumulated is what it makes of the items, with the answers that it got, and then of the results of
the tasks in the order in which they were started. -/
theorem acc_of_run {as : List PoolAction} (hf : F.Finishes final)
    (hrun : F.system.run (.initial a items) as = some s) (hdone : s.IsDone) :
    s.taken.map Prod.fst = items ∧
      s.acc = ((F.launch a s.taken).2.map final).foldl F.collect (F.launch a s.taken).1 := by
  have hs := consistent_of_run hf hrun
  have hover : s.tasks.map final = s.tasks := by
    refine (List.map_congr_left fun w hw ↦ ?_).trans (List.map_id s.tasks)
    obtain ⟨i, hi⟩ := List.mem_iff_getElem?.1 hw
    obtain h | h := hs.collecting
    · exact absurd (hdone.2.symm.trans h ▸ (List.getElem?_eq_some_iff.1 hi).1) (Nat.not_lt_zero i)
    · exact hf.ended w (hs.ended i (h.2 ▸ (List.getElem?_eq_some_iff.1 hi).1) w hi)
  constructor
  · rw [← hs.items, hdone.1, List.append_nil]
  · rw [hs.acc, ← hs.tasks, hover, hdone.2, List.take_length]

/-! ### Progress -/

/-- A pool that is not done can take a step. -/
theorem Consistent.exists_moves (hs : Consistent F final a items s) (hdone : ¬ s.IsDone) :
    ∃ s', Moves F s s' := by
  cases htodo : s.todo with
  | cons item todo => exact ⟨_, .start item todo true htodo⟩
  | nil =>
    obtain hlt | hjoined := Nat.lt_or_eq_of_le hs.joined
    · cases hwork : F.work s.tasks[s.joined] with
      | none => exact ⟨_, .join _ htodo (List.getElem?_eq_getElem hlt) hwork⟩
      | some w' => exact ⟨_, .work s.joined _ w' (List.getElem?_eq_getElem hlt) hwork⟩
    · obtain hlt | hcollected := Nat.lt_or_eq_of_le hs.collected
      · exact ⟨_, .collect _ htodo hjoined (List.getElem?_eq_getElem hlt)⟩
      · exact absurd ⟨htodo, hcollected⟩ hdone

/-- What every step lowers, where the steps of the tasks lower `size`: the items that are left, and
then the steps that are left. -/
def rank (size : W → ℕ) (s : PoolState I W A) : ℕ × ℕ :=
  (s.todo.length,
    (s.tasks.map size).sum + (s.tasks.length - s.joined) + (s.tasks.length - s.collected))

theorem rank_lt_of_moves {size : W → ℕ} (hsize : ∀ w w', F.work w = some w' → size w' < size w)
    (h : Moves F s s') : Prod.Lex (· < ·) (· < ·) (rank size s') (rank size s) := by
  cases h with
  | start item todo answer htodo =>
    refine .left _ _ ?_
    rw [htodo, List.length_cons]
    exact Nat.lt_succ_self _
  | work i w w' hw hwork =>
    refine .right _ ?_
    obtain ⟨hlt, rfl⟩ := List.getElem?_eq_some_iff.1 hw
    have hdrop : s.tasks.drop i = s.tasks[i] :: s.tasks.drop (i + 1) :=
      List.drop_eq_getElem_cons hlt
    have hsplit : s.tasks = s.tasks.take i ++ s.tasks[i] :: s.tasks.drop (i + 1) := by
      rw [← hdrop, List.take_append_drop]
    have hset : s.tasks.set i w' = s.tasks.take i ++ w' :: s.tasks.drop (i + 1) := by
      rw [List.set_eq_take_append_cons_drop, if_pos hlt]
    have hbefore := congrArg (fun ws ↦ (ws.map size).sum) hsplit
    have hafter := congrArg (fun ws ↦ (ws.map size).sum) hset
    simp only [List.map_append, List.map_cons, List.sum_append, List.sum_cons] at hbefore hafter
    have hless := hsize _ _ hwork
    dsimp only
    rw [List.length_set]
    omega
  | join w htodo hw hwork =>
    have hlt : s.joined < s.tasks.length := (List.getElem?_eq_some_iff.1 hw).1
    exact .right _ (by dsimp only; omega)
  | collect w htodo hjoined hw =>
    have hlt : s.collected < s.tasks.length := (List.getElem?_eq_some_iff.1 hw).1
    exact .right _ (by dsimp only; omega)

/-- **Pools do not get stuck.** Where the steps of the tasks lower a size, every run can be
continued until the main thread is done, and there is no way to go on forever. -/
theorem exists_run {as : List PoolAction} {size : W → ℕ} (hf : F.Finishes final)
    (hsize : ∀ w w', F.work w = some w' → size w' < size w)
    (hrun : F.system.run (.initial a items) as = some s) :
    Acc (fun s' s ↦ ∃ b, F.system.step s b = some s') s ∧
      ∃ bs s', F.system.run s bs = some s' ∧ s'.IsDone := by
  have hwf : WellFounded (Prod.Lex (α := ℕ) (β := ℕ) (· < ·) (· < ·)) :=
    WellFounded.prod_lex wellFounded_lt wellFounded_lt
  have hacc : Acc (fun s' s ↦ ∃ b, F.system.step s b = some s') s := by
    refine Subrelation.accessible (fun hstep ↦ ?_)
      (InvImage.accessible (rank size) (hwf.apply _))
    exact rank_lt_of_moves hsize (exists_step_iff.1 hstep)
  refine ⟨hacc, ?_⟩
  have hs := consistent_of_run hf hrun
  clear hrun
  induction hacc with
  | intro s _ ih =>
    by_cases hdone : s.IsDone
    · exact ⟨[], s, rfl, hdone⟩
    · obtain ⟨t, ht⟩ := hs.exists_moves hdone
      obtain ⟨b, hb⟩ := exists_step_iff.2 ht
      obtain ⟨bs, s', hbs, hdone'⟩ := ih t ⟨b, hb⟩ (hs.of_moves hf ht)
      exact ⟨b :: bs, s', by rw [StepSystem.run_cons, hb, Option.bind_some, hbs], hdone'⟩

end TaskPool

end PuppetC
