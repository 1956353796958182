import Mathlib.Data.List.Nodup
import Mathlib.Data.List.Perm.Basic
import Mathlib.Logic.Function.Basic
import Mathlib.Order.Defs.PartialOrder
import PuppetC.Support.StepSystem

/-!
# Tables of results that threads share

A thread that needs the value of a key looks in a table under a lock. If the key is not there, it
makes a value without the lock, and then, under the lock again, looks a second time: a value that
came in the meantime is taken and its own is thrown away, else its own is added. The thread that
added a value does something with it once, and then every thread has the value of the table.

`memoSystem` is the system of any number of threads, in any interleaving. `answers`, `made`,
`discarded` and `followed` are histories.

## Main definitions

* `Memo`, `Memo.find`, `Memo.claim`: the table, looking and adding.
* `MemoState`, `MemoAction`, `memoSystem`: the threads.
* `MemoState.Sound`, `MemoState.Owned`: the invariants.

## Main results

* `Sound.step`, `Owned.step`: every step keeps them, the second one if values are made anew.
* `Sound.perm_followed`: each value of the table is followed up once.
-/

namespace PuppetC

/-! ### Tables with one value for a key -/

/-- A table with one value for a key, in the order in which they were added. -/
structure Memo (K V : Type*) where
  entries : List (K × V)
  nodup_keys : (entries.map Prod.fst).Nodup

namespace Memo

variable {K V : Type*}

instance : Preorder (Memo K V) where
  le m m' := m.entries <+: m'.entries
  le_refl m := List.prefix_refl m.entries
  le_trans _ _ _ := List.IsPrefix.trans

/-- The table with nothing in it. -/
def empty : Memo K V := ⟨[], List.nodup_nil⟩

variable [DecidableEq K] {m m' : Memo K V} {k : K} {v : V}

/-- The value of a key. -/
def find (m : Memo K V) (k : K) : Option V := (m.entries.find? fun e ↦ e.1 = k).map Prod.snd

theorem mem_entries_of_find (h : m.find k = some v) : (k, v) ∈ m.entries := by
  obtain ⟨e, hfind, rfl⟩ := Option.map_eq_some_iff.1 h
  have hkey : e.1 = k := by simpa using List.find?_some hfind
  exact hkey ▸ List.mem_of_find?_eq_some hfind

theorem find_eq_none_iff : m.find k = none ↔ k ∉ m.entries.map Prod.fst := by
  simp only [find, Option.map_eq_none_iff, List.find?_eq_none, decide_eq_true_eq, List.mem_map,
    not_exists, not_and]

theorem find_of_mem_entries (h : (k, v) ∈ m.entries) : m.find k = some v := by
  cases hfind : m.find k with
  | none => exact absurd (List.mem_map_of_mem h) (find_eq_none_iff.1 hfind)
  | some v' =>
    have hsame := List.inj_on_of_nodup_map m.nodup_keys (mem_entries_of_find hfind) h rfl
    rw [(Prod.mk.inj hsame).2]

/-- What is in a table stays in it. -/
theorem find_of_le (h : m ≤ m') (hk : m.find k = some v) : m'.find k = some v :=
  find_of_mem_entries (List.IsPrefix.subset h (mem_entries_of_find hk))

@[simp] theorem find_empty (k : K) : (empty : Memo K V).find k = none := rfl

/-- Add a value, if the key has none. -/
def claim (m : Memo K V) (k : K) (v : V) : Memo K V :=
  if h : m.find k = none then
    ⟨m.entries ++ [(k, v)], by
      rw [List.map_append, List.map_cons, List.map_nil]
      exact m.nodup_keys.append (List.nodup_singleton k)
        (List.disjoint_singleton.2 (find_eq_none_iff.1 h))⟩
  else m

theorem entries_claim (h : m.find k = none) : (m.claim k v).entries = m.entries ++ [(k, v)] := by
  rw [claim, dif_pos h]

theorem le_claim (m : Memo K V) (k : K) (v : V) : m ≤ m.claim k v := by
  by_cases h : m.find k = none
  · exact ⟨[(k, v)], (entries_claim h).symm⟩
  · rw [claim, dif_neg h]

theorem find_claim_self (h : m.find k = none) : (m.claim k v).find k = some v := by
  refine find_of_mem_entries ?_
  rw [entries_claim h]
  exact List.mem_append_right _ List.mem_cons_self

theorem find_claim {k' : K} {v' : V} (h : m.find k = none)
    (hfind : (m.claim k v).find k' = some v') : m.find k' = some v' ∨ k' = k ∧ v' = v := by
  have hmem := mem_entries_of_find hfind
  rw [entries_claim h] at hmem
  refine (List.mem_append.1 hmem).imp find_of_mem_entries fun hlast ↦ ?_
  exact Prod.mk.inj (List.mem_singleton.1 hlast)

end Memo

/-! ### The threads -/

/-- Where a thread stands: outside, making a value, with a value that it may add, or with a value
that it added. -/
inductive MemoStage (K V : Type*) where
  | outside
  | working (k : K)
  | adding (k : K) (v : V)
  | following (k : K) (v : V)

/-- What a thread does. -/
inductive MemoAction (K V : Type*) where
  | look (k : K)
  | giveUp
  | work (v : V)
  | add
  | follow

/-- The table, the threads and the histories. -/
@[ext]
structure MemoState (T K V : Type*) where
  table : Memo K V
  stage : T → MemoStage K V
  made : List V
  discarded : List V
  followed : List (K × V)
  answers : List (K × V)

namespace MemoState

variable {T K V : Type*}

/-- The state in which nothing happened. -/
def initial : MemoState T K V := ⟨.empty, fun _ ↦ .outside, [], [], [], []⟩

/-- A thread goes on. -/
def goto [DecidableEq T] (s : MemoState T K V) (t : T) (stage : MemoStage K V) :
    MemoState T K V := { s with stage := Function.update s.stage t stage }

section Goto

variable [DecidableEq T] {s : MemoState T K V} {t : T} {stage stage' : MemoStage K V} {t' : T}

@[simp] theorem stage_goto_self : (s.goto t stage).stage t = stage := Function.update_self ..

@[simp] theorem stage_goto_of_ne (h : t' ≠ t) : (s.goto t stage).stage t' = s.stage t' :=
  Function.update_of_ne h ..

/-- A thread that is at a stage after another one moved was there before, or is that one. -/
theorem stage_of_goto (h : (s.goto t stage).stage t' = stage') :
    t' = t ∧ stage = stage' ∨ t' ≠ t ∧ s.stage t' = stage' := by
  by_cases ht : t' = t
  · subst ht
    exact .inl ⟨rfl, stage_goto_self.symm.trans h⟩
  · exact .inr ⟨ht, (stage_goto_of_ne ht).symm.trans h⟩

end Goto

end MemoState

/-! ### What every run keeps -/

variable {T K V : Type*} [DecidableEq K]

namespace MemoState

section Sound

variable {s : MemoState T K V} {k : K} {v : V}

/-- Answers are in the table, and each entry of the table either was followed up, once, or waits for
the one thread that added it. -/
structure Sound (s : MemoState T K V) : Prop where
  answers : ∀ e ∈ s.answers, s.table.find e.1 = some e.2
  following : ∀ t k v, s.stage t = .following k v →
    s.table.find k = some v ∧ (k, v) ∉ s.followed ∧ ∀ t' v', s.stage t' = .following k v' → t' = t
  followed : ∀ e ∈ s.followed, s.table.find e.1 = some e.2
  nodup_followed : s.followed.Nodup
  complete : ∀ k v, s.table.find k = some v → (k, v) ∈ s.followed ∨ ∃ t, s.stage t = .following k v

theorem sound_initial : (initial : MemoState T K V).Sound where
  answers := List.forall_mem_nil _
  following := by rintro t k v ⟨⟩
  followed := List.forall_mem_nil _
  nodup_followed := List.nodup_nil
  complete := by rintro k v ⟨⟩

/-- A thread may answer what is in the table. -/
theorem Sound.answer (hs : s.Sound) (h : s.table.find k = some v) :
    Sound { s with answers := s.answers ++ [(k, v)] } where
  answers := by
    intro e he
    obtain he | he := List.mem_append.1 he
    · exact hs.answers e he
    · obtain rfl := List.mem_singleton.1 he
      exact h
  following := hs.following
  followed := hs.followed
  nodup_followed := hs.nodup_followed
  complete := hs.complete

/-- What is made and thrown away is not looked at by the invariant. -/
theorem Sound.of_eq {made discarded : List V} (hs : s.Sound) :
    Sound { s with made := made, discarded := discarded } :=
  ⟨hs.answers, hs.following, hs.followed, hs.nodup_followed, hs.complete⟩

/-- When no thread has something left to follow up, each entry of the table was, once. -/
theorem Sound.perm_followed (hs : s.Sound) (h : ∀ t k v, s.stage t ≠ .following k v) :
    s.followed.Perm s.table.entries := by
  refine (List.perm_ext_iff_of_nodup hs.nodup_followed s.table.nodup_keys.of_map).2 ?_
  rintro ⟨k, v⟩
  refine ⟨fun hmem ↦ Memo.mem_entries_of_find (hs.followed _ hmem), fun hmem ↦ ?_⟩
  refine (hs.complete k v (Memo.find_of_mem_entries hmem)).resolve_right ?_
  rintro ⟨t, ht⟩
  exact h t k v ht

end Sound

end MemoState

/-! ### Their steps -/

variable [DecidableEq T]

/-- One part under the lock, or one between two of them. -/
def memoSystem : StepSystem (MemoState T K V) (T × MemoAction K V) where
  step s a :=
    match s.stage a.1, a.2 with
    | .outside, .look k =>
      match s.table.find k with
      | some v => some { s with answers := s.answers ++ [(k, v)] }
      | none => some (s.goto a.1 (.working k))
    | .working _, .giveUp => some (s.goto a.1 .outside)
    | .working k, .work v => some { s.goto a.1 (.adding k v) with made := s.made ++ [v] }
    | .adding k v, .add =>
      match s.table.find k with
      | some v' =>
        some { s.goto a.1 .outside with
          discarded := s.discarded ++ [v], answers := s.answers ++ [(k, v')] }
      | none => some { s.goto a.1 (.following k v) with table := s.table.claim k v }
    | .following k v, .follow =>
      some { s.goto a.1 .outside with
        followed := s.followed ++ [(k, v)], answers := s.answers ++ [(k, v)] }
    | _, _ => none

namespace MemoState

variable {s s' : MemoState T K V} {t : T} {a : MemoAction K V} {k : K} {v : V}

/-- What a step can do. -/
inductive Moves (s : MemoState T K V) (t : T) : MemoAction K V → MemoState T K V → Prop
  | hit (k : K) (v : V) : s.stage t = .outside → s.table.find k = some v →
      Moves s t (.look k) { s with answers := s.answers ++ [(k, v)] }
  | miss (k : K) : s.stage t = .outside → s.table.find k = none →
      Moves s t (.look k) (s.goto t (.working k))
  | giveUp (k : K) : s.stage t = .working k → Moves s t .giveUp (s.goto t .outside)
  | work (k : K) (v : V) : s.stage t = .working k →
      Moves s t (.work v) { s.goto t (.adding k v) with made := s.made ++ [v] }
  | lose (k : K) (v v' : V) : s.stage t = .adding k v → s.table.find k = some v' →
      Moves s t .add { s.goto t .outside with
        discarded := s.discarded ++ [v], answers := s.answers ++ [(k, v')] }
  | win (k : K) (v : V) : s.stage t = .adding k v → s.table.find k = none →
      Moves s t .add { s.goto t (.following k v) with table := s.table.claim k v }
  | follow (k : K) (v : V) : s.stage t = .following k v →
      Moves s t .follow { s.goto t .outside with
        followed := s.followed ++ [(k, v)], answers := s.answers ++ [(k, v)] }

theorem moves_of_step (h : memoSystem.step s (t, a) = some s') : Moves s t a s' := by
  cases hstage : s.stage t <;> cases a <;> simp only [memoSystem, hstage] at h
  case outside.look k =>
    cases hfind : s.table.find k <;> rw [hfind] at h
    · exact Option.some.inj h ▸ .miss k hstage hfind
    · exact Option.some.inj h ▸ .hit k _ hstage hfind
  case working.giveUp k => exact Option.some.inj h ▸ .giveUp k hstage
  case working.work k v => exact Option.some.inj h ▸ .work k v hstage
  case adding.add k v =>
    cases hfind : s.table.find k <;> rw [hfind] at h
    · exact Option.some.inj h ▸ .win k v hstage hfind
    · exact Option.some.inj h ▸ .lose k v _ hstage hfind
  case following.follow k v => exact Option.some.inj h ▸ .follow k v hstage
  all_goals cases h

theorem Moves.to_eq {s₁ : MemoState T K V} (h : Moves s t a s₁) (he : s₁ = s') : Moves s t a s' :=
  he ▸ h

/-- What a step can do is a step. -/
theorem step_of_moves (h : Moves s t a s') : memoSystem.step s (t, a) = some s' := by
  cases h with
  | hit k v hstage hfind => simp only [memoSystem, hstage, hfind]
  | miss k hstage hfind => simp only [memoSystem, hstage, hfind]
  | giveUp k hstage => simp only [memoSystem, hstage]
  | work k v hstage => simp only [memoSystem, hstage]
  | lose k v v' hstage hfind => simp only [memoSystem, hstage, hfind]
  | win k v hstage hfind => simp only [memoSystem, hstage, hfind]
  | follow k v hstage => simp only [memoSystem, hstage]

/-- Threads that do not follow anything up may move on without further ado. -/
theorem Sound.goto (hs : s.Sound) (stage : MemoStage K V)
    (hold : ∀ k v, s.stage t ≠ .following k v) (hnew : ∀ k v, stage ≠ .following k v) :
    (s.goto t stage).Sound where
  answers := hs.answers
  following t' k v h := by
    obtain ⟨-, rfl⟩ | ⟨ht, hstage⟩ := stage_of_goto h
    · exact absurd rfl (hnew k v)
    · obtain ⟨hfind, hnot, hone⟩ := hs.following t' k v hstage
      refine ⟨hfind, hnot, fun t₂ v' h₂ ↦ ?_⟩
      obtain ⟨-, rfl⟩ | ⟨-, hstage₂⟩ := stage_of_goto h₂
      · exact absurd rfl (hnew k v')
      · exact hone t₂ v' hstage₂
  followed := hs.followed
  nodup_followed := hs.nodup_followed
  complete k v h := by
    refine (hs.complete k v h).imp_right ?_
    rintro ⟨t', ht'⟩
    refine ⟨t', (stage_goto_of_ne ?_).trans ht'⟩
    rintro rfl
    exact hold k v ht'

/-- A thread may add the value of a key that has none, if it follows it up. -/
theorem Sound.win (hs : s.Sound) (hstage : s.stage t = .adding k v) (hk : s.table.find k = none) :
    Sound { s.goto t (.following k v) with table := s.table.claim k v } where
  answers e he := Memo.find_of_le (s.table.le_claim k v) (hs.answers e he)
  following t' k' v' h := by
    have hother : ∀ t₂ v₂, s.stage t₂ ≠ .following k v₂ := fun t₂ v₂ h₂ ↦
      absurd ((hs.following t₂ k v₂ h₂).1.symm.trans hk) (Option.some_ne_none v₂)
    obtain ⟨rfl, hkv⟩ | ⟨ht, hstage'⟩ := stage_of_goto h
    · obtain ⟨rfl, rfl⟩ := MemoStage.following.inj hkv
      refine ⟨Memo.find_claim_self hk, fun hmem ↦ ?_, fun t₂ v₂ h₂ ↦ ?_⟩
      · exact absurd ((hs.followed _ hmem).symm.trans hk) (Option.some_ne_none v)
      · exact (stage_of_goto h₂).elim And.left fun h₃ ↦ absurd h₃.2 (hother t₂ v₂)
    · obtain ⟨hfind, hnot, hone⟩ := hs.following t' k' v' hstage'
      refine ⟨Memo.find_of_le (s.table.le_claim k v) hfind, hnot, fun t₂ v₂ h₂ ↦ ?_⟩
      obtain ⟨rfl, hkv⟩ | ⟨-, hstage₂⟩ := stage_of_goto h₂
      · obtain ⟨rfl, rfl⟩ := MemoStage.following.inj hkv
        exact absurd hstage' (hother t' v')
      · exact hone t₂ v₂ hstage₂
  followed e he := Memo.find_of_le (s.table.le_claim k v) (hs.followed e he)
  nodup_followed := hs.nodup_followed
  complete k' v' h := by
    obtain hfind | ⟨rfl, rfl⟩ := Memo.find_claim hk h
    · refine (hs.complete k' v' hfind).imp_right ?_
      rintro ⟨t', ht'⟩
      refine ⟨t', (stage_goto_of_ne ?_).trans ht'⟩
      rintro rfl
      exact absurd (hstage.symm.trans ht') (by simp)
    · exact .inr ⟨t, stage_goto_self⟩

/-- A thread that added a value may follow it up. -/
theorem Sound.follow (hs : s.Sound) (hstage : s.stage t = .following k v) :
    Sound { s.goto t .outside with
      followed := s.followed ++ [(k, v)], answers := s.answers ++ [(k, v)] } where
  answers := by
    intro e he
    obtain he | he := List.mem_append.1 he
    · exact hs.answers e he
    · obtain rfl := List.mem_singleton.1 he
      exact (hs.following t _ _ hstage).1
  following t' k' v' h := by
    obtain ⟨-, hkv⟩ | ⟨ht, hstage'⟩ := stage_of_goto h
    · exact absurd hkv (by simp)
    · obtain ⟨hfind, hnot, hone⟩ := hs.following t' k' v' hstage'
      refine ⟨hfind, fun hmem ↦ ?_, fun t₂ v₂ h₂ ↦ ?_⟩
      · obtain hmem | hmem := List.mem_append.1 hmem
        · exact hnot hmem
        · obtain ⟨rfl, rfl⟩ := Prod.mk.inj (List.mem_singleton.1 hmem)
          exact ht (hone t _ hstage).symm
      · exact (stage_of_goto h₂).elim (fun h₃ ↦ absurd h₃.2 (by simp)) fun h₃ ↦ hone t₂ v₂ h₃.2
  followed := by
    intro e he
    obtain he | he := List.mem_append.1 he
    · exact hs.followed e he
    · obtain rfl := List.mem_singleton.1 he
      exact (hs.following t _ _ hstage).1
  nodup_followed := hs.nodup_followed.append (List.nodup_singleton _)
    (List.disjoint_singleton.2 (hs.following t k v hstage).2.1)
  complete k' v' h := by
    obtain hmem | ⟨t', ht'⟩ := hs.complete k' v' h
    · exact .inl (List.mem_append_left _ hmem)
    · by_cases htt : t' = t
      · subst htt
        obtain ⟨rfl, rfl⟩ := MemoStage.following.inj (hstage.symm.trans ht')
        exact .inl (List.mem_append_right _ List.mem_cons_self)
      · exact .inr ⟨t', (stage_goto_of_ne htt).trans ht'⟩

theorem Sound.step (hs : s.Sound) (h : memoSystem.step s (t, a) = some s') : s'.Sound := by
  cases moves_of_step h with
  | hit k v hstage hfind => exact hs.answer hfind
  | miss k hstage hfind => exact hs.goto _ (by simp [hstage]) (by simp)
  | giveUp k hstage => exact hs.goto _ (by simp [hstage]) (by simp)
  | work k v hstage =>
    exact (hs.goto (.adding k v) (by simp [hstage]) (by simp)).of_eq
  | lose k v v' hstage hfind =>
    exact ((hs.goto .outside (by simp [hstage]) (by simp)).answer hfind).of_eq
  | win k v hstage hfind => exact hs.win hstage hfind
  | follow k v hstage => exact hs.follow hstage

/-! ### Values that are made anew -/

/-- A value that is made was not made before. -/
def Anew (s : MemoState T K V) (a : T × MemoAction K V) : Prop := ∀ v, a.2 = .work v → v ∉ s.made

/-- A value that a thread may add is its own, and no value of the table was thrown away. -/
structure Owned (s : MemoState T K V) : Prop where
  adding : ∀ t k v, s.stage t = .adding k v → v ∈ s.made ∧ v ∉ s.discarded ∧
    v ∉ s.table.entries.map Prod.snd ∧ ∀ t' k', s.stage t' = .adding k' v → t' = t
  table : ∀ v ∈ s.table.entries.map Prod.snd, v ∈ s.made ∧ v ∉ s.discarded
  discarded : ∀ v ∈ s.discarded, v ∈ s.made
  nodup_values : (s.table.entries.map Prod.snd).Nodup

omit [DecidableEq K] [DecidableEq T] in
theorem owned_initial : (initial : MemoState T K V).Owned where
  adding := by rintro t k v ⟨⟩
  table := List.forall_mem_nil _
  discarded := List.forall_mem_nil _
  nodup_values := List.nodup_nil

omit [DecidableEq K] in
/-- Threads may move on to where they have no value to add. -/
theorem Owned.goto (hs : s.Owned) (stage : MemoStage K V) (hnew : ∀ k v, stage ≠ .adding k v) :
    (s.goto t stage).Owned where
  adding t' k v h := by
    obtain ⟨-, rfl⟩ | ⟨-, hstage⟩ := stage_of_goto h
    · exact absurd rfl (hnew k v)
    · obtain ⟨hmade, hnot, htable, hone⟩ := hs.adding t' k v hstage
      refine ⟨hmade, hnot, htable, fun t₂ k₂ h₂ ↦ ?_⟩
      obtain ⟨-, rfl⟩ | ⟨-, hstage₂⟩ := stage_of_goto h₂
      · exact absurd rfl (hnew k₂ v)
      · exact hone t₂ k₂ hstage₂
  table := hs.table
  discarded := hs.discarded
  nodup_values := hs.nodup_values

omit [DecidableEq K] in
/-- A thread may make a value anew. -/
theorem Owned.work (hs : s.Owned) (hv : v ∉ s.made) :
    Owned { s.goto t (.adding k v) with made := s.made ++ [v] } where
  adding t' k' v' h := by
    obtain ⟨rfl, hkv⟩ | ⟨ht, hstage⟩ := stage_of_goto h
    · obtain ⟨rfl, rfl⟩ := MemoStage.adding.inj hkv
      refine ⟨List.mem_append_right _ List.mem_cons_self, fun h₂ ↦ hv (hs.discarded v h₂),
        fun h₂ ↦ hv (hs.table v h₂).1, fun t₂ k₂ h₂ ↦ ?_⟩
      exact (stage_of_goto h₂).elim And.left fun h₃ ↦ absurd (hs.adding t₂ k₂ v h₃.2).1 hv
    · obtain ⟨hmade, hnot, htable, hone⟩ := hs.adding t' k' v' hstage
      refine ⟨List.mem_append_left _ hmade, hnot, htable, fun t₂ k₂ h₂ ↦ ?_⟩
      obtain ⟨-, hkv⟩ | ⟨-, hstage₂⟩ := stage_of_goto h₂
      · exact absurd ((MemoStage.adding.inj hkv).2 ▸ hmade) hv
      · exact hone t₂ k₂ hstage₂
  table v' h := ⟨List.mem_append_left _ (hs.table v' h).1, (hs.table v' h).2⟩
  discarded v' h := List.mem_append_left _ (hs.discarded v' h)
  nodup_values := hs.nodup_values

omit [DecidableEq K] in
/-- A thread may throw its own value away. -/
theorem Owned.lose {answers : List (K × V)} (hs : s.Owned) (hstage : s.stage t = .adding k v) :
    Owned { s.goto t .outside with discarded := s.discarded ++ [v], answers := answers } where
  adding t' k' v' h := by
    obtain ⟨-, hkv⟩ | ⟨ht, hstage'⟩ := stage_of_goto h
    · exact absurd hkv (by simp)
    · obtain ⟨hmade, hnot, htable, hone⟩ := hs.adding t' k' v' hstage'
      refine ⟨hmade, fun hmem ↦ ?_, htable, fun t₂ k₂ h₂ ↦ ?_⟩
      · obtain hmem | hmem := List.mem_append.1 hmem
        · exact hnot hmem
        · obtain rfl := List.mem_singleton.1 hmem
          exact ht (hone t k hstage).symm
      · exact (stage_of_goto h₂).elim (fun h₃ ↦ absurd h₃.2 (by simp)) fun h₃ ↦ hone t₂ k₂ h₃.2
  table v' h := by
    refine ⟨(hs.table v' h).1, fun hmem ↦ ?_⟩
    obtain hmem | hmem := List.mem_append.1 hmem
    · exact (hs.table v' h).2 hmem
    · obtain rfl := List.mem_singleton.1 hmem
      exact (hs.adding t k v' hstage).2.2.1 h
  discarded v' h := by
    obtain hmem | hmem := List.mem_append.1 h
    · exact hs.discarded v' hmem
    · obtain rfl := List.mem_singleton.1 hmem
      exact (hs.adding t k v' hstage).1
  nodup_values := hs.nodup_values

/-- A thread may add its own value. -/
theorem Owned.win (hs : s.Owned) (hstage : s.stage t = .adding k v) (hk : s.table.find k = none) :
    Owned { s.goto t (.following k v) with table := s.table.claim k v } := by
  obtain ⟨hmade, hnot, htable, hone⟩ := hs.adding t k v hstage
  have hvalues :
      (s.table.claim k v).entries.map Prod.snd = s.table.entries.map Prod.snd ++ [v] := by
    rw [Memo.entries_claim hk, List.map_append, List.map_cons, List.map_nil]
  refine ⟨fun t' k' v' h ↦ ?_, fun v' h ↦ ?_, hs.discarded, ?_⟩
  · obtain ⟨-, hkv⟩ | ⟨ht, hstage'⟩ := stage_of_goto h
    · exact absurd hkv (by simp)
    · obtain ⟨hmade', hnot', htable', hone'⟩ := hs.adding t' k' v' hstage'
      refine ⟨hmade', hnot', fun hmem ↦ ?_, fun t₂ k₂ h₂ ↦ ?_⟩
      · obtain hmem | hmem := List.mem_append.1 (hvalues ▸ hmem)
        · exact htable' hmem
        · obtain rfl := List.mem_singleton.1 hmem
          exact ht (hone t' k' hstage')
      · exact (stage_of_goto h₂).elim (fun h₃ ↦ absurd h₃.2 (by simp)) fun h₃ ↦ hone' t₂ k₂ h₃.2
  · obtain hmem | hmem := List.mem_append.1 (hvalues ▸ h)
    · exact hs.table v' hmem
    · obtain rfl := List.mem_singleton.1 hmem
      exact ⟨hmade, hnot⟩
  · exact hvalues ▸ hs.nodup_values.append (List.nodup_singleton v)
      (List.disjoint_singleton.2 htable)

omit [DecidableEq K] [DecidableEq T] in
/-- What is answered and followed up is not looked at by the invariant. -/
theorem Owned.of_eq {followed answers : List (K × V)} (hs : s.Owned) :
    Owned { s with followed := followed, answers := answers } :=
  ⟨hs.adding, hs.table, hs.discarded, hs.nodup_values⟩

theorem Owned.step (hs : s.Owned) (hanew : s.Anew (t, a))
    (h : memoSystem.step s (t, a) = some s') : s'.Owned := by
  cases moves_of_step h with
  | hit k v hstage hfind => exact hs.of_eq
  | miss k hstage hfind => exact hs.goto _ (by simp)
  | giveUp k hstage => exact hs.goto _ (by simp)
  | work k v hstage => exact hs.work (hanew v rfl)
  | lose k v v' hstage hfind => exact hs.lose hstage
  | win k v hstage hfind => exact hs.win hstage hfind
  | follow k v hstage => exact (hs.goto .outside (by simp)).of_eq

end MemoState

end PuppetC
