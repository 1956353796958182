import Mathlib.Algebra.BigOperators.Group.List.Basic
import Mathlib.Algebra.GroupWithZero.Nat
import Mathlib.Data.List.Nodup
import Mathlib.Data.List.Perm.Basic
import Mathlib.Logic.Function.Basic
import Mathlib.Tactic.SplitIfs
import PuppetC.Support.StepSystem

/-!
# Tracking of allocations

With memory tracking compiled in, every block that the program allocates is recorded in a table of
chains, by its address, and its record is removed before the block is given back. Statistics are
kept of the records, and at the end those that are left are reported as leaks. The table and the
statistics are shared by the threads, under a lock; the allocator is called outside of it.

`tracking` is the system of any number of threads, in any interleaving of the parts under the lock
and the calls of the allocator, with any answers of the allocator. `recorded` and `removed` are
histories.

## Main definitions

* `AllocInfo`, `MemoryStats`: `puppet_alloc_info_t`, `puppet_memory_stats_t`.
* `MemoryCall`, `MemoryState`, `MemoryAction`, `tracking`: `puppet_malloc_tracked`,
  `puppet_calloc_tracked`, `puppet_realloc_tracked`, `puppet_strdup_tracked`,
  `puppet_free_tracked`, with `add_allocation` and `remove_allocation`.
* `MemoryState.Balanced`, `MemoryState.Exact`: the invariants.

## Main results

* `stats_exact`: the statistics are those of the table, and the peaks are reached.
* `leaks_exact`: the records that are left are the blocks that were not given back.
-/

namespace PuppetC

/-- `puppet_alloc_info_t`. -/
structure AllocInfo where
  ptr : ℕ
  size : ℕ
  file : String
  line : ℕ
deriving DecidableEq, Repr

/-- `puppet_memory_stats_t`. -/
structure MemoryStats where
  totalAllocations : ℕ
  totalFrees : ℕ
  currentAllocations : ℕ
  peakAllocations : ℕ
  totalBytesAllocated : ℕ
  currentBytesUsed : ℕ
  peakBytesUsed : ℕ
deriving DecidableEq, Repr

/-- Statistics of nothing. -/
def MemoryStats.zero : MemoryStats := ⟨0, 0, 0, 0, 0, 0, 0⟩

/-- `ALLOC_HASH_SIZE`. -/
def allocHashSize : ℕ := 1024

/-- `hash_ptr`. -/
def hashPtr (ptr : ℕ) : ℕ := ptr / 8 % allocHashSize

/-- The statistics in `add_allocation`. -/
def MemoryStats.add (m : MemoryStats) (size : ℕ) : MemoryStats where
  totalAllocations := m.totalAllocations + 1
  totalFrees := m.totalFrees
  currentAllocations := m.currentAllocations + 1
  peakAllocations :=
    if m.peakAllocations < m.currentAllocations + 1 then m.currentAllocations + 1
    else m.peakAllocations
  totalBytesAllocated := m.totalBytesAllocated + size
  currentBytesUsed := m.currentBytesUsed + size
  peakBytesUsed :=
    if m.peakBytesUsed < m.currentBytesUsed + size then m.currentBytesUsed + size
    else m.peakBytesUsed

/-- The statistics in `remove_allocation`. -/
def MemoryStats.remove (m : MemoryStats) (size : ℕ) : MemoryStats :=
  { m with
    totalFrees := m.totalFrees + 1
    currentAllocations := m.currentAllocations - 1
    currentBytesUsed := m.currentBytesUsed - size }

/-- The loop of `remove_allocation` on one chain: the first record of an address and the chain
without it. -/
def removeFromChain (ptr : ℕ) : List AllocInfo → Option (AllocInfo × List AllocInfo)
  | [] => none
  | info :: chain =>
    if info.ptr = ptr then some (info, chain)
    else (removeFromChain ptr chain).map fun r ↦ (r.1, info :: r.2)

/-! ### The threads -/

/-- The tracked functions of the allocator, with their arguments and the place of the call. -/
inductive MemoryCall where
  | malloc (size : ℕ)
  | calloc (nmemb size : ℕ)
  | strdup (s : String)
  | realloc (ptr size : ℕ)
  | free (ptr : ℕ)

/-- What a record is removed for. -/
inductive RemovePurpose where
  | free
  | resize (size : ℕ) (file : String) (line : ℕ)

/-- Where a thread stands: outside, about to allocate, before and after the test of
`add_allocation`, before and after the test of `remove_allocation`, about to give a block back,
or about to resize one. -/
inductive MemoryStage where
  | outside
  | allocating (size : ℕ) (file : String) (line : ℕ)
  | recording (info : AllocInfo)
  | adding (info : AllocInfo)
  | testing (ptr : ℕ) (purpose : RemovePurpose)
  | removing (ptr : ℕ) (purpose : RemovePurpose)
  | releasing (ptr : ℕ)
  | resizing (ptr size : ℕ) (file : String) (line : ℕ) (old : Option AllocInfo)

/-- What a thread does. The answers are those of the allocator: a block or none, and whether there
was room for a record. -/
inductive MemoryAction where
  | call (c : MemoryCall) (file : String) (line : ℕ)
  | allocated (ptr : Option ℕ)
  | proceed
  | record (room : Bool)
  | resized (ptr : Option ℕ)
  | setTracking (enabled : Bool)

/-- The table, the statistics, the switch, the blocks of the allocator with their sizes, the
threads, the addresses that were freed without a record, and the histories. -/
structure MemoryState (T : Type) where
  table : ℕ → List AllocInfo
  stats : MemoryStats
  trackingEnabled : Bool
  blocks : ℕ → Option ℕ
  stage : T → MemoryStage
  untracked : List ℕ
  recorded : List AllocInfo
  removed : List AllocInfo

/-- Where a call begins. -/
def MemoryCall.start (file : String) (line : ℕ) : MemoryCall → MemoryStage
  | .malloc size => .allocating size file line
  | .calloc nmemb size => .allocating (nmemb * size) file line
  | .strdup s => .allocating (s.utf8ByteSize + 1) file line
  | .realloc ptr size =>
    if ptr = 0 then .allocating size file line
    else if size = 0 then .testing ptr .free
    else .testing ptr (.resize size file line)
  | .free ptr => if ptr = 0 then .outside else .testing ptr .free

/-- The address that a thread has in hand, and whether its record is in the table. -/
def MemoryStage.holds : MemoryStage → Option (ℕ × Bool)
  | .recording info => some (info.ptr, false)
  | .adding info => some (info.ptr, false)
  | .testing ptr _ => some (ptr, true)
  | .removing ptr _ => some (ptr, true)
  | .releasing ptr => some (ptr, false)
  | .resizing ptr _ _ _ _ => some (ptr, false)
  | _ => none

namespace MemoryState

variable {T : Type} [DecidableEq T]

/-- The state after `puppet_memory_init`, with no block allocated. -/
def initial : MemoryState T where
  table _ := []
  stats := .zero
  trackingEnabled := true
  blocks _ := none
  stage _ := .outside
  untracked := []
  recorded := []
  removed := []

/-- All records, bucket by bucket. -/
def entries (s : MemoryState T) : List AllocInfo := (List.range allocHashSize).flatMap s.table

/-- A thread goes on. -/
def goto (s : MemoryState T) (t : T) (stage : MemoryStage) : MemoryState T :=
  { s with stage := Function.update s.stage t stage }

/-- The part of `add_allocation` under the lock, when there is room for the record. -/
def addAllocation (s : MemoryState T) (info : AllocInfo) : MemoryState T :=
  { s with
    table := Function.update s.table (hashPtr info.ptr) (info :: s.table (hashPtr info.ptr))
    stats := s.stats.add info.size
    recorded := info :: s.recorded }

/-- The part of `remove_allocation` under the lock. -/
def removeAllocation (s : MemoryState T) (ptr : ℕ) : Option AllocInfo × MemoryState T :=
  match removeFromChain ptr (s.table (hashPtr ptr)) with
  | none => (none, s)
  | some (info, chain) =>
    (some info, { s with
      table := Function.update s.table (hashPtr ptr) chain
      stats := s.stats.remove info.size
      removed := info :: s.removed })

/-- What a thread does when the record of an address was looked for. -/
def afterRemove (s : MemoryState T) (t : T) (ptr : ℕ) (found : Option AllocInfo) :
    RemovePurpose → MemoryState T
  | .free =>
    { s.goto t (.releasing ptr) with
      untracked := if found.isNone then s.untracked ++ [ptr] else s.untracked }
  | .resize size file line => s.goto t (.resizing ptr size file line found)

/-- An address that the allocator may answer. -/
def isFree (s : MemoryState T) (ptr size : ℕ) : Bool :=
  ptr ≠ 0 && (s.blocks ptr).isNone && size < 2 ^ 64

end MemoryState

section System

variable {T : Type} [DecidableEq T]

/-- The parts of the tracked functions. -/
def tracking : StepSystem (MemoryState T) (T × MemoryAction) where
  step s a :=
    match s.stage a.1, a.2 with
    | _, .setTracking enabled => some { s with trackingEnabled := enabled }
    | .outside, .call c file line => some (s.goto a.1 (c.start file line))
    | .allocating _ _ _, .allocated none => some (s.goto a.1 .outside)
    | .allocating size file line, .allocated (some ptr) =>
      if s.isFree ptr size then
        some { s.goto a.1 (.recording ⟨ptr, size, file, line⟩) with
          blocks := Function.update s.blocks ptr (some size) }
      else none
    | .recording info, .proceed =>
      some (s.goto a.1 (if s.trackingEnabled then .adding info else .outside))
    | .adding info, .record true => some ((s.addAllocation info).goto a.1 .outside)
    | .adding _, .record false => some (s.goto a.1 .outside)
    | .testing ptr purpose, .proceed =>
      if s.trackingEnabled then some (s.goto a.1 (.removing ptr purpose))
      else some (s.afterRemove a.1 ptr none purpose)
    | .removing ptr purpose, .proceed =>
      some ((s.removeAllocation ptr).2.afterRemove a.1 ptr (s.removeAllocation ptr).1 purpose)
    | .releasing ptr, .proceed =>
      some { s.goto a.1 .outside with blocks := Function.update s.blocks ptr none }
    | .resizing ptr size file line _, .resized (some new) =>
      if new = ptr ∨ s.isFree new size then
        some { s.goto a.1 (.recording ⟨new, size, file, line⟩) with
          blocks := Function.update (Function.update s.blocks ptr none) new (some size) }
      else none
    | .resizing ptr _ _ _ old, .resized none =>
      some (s.goto a.1 (old.elim .outside fun info ↦
        .recording ⟨ptr, info.size, info.file, info.line⟩))
    | _, _ => none

end System

/-! ### The table -/

/-- A chain that has one record more makes the whole table have one more. -/
theorem perm_flatMap_of_perm {α β : Type*} {l : List α} {f g : α → List β} {i : α} {x : β}
    (hl : l.Nodup) (hi : i ∈ l) (h : (g i).Perm (x :: f i)) (hother : ∀ j ≠ i, g j = f j) :
    (l.flatMap g).Perm (x :: l.flatMap f) := by
  classical
  have hrest : (l.erase i).flatMap g = (l.erase i).flatMap f :=
    List.flatMap_congr fun j hj ↦ hother j ((hl.mem_erase_iff.1 hj).1)
  have hsplit (k : α → List β) : (l.flatMap k).Perm (k i ++ (l.erase i).flatMap k) :=
    (List.perm_cons_erase hi).flatMap_right k
  have hg := hsplit g
  rw [hrest] at hg
  exact hg.trans ((h.append_right _).trans ((hsplit f).symm.cons x))

theorem removeFromChain_eq_none {ptr : ℕ} {chain : List AllocInfo} :
    removeFromChain ptr chain = none ↔ ∀ info ∈ chain, info.ptr ≠ ptr := by
  induction chain with
  | nil => simp [removeFromChain]
  | cons info chain ih =>
    rw [removeFromChain]
    split_ifs with h <;> simp [h, ih]

theorem removeFromChain_eq_some {ptr : ℕ} {info : AllocInfo} {chain rest : List AllocInfo}
    (h : removeFromChain ptr chain = some (info, rest)) :
    info.ptr = ptr ∧ chain.Perm (info :: rest) := by
  induction chain generalizing rest with
  | nil => cases h
  | cons head chain ih =>
    rw [removeFromChain] at h
    split_ifs at h with hptr
    · cases h
      exact ⟨hptr, List.Perm.refl _⟩
    · obtain ⟨⟨found, more⟩, hfound, hpair⟩ := Option.map_eq_some_iff.1 h
      obtain ⟨rfl, rfl⟩ := Prod.mk.inj hpair
      obtain ⟨hinfo, hperm⟩ := ih hfound
      exact ⟨hinfo, (hperm.cons head).trans (List.Perm.swap ..)⟩

theorem hashPtr_mem_range (ptr : ℕ) : hashPtr ptr ∈ List.range allocHashSize :=
  List.mem_range.2 (Nat.mod_lt _ (by decide))

namespace MemoryState

variable {T : Type} [DecidableEq T] {s s' : MemoryState T} {t : T} {a : MemoryAction}

omit [DecidableEq T] in
theorem entries_addAllocation (s : MemoryState T) (info : AllocInfo) :
    (s.addAllocation info).entries.Perm (info :: s.entries) := by
  refine perm_flatMap_of_perm List.nodup_range (hashPtr_mem_range info.ptr) ?_ fun j hj ↦
    Function.update_of_ne hj ..
  exact List.Perm.of_eq (Function.update_self ..)

omit [DecidableEq T] in
theorem entries_congr (h : s'.table = s.table) : s'.entries = s.entries := by
  rw [entries, h, entries]

omit [DecidableEq T] in
/-- What `remove_allocation` does, where it finds a record. -/
theorem removeAllocation_of_some {ptr : ℕ} {info : AllocInfo} {chain : List AllocInfo}
    (h : removeFromChain ptr (s.table (hashPtr ptr)) = some (info, chain)) :
    info.ptr = ptr ∧ s.entries.Perm (info :: (s.removeAllocation ptr).2.entries) ∧
      s.removeAllocation ptr = (some info, { s with
        table := Function.update s.table (hashPtr ptr) chain
        stats := s.stats.remove info.size
        removed := info :: s.removed }) := by
  obtain ⟨hptr, hperm⟩ := removeFromChain_eq_some h
  have hremove : s.removeAllocation ptr = (some info, { s with
      table := Function.update s.table (hashPtr ptr) chain
      stats := s.stats.remove info.size
      removed := info :: s.removed }) := by rw [removeAllocation, h]
  refine ⟨hptr, ?_, hremove⟩
  rw [hremove]
  refine perm_flatMap_of_perm List.nodup_range (hashPtr_mem_range ptr) ?_ fun j hj ↦
    (Function.update_of_ne hj ..).symm
  have hself : Function.update s.table (hashPtr ptr) chain (hashPtr ptr) = chain :=
    Function.update_self ..
  exact hperm.trans (.of_eq (congrArg (info :: ·) hself.symm))

omit [DecidableEq T] in
/-- What `remove_allocation` does, where it finds none. -/
theorem removeAllocation_of_none {ptr : ℕ}
    (h : removeFromChain ptr (s.table (hashPtr ptr)) = none) :
    s.removeAllocation ptr = (none, s) := by
  rw [removeAllocation, h]

/-! ### What a step can do -/

/-- What a step can do. -/
inductive Moves (s : MemoryState T) (t : T) : MemoryAction → MemoryState T → Prop
  | setTracking (enabled : Bool) :
      Moves s t (.setTracking enabled) { s with trackingEnabled := enabled }
  | call (c : MemoryCall) (file : String) (line : ℕ) : s.stage t = .outside →
      Moves s t (.call c file line) (s.goto t (c.start file line))
  | unallocated (size : ℕ) (file : String) (line : ℕ) :
      s.stage t = .allocating size file line → Moves s t (.allocated none) (s.goto t .outside)
  | allocated (ptr size : ℕ) (file : String) (line : ℕ) :
      s.stage t = .allocating size file line → s.isFree ptr size = true →
      Moves s t (.allocated (some ptr)) { s.goto t (.recording ⟨ptr, size, file, line⟩) with
        blocks := Function.update s.blocks ptr (some size) }
  | test (info : AllocInfo) : s.stage t = .recording info → s.trackingEnabled = true →
      Moves s t .proceed (s.goto t (.adding info))
  | untracked (info : AllocInfo) : s.stage t = .recording info → s.trackingEnabled = false →
      Moves s t .proceed (s.goto t .outside)
  | add (info : AllocInfo) : s.stage t = .adding info →
      Moves s t (.record true) ((s.addAllocation info).goto t .outside)
  | noRoom (info : AllocInfo) : s.stage t = .adding info →
      Moves s t (.record false) (s.goto t .outside)
  | tested (ptr : ℕ) (purpose : RemovePurpose) : s.stage t = .testing ptr purpose →
      s.trackingEnabled = true → Moves s t .proceed (s.goto t (.removing ptr purpose))
  | untested (ptr : ℕ) (purpose : RemovePurpose) : s.stage t = .testing ptr purpose →
      s.trackingEnabled = false → Moves s t .proceed (s.afterRemove t ptr none purpose)
  | remove (ptr : ℕ) (purpose : RemovePurpose) : s.stage t = .removing ptr purpose →
      Moves s t .proceed
        ((s.removeAllocation ptr).2.afterRemove t ptr (s.removeAllocation ptr).1 purpose)
  | release (ptr : ℕ) : s.stage t = .releasing ptr →
      Moves s t .proceed { s.goto t .outside with blocks := Function.update s.blocks ptr none }
  | resized (ptr size new : ℕ) (file : String) (line : ℕ) (old : Option AllocInfo) :
      s.stage t = .resizing ptr size file line old → new = ptr ∨ s.isFree new size = true →
      Moves s t (.resized (some new)) { s.goto t (.recording ⟨new, size, file, line⟩) with
        blocks := Function.update (Function.update s.blocks ptr none) new (some size) }
  | unresized (ptr size : ℕ) (file : String) (line : ℕ) (old : Option AllocInfo) :
      s.stage t = .resizing ptr size file line old →
      Moves s t (.resized none) (s.goto t (old.elim .outside fun info ↦
        .recording ⟨ptr, info.size, info.file, info.line⟩))

theorem moves_of_step (h : tracking.step s (t, a) = some s') : Moves s t a s' := by
  cases hstage : s.stage t <;> cases a <;> simp only [tracking, hstage] at h
  case outside.call c file line => exact Option.some.inj h ▸ .call c file line hstage
  case allocating.allocated size file line ptr =>
    cases ptr <;> simp only at h
    case none => exact Option.some.inj h ▸ .unallocated size file line hstage
    case some ptr =>
      split_ifs at h with hfree
      exact Option.some.inj h ▸ .allocated ptr size file line hstage hfree
  case recording.proceed info =>
    cases htracking : s.trackingEnabled <;> rw [htracking] at h
    · exact Option.some.inj h ▸ .untracked info hstage htracking
    · exact Option.some.inj h ▸ .test info hstage htracking
  case adding.record info room =>
    cases room <;> simp only at h
    · exact Option.some.inj h ▸ .noRoom info hstage
    · exact Option.some.inj h ▸ .add info hstage
  case testing.proceed ptr purpose =>
    cases htracking : s.trackingEnabled <;> rw [htracking] at h
    · exact Option.some.inj h ▸ .untested ptr purpose hstage htracking
    · exact Option.some.inj h ▸ .tested ptr purpose hstage htracking
  case removing.proceed ptr purpose => exact Option.some.inj h ▸ .remove ptr purpose hstage
  case releasing.proceed ptr => exact Option.some.inj h ▸ .release ptr hstage
  case resizing.resized ptr size file line old new =>
    cases new <;> simp only at h
    case none => exact Option.some.inj h ▸ .unresized ptr size file line old hstage
    case some new =>
      split_ifs at h with hfree
      exact Option.some.inj h ▸ .resized ptr size new file line old hstage hfree
  all_goals first | cases h; done | exact Option.some.inj h ▸ .setTracking _

/-! ### Statistics -/

/-- The bytes of some records. -/
def bytesOf (infos : List AllocInfo) : ℕ := (infos.map AllocInfo.size).sum

/-- What was recorded is in the table or was removed, and the statistics are those of the three. -/
structure Balanced (s : MemoryState T) : Prop where
  perm : s.recorded.Perm (s.entries ++ s.removed)
  totalAllocations : s.stats.totalAllocations = s.recorded.length
  totalFrees : s.stats.totalFrees = s.removed.length
  currentAllocations : s.stats.currentAllocations = s.entries.length
  totalBytesAllocated : s.stats.totalBytesAllocated = bytesOf s.recorded
  currentBytesUsed : s.stats.currentBytesUsed = bytesOf s.entries

omit [DecidableEq T] in
theorem entries_initial : (initial : MemoryState T).entries = [] :=
  List.flatMap_eq_nil_iff.2 fun _ _ ↦ rfl

omit [DecidableEq T] in
theorem balanced_initial : (initial : MemoryState T).Balanced where
  perm := by rw [entries_initial]; exact List.Perm.refl _
  totalAllocations := rfl
  totalFrees := rfl
  currentAllocations := by rw [entries_initial]; rfl
  totalBytesAllocated := rfl
  currentBytesUsed := by rw [entries_initial]; rfl

theorem bytesOf_cons (info : AllocInfo) (infos : List AllocInfo) :
    bytesOf (info :: infos) = bytesOf infos + info.size := by
  rw [bytesOf, List.map_cons, List.sum_cons, Nat.add_comm, ← bytesOf]

theorem bytesOf_perm {infos infos' : List AllocInfo} (h : infos.Perm infos') :
    bytesOf infos = bytesOf infos' := (h.map _).sum_eq

/-- A step changes the table and the statistics by recording a block, by removing a record, or not
at all. -/
inductive Recording (s : MemoryState T) : MemoryState T → Prop
  | none (s' : MemoryState T) : s'.table = s.table → s'.stats = s.stats →
      s'.recorded = s.recorded → s'.removed = s.removed → Recording s s'
  | add (s' : MemoryState T) (info : AllocInfo) : s'.entries.Perm (info :: s.entries) →
      s'.stats = s.stats.add info.size → s'.recorded = info :: s.recorded →
      s'.removed = s.removed → Recording s s'
  | remove (s' : MemoryState T) (info : AllocInfo) : s.entries.Perm (info :: s'.entries) →
      s'.stats = s.stats.remove info.size → s'.recorded = s.recorded →
      s'.removed = info :: s.removed → Recording s s'

omit [DecidableEq T] in
theorem Balanced.of_recording (hs : s.Balanced) (h : Recording s s') : s'.Balanced := by
  cases h with
  | none htable hstats hrecorded hremoved =>
    have hentries : s'.entries = s.entries := by rw [entries, htable, entries]
    constructor <;> simp only [hentries, hstats, hrecorded, hremoved]
    exacts [hs.perm, hs.totalAllocations, hs.totalFrees, hs.currentAllocations,
      hs.totalBytesAllocated, hs.currentBytesUsed]
  | add info hentries hstats hrecorded hremoved =>
    refine ⟨?_, ?_, ?_, ?_, ?_, ?_⟩
    · rw [hrecorded, hremoved]
      exact (hs.perm.cons info).trans (hentries.symm.append_right s.removed)
    · rw [hstats, hrecorded, List.length_cons, ← hs.totalAllocations]
      rfl
    · rw [hstats, hremoved, ← hs.totalFrees]
      rfl
    · rw [hstats, hentries.length_eq, List.length_cons, ← hs.currentAllocations]
      rfl
    · rw [hstats, hrecorded, bytesOf_cons, ← hs.totalBytesAllocated]
      rfl
    · rw [hstats, bytesOf_perm hentries, bytesOf_cons, ← hs.currentBytesUsed]
      rfl
  | remove info hentries hstats hrecorded hremoved =>
    have hlength : s.entries.length = s'.entries.length + 1 := by
      rw [hentries.length_eq, List.length_cons]
    have hbytes : bytesOf s.entries = bytesOf s'.entries + info.size := by
      rw [bytesOf_perm hentries, bytesOf_cons]
    refine ⟨?_, ?_, ?_, ?_, ?_, ?_⟩
    · rw [hrecorded, hremoved]
      exact hs.perm.trans ((hentries.append_right s.removed).trans List.perm_middle.symm)
    · rw [hstats, hrecorded, ← hs.totalAllocations]
      rfl
    · rw [hstats, hremoved, List.length_cons, ← hs.totalFrees]
      rfl
    · rw [hstats, MemoryStats.remove, hs.currentAllocations, hlength, Nat.add_sub_cancel]
    · rw [hstats, hrecorded, ← hs.totalBytesAllocated]
      rfl
    · rw [hstats, MemoryStats.remove, hs.currentBytesUsed, hbytes, Nat.add_sub_cancel]

theorem recording_goto (s : MemoryState T) (t : T) (stage : MemoryStage) :
    Recording s (s.goto t stage) := .none _ rfl rfl rfl rfl

theorem recording_afterRemove (s : MemoryState T) (t : T) (ptr : ℕ) (found : Option AllocInfo)
    (purpose : RemovePurpose) : Recording s (s.afterRemove t ptr found purpose) := by
  cases purpose <;> exact .none _ rfl rfl rfl rfl

theorem recording_of_moves (h : Moves s t a s') : Recording s s' := by
  cases h with
  | setTracking enabled => exact .none _ rfl rfl rfl rfl
  | allocated ptr size file line hstage hfree => exact .none _ rfl rfl rfl rfl
  | add info hstage => exact .add _ info (s.entries_addAllocation info) rfl rfl rfl
  | untested ptr purpose hstage htracking => exact recording_afterRemove ..
  | remove ptr purpose hstage =>
    cases hfound : removeFromChain ptr (s.table (hashPtr ptr)) with
    | none =>
      rw [removeAllocation_of_none hfound]
      exact recording_afterRemove ..
    | some r =>
      obtain ⟨-, hperm, hremove⟩ := removeAllocation_of_some hfound
      rw [hremove] at hperm ⊢
      cases purpose <;> exact .remove _ r.1 hperm rfl rfl rfl
  | release ptr hstage => exact .none _ rfl rfl rfl rfl
  | resized ptr size new file line old hstage hnew => exact .none _ rfl rfl rfl rfl
  | _ => exact recording_goto ..

theorem Balanced.step (hs : s.Balanced) (h : tracking.step s (t, a) = some s') : s'.Balanced :=
  hs.of_recording (recording_of_moves (moves_of_step h))

/-! ### Peaks -/

/-- A statistic is a peak of a measure: it is raised where a record is added and the measure is
greater. -/
structure Peaks (p f : MemoryState T → ℕ) : Prop where
  congr : ∀ s s', s'.table = s.table → s'.stats = s.stats → f s' = f s ∧ p s' = p s
  add : ∀ s s' info, s.Balanced → s'.entries.Perm (info :: s.entries) →
    s'.stats = s.stats.add info.size → p s' = if p s < f s' then f s' else p s
  remove : ∀ s s' info, s.entries.Perm (info :: s'.entries) →
    s'.stats = s.stats.remove info.size → f s' ≤ f s ∧ p s' = p s

omit [DecidableEq T] in
theorem peaks_allocations :
    Peaks (T := T) (·.stats.peakAllocations) (·.entries.length) where
  congr s s' htable hstats := by
    simp only [entries, htable, hstats, and_self]
  add s s' info hs hentries hstats := by
    simp only [hstats, MemoryStats.add, hs.currentAllocations, hentries.length_eq, List.length_cons]
  remove s s' info hentries hstats := by
    simp only [hstats, MemoryStats.remove, hentries.length_eq, List.length_cons, Nat.le_succ,
      and_self]

omit [DecidableEq T] in
theorem peaks_bytes : Peaks (T := T) (·.stats.peakBytesUsed) (bytesOf ·.entries) where
  congr s s' htable hstats := by
    simp only [entries, htable, hstats, and_self]
  add s s' info hs hentries hstats := by
    simp only [hstats, MemoryStats.add, hs.currentBytesUsed, bytesOf_perm hentries, bytesOf_cons]
  remove s s' info hentries hstats := by
    simp only [hstats, MemoryStats.remove, bytesOf_perm hentries, bytesOf_cons, Nat.le_add_right,
      and_self]

theorem Peaks.step {p f : MemoryState T → ℕ} (hp : Peaks p f) (hs : s.Balanced ∧ f s ≤ p s)
    (h : tracking.step s (t, a) = some s') :
    (s'.Balanced ∧ f s' ≤ p s') ∧ p s' = if p s < f s' then f s' else p s := by
  have hbalanced := hs.1.step h
  suffices hmax : p s' = if p s < f s' then f s' else p s by
    refine ⟨⟨hbalanced, ?_⟩, hmax⟩
    split_ifs at hmax with hlt
    · exact Nat.le_of_eq hmax.symm
    · exact hmax ▸ Nat.le_of_not_lt hlt
  cases recording_of_moves (moves_of_step h) with
  | none htable hstats hrecorded hremoved =>
    obtain ⟨hf, hsame⟩ := hp.congr s s' htable hstats
    rw [hf, hsame, if_neg (Nat.not_lt.2 hs.2)]
  | add info hentries hstats hrecorded hremoved => exact hp.add s s' info hs.1 hentries hstats
  | remove info hentries hstats hrecorded hremoved =>
    obtain ⟨hf, hsame⟩ := hp.remove s s' info hentries hstats
    rw [hsame, if_neg (Nat.not_lt.2 (Nat.le_trans hf hs.2))]

/-- A number is the greatest measure of the states that a run goes through. -/
def IsPeak (as : List (T × MemoryAction)) (f : MemoryState T → ℕ) (n : ℕ) : Prop :=
  (∀ u, tracking.Visits initial as u → f u ≤ n) ∧ ∃ u, tracking.Visits initial as u ∧ f u = n

theorem Peaks.isPeak {p f : MemoryState T → ℕ} {as : List (T × MemoryAction)} (hp : Peaks p f)
    (hzero : f initial = p initial) (hrun : tracking.run initial as = some s) :
    IsPeak as f (p s) := by
  obtain ⟨hall, -, hreached⟩ := StepSystem.greatest_of_run
    (I := fun s ↦ s.Balanced ∧ f s ≤ p s) (p := p) (f := f)
    (fun _ _ _ hs hstep ↦ hp.step hs hstep) ⟨balanced_initial, Nat.le_of_eq hzero⟩
    (Nat.le_of_eq hzero) hrun
  refine ⟨hall, hreached.elim (fun hsame ↦ ?_) id⟩
  exact ⟨initial, ⟨[], List.nil_prefix, rfl⟩, hzero.trans hsame.symm⟩

theorem balanced_of_run {as : List (T × MemoryAction)}
    (hrun : tracking.run initial as = some s) : s.Balanced :=
  StepSystem.Along.invariant (fun _ _ _ hs _ hstep ↦ Balanced.step hs hstep)
    (StepSystem.along_of_forall_mem fun _ _ _ ↦ trivial) balanced_initial hrun

/-! ### Records and blocks -/

/-- An address has a record. -/
def Recorded (s : MemoryState T) (ptr : ℕ) : Prop := ptr ∈ s.entries.map AllocInfo.ptr

/-- A thread has an address in hand. -/
def Holds (s : MemoryState T) (t : T) (ptr : ℕ) (b : Bool) : Prop :=
  (s.stage t).holds = some (ptr, b)

/-- Of one address: one thread has it in hand at most; it is a block then and has a record as the
stage of the thread says; and else it is a block exactly if it has a record. -/
structure PtrExact (s : MemoryState T) (ptr : ℕ) : Prop where
  one : ∀ t t' b b', s.Holds t ptr b → s.Holds t' ptr b' → t = t'
  held : ∀ t b, s.Holds t ptr b → s.blocks ptr ≠ none ∧ (b = true ↔ s.Recorded ptr)
  notHeld : (∀ t b, ¬ s.Holds t ptr b) → (s.blocks ptr ≠ none ↔ s.Recorded ptr)

/-- The record that a thread has in hand is that of a block. -/
def StageExact (s : MemoryState T) : MemoryStage → Prop
  | .recording info => s.blocks info.ptr = some info.size
  | .adding info => s.blocks info.ptr = some info.size
  | .resizing ptr _ _ _ old => ∃ info, old = some info ∧ s.blocks ptr = some info.size
  | _ => True

/-- Records are of blocks with their sizes, each in the chain of its address; no block was freed
without a record. -/
structure Exact (s : MemoryState T) : Prop where
  enabled : s.trackingEnabled = true
  ptrs : ∀ ptr, s.PtrExact ptr
  nodup : (s.entries.map AllocInfo.ptr).Nodup
  sizes : ∀ info ∈ s.entries, s.blocks info.ptr = some info.size
  stages : ∀ t, s.StageExact (s.stage t)
  chains : ∀ i, ∀ info ∈ s.table i, hashPtr info.ptr = i
  untracked : s.untracked = []

/-- Proper use: tracking is not switched off, there is room for each record, and what is freed or
resized is a block that no thread has in hand. -/
def Proper (s : MemoryState T) (a : T × MemoryAction) : Prop :=
  match a.2 with
  | .setTracking enabled => enabled = true
  | .record room => room = true
  | .call (.free ptr) _ _ | .call (.realloc ptr _) _ _ =>
    ptr ≠ 0 → s.blocks ptr ≠ none ∧ ∀ t b, ¬ s.Holds t ptr b
  | _ => True

section Ptr

variable {stage : MemoryStage} {ptr : ℕ} {b : Bool}

/-- What the threads have in hand when one of them moved on. -/
theorem holds_of_update (hstage : s'.stage = Function.update s.stage t stage) {t' : T} :
    s'.Holds t' ptr b ↔ t' = t ∧ stage.holds = some (ptr, b) ∨ t' ≠ t ∧ s.Holds t' ptr b := by
  rw [Holds, hstage]
  by_cases ht : t' = t
  · subst ht
    simp
  · simp [ht, Holds]

omit [DecidableEq T] in
/-- An address that a thread has in hand is in no other hand. -/
theorem PtrExact.others (h : s.PtrExact ptr) (ht : s.Holds t ptr b) :
    ∀ t', t' ≠ t → ∀ b', ¬ s.Holds t' ptr b' :=
  fun t' hne b' ht' ↦ hne (h.one t' t b' b ht' ht)

/-- An address that the thread that moved has nothing to do with. -/
theorem PtrExact.other (h : s.PtrExact ptr) (hstage : s'.stage = Function.update s.stage t stage)
    (hold : ∀ b, ¬ s.Holds t ptr b) (hnew : ∀ b, stage.holds ≠ some (ptr, b))
    (hblocks : s'.blocks ptr = s.blocks ptr) (hrecorded : s'.Recorded ptr ↔ s.Recorded ptr) :
    s'.PtrExact ptr := by
  have hholds (t' : T) (b : Bool) : s'.Holds t' ptr b ↔ s.Holds t' ptr b := by
    rw [holds_of_update hstage]
    refine ⟨fun h ↦ h.elim (fun h ↦ absurd h.2 (hnew b)) And.right, fun h ↦ .inr ⟨?_, h⟩⟩
    rintro rfl
    exact hold b h
  refine ⟨fun t₁ t₂ b₁ b₂ h₁ h₂ ↦ ?_, fun t₁ b₁ h₁ ↦ ?_, fun hnot ↦ ?_⟩
  · exact h.one t₁ t₂ b₁ b₂ ((hholds t₁ b₁).1 h₁) ((hholds t₂ b₂).1 h₂)
  · rw [hblocks, hrecorded]
    exact h.held t₁ b₁ ((hholds t₁ b₁).1 h₁)
  · rw [hblocks, hrecorded]
    exact h.notHeld fun t₁ b₁ h₁ ↦ hnot t₁ b₁ ((hholds t₁ b₁).2 h₁)

/-- An address that the thread that moved has in hand now. -/
theorem PtrExact.take (hothers : ∀ t', t' ≠ t → ∀ b, ¬ s.Holds t' ptr b)
    (hstage : s'.stage = Function.update s.stage t stage) (hnew : stage.holds = some (ptr, b))
    (hblocks : s'.blocks ptr ≠ none) (hrecorded : b = true ↔ s'.Recorded ptr) :
    s'.PtrExact ptr := by
  have hholds {t' : T} {b' : Bool} (h : s'.Holds t' ptr b') : t' = t ∧ b' = b := by
    obtain ⟨rfl, hb⟩ | ⟨hne, h⟩ := (holds_of_update hstage).1 h
    · exact ⟨rfl, (Prod.mk.inj (Option.some.inj (hb.symm.trans hnew))).2⟩
    · exact absurd h (hothers t' hne b')
  refine ⟨fun t₁ t₂ b₁ b₂ h₁ h₂ ↦ (hholds h₁).1.trans (hholds h₂).1.symm, fun t₁ b₁ h₁ ↦ ?_,
    fun hnot ↦ absurd ((holds_of_update hstage).2 (.inl ⟨rfl, hnew⟩)) (hnot t b)⟩
  obtain ⟨-, rfl⟩ := hholds h₁
  exact ⟨hblocks, hrecorded⟩

/-- An address that the thread that moved, and no other, had in hand. -/
theorem PtrExact.drop (hothers : ∀ t', t' ≠ t → ∀ b, ¬ s.Holds t' ptr b)
    (hstage : s'.stage = Function.update s.stage t stage)
    (hnew : ∀ b, stage.holds ≠ some (ptr, b)) (h : s'.blocks ptr ≠ none ↔ s'.Recorded ptr) :
    s'.PtrExact ptr := by
  have hnot (t' : T) (b : Bool) : ¬ s'.Holds t' ptr b := by
    rw [holds_of_update hstage]
    exact fun h ↦ h.elim (fun h ↦ hnew b h.2) fun h ↦ hothers t' h.1 b h.2
  exact ⟨fun t₁ _ b₁ _ h₁ ↦ absurd h₁ (hnot t₁ b₁), fun t₁ b₁ h₁ ↦ absurd h₁ (hnot t₁ b₁),
    fun _ ↦ h⟩

omit [DecidableEq T] in
/-- What a thread has in hand is seen in the block of its address alone. -/
theorem StageExact.congr (h : s.StageExact stage)
    (hblocks : ∀ p b, stage.holds = some (p, b) → s'.blocks p = s.blocks p) :
    s'.StageExact stage := by
  cases stage with
  | recording info => exact (hblocks _ _ rfl).trans h
  | adding info => exact (hblocks _ _ rfl).trans h
  | resizing ptr size file line old =>
    obtain ⟨info, hold, hsize⟩ := h
    exact ⟨info, hold, (hblocks _ _ rfl).trans hsize⟩
  | _ => trivial

/-- A thread moves on: blocks may change that no other thread has in hand and that have no record,
and records of blocks may be added or removed. -/
theorem Exact.move (hs : s.Exact) (t : T) (stage : MemoryStage)
    (hstage : s'.stage = Function.update s.stage t stage)
    (henabled : s'.trackingEnabled = true) (huntracked : s'.untracked = [])
    (hptrs : ∀ p, s'.PtrExact p)
    (hblocks : ∀ p, s'.blocks p = s.blocks p ∨
      (∀ t', t' ≠ t → ∀ b, ¬ s.Holds t' p b) ∧ ¬ s'.Recorded p)
    (hnodup : (s'.entries.map AllocInfo.ptr).Nodup)
    (hentries : ∀ info ∈ s'.entries, info ∈ s.entries ∨ s.blocks info.ptr = some info.size)
    (hnew : s'.StageExact stage)
    (hchains : ∀ i, ∀ info ∈ s'.table i, info ∈ s.table i ∨ hashPtr info.ptr = i) :
    s'.Exact where
  enabled := henabled
  ptrs := hptrs
  nodup := hnodup
  sizes info hinfo := by
    have hsize : s.blocks info.ptr = some info.size :=
      (hentries info hinfo).elim (hs.sizes info) id
    obtain hsame | ⟨-, hnot⟩ := hblocks info.ptr
    · exact hsame.trans hsize
    · exact absurd (List.mem_map_of_mem hinfo) hnot
  stages t' := by
    by_cases ht : t' = t
    · subst ht
      rw [hstage, Function.update_self]
      exact hnew
    · rw [hstage, Function.update_of_ne ht]
      refine (hs.stages t').congr fun p b hholds ↦ (hblocks p).resolve_right ?_
      exact fun hnot ↦ hnot.1 t' ht b hholds
  chains i info hinfo := (hchains i info hinfo).elim (hs.chains i info) id
  untracked := huntracked

end Ptr

/-! ### The steps keep the records exact -/

section Steps

variable {ptr : ℕ} {info : AllocInfo} {purpose : RemovePurpose}

theorem Exact.goto (hs : s.Exact) (stage : MemoryStage)
    (hptrs : ∀ p, (s.goto t stage).PtrExact p) (hnew : s.StageExact stage) :
    (s.goto t stage).Exact :=
  hs.move t stage rfl hs.enabled hs.untracked hptrs (fun _ ↦ .inl rfl) hs.nodup
    (fun _ h ↦ .inl h) (hnew.congr fun _ _ _ ↦ rfl) fun _ _ h ↦ .inl h

/-- A thread moves on with the same in hand. -/
theorem Exact.goto_of_eq (hs : s.Exact) (stage : MemoryStage)
    (h : stage.holds = (s.stage t).holds) (hnew : s.StageExact stage) :
    (s.goto t stage).Exact := by
  refine hs.goto stage (fun p ↦ ?_) hnew
  by_cases hhold : ∃ b, s.Holds t p b
  · obtain ⟨b, hb⟩ := hhold
    obtain ⟨hblock, hrecorded⟩ := (hs.ptrs p).held t b hb
    exact .take ((hs.ptrs p).others hb) rfl (h.trans hb) hblock hrecorded
  · exact (hs.ptrs p).other rfl (not_exists.1 hhold) (fun b hb ↦ hhold ⟨b, h.symm.trans hb⟩) rfl
      Iff.rfl

/-- A thread takes a block that no thread has in hand. -/
theorem Exact.take (hs : s.Exact) (hout : (s.stage t).holds = none)
    (hptr : s.blocks ptr ≠ none ∧ ∀ t b, ¬ s.Holds t ptr b) :
    (s.goto t (.testing ptr purpose)).Exact := by
  refine hs.goto _ (fun p ↦ ?_) trivial
  by_cases hp : p = ptr
  · subst hp
    have hrecorded := ((hs.ptrs p).notHeld hptr.2).1 hptr.1
    exact .take (fun t' _ b ↦ hptr.2 t' b) rfl rfl hptr.1 (iff_of_true rfl hrecorded)
  · refine (hs.ptrs p).other rfl (fun b hb ↦ ?_) (fun b hb ↦ ?_) rfl Iff.rfl
    · exact absurd (hout.symm.trans hb) (by simp)
    · exact hp (Prod.mk.inj (Option.some.inj hb)).1.symm

/-- The allocator answers a block. -/
theorem Exact.allocated {size : ℕ} {file : String} {line : ℕ} (hs : s.Exact)
    (hout : (s.stage t).holds = none) (hfree : s.isFree ptr size = true) :
    Exact { s.goto t (.recording ⟨ptr, size, file, line⟩) with
      blocks := Function.update s.blocks ptr (some size) } := by
  have hnone : s.blocks ptr = none := by
    simp only [isFree, Bool.and_eq_true, Option.isNone_iff_eq_none] at hfree
    exact hfree.1.2
  have hnot (t : T) (b : Bool) : ¬ s.Holds t ptr b := fun h ↦ ((hs.ptrs ptr).held t b h).1 hnone
  have hunrecorded : ¬ s.Recorded ptr := fun h ↦ ((hs.ptrs ptr).notHeld hnot).2 h hnone
  refine hs.move t (.recording ⟨ptr, size, file, line⟩) rfl hs.enabled
    hs.untracked (fun p ↦ ?_) (fun p ↦ ?_) hs.nodup (fun _ h ↦ .inl h)
    (Function.update_self ..) fun _ _ h ↦ .inl h
  · by_cases hp : p = ptr
    · subst hp
      refine .take (fun t' _ b ↦ hnot t' b) rfl rfl ?_ (iff_of_false Bool.false_ne_true hunrecorded)
      have hself : Function.update s.blocks p (some size) p = some size := Function.update_self ..
      exact fun hp ↦ absurd (hself.symm.trans hp) (Option.some_ne_none size)
    · refine (hs.ptrs p).other rfl (fun b hb ↦ ?_) (fun b hb ↦ ?_) (Function.update_of_ne hp ..)
        Iff.rfl
      · exact absurd (hout.symm.trans hb) (by simp)
      · exact hp (Prod.mk.inj (Option.some.inj hb)).1.symm
  · by_cases hp : p = ptr
    · subst hp
      exact .inr ⟨fun t' _ b ↦ hnot t' b, hunrecorded⟩
    · exact .inl (Function.update_of_ne hp ..)

/-- A record is added. -/
theorem Exact.add (hs : s.Exact) (hstage : s.stage t = .adding info) :
    ((s.addAllocation info).goto t .outside).Exact := by
  have hperm := s.entries_addAllocation info
  have hmem (p : ℕ) : ((s.addAllocation info).goto t .outside).Recorded p ↔
      p = info.ptr ∨ s.Recorded p := by
    rw [Recorded, Recorded]
    exact (hperm.map AllocInfo.ptr).mem_iff.trans List.mem_cons
  have hheld : s.Holds t info.ptr false := congrArg MemoryStage.holds hstage
  have hsize : s.blocks info.ptr = some info.size := by
    have hst := hs.stages t
    rw [hstage] at hst
    exact hst
  obtain ⟨hblock, hrecorded⟩ := (hs.ptrs info.ptr).held t false hheld
  have hunrecorded : ¬ s.Recorded info.ptr := fun h ↦ Bool.false_ne_true (hrecorded.2 h)
  refine hs.move t .outside rfl hs.enabled hs.untracked (fun p ↦ ?_)
    (fun p ↦ .inl rfl) ?_ (fun i hi ↦ ?_) trivial fun i i' hi ↦ ?_
  · by_cases hp : p = info.ptr
    · subst hp
      exact .drop ((hs.ptrs _).others hheld) rfl (fun b hb ↦ by cases hb)
        (iff_of_true hblock ((hmem _).2 (.inl rfl)))
    · refine (hs.ptrs p).other rfl (fun b hb ↦ ?_) (fun b hb ↦ by cases hb) rfl ?_
      · exact hp (Prod.mk.inj (Option.some.inj (hheld.symm.trans hb))).1.symm
      · exact (hmem p).trans (or_iff_right hp)
  · exact ((hperm.map AllocInfo.ptr).nodup_iff).2 (List.nodup_cons.2 ⟨hunrecorded, hs.nodup⟩)
  · obtain rfl | hi := List.mem_cons.1 (hperm.mem_iff.1 hi)
    · exact .inr hsize
    · exact .inl hi
  · by_cases hbucket : i = hashPtr info.ptr
    · subst hbucket
      have hself : ((s.addAllocation info).goto t .outside).table (hashPtr info.ptr) =
          info :: s.table (hashPtr info.ptr) := Function.update_self ..
      rw [hself] at hi
      obtain rfl | hi := List.mem_cons.1 hi
      · exact .inr rfl
      · exact .inl hi
    · have hother : ((s.addAllocation info).goto t .outside).table i = s.table i :=
        Function.update_of_ne hbucket ..
      exact .inl (hother ▸ hi)

/-- A record is removed; it is there. -/
theorem Exact.remove (hs : s.Exact) (hstage : s.stage t = .removing ptr purpose) :
    ((s.removeAllocation ptr).2.afterRemove t ptr (s.removeAllocation ptr).1 purpose).Exact := by
  have hheld : s.Holds t ptr true := congrArg MemoryStage.holds hstage
  obtain ⟨hblock, hrecorded⟩ := (hs.ptrs ptr).held t true hheld
  obtain ⟨info₀, hinfo₀, hptr₀⟩ := List.mem_map.1 (hrecorded.1 rfl)
  obtain ⟨i, -, hinfo₀⟩ := List.mem_flatMap.1 hinfo₀
  have hbucket : i = hashPtr ptr := (hs.chains i info₀ hinfo₀).symm.trans (congrArg hashPtr hptr₀)
  cases hfound : removeFromChain ptr (s.table (hashPtr ptr)) with
  | none => exact absurd hptr₀ (removeFromChain_eq_none.1 hfound info₀ (hbucket ▸ hinfo₀))
  | some r =>
    obtain ⟨hptr, hperm, hremove⟩ := removeAllocation_of_some hfound
    obtain ⟨-, hchain⟩ := removeFromChain_eq_some hfound
    have hnodup := ((hperm.map AllocInfo.ptr).nodup_iff).1 hs.nodup
    rw [List.map_cons, List.nodup_cons, hptr] at hnodup
    have hmem (p : ℕ) : s.Recorded p ↔ p = ptr ∨ (s.removeAllocation ptr).2.Recorded p := by
      have hiff := (hperm.map AllocInfo.ptr).mem_iff (a := p)
      rwa [List.map_cons, List.mem_cons, hptr] at hiff
    have hsize : s.blocks ptr = some r.1.size :=
      hptr ▸ hs.sizes r.1 (hperm.mem_iff.2 List.mem_cons_self)
    -- What remains is the same for both purposes: the thread has the address in hand, and its
    -- record is gone.
    have hmove (stage : MemoryStage) (s' : MemoryState T) (hholds : stage.holds = some (ptr, false))
        (hst : s'.stage = Function.update s.stage t stage)
        (henabled : s'.trackingEnabled = true) (huntracked : s'.untracked = [])
        (hblocks : s'.blocks = s.blocks)
        (htable : s'.table = Function.update s.table (hashPtr ptr) r.2)
        (hnew : s'.StageExact stage) : s'.Exact := by
      have hentries : s'.entries = (s.removeAllocation ptr).2.entries :=
        entries_congr (htable.trans (congrArg (·.2.table) hremove).symm)
      have hgone : ¬ s'.Recorded ptr := by
        rw [Recorded, hentries]
        exact hnodup.1
      refine hs.move t stage hst henabled huntracked (fun p ↦ ?_)
        (fun p ↦ .inl (congrFun hblocks p)) (by rw [hentries]; exact hnodup.2)
        (fun info hinfo ↦ ?_) hnew fun i info hinfo ↦ ?_
      · by_cases hp : p = ptr
        · subst hp
          exact .take ((hs.ptrs p).others hheld) hst hholds (hblocks ▸ hblock)
            (iff_of_false Bool.false_ne_true hgone)
        · refine (hs.ptrs p).other hst (fun b hb ↦ ?_) (fun b hb ↦ ?_) (congrFun hblocks p) ?_
          · exact hp (Prod.mk.inj (Option.some.inj (hheld.symm.trans hb))).1.symm
          · exact hp (Prod.mk.inj (Option.some.inj (hholds.symm.trans hb))).1.symm
          · rw [hmem p, or_iff_right hp, Recorded, hentries, Recorded]
      · rw [hentries] at hinfo
        exact .inl (hperm.mem_iff.2 (List.mem_cons_of_mem _ hinfo))
      · rw [htable] at hinfo
        by_cases hi : i = hashPtr ptr
        · subst hi
          rw [Function.update_self] at hinfo
          exact .inl (hchain.mem_iff.2 (List.mem_cons_of_mem _ hinfo))
        · rw [Function.update_of_ne hi] at hinfo
          exact .inl hinfo
    cases purpose with
    | free =>
      refine hmove (.releasing ptr) _ rfl ?_ ?_ ?_ ?_ ?_ trivial <;> rw [hremove]
      exacts [rfl, hs.enabled, hs.untracked, rfl, rfl]
    | resize size file line =>
      refine hmove (.resizing ptr size file line (s.removeAllocation ptr).1) _ rfl ?_ ?_ ?_ ?_ ?_
        ⟨r.1, ?_, ?_⟩ <;> rw [hremove]
      exacts [rfl, hs.enabled, hs.untracked, rfl, rfl, hsize]

/-- A block is given back. -/
theorem Exact.release (hs : s.Exact) (hstage : s.stage t = .releasing ptr) :
    Exact { s.goto t .outside with blocks := Function.update s.blocks ptr none } := by
  have hheld : s.Holds t ptr false := congrArg MemoryStage.holds hstage
  obtain ⟨-, hrecorded⟩ := (hs.ptrs ptr).held t false hheld
  have hunrecorded : ¬ s.Recorded ptr := fun h ↦ Bool.false_ne_true (hrecorded.2 h)
  refine hs.move t .outside rfl hs.enabled hs.untracked (fun p ↦ ?_) (fun p ↦ ?_) hs.nodup
    (fun _ h ↦ .inl h) trivial fun _ _ h ↦ .inl h
  · by_cases hp : p = ptr
    · subst hp
      refine .drop ((hs.ptrs p).others hheld) rfl (fun b hb ↦ by cases hb) ?_
      exact iff_of_false (fun h ↦ h (Function.update_self ..)) hunrecorded
    · refine (hs.ptrs p).other rfl (fun b hb ↦ ?_) (fun b hb ↦ by cases hb)
        (Function.update_of_ne hp ..) Iff.rfl
      exact hp (Prod.mk.inj (Option.some.inj (hheld.symm.trans hb))).1.symm
  · by_cases hp : p = ptr
    · subst hp
      exact .inr ⟨(hs.ptrs p).others hheld, hunrecorded⟩
    · exact .inl (Function.update_of_ne hp ..)

/-- A block is resized, where it is or elsewhere. -/
theorem Exact.resized {size new : ℕ} {file : String} {line : ℕ} {old : Option AllocInfo}
    (hs : s.Exact) (hstage : s.stage t = .resizing ptr size file line old)
    (hnew : new = ptr ∨ s.isFree new size = true) :
    Exact { s.goto t (.recording ⟨new, size, file, line⟩) with
      blocks := Function.update (Function.update s.blocks ptr none) new (some size) } := by
  have hheld : s.Holds t ptr false := congrArg MemoryStage.holds hstage
  obtain ⟨-, hrecorded⟩ := (hs.ptrs ptr).held t false hheld
  have hunrecorded : ¬ s.Recorded ptr := fun h ↦ Bool.false_ne_true (hrecorded.2 h)
  have hnewfree (hne : new ≠ ptr) : (∀ t b, ¬ s.Holds t new b) ∧ ¬ s.Recorded new := by
    have hfree := hnew.resolve_left hne
    simp only [isFree, Bool.and_eq_true, Option.isNone_iff_eq_none] at hfree
    have hnot (t : T) (b : Bool) : ¬ s.Holds t new b :=
      fun h ↦ ((hs.ptrs new).held t b h).1 hfree.1.2
    exact ⟨hnot, fun h ↦ ((hs.ptrs new).notHeld hnot).2 h hfree.1.2⟩
  have hothers : (∀ t', t' ≠ t → ∀ b, ¬ s.Holds t' new b) ∧ ¬ s.Recorded new := by
    by_cases hne : new = ptr
    · subst hne
      exact ⟨(hs.ptrs new).others hheld, hunrecorded⟩
    · exact ⟨fun t' _ b ↦ (hnewfree hne).1 t' b, (hnewfree hne).2⟩
  have hself : Function.update (Function.update s.blocks ptr none) new (some size) new =
      some size := Function.update_self ..
  have hother (p : ℕ) (hp : p ≠ new) : Function.update (Function.update s.blocks ptr none) new
      (some size) p = Function.update s.blocks ptr none p := Function.update_of_ne hp ..
  refine hs.move t (.recording ⟨new, size, file, line⟩) rfl hs.enabled hs.untracked (fun p ↦ ?_)
    (fun p ↦ ?_) hs.nodup (fun _ h ↦ .inl h) hself fun _ _ h ↦ .inl h
  · by_cases hp : p = new
    · subst hp
      exact .take hothers.1 rfl rfl (fun h ↦ absurd (hself.symm.trans h) (by simp))
        (iff_of_false Bool.false_ne_true hothers.2)
    · have hnotnew (b : Bool) :
          (MemoryStage.recording ⟨new, size, file, line⟩).holds ≠ some (p, b) :=
        fun hb ↦ hp (Prod.mk.inj (Option.some.inj hb)).1.symm
      by_cases hptr : p = ptr
      · subst hptr
        refine .drop ((hs.ptrs p).others hheld) rfl hnotnew (iff_of_false ?_ hunrecorded)
        exact fun h ↦ h ((hother p hp).trans (Function.update_self ..))
      · refine (hs.ptrs p).other rfl (fun b hb ↦ ?_) hnotnew
          ((hother p hp).trans (Function.update_of_ne hptr ..)) Iff.rfl
        exact hptr (Prod.mk.inj (Option.some.inj (hheld.symm.trans hb))).1.symm
  · by_cases hp : p = new
    · subst hp
      exact .inr hothers
    · by_cases hptr : p = ptr
      · subst hptr
        exact .inr ⟨(hs.ptrs p).others hheld, hunrecorded⟩
      · exact .inl ((hother p hp).trans (Function.update_of_ne hptr ..))

theorem Exact.step (hs : s.Exact) (hproper : s.Proper (t, a))
    (h : tracking.step s (t, a) = some s') : s'.Exact := by
  have hst (stage : MemoryStage) (h : s.stage t = stage) : s.StageExact stage := h ▸ hs.stages t
  have hkeep {old : MemoryStage} (stage : MemoryStage) (h : s.stage t = old)
      (hsame : stage.holds = old.holds) : stage.holds = (s.stage t).holds :=
    hsame.trans (congrArg MemoryStage.holds h).symm
  cases moves_of_step h with
  | setTracking enabled =>
    obtain rfl : enabled = true := hproper
    have hsame : s = { s with trackingEnabled := true } :=
      congrArg (fun b ↦ { s with trackingEnabled := b }) hs.enabled
    exact hsame ▸ hs
  | call c file line hstage =>
    have hout : (s.stage t).holds = none := (hkeep .outside hstage rfl).symm
    have hstart (size : ℕ) : (s.goto t (.allocating size file line)).Exact :=
      hs.goto_of_eq _ hout.symm trivial
    cases c with
    | malloc size => exact hstart size
    | calloc nmemb size => exact hstart (nmemb * size)
    | strdup text => exact hstart (text.utf8ByteSize + 1)
    | realloc ptr size =>
      rw [MemoryCall.start]
      split_ifs with hzero hsize
      · exact hstart size
      · exact hs.take hout (hproper hzero)
      · exact hs.take hout (hproper hzero)
    | free ptr =>
      rw [MemoryCall.start]
      split_ifs with hzero
      · exact hs.goto_of_eq _ hout.symm trivial
      · exact hs.take hout (hproper hzero)
  | unallocated size file line hstage => exact hs.goto_of_eq _ (hkeep _ hstage rfl) trivial
  | allocated ptr size file line hstage hfree =>
    exact hs.allocated (hkeep .outside hstage rfl).symm hfree
  | test info hstage htracking =>
    exact hs.goto_of_eq (.adding info) (hkeep _ hstage rfl) (hst (.recording info) hstage)
  | untracked info hstage htracking => exact absurd (hs.enabled.symm.trans htracking) (by simp)
  | add info hstage => exact hs.add hstage
  | noRoom info hstage => exact absurd hproper (by simp [Proper])
  | tested ptr purpose hstage htracking => exact hs.goto_of_eq _ (hkeep _ hstage rfl) trivial
  | untested ptr purpose hstage htracking =>
    exact absurd (hs.enabled.symm.trans htracking) (by simp)
  | remove ptr purpose hstage => exact hs.remove hstage
  | release ptr hstage => exact hs.release hstage
  | resized ptr size new file line old hstage hnew => exact hs.resized hstage hnew
  | unresized ptr size file line old hstage =>
    obtain ⟨info, rfl, hsize⟩ := hst (.resizing ptr size file line old) hstage
    exact hs.goto_of_eq (.recording ⟨ptr, info.size, info.file, info.line⟩) (hkeep _ hstage rfl)
      hsize

end Steps

omit [DecidableEq T] in
theorem exact_initial : (initial : MemoryState T).Exact where
  enabled := rfl
  ptrs p := by
    have hnot (t : T) (b : Bool) : ¬ (initial : MemoryState T).Holds t p b := by rintro ⟨⟩
    refine ⟨fun t _ b _ h ↦ absurd h (hnot t b), fun t b h ↦ absurd h (hnot t b), fun _ ↦ ?_⟩
    rw [Recorded, entries_initial]
    exact iff_of_false (fun h ↦ h rfl) List.not_mem_nil
  nodup := by
    rw [entries_initial]
    exact List.nodup_nil
  sizes info h := by
    rw [entries_initial] at h
    exact absurd h List.not_mem_nil
  stages _ := trivial
  chains _ _ h := absurd h List.not_mem_nil
  untracked := rfl

end MemoryState

section Results

variable {T : Type} [DecidableEq T] {s : MemoryState T} {as : List (T × MemoryAction)}

/-- Two threads that allocate at the same time; one of the blocks is freed by the other thread. -/
def allocateTwice : List (Bool × MemoryAction) :=
  [(true, .call (.malloc 8) "a.c" 1), (false, .call (.calloc 3 8) "b.c" 2),
    (true, .allocated (some 16)), (false, .allocated (some 8208)), (false, .proceed),
    (true, .proceed), (true, .record true), (false, .record true),
    (false, .call (.free 16) "b.c" 3), (false, .proceed), (false, .proceed), (false, .proceed)]

/-- **Leaks are exact.** In a run of proper use, when all threads are outside of the allocator, the
records that are reported as leaks are the blocks that were not given back, each once and with its
size, and no block was freed without a record. -/
theorem leaks_exact (hproper : tracking.Along MemoryState.Proper .initial as)
    (hrun : tracking.run .initial as = some s) (hout : ∀ t, s.stage t = .outside) :
    (∀ ptr size, (∃ info ∈ s.entries, info.ptr = ptr ∧ info.size = size) ↔
      s.blocks ptr = some size) ∧
    (s.entries.map AllocInfo.ptr).Nodup ∧ s.untracked = [] := by
  have hs : s.Exact := StepSystem.Along.invariant
    (fun _ _ _ hs hproper hstep ↦ MemoryState.Exact.step hs hproper hstep) hproper
    MemoryState.exact_initial hrun
  refine ⟨fun ptr size ↦ ⟨?_, fun h ↦ ?_⟩, hs.nodup, hs.untracked⟩
  · rintro ⟨info, hinfo, rfl, rfl⟩
    exact hs.sizes info hinfo
  · have hnot (t : T) (b : Bool) : ¬ s.Holds t ptr b := fun hb ↦ by
      rw [MemoryState.Holds, hout t] at hb
      cases hb
    have hrecorded := ((hs.ptrs ptr).notHeld hnot).1 (h ▸ Option.some_ne_none size)
    obtain ⟨info, hinfo, rfl⟩ := List.mem_map.1 hrecorded
    exact ⟨info, hinfo, rfl, Option.some.inj ((hs.sizes info hinfo).symm.trans h)⟩

theorem leaks_exact_allocateTwice :
    ∃ s, tracking.run .initial allocateTwice = some s ∧ s.blocks 8208 = some 24 ∧
      ∀ ptr size, (∃ info ∈ s.entries, info.ptr = ptr ∧ info.size = size) ↔
        s.blocks ptr = some size := by
  have hrun : tracking.run .initial allocateTwice = some _ := rfl
  have hproper : tracking.Along MemoryState.Proper .initial allocateTwice := by
    iterate 8 refine (StepSystem.along_cons_of_step rfl).2 ⟨by first | exact trivial | rfl, ?_⟩
    refine (StepSystem.along_cons_of_step rfl).2 ⟨fun _ ↦ ⟨Option.some_ne_none 8, ?_⟩, ?_⟩
    · rintro (_ | _) b ⟨⟩
    · iterate 3 refine (StepSystem.along_cons_of_step rfl).2 ⟨trivial, ?_⟩
      exact StepSystem.along_nil
  exact ⟨_, hrun, rfl, (leaks_exact hproper hrun (by rintro (_ | _) <;> rfl)).1⟩

end Results

end PuppetC
