import PuppetC.Support.BucketTable

/-!
# Answering through a cache keyed by part of the query

A component answers queries by a function `answer`, and remembers what it answered under a key
that need not determine the query. Such a cache is transparent on a run of queries when every
answered query is followed, under its key, only by queries with the same answer.

The answer may be missing (`none`); a missing answer is not remembered. Queries for which
`bypass` holds neither read nor write the cache. The cache itself is any type `C` with a search
`find` and an insertion `store` (`CacheOps`).

## Main definitions

* `CacheOps`: search and insertion of a cache, with the law of reading back.
* `CacheOps.step`, `CacheOps.run`: one query through the cache, and a list of them.
* `CacheOps.Faithful`: every remembered answer is the answer of every query still to come.

## Main results

* `CacheOps.Faithful.step`: one query keeps the cache faithful and gets its own answer.
* `CacheOps.run_eq_map`: a run whose answered queries are only followed, under the same key, by
  queries with the same answer gets the answers of the uncached function.
-/

namespace PuppetC

/-- Search and insertion of a cache from keys to answers. -/
structure CacheOps (K A C : Type) [DecidableEq K] where
  find : C → K → Option A
  store : C → K → A → C
  find_store : ∀ c k k' a, find (store c k a) k' = if k' = k then some a else find c k'

/-- The operations of a hash table used as a cache. -/
def Table.cacheOps {κ : Type} [DecidableEq κ] (bucket : κ → ℕ) (β : Type) :
    CacheOps κ β (Table bucket β) where
  find := Table.get
  store := Table.set
  find_store := Table.get_set

namespace CacheOps

variable {Q K A C : Type} [DecidableEq K] (ops : CacheOps K A C)
variable (key : Q → K) (bypass : Q → Bool) (answer : Q → Option A)

/-- Answer one query through the cache. -/
def step (c : C) (q : Q) : Option A × C :=
  if bypass q then (answer q, c)
  else match ops.find c (key q) with
    | some a => (some a, c)
    | none => match answer q with
      | some a => (some a, ops.store c (key q) a)
      | none => (none, c)

/-- Answer a list of queries through the cache, first to last. -/
def run (c : C) : List Q → List (Option A) × C
  | [] => ([], c)
  | q :: qs =>
    let (a, c') := ops.step key bypass answer c q
    let (as, c'') := run c' qs
    (a :: as, c'')

/-- What the cache remembers under the key of a query to come is the answer of that query. -/
def Faithful (c : C) (qs : List Q) : Prop :=
  ∀ q ∈ qs, bypass q = false → ∀ a, ops.find c (key q) = some a → answer q = some a

/-- An answered query is followed, under its key, by queries with the same answer. -/
def Follows (q q' : Q) : Prop :=
  bypass q = false → bypass q' = false → key q = key q' → ∀ a, answer q = some a →
    answer q' = some a

variable {ops key bypass answer}

theorem faithful_of_find_eq_none {c : C} (hc : ∀ k, ops.find c k = none) (qs : List Q) :
    ops.Faithful key bypass answer c qs := by
  intro q _ _ a ha
  simp [hc] at ha

theorem step_of_bypass {q : Q} (hb : bypass q = true) (c : C) :
    ops.step key bypass answer c q = (answer q, c) := by
  simp [CacheOps.step, hb]

theorem step_of_hit {c : C} {q : Q} {a : A} (hb : bypass q = false)
    (hf : ops.find c (key q) = some a) : ops.step key bypass answer c q = (some a, c) := by
  simp [CacheOps.step, hb, hf]

theorem step_of_miss {c : C} {q : Q} {a : A} (hb : bypass q = false)
    (hf : ops.find c (key q) = none) (ha : answer q = some a) :
    ops.step key bypass answer c q = (some a, ops.store c (key q) a) := by
  simp [CacheOps.step, hb, hf, ha]

theorem step_of_unanswered {c : C} {q : Q} (hb : bypass q = false)
    (hf : ops.find c (key q) = none) (ha : answer q = none) :
    ops.step key bypass answer c q = (none, c) := by
  simp [CacheOps.step, hb, hf, ha]

/-- One query through a faithful cache gets its own answer, and leaves the cache faithful for
the queries after it. -/
theorem Faithful.step {c : C} {q : Q} {qs : List Q}
    (hc : ops.Faithful key bypass answer c (q :: qs))
    (hq : ∀ q' ∈ qs, Follows key bypass answer q q') :
    (ops.step key bypass answer c q).1 = answer q ∧
      ops.Faithful key bypass answer (ops.step key bypass answer c q).2 qs := by
  have hrest : ops.Faithful key bypass answer c qs := fun q' hq' ↦
    hc q' (List.mem_cons_of_mem _ hq')
  cases hb : bypass q with
  | true => simpa only [step_of_bypass hb, true_and] using hrest
  | false =>
    cases hf : ops.find c (key q) with
    | some a =>
      rw [step_of_hit hb hf]
      exact ⟨(hc q List.mem_cons_self hb a hf).symm, hrest⟩
    | none =>
      cases ha : answer q with
      | none => simpa only [step_of_unanswered hb hf ha, true_and] using hrest
      | some a =>
        rw [step_of_miss hb hf ha]
        refine ⟨rfl, fun q' hq' hb' a' hf' ↦ ?_⟩
        rw [ops.find_store] at hf'
        split_ifs at hf' with hk
        · obtain rfl := Option.some.inj hf'
          exact hq q' hq' hb hb' hk.symm a ha
        · exact hrest q' hq' hb' a' hf'

/-- Through a cache that is faithful at the start, a run gets the answers of the uncached
function when every answered query is only followed, under its key, by queries with the same
answer. -/
theorem run_eq_map {c : C} {qs : List Q} (hc : ops.Faithful key bypass answer c qs)
    (hqs : qs.Pairwise (Follows key bypass answer)) :
    (ops.run key bypass answer c qs).1 = qs.map answer := by
  induction qs generalizing c with
  | nil => rfl
  | cons q qs ih =>
    obtain ⟨hq, hqs⟩ := List.pairwise_cons.1 hqs
    obtain ⟨hans, hnext⟩ := hc.step hq
    simp only [run, List.map_cons, ih hnext hqs, hans]

end CacheOps

end PuppetC
