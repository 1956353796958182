import Mathlib.Tactic.Common
import Mathlib.Data.List.Nodup
import Mathlib.Logic.Function.Basic

/-!
# Singly linked queues

A queue of nodes that are linked by a field `next`, with a pointer to the first node (`head`) and
one to the last (`tail`): a node is added by linking the last node to it, or by making it the head
when there is no last node, and the first node is taken out by moving the head to its successor.
`LinkedQueue next head tail q` says that the pointers hold the list `q`.

## Main definitions

* `Chain next p q`: following `next` from `p` gives the nodes `q`.
* `LinkedQueue next head tail q`: the pointers of a queue that holds the nodes `q`.
* `linkLast`, `headAfterPush`, `tailAfterPop`: what adding and taking out a node do to the pointers.

## Main results

* `LinkedQueue.push`, `LinkedQueue.pop`: the pointers after adding and taking out a node.
* `LinkedQueue.tail_eq_none_iff`: the queue has a last node exactly if it has a first one.
-/

namespace PuppetC

variable {α : Type*}

/-- Following `next` from `p` gives the nodes `q`, and then no node. -/
def Chain (next : α → Option α) : Option α → List α → Prop
  | p, [] => p = none
  | p, a :: q => p = some a ∧ Chain next (next a) q

@[simp] theorem chain_nil {next : α → Option α} {p : Option α} : Chain next p [] ↔ p = none :=
  Iff.rfl

@[simp] theorem chain_cons {next : α → Option α} {p : Option α} {a : α} {q : List α} :
    Chain next p (a :: q) ↔ p = some a ∧ Chain next (next a) q :=
  Iff.rfl

namespace Chain

variable {next next' : α → Option α} {p : Option α} {q r : List α}

/-- A chain only depends on the links of its own nodes. -/
theorem congr (h : ∀ a ∈ q, next' a = next a) (hq : Chain next p q) : Chain next' p q := by
  induction q generalizing p with
  | nil => exact hq
  | cons a q ih =>
    refine ⟨hq.1, ?_⟩
    rw [h a List.mem_cons_self]
    exact ih (fun b hb ↦ h b (List.mem_cons_of_mem a hb)) hq.2

/-- The nodes of a chain are determined by its links. -/
theorem unique (hq : Chain next p q) (hr : Chain next p r) : q = r := by
  induction q generalizing p r with
  | nil =>
    cases r with
    | nil => rfl
    | cons b r => exact absurd (hq.symm.trans hr.1) (by simp)
  | cons a q ih =>
    cases r with
    | nil => exact absurd (hr.symm.trans hq.1) (by simp)
    | cons b r =>
      obtain rfl : a = b := Option.some.inj (hq.1.symm.trans hr.1)
      rw [ih hq.2 hr.2]

theorem eq_none_iff (hq : Chain next p q) : p = none ↔ q = [] := by
  cases q with
  | nil => simpa using hq
  | cons a q => simp [hq.1]

end Chain

section Push

variable [DecidableEq α]

/-- The links after the last node, if there is one, is linked to `a`. -/
def linkLast (next : α → Option α) (tail : Option α) (a : α) : α → Option α :=
  match tail with
  | some b => Function.update next b (some a)
  | none => next

/-- The head after `a` is added. -/
def headAfterPush (head tail : Option α) (a : α) : Option α :=
  match tail with
  | some _ => head
  | none => some a

/-- A node that nothing follows can be linked behind the last node of a chain. -/
theorem Chain.append {next : α → Option α} {p : Option α} {q : List α} {a b : α}
    (hq : Chain next p q) (hlast : q.getLast? = some b) (hnodup : q.Nodup) (ha : a ∉ q)
    (hend : next a = none) : Chain (Function.update next b (some a)) p (q ++ [a]) := by
  induction q generalizing p with
  | nil => simp at hlast
  | cons c q ih =>
    have hne : ∀ x ∈ c :: q, x ≠ a := fun x hx hxa ↦ ha (hxa ▸ hx)
    have hab : a ≠ b := fun hab ↦ hne b (List.mem_of_getLast? hlast) hab.symm
    cases q with
    | nil =>
      obtain rfl : c = b := by simpa using hlast
      simp [hq.1, Function.update_of_ne hab, hend]
    | cons d q =>
      have hlast' : (d :: q).getLast? = some b := by simpa using hlast
      have hcb : c ≠ b := by
        rintro rfl
        exact (List.nodup_cons.1 hnodup).1 (List.mem_of_getLast? hlast')
      refine ⟨hq.1, ?_⟩
      rw [Function.update_of_ne hcb]
      exact ih hq.2 hlast' hnodup.of_cons (fun h ↦ ha (List.mem_cons_of_mem c h))

end Push

/-- The last node after the first one is taken out and `head` is the new first one. -/
def tailAfterPop (head tail : Option α) : Option α :=
  match head with
  | some _ => tail
  | none => none

/-- The pointers `head` and `tail` hold a queue of the nodes `q`, each of them once. -/
structure LinkedQueue (next : α → Option α) (head tail : Option α) (q : List α) : Prop where
  chain : Chain next head q
  tail_eq : tail = q.getLast?
  nodup : q.Nodup

namespace LinkedQueue

variable {next next' : α → Option α} {head tail : Option α} {q : List α} {a : α}

theorem empty : LinkedQueue next none none [] :=
  ⟨rfl, rfl, List.nodup_nil⟩

theorem head_eq_none_iff (h : LinkedQueue next head tail q) : head = none ↔ q = [] :=
  h.chain.eq_none_iff

theorem tail_eq_none_iff (h : LinkedQueue next head tail q) : tail = none ↔ head = none := by
  rw [h.head_eq_none_iff, h.tail_eq, List.getLast?_eq_none_iff]

theorem congr (h : LinkedQueue next head tail q) (hq : ∀ a ∈ q, next' a = next a) :
    LinkedQueue next' head tail q :=
  ⟨h.chain.congr hq, h.tail_eq, h.nodup⟩

/-- A new node that nothing follows is added behind the last one. -/
theorem push [DecidableEq α] (h : LinkedQueue next head tail q) (ha : a ∉ q)
    (hend : next a = none) :
    LinkedQueue (linkLast next tail a) (headAfterPush head tail a) (some a) (q ++ [a]) := by
  refine ⟨?_, by simp, h.nodup.append (List.nodup_singleton a) (by simpa using ha)⟩
  cases htail : tail with
  | none =>
    obtain rfl : q = [] := h.head_eq_none_iff.1 (h.tail_eq_none_iff.1 htail)
    exact ⟨rfl, hend⟩
  | some b => exact h.chain.append (h.tail_eq.symm.trans htail) h.nodup ha hend

/-- The first node is taken out. -/
theorem pop (h : LinkedQueue next head tail (a :: q)) :
    LinkedQueue next (next a) (tailAfterPop (next a) tail) q := by
  refine ⟨h.chain.2, ?_, h.nodup.of_cons⟩
  cases q with
  | nil => rw [show next a = none from h.chain.2]; rfl
  | cons b q => rw [h.chain.2.1, h.tail_eq, List.getLast?_cons_cons]; rfl

/-- The node that a nonempty queue gives out is its first. -/
theorem exists_cons (h : LinkedQueue next head tail q) (hhead : head = some a) :
    ∃ q', q = a :: q' := by
  cases q with
  | nil => exact absurd (hhead.symm.trans h.chain) (by simp)
  | cons b q' => exact ⟨q', by rw [Option.some.inj (hhead.symm.trans h.chain.1)]⟩

end LinkedQueue

end PuppetC
