import Mathlib.Data.Set.Finite.List
import Mathlib.Logic.Relation
import Mathlib.Order.WellFounded

/-!
# Descents in finite graphs

A descent along the edges of a graph with finitely many nodes ends, whichever way it takes, exactly
if no node that it can reach reaches itself.

## Main results

* `acc_iff_forall_not_transGen`: the descents from a node end exactly if it reaches no cycle.
-/

namespace PuppetC

variable {α : Type*} {R : α → α → Prop} {a b : α}

/-- A node from which all descents end does not reach itself. -/
theorem not_transGen_of_acc (h : Acc (fun b a ↦ R a b) a) : ¬ Relation.TransGen R a a := by
  induction h with
  | intro a _ ih =>
    intro hcycle
    obtain ⟨b, hab, hba⟩ := Relation.TransGen.head'_iff.1 hcycle
    exact ih b hab (Relation.TransGen.tail' hba hab)

theorem acc_of_reflTransGen (h : Acc (fun b a ↦ R a b) a) (hab : Relation.ReflTransGen R a b) :
    Acc (fun b a ↦ R a b) b := by
  induction hab with
  | refl => exact h
  | tail _ hbc ih => exact ih.inv hbc

/-- Where edges lead to finitely many nodes, the descents from a node end if it reaches no cycle. -/
theorem acc_of_forall_not_transGen (nodes : List α) (hnodes : ∀ a b, R a b → b ∈ nodes)
    (h : ∀ b, Relation.ReflTransGen R a b → ¬ Relation.TransGen R b b) :
    Acc (fun b a ↦ R a b) a := by
  -- the nodes that are reached: there are finitely many, and none of them reaches itself
  let Reached := { b // b ∈ a :: nodes ∧ Relation.ReflTransGen R a b }
  let below (b c : Reached) : Prop := R c.1 b.1
  have hlift {b c : Reached} (hbc : Relation.TransGen below b c) :
      Relation.TransGen R c.1 b.1 := by
    induction hbc with
    | single hbc => exact .single hbc
    | tail _ hcd ih => exact .head hcd ih
  have : Finite Reached :=
    ((List.finite_toSet (a :: nodes)).subset fun b hb ↦ hb.1).to_subtype
  have : Std.Irrefl (Relation.TransGen below) := ⟨fun b hb ↦ h b.1 b.2.2 (hlift hb)⟩
  have hwf : WellFounded below :=
    Subrelation.wf (fun hbc ↦ Relation.TransGen.single hbc)
      (Finite.wellFounded_of_trans_of_irrefl (Relation.TransGen below))
  have hacc (b : Reached) : Acc (fun b a ↦ R a b) b.1 := by
    induction b using hwf.induction with
    | _ b ih =>
      exact ⟨_, fun c hbc ↦
        ih ⟨c, List.mem_cons_of_mem a (hnodes b.1 c hbc), b.2.2.tail hbc⟩ hbc⟩
  exact hacc ⟨a, List.mem_cons_self, .refl⟩

/-- The descents from a node end exactly if it reaches no cycle. -/
theorem acc_iff_forall_not_transGen (nodes : List α) (hnodes : ∀ a b, R a b → b ∈ nodes) :
    Acc (fun b a ↦ R a b) a ↔ ∀ b, Relation.ReflTransGen R a b → ¬ Relation.TransGen R b b :=
  ⟨fun h _ hab ↦ not_transGen_of_acc (acc_of_reflTransGen h hab),
    acc_of_forall_not_transGen nodes hnodes⟩

end PuppetC
