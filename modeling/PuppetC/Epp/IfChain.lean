import PuppetC.Epp.Tags
import Mathlib.Data.List.Basic

/-!
# The branches of an `if`

The scan of `puppet_epp_render_range` for the branches of an `if` keeps a table of at most
`MAX_IF_BRANCHES` branches, and fills in the end of a body when it meets the tag behind it. The
tags of the chain alone say which ends are filled in.

## Main definitions

* `chainTags`: the conditions of the further branches, and whether the chain is closed.
* `choosable`: the branches whose bodies may be rendered.
* `IsOpen`: a chain whose last branch may be rendered has no end.

## Main results

* `exists_choosable_unset_iff`: a body without an end may be rendered exactly if the chain is open.
-/

namespace PuppetC.Epp

variable {text : List Char} {p i stop : ℕ}

/-- The conditions of the `elsif` and `else` tags of a chain, and whether a closing tag follows. -/
def chainTags (text : List Char) (stop : ℕ) : ℕ → ℕ → ℕ → List (Option (List Char)) × Bool
  | 0, _, _ => ([], false)
  | count + 1, i, depth =>
    if IsTag text i stop then
      let inner := innerStart text i stop
      let close := innerClose text inner stop
      if text[inner]? = some '}' ∧ depth = 1 then
        match continuation text (skipWhile text isBlank (inner + 1) close) close with
        | some condition =>
          let rest := chainTags text stop count (close + 2) 1
          (condition :: rest.1, rest.2)
        | none => ([], true)
      else chainTags text stop count (i + 1) (depthAfter text inner close depth)
    else chainTags text stop count (i + 1) depth

/-- The branches of a table that are tried: those up to the first `else` whose condition is not
empty. -/
def choosable : List Branch → List Branch
  | [] => []
  | b :: bs =>
    match b.condition with
    | none => [b]
    | some [] => choosable bs
    | some (_ :: _) => b :: choosable bs

/-- A chain that is not closed in its range and not continued beyond the table, and whose last
branch comes behind no `else` and has a condition that is not empty. -/
structure IsOpen (text condition : List Char) (after stop : ℕ) : Prop where
  unclosed : (chainTags text stop (stop - after) after 1).2 = false
  short : (chainTags text stop (stop - after) after 1).1.length < maxIfBranches
  noElse : none ∉ (some condition :: (chainTags text stop (stop - after) after 1).1).dropLast
  nonempty : (chainTags text stop (stop - after) after 1).1.getLast?.getD (some condition) ≠ some []

/-! ### The table -/

/-- What a scan that starts from a table makes of it: `closed` branches whose ends are known, and a
last branch, whose end is known only if the table is full. -/
theorem scanIf_eq (text : List Char) (stop count i depth : ℕ) (closed : List Branch) (last : Branch)
    (hclosed : ∀ b ∈ closed, b.bodyEnd.isSome) (hlength : closed.length + 1 ≤ maxIfBranches)
    (hfull : last.bodyEnd.isSome → closed.length + 1 = maxIfBranches) :
    ∃ front back, (scanIf text stop count i depth closed last).1 = front ++ [back] ∧
      (∀ b ∈ front, b.bodyEnd.isSome) ∧
      (front ++ [back]).map Branch.condition =
        ((closed ++ [last]).map Branch.condition ++ (chainTags text stop count i depth).1).take
          maxIfBranches ∧
      (back.bodyEnd.isSome ↔ last.bodyEnd.isSome ∨ (chainTags text stop count i depth).2 = true ∨
        maxIfBranches ≤ closed.length + (chainTags text stop count i depth).1.length) := by
  induction count generalizing i depth closed last with
  | zero =>
    refine ⟨closed, last, rfl, hclosed, ?_, ?_⟩
    · rw [chainTags, List.append_nil, List.take_of_length_le (by simpa using hlength)]
    · simpa [chainTags] using fun h : maxIfBranches ≤ closed.length ↦ by omega
  | succ count ih =>
    dsimp only [scanIf, chainTags]
    split
    · generalize innerStart text i stop = inner
      generalize innerClose text inner stop = close
      split
      · have hended : ∀ b ∈ closed ++ [{ last with bodyEnd := some i }], b.bodyEnd.isSome :=
          List.forall_mem_append.2 ⟨hclosed, List.forall_mem_singleton.2 rfl⟩
        cases continuation text (skipWhile text isBlank (inner + 1) close) close with
        | none =>
          refine ⟨closed, { last with bodyEnd := some i }, rfl, hclosed, ?_, by simp⟩
          rw [List.append_nil, List.take_of_length_le (by simpa using hlength)]
          simp
        | some condition =>
          dsimp only
          split
          · next hspace =>
            obtain ⟨front, back, heq, hfront, hmap, hback⟩ := ih (close + 2) 1 _
              ⟨condition, behindTag text inner close stop, none⟩ hended
              (by simpa using Nat.succ_le_of_lt hspace) (by simp)
            refine ⟨front, back, heq, hfront, by simpa using hmap, ?_⟩
            have hlast : last.bodyEnd.isSome ↔ False :=
              ⟨fun h ↦ Nat.ne_of_lt hspace (hfull h), False.elim⟩
            rw [hback, hlast]
            simp [Nat.add_assoc, Nat.add_comm 1]
          · next hspace =>
            have hlength' : closed.length + 1 = maxIfBranches := by omega
            obtain ⟨front, back, heq, hfront, hmap, hback⟩ := ih (close + 2) 1 closed
              { last with bodyEnd := some i } hclosed hlength fun _ ↦ hlength'
            refine ⟨front, back, heq, hfront, ?_, ?_⟩
            · rw [hmap, List.take_append_of_le_length (by simp [hlength']),
                List.take_append_of_le_length (by simp [hlength'])]
              simp
            · rw [hback, List.length_cons]
              exact iff_of_true (.inl rfl) (.inr (.inr (by omega)))
      · exact ih _ _ closed last hclosed hlength hfull
    · exact ih _ _ closed last hclosed hlength hfull

/-- Which branches are tried, if the table has more than one. -/
theorem exists_choosable_append_iff {front : List Branch} {back : Branch}
    (hfront : ∀ b ∈ front, b.bodyEnd.isSome) :
    (∃ b ∈ choosable (front ++ [back]), b.bodyEnd = none) ↔
      back.bodyEnd = none ∧ none ∉ front.map Branch.condition ∧ back.condition ≠ some [] := by
  induction front with
  | nil =>
    rw [List.nil_append, choosable]
    cases back.condition with
    | none => simp
    | some condition =>
      cases condition with
      | nil => simp [choosable]
      | cons c cs => simp [choosable]
  | cons b front ih =>
    obtain ⟨hb, hfront⟩ := List.forall_mem_cons.1 hfront
    obtain ⟨e, he⟩ := Option.isSome_iff_exists.1 hb
    rw [List.cons_append, choosable]
    cases hcond : b.condition with
    | none => simp [he, hcond]
    | some condition =>
      cases condition with
      | nil => simp [ih hfront, hcond]
      | cons c cs => simp [ih hfront, hcond, he]

/-- A body without an end may be rendered exactly if the chain is open. -/
theorem exists_choosable_unset_iff (condition : List Char) (after : ℕ) :
    (∃ b ∈ choosable (branchTable text condition after stop).1, b.bodyEnd = none) ↔
      IsOpen text condition after stop := by
  obtain ⟨front, back, heq, hfront, hmap, hback⟩ := scanIf_eq text stop
    (stop - after) after 1 [] ⟨some condition, after, none⟩ (by simp) (by decide) (by simp)
  rw [branchTable, heq, exists_choosable_append_iff hfront]
  rw [List.nil_append, List.map_singleton, List.singleton_append] at hmap
  have hnone : back.bodyEnd = none ↔ (chainTags text stop (stop - after) after 1).2 = false ∧
      (chainTags text stop (stop - after) after 1).1.length < maxIfBranches := by
    rw [← Option.not_isSome_iff_eq_none, hback]
    simp
  -- a table that is not full has the conditions of all branches
  have hwhole (hshort : (chainTags text stop (stop - after) after 1).1.length < maxIfBranches) :
      front.map Branch.condition =
          (some condition :: (chainTags text stop (stop - after) after 1).1).dropLast ∧
        back.condition =
          (chainTags text stop (stop - after) after 1).1.getLast?.getD (some condition) := by
    rw [List.take_of_length_le (by simpa using Nat.succ_le_of_lt hshort), List.map_append,
      List.map_singleton] at hmap
    have hlast := congrArg List.getLast? hmap
    rw [List.getLast?_concat, List.getLast?_cons, Option.some.injEq] at hlast
    exact ⟨by rw [← hmap, List.dropLast_concat], hlast⟩
  constructor
  · rintro ⟨hunset, helse, hempty⟩
    obtain ⟨hopen, hshort⟩ := hnone.1 hunset
    rw [(hwhole hshort).1] at helse
    rw [(hwhole hshort).2] at hempty
    exact ⟨hopen, hshort, helse, hempty⟩
  · rintro ⟨hopen, hshort, helse, hempty⟩
    rw [(hwhole hshort).1, (hwhole hshort).2]
    exact ⟨hnone.2 ⟨hopen, hshort⟩, helse, hempty⟩

end PuppetC.Epp
