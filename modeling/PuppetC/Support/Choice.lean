import Mathlib.Data.List.Basic

/-!
# The choice of an option

A list of options, some of which have a test. The first option whose test passes is chosen, or
else the last option without a test. With two tests of which one is stricter than the other, the
choices are the same unless the first option that passes the weak test fails the strict one.

## Main definitions

* `choice`: what comes with the option that is chosen.
* `choiceIndex`: the place of this option.

## Main results

* `choice_eq_or`: tests are tried before the defaults.
* `choiceIndex_eq_iff`: when two tests choose the same option.
-/

namespace PuppetC

variable {α β γ : Type}

/-- The first option whose test passes, or else the last one without a test, or else `default`. -/
def choice (passes : α → Bool) (default : Option β) : List (Option α × β) → Option β
  | [] => default
  | (none, b) :: rest => choice passes (some b) rest
  | (some a, b) :: rest => if passes a then some b else choice passes default rest

/-- The options with a test. -/
def tested (options : List (Option α × β)) : List (α × β) :=
  options.filterMap fun o ↦ o.1.map fun a ↦ (a, o.2)

/-- The last option without a test. -/
def lastUntested (options : List (Option α × β)) : Option β :=
  ((options.filter fun o ↦ o.1.isNone).getLast?).map Prod.snd

variable {passes : α → Bool}

/-! ### Tests and defaults -/

theorem lastUntested_cons_none (b : β) (options : List (Option α × β)) :
    lastUntested ((none, b) :: options) = (lastUntested options).or (some b) := by
  rw [lastUntested, lastUntested, List.filter_cons_of_pos (by rfl), List.getLast?_cons]
  cases (options.filter fun o ↦ o.1.isNone).getLast? <;> rfl

theorem lastUntested_cons_some (a : α) (b : β) (options : List (Option α × β)) :
    lastUntested ((some a, b) :: options) = lastUntested options := by
  rw [lastUntested, lastUntested, List.filter_cons_of_neg (by simp)]

/-- The options with a test are tried first, then the defaults. -/
theorem choice_eq_or (default : Option β) (options : List (Option α × β)) :
    choice passes default options = (((tested options).find? fun o ↦ passes o.1).map Prod.snd).or
      ((lastUntested options).or default) := by
  induction options generalizing default with
  | nil => rfl
  | cons o options ih =>
    obtain ⟨_ | a, b⟩ := o
    · rw [choice, ih, lastUntested_cons_none, Option.or_assoc, Option.some_or]
      rfl
    · rw [choice, lastUntested_cons_some, tested, List.filterMap_cons_some (by rfl),
        List.find?_cons]
      cases hpass : passes a with
      | true => rfl
      | false => exact ih default

theorem choice_map (f : β → γ) (default : Option β) (options : List (Option α × β)) :
    choice passes (default.map f) (options.map (Prod.map id f)) =
      (choice passes default options).map f := by
  induction options generalizing default with
  | nil => rfl
  | cons o options ih =>
    obtain ⟨_ | a, b⟩ := o
    · exact ih (some b)
    · rw [List.map_cons, Prod.map_apply, id_eq, choice, choice, apply_ite (Option.map f), ih]
      rfl

/-- Options are passed over while no test passes. -/
theorem choice_append_of_forall (default : Option β) {pre : List (Option α × β)}
    (hpre : ∀ a b, (some a, b) ∈ pre → passes a = false) (post : List (Option α × β)) :
    choice passes default (pre ++ post) = choice passes ((lastUntested pre).or default) post := by
  induction pre generalizing default with
  | nil => rfl
  | cons o pre ih =>
    have hrest := fun d ↦ ih d fun a b hb ↦ hpre a b (List.mem_cons_of_mem _ hb)
    obtain ⟨_ | a, b⟩ := o
    · rw [List.cons_append, choice, hrest, lastUntested_cons_none, Option.or_assoc, Option.some_or]
    · rw [List.cons_append, choice, hpre a b List.mem_cons_self, if_neg Bool.false_ne_true, hrest,
        lastUntested_cons_some]

/-- What is chosen comes with an option whose test passes, if it has one. -/
theorem mem_of_choice_eq_some {default : Option β} {options : List (Option α × β)} {b : β}
    (h : choice passes default options = some b) :
    default = some b ∨ ∃ o ∈ options, o.2 = b ∧ ∀ a, o.1 = some a → passes a := by
  induction options generalizing default with
  | nil => exact .inl h
  | cons o options ih =>
    obtain ⟨_ | a, c⟩ := o
    · rcases ih h with hc | ⟨o, ho, hb⟩
      · exact .inr ⟨(none, c), List.mem_cons_self, Option.some_inj.mp hc, by simp⟩
      · exact .inr ⟨o, List.mem_cons_of_mem _ ho, hb⟩
    · rw [choice] at h
      split_ifs at h with hpass
      · exact .inr ⟨(some a, c), List.mem_cons_self, Option.some_inj.mp h, by simpa using hpass⟩
      · rcases ih h with hd | ⟨o, ho, hb⟩
        · exact .inl hd
        · exact .inr ⟨o, List.mem_cons_of_mem _ ho, hb⟩

/-! ### Places -/

/-- The place of the option that is chosen. -/
def choiceIndex (passes : α → Bool) (options : List (Option α)) : Option ℕ :=
  choice passes none options.zipIdx

variable {options pre post : List (Option α)} {a : α} {k : ℕ}

theorem choiceIndex_of_forall (h : ∀ a, some a ∈ options → passes a = false) :
    choiceIndex passes options = lastUntested options.zipIdx := by
  have hnone : ∀ a i, (some a, i) ∈ options.zipIdx → passes a = false :=
    fun a i hi ↦ h a (List.fst_mem_of_mem_zipIdx hi)
  have hall := choice_append_of_forall none hnone []
  rwa [List.append_nil, choice, Option.or_none] at hall

theorem choiceIndex_append_cons (hpre : ∀ b, some b ∈ pre → passes b = false) (ha : passes a) :
    choiceIndex passes (pre ++ some a :: post) = some pre.length := by
  have hnone : ∀ b i, (some b, i) ∈ pre.zipIdx → passes b = false :=
    fun b i hi ↦ hpre b (List.fst_mem_of_mem_zipIdx hi)
  rw [choiceIndex, List.zipIdx_append, choice_append_of_forall none hnone, List.zipIdx_cons, choice,
    if_pos ha, Nat.zero_add]

theorem passes_of_choiceIndex (h : choiceIndex passes options = some k)
    (ha : options[k]? = some (some a)) : passes a := by
  rcases mem_of_choice_eq_some h with hnone | ⟨o, ho, rfl, hpass⟩
  · cases hnone
  · rw [List.mem_zipIdx_iff_getElem?, ha] at ho
    exact hpass a (Option.some_inj.mp ho).symm

/-- The first option that passes a test. -/
theorem exists_first (h : ∃ a, some a ∈ options ∧ passes a) :
    ∃ pre a post, options = pre ++ some a :: post ∧ passes a ∧
      ∀ b, some b ∈ pre → passes b = false := by
  obtain ⟨a, ha, hpass⟩ := h
  obtain ⟨o, hfind⟩ := Option.isSome_iff_exists.mp
    (List.find?_isSome (p := fun o ↦ Option.any passes o).mpr ⟨some a, ha, hpass⟩)
  obtain ⟨ho, pre, post, rfl, hpre⟩ := List.find?_eq_some_iff_append.mp hfind
  cases o with
  | none => cases ho
  | some a => exact ⟨pre, a, post, rfl, ho, fun b hb ↦ by simpa using hpre _ hb⟩

/-- Two tests, one stricter than the other, choose the same option exactly if before every option
that passes the weak test only there is one that passes the strict test. -/
theorem choiceIndex_eq_iff {strict weak : α → Bool} (hweak : ∀ a, strict a → weak a) :
    choiceIndex strict options = choiceIndex weak options ↔
      ∀ pre a post, options = pre ++ some a :: post → weak a → strict a = false →
        ∃ b, some b ∈ pre ∧ strict b := by
  have hstrict {b : α} (hb : weak b = false) : strict b = false :=
    Bool.eq_false_iff.mpr fun h ↦ Bool.false_ne_true (hb.symm.trans (hweak b h))
  constructor
  · rintro heq pre a post rfl ha hfail
    by_contra! hnone
    have hmem : some a ∈ pre ++ [some a] := by simp
    obtain ⟨pre', b, post', hsplit, hb, hpre'⟩ := exists_first ⟨a, hmem, ha⟩
    have hlist : pre ++ some a :: post = pre' ++ some b :: (post' ++ post) := by
      rw [← List.singleton_append, ← List.append_assoc, hsplit]
      simp
    rw [hlist, choiceIndex_append_cons hpre' hb] at heq
    have hpass : strict b := passes_of_choiceIndex heq (by simp)
    have hmem : some b ∈ pre ++ [some a] := hsplit ▸ by simp
    rcases List.mem_append.mp hmem with hmem | hmem
    · exact hnone b hmem hpass
    · obtain rfl : b = a := by simpa using hmem
      exact Bool.false_ne_true (hfail.symm.trans hpass)
  · intro h
    by_cases hsome : ∃ a, some a ∈ options ∧ weak a
    · obtain ⟨pre, a, post, rfl, ha, hpre⟩ := exists_first hsome
      have hpass : strict a := by
        by_contra hfail
        obtain ⟨b, hb, hb'⟩ := h pre a post rfl ha (Bool.eq_false_iff.mpr hfail)
        exact Bool.false_ne_true ((hstrict (hpre b hb)).symm.trans hb')
      rw [choiceIndex_append_cons (fun b hb ↦ hstrict (hpre b hb)) hpass,
        choiceIndex_append_cons hpre ha]
    · have hfalse : ∀ a, some a ∈ options → weak a = false :=
        fun a ha ↦ Bool.eq_false_iff.mpr fun hpass ↦ hsome ⟨a, ha, hpass⟩
      rw [choiceIndex_of_forall hfalse, choiceIndex_of_forall fun a ha ↦ hstrict (hfalse a ha)]

end PuppetC
