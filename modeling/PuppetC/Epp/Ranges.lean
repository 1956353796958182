import PuppetC.Epp.IfChain

/-!
# The ranges of an EPP template that are rendered

`puppet_epp_render_range` renders the body of a block by a call of itself on the range of the body.
The parser and the interpreter, which give the values of expressions, the conditions and the
iterations, are a parameter. A call on a range whose end is NULL, or that does not lie in the
template, is a fault; so is running out of `fuel`, which bounds the passes and the nested calls.

## Main definitions

* `Evaluator`: what the renderer is told about the code in a template.
* `renderFrom`, `eppRender`: `puppet_epp_render_range` and `puppet_epp_render`.
* `Reached`: the positions and ranges that the renderer may come to.

## Main results

* `eppRender_ne_fuel`: the renderer ends on every template.
* `eppRender_ok_iff`: for which templates all calls are on ranges in the template.
-/

namespace PuppetC.Epp

variable {σ : Type} {text : List Char} {p start stop : ℕ}

/-! ### The renderer -/

/-- What the renderer learns by evaluating code, in an environment `σ`: the text of a value (empty
if there is none), whether a condition is truthy, the assignments that the iterations of a loop
start with, and the environment behind statements. -/
structure Evaluator (σ : Type) where
  display : List Char → σ → List Char × σ
  truthy : List Char → σ → Bool × σ
  iterations : List Char → σ → List (σ → σ) × σ
  run : List Char → σ → σ

/-- Why a rendering does not end as it should. -/
inductive Fault where
  /-- A call on a range that does not lie in the template. -/
  | range (start : ℕ) (stop : Option ℕ)
  /-- The bound on the passes is too small. -/
  | fuel
  deriving DecidableEq

/-- The text that is rendered, with the environment behind it. -/
abbrev Rendered (σ : Type) := List Char × σ

/-- The iterations of a loop. -/
def renderEach (call : σ → Except Fault (Rendered σ)) :
    List (σ → σ) → List Char → σ → Except Fault (Rendered σ)
  | [], out, s => .ok (out, s)
  | assign :: rest, out, s => do
    let (body, s) ← call (assign s)
    renderEach call rest (out ++ body) s

/-- Whether a branch is executed. -/
def Evaluator.chooses (E : Evaluator σ) (b : Branch) (s : σ) : Bool × σ :=
  match b.condition with
  | none => (true, s)
  | some [] => (false, s)
  | some (c :: cs) => E.truthy (c :: cs) s

/-- The first branch that is executed. -/
def renderBranches (E : Evaluator σ) (call : ℕ → Option ℕ → σ → Except Fault (Rendered σ)) :
    List Branch → List Char → σ → Except Fault (Rendered σ)
  | [], out, s => .ok (out, s)
  | b :: bs, out, s =>
    match E.chooses b s with
    | (true, s) => do
      let (body, s) ← call b.bodyStart b.bodyEnd s
      .ok (out ++ body, s)
    | (false, s) => renderBranches E call bs out s

/-- What is done about an item. -/
def performItem (text : List Char) (stop : ℕ) (E : Evaluator σ)
    (call : ℕ → Option ℕ → σ → Except Fault (Rendered σ)) :
    Item → List Char → σ → Except Fault (Rendered σ)
  | .copy chars, out, s => .ok (out ++ chars, s)
  | .nothing, out, s => .ok (out, s)
  | .output expr, out, s => .ok (out ++ (E.display expr s).1, (E.display expr s).2)
  | .run code, out, s => .ok (out, E.run code s)
  | .each code bodyStart bodyEnd, out, s =>
    renderEach (call bodyStart (some bodyEnd)) (E.iterations code s).1 out (E.iterations code s).2
  | .ifChain condition after, out, s =>
    renderBranches E call (branchTable text condition after stop).1 out s

/-- A call of `puppet_epp_render_range`. -/
def callRange (text : List Char)
    (render : ℕ → ℕ → List Char → σ → Except Fault (Rendered σ)) (start : ℕ) (stop : Option ℕ)
    (s : σ) : Except Fault (Rendered σ) :=
  match stop with
  | none => .error (.range start none)
  | some stop =>
    if start ≤ stop ∧ stop ≤ text.length then render (skipHeader text start stop) stop [] s
    else .error (.range start (some stop))

/-- The main loop of `puppet_epp_render_range`, from a position on. -/
def renderFrom (text : List Char) (E : Evaluator σ) :
    ℕ → ℕ → ℕ → List Char → σ → Except Fault (Rendered σ)
  | 0, _, _, _, _ => .error .fuel
  | fuel + 1, p, stop, out, s =>
    if p < stop then do
      let step := nextStep text p stop
      let out := if step.trimBefore then out.rdropWhile isBlank else out
      let call := callRange text (renderFrom text E fuel)
      let (out, s) ← performItem text stop E call step.item out s
      renderFrom text E fuel step.next stop out s
    else .ok (out, s)

/-- `puppet_epp_render`. -/
def eppRender (text : List Char) (E : Evaluator σ) (s : σ) : Except Fault (Rendered σ) :=
  callRange text (renderFrom text E (text.length + 1)) 0 (some text.length) s

/-! ### The bodies of an item -/

/-- The ranges on which the renderer may call itself for an item. -/
def Item.bodies (text : List Char) (stop : ℕ) : Item → List (ℕ × Option ℕ)
  | .each _ bodyStart bodyEnd => [(bodyStart, some bodyEnd)]
  | .ifChain condition after =>
    (choosable (branchTable text condition after stop).1).map fun b ↦ (b.bodyStart, b.bodyEnd)
  | _ => []

theorem mem_of_mem_choosable {b : Branch} {bs : List Branch} (h : b ∈ choosable bs) : b ∈ bs := by
  induction bs with
  | nil => exact h
  | cons b' bs ih =>
    rw [choosable] at h
    split at h
    · exact List.mem_cons.2 (.inl (List.mem_singleton.1 h))
    · exact List.mem_cons_of_mem _ (ih h)
    · rcases List.mem_cons.1 h with rfl | h
      · exact List.mem_cons_self
      · exact List.mem_cons_of_mem _ (ih h)

/-- A branch that is executed is one of those that are tried. -/
theorem mem_choosable_of_chooses {E : Evaluator σ} {b : Branch} {s s' : σ} (bs : List Branch)
    (h : E.chooses b s = (true, s')) : b ∈ choosable (b :: bs) := by
  unfold choosable
  cases hcond : b.condition with
  | none => exact List.mem_singleton.2 rfl
  | some condition =>
    cases condition with
    | nil => simp [Evaluator.chooses, hcond] at h
    | cons c cs => exact List.mem_cons_self

/-- Behind a branch that is not executed, the others are tried. -/
theorem choosable_subset_of_chooses {E : Evaluator σ} {b : Branch} {s s' : σ} (bs : List Branch)
    (h : E.chooses b s = (false, s')) : choosable bs ⊆ choosable (b :: bs) := by
  intro b' hb'
  rw [choosable]
  cases hcond : b.condition with
  | none => simp [Evaluator.chooses, hcond] at h
  | some condition =>
    cases condition with
    | nil => exact hb'
    | cons c cs => exact List.mem_cons_of_mem b hb'

/-- The bodies whose ends are known lie behind the tag, in the range. -/
theorem bodies_fit (hstop : IsStop text stop) {e : ℕ}
    (h : (start, some e) ∈ (nextStep text p stop).item.bodies text stop) :
    p < start ∧ start ≤ e ∧ e ≤ stop ∧ IsStop text e := by
  have hfits := (nextStep_fits p hstop).1
  generalize (nextStep text p stop).item = item at h hfits
  cases item with
  | each code bodyStart bodyEnd =>
    cases List.mem_singleton.1 h
    exact hfits
  | ifChain condition after =>
    obtain ⟨b, hb, heq⟩ := List.mem_map.1 h
    obtain ⟨hstart, hend⟩ := Prod.mk.inj heq
    obtain ⟨hbefore, hrange⟩ := hfits b (mem_of_mem_choosable hb)
    obtain ⟨hle, hlt, htag⟩ := hrange e hend
    rw [hstart] at hbefore hle
    exact ⟨hbefore, hle, hlt.le, .of_tag htag⟩
  | _ => cases h

/-- What holds of every rendering that succeeds, and of the calls for an item, holds of what is
done about the item. -/
theorem performItem_induction {P : Except Fault (Rendered σ) → Prop} (hok : ∀ r, P (.ok r))
    {E : Evaluator σ} {call : ℕ → Option ℕ → σ → Except Fault (Rendered σ)} (item : Item)
    (hcall : ∀ body ∈ item.bodies text stop, ∀ s, P (call body.1 body.2 s)) (out : List Char)
    (s : σ) : P (performItem text stop E call item out s) := by
  have hbind (r : Except Fault (Rendered σ)) (k : List Char × σ → Except Fault (Rendered σ))
      (hr : P r) (hk : ∀ x, P (k x)) : P (r >>= k) := by
    cases r with
    | error f => exact hr
    | ok x => exact hk x
  cases item with
  | each code bodyStart bodyEnd =>
    have hbody := hcall (bodyStart, some bodyEnd) (List.mem_singleton.2 rfl)
    dsimp only [performItem]
    generalize (E.iterations code s).1 = assigns
    generalize (E.iterations code s).2 = s
    induction assigns generalizing out s with
    | nil => exact hok _
    | cons assign assigns ih => exact hbind _ _ (hbody _) fun r ↦ ih _ _
  | ifChain condition after =>
    rw [Item.bodies, List.forall_mem_map] at hcall
    dsimp only [performItem]
    generalize (branchTable text condition after stop).1 = branches at hcall
    induction branches generalizing s with
    | nil => exact hok _
    | cons b bs ih =>
      rw [renderBranches]
      cases hchoose : E.chooses b s with
      | mk chosen s' =>
        cases chosen with
        | true =>
          have hb := hcall b (mem_choosable_of_chooses bs hchoose) s'
          exact hbind _ _ hb fun _ ↦ hok _
        | false =>
          exact ih s' fun b' hb' ↦ hcall b' (choosable_subset_of_chooses bs hchoose hb')
  | _ => exact hok _

/-! ### The renderer ends -/

theorem renderFrom_ne_fuel {E : Evaluator σ} (fuel : ℕ) (hstop : IsStop text stop)
    (hfuel : stop - p < fuel) (out : List Char) (s : σ) :
    renderFrom text E fuel p stop out s ≠ .error .fuel := by
  induction fuel generalizing p stop out s with
  | zero => omega
  | succ fuel ih =>
    rw [renderFrom]
    split_ifs with hp
    · obtain ⟨-, hnext⟩ := nextStep_fits p hstop
      have hitem (out : List Char) :
          performItem text stop E (callRange text (renderFrom text E fuel))
            (nextStep text p stop).item out s ≠ .error .fuel := by
        refine performItem_induction (P := (· ≠ .error .fuel)) (by simp) _
          (fun body hbody s ↦ ?_) out s
        obtain ⟨start, e⟩ := body
        cases e with
        | none => simp [callRange]
        | some e =>
          obtain ⟨hstart, -, hle, he⟩ := bodies_fit hstop hbody
          have hskip := le_skipHeader text start e
          dsimp only [callRange]
          split_ifs
          · exact ih he (by omega) [] s
          · simp
      dsimp only
      generalize (if (nextStep text p stop).trimBefore then out.rdropWhile isBlank else out) = out
      cases hperform : performItem text stop E (callRange text (renderFrom text E fuel))
          (nextStep text p stop).item out s with
      | error f => exact fun h ↦ hitem out (hperform.trans h)
      | ok r => exact ih hstop (by omega) r.1 r.2
    · simp

/-- Rendering ends on every template, whatever the evaluator does. -/
theorem eppRender_ne_fuel (text : List Char) (E : Evaluator σ) (s : σ) :
    eppRender text E s ≠ .error .fuel := by
  rw [eppRender, callRange, if_pos ⟨Nat.zero_le _, le_rfl⟩]
  exact renderFrom_ne_fuel _ (.length text) (by omega) [] s

/-! ### Templates that are rendered for every evaluator -/

/-- The positions that the renderer may come to, each with the end of its range. -/
inductive Reached (text : List Char) : ℕ → ℕ → Prop
  | start : Reached text (skipHeader text 0 text.length) text.length
  | next {p stop : ℕ} (h : Reached text p stop) (hp : p < stop) :
      Reached text (nextStep text p stop).next stop
  | body {p stop start e : ℕ} (h : Reached text p stop) (hp : p < stop)
      (hbody : (start, some e) ∈ (nextStep text p stop).item.bodies text stop) :
      Reached text (skipHeader text start e) e

theorem Reached.isStop (h : Reached text p stop) : IsStop text stop := by
  induction h with
  | start => exact .length text
  | next h hp ih => exact ih
  | body h hp hbody ih => exact (bodies_fit ih hbody).2.2.2

/-- All chains of conditionals that the renderer may come to are closed, as far as their branches
may be rendered. -/
def IsClosed (text : List Char) : Prop :=
  ∀ p stop, Reached text p stop → p < stop → ∀ condition after,
    (nextStep text p stop).item = .ifChain condition after → ¬ IsOpen text condition after stop

theorem exists_unset_body_iff {item : Item} :
    (∃ start, (start, none) ∈ item.bodies text stop) ↔
      ∃ condition after, item = .ifChain condition after ∧ IsOpen text condition after stop := by
  cases item with
  | ifChain condition after =>
    simp only [Item.ifChain.injEq, Item.bodies, List.mem_map, Prod.mk.injEq,
      ← exists_choosable_unset_iff]
    constructor
    · rintro ⟨start, b, hb, -, hend⟩
      exact ⟨condition, after, ⟨rfl, rfl⟩, b, hb, hend⟩
    · rintro ⟨_, _, ⟨rfl, rfl⟩, b, hb, hend⟩
      exact ⟨b.bodyStart, b, hb, rfl, hend⟩
  | _ => simp [Item.bodies]

theorem renderFrom_ok {E : Evaluator σ} (hclosed : IsClosed text) (fuel : ℕ)
    (h : Reached text p stop) (hfuel : stop - p < fuel) (out : List Char) (s : σ) :
    ∃ r, renderFrom text E fuel p stop out s = .ok r := by
  induction fuel generalizing p stop out s with
  | zero => omega
  | succ fuel ih =>
    rw [renderFrom]
    split_ifs with hp
    · obtain ⟨-, hnext⟩ := nextStep_fits p h.isStop
      have hitem (out : List Char) :
          ∃ r, performItem text stop E (callRange text (renderFrom text E fuel))
            (nextStep text p stop).item out s = .ok r := by
        refine performItem_induction (P := fun r ↦ ∃ x, r = .ok x) (by simp) _
          (fun body hbody s ↦ ?_) out s
        obtain ⟨start, e⟩ := body
        cases e with
        | none =>
          obtain ⟨condition, after, heq, hopen⟩ := exists_unset_body_iff.1 ⟨start, hbody⟩
          exact absurd hopen (hclosed p stop h hp condition after heq)
        | some e =>
          obtain ⟨hstart, hle, hend, he⟩ := bodies_fit h.isStop hbody
          have hskip := le_skipHeader text start e
          rw [callRange, if_pos ⟨hle, he.le⟩]
          exact ih (h.body hp hbody) (by omega) [] s
      dsimp only
      generalize (if (nextStep text p stop).trimBefore then out.rdropWhile isBlank else out) = out
      obtain ⟨r, hr⟩ := hitem out
      rw [hr]
      exact ih (h.next hp) (by omega) r.1 r.2
    · exact ⟨_, rfl⟩

/-! ### An evaluator that follows a script -/

/-- The evaluator that takes its answers from a list: whether a condition is truthy, and how often
a loop is run. -/
def scripted : Evaluator (List ℕ) where
  display _ s := ([], s)
  truthy _ s := (s.headD 0 ≠ 0, s.tail)
  iterations _ s := (List.replicate (s.headD 0) id, s.tail)
  run _ s := s

/-- What a script makes the renderer do in a range, from a position on, within a bound. -/
def rangeRun (text : List Char) (p stop fuel : ℕ) (out : List Char) (script : List ℕ) :
    Except Fault (List Char × List ℕ) :=
  renderFrom text scripted (fuel + 1) p stop out script

/-- What it makes the renderer do about the item at a position. -/
def itemRun (text : List Char) (p stop fuel : ℕ) (out : List Char) (script : List ℕ) :
    Except Fault (List Char × List ℕ) :=
  performItem text stop scripted (callRange text (renderFrom text scripted fuel))
    (nextStep text p stop).item out script

/-- With enough fuel a run succeeds and reads the script to its end. -/
def Passes (n : ℕ) (run : ℕ → List Char → List ℕ → Except Fault (List Char × List ℕ))
    (script : List ℕ) : Prop :=
  ∀ fuel, n ≤ fuel → ∀ out rest, ∃ out', run fuel out (script ++ rest) = .ok (out', rest)

/-- With enough fuel a run is a fault. -/
def Fails (n : ℕ) (run : ℕ → List Char → List ℕ → Except Fault (List Char × List ℕ))
    (script : List ℕ) : Prop :=
  ∀ fuel, n ≤ fuel → ∀ out, ∃ f, run fuel out script = .error f

/-- A script leads to a branch that is tried. -/
theorem exists_script_branch {b : Branch} {bs : List Branch} (h : b ∈ choosable bs) :
    ∃ script, ∀ call out s, ∃ k, renderBranches scripted call bs out (script ++ s) =
      call b.bodyStart b.bodyEnd s >>= k := by
  induction bs with
  | nil => cases h
  | cons b' bs ih =>
    rw [choosable] at h
    split at h
    · next hcond =>
      rw [List.mem_singleton] at h
      subst h
      refine ⟨[], fun call out s ↦ ⟨fun r ↦ .ok (out ++ r.1, r.2), ?_⟩⟩
      simp only [List.nil_append, renderBranches, Evaluator.chooses, hcond]
    · next hcond =>
      obtain ⟨script, hscript⟩ := ih h
      refine ⟨script, fun call out s ↦ ?_⟩
      simpa only [renderBranches, Evaluator.chooses, hcond] using hscript call out s
    · next c cs hcond =>
      rcases List.mem_cons.1 h with rfl | h
      · refine ⟨[1], fun call out s ↦ ⟨fun r ↦ .ok (out ++ r.1, r.2), ?_⟩⟩
        simp [renderBranches, Evaluator.chooses, hcond, scripted]
      · obtain ⟨script, hscript⟩ := ih h
        refine ⟨0 :: script, fun call out s ↦ ?_⟩
        obtain ⟨k, hk⟩ := hscript call out s
        exact ⟨k, by rw [← hk]; simp [renderBranches, Evaluator.chooses, hcond, scripted]⟩

/-- A script leads to a body of an item. -/
theorem exists_script_body {item : Item} {body : ℕ × Option ℕ}
    (h : body ∈ item.bodies text stop) :
    ∃ script, ∀ call out s, ∃ k, performItem text stop scripted call item out (script ++ s) =
      call body.1 body.2 s >>= k := by
  cases item with
  | each code bodyStart bodyEnd =>
    rw [Item.bodies, List.mem_singleton] at h
    subst h
    exact ⟨[1], fun call out s ↦ ⟨_, rfl⟩⟩
  | ifChain condition after =>
    obtain ⟨b, hb, rfl⟩ := List.mem_map.1 h
    exact exists_script_branch hb
  | _ => cases h

/-- A script that denies all conditions leads past the branches, or to the `else`. -/
theorem exists_script_last (bs : List Branch) :
    ∃ script, (∀ call out s,
        renderBranches scripted call bs out (script ++ s) = .ok (out, s)) ∨
      ∃ b ∈ choosable bs, ∀ call out s, renderBranches scripted call bs out (script ++ s) =
        call b.bodyStart b.bodyEnd s >>= fun r ↦ .ok (out ++ r.1, r.2) := by
  induction bs with
  | nil => exact ⟨[], .inl fun _ _ _ ↦ rfl⟩
  | cons b bs ih =>
    obtain ⟨script, hscript⟩ := ih
    cases hcond : b.condition with
    | none =>
      refine ⟨[], .inr ⟨b, ?_, fun call out s ↦ ?_⟩⟩
      · simp [choosable, hcond]
      · simp only [List.nil_append, renderBranches, Evaluator.chooses, hcond]
    | some condition =>
      cases condition with
      | nil =>
        refine ⟨script, hscript.imp (fun h call out s ↦ ?_)
          (Exists.imp fun b' ↦ And.imp (fun hb' ↦ ?_) fun h ↦ ?_)⟩
        · simpa only [renderBranches, Evaluator.chooses, hcond] using h call out s
        · simpa only [choosable, hcond] using hb'
        · simpa only [renderBranches, Evaluator.chooses, hcond] using h
      | cons c cs =>
        have hskip (call : ℕ → Option ℕ → List ℕ → Except Fault (List Char × List ℕ)) (out s) :
            renderBranches scripted call (b :: bs) out (0 :: s) =
              renderBranches scripted call bs out s := by
          simp [renderBranches, Evaluator.chooses, hcond, scripted]
        refine ⟨0 :: script, hscript.imp (fun h call out s ↦ ?_)
          (Exists.imp fun b' ↦ And.imp (fun hb' ↦ ?_) fun h ↦ ?_)⟩
        · rw [List.cons_append, hskip, h]
        · rw [choosable, hcond]
          exact List.mem_cons_of_mem b hb'
        · intro call out s
          rw [List.cons_append, hskip, h]

/-- A script leads past an item, or to a body behind which the item is done with. -/
theorem exists_script_item (text : List Char) (stop : ℕ) (item : Item) :
    ∃ script, (∀ call out s, ∃ out', performItem text stop scripted call item out (script ++ s) =
        .ok (out', s)) ∨
      ∃ body ∈ item.bodies text stop, ∀ call out s,
        performItem text stop scripted call item out (script ++ s) =
          call body.1 body.2 s >>= fun r ↦ .ok (out ++ r.1, r.2) := by
  cases item with
  | each code bodyStart bodyEnd => exact ⟨[0], .inl fun call out s ↦ ⟨out, rfl⟩⟩
  | ifChain condition after =>
    obtain ⟨script, hpass | ⟨b, hb, hcall⟩⟩ :=
      exists_script_last (branchTable text condition after stop).1
    · exact ⟨script, .inl fun call out s ↦ ⟨out, hpass call out s⟩⟩
    · exact ⟨script, .inr ⟨_, List.mem_map.2 ⟨b, hb, rfl⟩, hcall⟩⟩
  | _ => exact ⟨[], .inl fun call out s ↦ ⟨_, rfl⟩⟩

/-! ### Faults reach the top -/

section Runs

variable {script rest : List ℕ}

theorem rangeRun_of_lt (hp : p < stop) (fuel : ℕ) (out : List Char) (script : List ℕ) :
    ∃ out', rangeRun text p stop (fuel + 1) out script =
      itemRun text p stop (fuel + 1) out' script >>= fun r ↦
        rangeRun text (nextStep text p stop).next stop fuel r.1 r.2 := by
  refine ⟨if (nextStep text p stop).trimBefore then out.rdropWhile isBlank else out, ?_⟩
  rw [rangeRun, renderFrom, if_pos hp]
  rfl

/-- A fault of an item is a fault of the range. -/
theorem Fails.of_item (hp : p < stop) (h : Fails (stop - p) (itemRun text p stop) script) :
    Fails (stop - p) (rangeRun text p stop) script := by
  intro fuel hfuel out
  obtain ⟨fuel, rfl⟩ := Nat.exists_eq_add_of_le' (show 1 ≤ fuel by omega)
  obtain ⟨out', heq⟩ := rangeRun_of_lt hp fuel out script
  obtain ⟨f, hf⟩ := h (fuel + 1) hfuel out'
  exact ⟨f, by rw [heq, hf]; rfl⟩

/-- So is a fault behind an item. -/
theorem Fails.of_next (hp : p < stop) (hstop : IsStop text stop)
    (hitem : Passes (stop - p) (itemRun text p stop) script)
    (h : Fails (stop - (nextStep text p stop).next)
      (rangeRun text (nextStep text p stop).next stop) rest) :
    Fails (stop - p) (rangeRun text p stop) (script ++ rest) := by
  intro fuel hfuel out
  obtain ⟨-, hnext⟩ := nextStep_fits p hstop
  obtain ⟨fuel, rfl⟩ := Nat.exists_eq_add_of_le' (show 1 ≤ fuel by omega)
  obtain ⟨out', heq⟩ := rangeRun_of_lt hp fuel out (script ++ rest)
  obtain ⟨out'', hpass⟩ := hitem (fuel + 1) hfuel out' rest
  obtain ⟨f, hf⟩ := h fuel (by omega) out''
  exact ⟨f, by rw [heq, hpass]; exact hf⟩

theorem Passes.of_next (hp : p < stop) (hstop : IsStop text stop)
    (hitem : Passes (stop - p) (itemRun text p stop) script)
    (h : Passes (stop - (nextStep text p stop).next)
      (rangeRun text (nextStep text p stop).next stop) rest) :
    Passes (stop - p) (rangeRun text p stop) (script ++ rest) := by
  intro fuel hfuel out rest'
  obtain ⟨-, hnext⟩ := nextStep_fits p hstop
  obtain ⟨fuel, rfl⟩ := Nat.exists_eq_add_of_le' (show 1 ≤ fuel by omega)
  obtain ⟨out', heq⟩ := rangeRun_of_lt hp fuel out (script ++ rest ++ rest')
  obtain ⟨out'', hpass⟩ := hitem (fuel + 1) hfuel out' (rest ++ rest')
  obtain ⟨out₃, hrest⟩ := h fuel (by omega) out'' rest'
  exact ⟨out₃, by rw [heq, List.append_assoc, hpass]; exact hrest⟩

/-- A run over the range of a body, as the call for it. -/
theorem callRange_eq {e : ℕ} (hle : start ≤ e) (he : IsStop text e) (fuel : ℕ) (s : List ℕ) :
    callRange text (renderFrom text scripted (fuel + 1)) start (some e) s =
      rangeRun text (skipHeader text start e) e fuel [] s := by
  rw [callRange, if_pos ⟨hle, he.le⟩, rangeRun]

/-- A fault in a body is a fault of its item, for some script. -/
theorem Fails.of_body (hstop : IsStop text stop) {e : ℕ}
    (hbody : (start, some e) ∈ (nextStep text p stop).item.bodies text stop)
    (h : Fails (e - skipHeader text start e) (rangeRun text (skipHeader text start e) e) rest) :
    ∃ script, Fails (stop - p) (itemRun text p stop) script := by
  obtain ⟨hstart, hle, hend, he⟩ := bodies_fit hstop hbody
  have hskip := le_skipHeader text start e
  obtain ⟨script, hscript⟩ := exists_script_body hbody
  refine ⟨script ++ rest, fun fuel hfuel out ↦ ?_⟩
  obtain ⟨fuel, rfl⟩ := Nat.exists_eq_add_of_le' (show 1 ≤ fuel by omega)
  obtain ⟨k, hk⟩ := hscript (callRange text (renderFrom text scripted (fuel + 1))) out rest
  obtain ⟨f, hf⟩ := h fuel (by omega) []
  exact ⟨f, by rw [itemRun, hk, callRange_eq hle he, hf]; rfl⟩

/-- A body without an end is a fault of its item, for some script. -/
theorem Fails.of_unset
    (hbody : (start, none) ∈ (nextStep text p stop).item.bodies text stop) :
    ∃ script, Fails (stop - p) (itemRun text p stop) script := by
  obtain ⟨script, hscript⟩ := exists_script_body hbody
  refine ⟨script ++ [], fun fuel _ out ↦ ?_⟩
  obtain ⟨k, hk⟩ := hscript (callRange text (renderFrom text scripted fuel)) out []
  exact ⟨.range start none, by rw [itemRun, hk]; rfl⟩

/-- A script either leads past an item or to a fault, if this is so for its bodies. -/
theorem item_passes_or_fails (hstop : IsStop text stop)
    (hbodies : ∀ start e, (start, some e) ∈ (nextStep text p stop).item.bodies text stop →
      ∃ script, Passes (e - skipHeader text start e) (rangeRun text (skipHeader text start e) e)
          script ∨
        Fails (e - skipHeader text start e) (rangeRun text (skipHeader text start e) e) script) :
    ∃ script, Passes (stop - p) (itemRun text p stop) script ∨
      Fails (stop - p) (itemRun text p stop) script := by
  obtain ⟨script, hpass | ⟨⟨start, e⟩, hbody, hcall⟩⟩ :=
    exists_script_item text stop (nextStep text p stop).item
  · exact ⟨script, .inl fun fuel _ out rest ↦ hpass _ out rest⟩
  · cases e with
    | none =>
      obtain ⟨script, hfails⟩ := Fails.of_unset hbody
      exact ⟨script, .inr hfails⟩
    | some e =>
      obtain ⟨hstart, hle, hend, he⟩ := bodies_fit hstop hbody
      have hskip := le_skipHeader text start e
      obtain ⟨inner, hinner | hinner⟩ := hbodies start e hbody
      · refine ⟨script ++ inner, .inl fun fuel hfuel out rest ↦ ?_⟩
        obtain ⟨fuel, rfl⟩ := Nat.exists_eq_add_of_le' (show 1 ≤ fuel by omega)
        obtain ⟨out', hout⟩ := hinner fuel (by omega) [] rest
        rw [itemRun, List.append_assoc, hcall, callRange_eq hle he, hout]
        exact ⟨out ++ out', rfl⟩
      · obtain ⟨script, hfails⟩ := Fails.of_body hstop hbody hinner
        exact ⟨script, .inr hfails⟩

/-- In every range a script either is read to its end or leads to a fault. -/
theorem range_passes_or_fails (p : ℕ) (hstop : IsStop text stop) :
    ∃ script, Passes (stop - p) (rangeRun text p stop) script ∨
      Fails (stop - p) (rangeRun text p stop) script := by
  induction hn : stop - p using Nat.strong_induction_on generalizing p stop with
  | _ n ih =>
    subst hn
    by_cases hp : p < stop
    · obtain ⟨-, hnext⟩ := nextStep_fits p hstop
      obtain ⟨script, hitem | hitem⟩ := item_passes_or_fails (p := p) hstop fun start e hbody ↦ by
        obtain ⟨hstart, hle, hend, he⟩ := bodies_fit hstop hbody
        have hskip := le_skipHeader text start e
        exact ih _ (by omega) (skipHeader text start e) he rfl
      · obtain ⟨rest, hrest⟩ := ih _ (by omega) (nextStep text p stop).next hstop rfl
        exact ⟨script ++ rest, hrest.imp (Passes.of_next hp hstop hitem)
          (Fails.of_next hp hstop hitem)⟩
      · exact ⟨script, .inr (.of_item hp hitem)⟩
    · refine ⟨[], .inl fun fuel _ out rest ↦ ⟨out, ?_⟩⟩
      rw [rangeRun, renderFrom, if_neg hp, List.nil_append]

/-- A fault at a position that the renderer may come to is a fault of the whole rendering, for some
script. -/
theorem Reached.fails_top (h : Reached text p stop)
    (hfails : ∃ script, Fails (stop - p) (rangeRun text p stop) script) :
    ∃ script f, eppRender text scripted script = .error f := by
  induction h with
  | start =>
    obtain ⟨script, hscript⟩ := hfails
    obtain ⟨f, hf⟩ := hscript text.length (Nat.sub_le _ _) []
    exact ⟨script, f, by rwa [eppRender, callRange_eq (Nat.zero_le _) (.length text)]⟩
  | next h hp ih =>
    obtain ⟨rest, hrest⟩ := hfails
    obtain ⟨script, hitem | hitem⟩ := item_passes_or_fails h.isStop fun start e hbody ↦
      range_passes_or_fails _ (bodies_fit h.isStop hbody).2.2.2
    · exact ih ⟨script ++ rest, .of_next hp h.isStop hitem hrest⟩
    · exact ih ⟨script, .of_item hp hitem⟩
  | body h hp hbody ih =>
    obtain ⟨rest, hrest⟩ := hfails
    obtain ⟨script, hitem⟩ := Fails.of_body h.isStop hbody hrest
    exact ih ⟨script, .of_item hp hitem⟩

end Runs

/-- A template is rendered by calls on ranges in the template, whatever the evaluator does, exactly
if all its conditionals are closed. -/
theorem eppRender_ok_iff (text : List Char) :
    (∀ (σ : Type) (E : Evaluator σ) (s : σ), ∃ r, eppRender text E s = .ok r) ↔
      IsClosed text := by
  constructor
  · intro hok p stop hreached hp condition after heq hopen
    obtain ⟨start, hbody⟩ := exists_unset_body_iff.2 ⟨condition, after, heq, hopen⟩
    obtain ⟨script, hitem⟩ := Fails.of_unset hbody
    obtain ⟨script, f, hf⟩ := hreached.fails_top ⟨script, .of_item hp hitem⟩
    obtain ⟨r, hr⟩ := hok (List ℕ) scripted script
    cases hf.symm.trans hr
  · intro hclosed σ E s
    rw [eppRender, callRange, if_pos ⟨Nat.zero_le _, le_rfl⟩]
    exact renderFrom_ok hclosed _ .start (by omega) [] s

/-- The only branch of `<% if $a { %>x` has no end. -/
theorem not_eppRender_ok_unclosed :
    ¬ ∀ (σ : Type) (E : Evaluator σ) (s : σ),
      ∃ r, eppRender "<% if $a \x7b %>x".toList E s = .ok r := by
  intro h
  obtain ⟨r, hr⟩ := h (List ℕ) scripted [1]
  have hfault : eppRender "<% if $a \x7b %>x".toList scripted [1] = .error (.range 13 none) := by
    decide +kernel
  cases hfault.symm.trans hr

end PuppetC.Epp
