import Mathlib.Order.Basic

/-!
# Programs over a signature of operations

A program either returns or performs an operation and goes on with its answer. The operations
are the elements of a family `E`, indexed by the type of the answer; a handler gives them a
meaning on a state `σ`, where they may fail. Recursive procedures are operations too: their
bodies are programs, and a supply of fuel bounds the depth of their calls.

What holds of every operation holds of every program, by induction on the program, and of every
procedure at every fuel, by induction on the fuel. The rules below package these inductions, so
that a statement about a whole interpreter reduces to statements about its operations.

## Main definitions

* `Prog`: programs, with their monad structure.
* `Handler`, `Prog.run`: the meaning of operations and of programs.
* `Calls`, `Calls.handler`: a signature with procedures and their meaning at a given fuel.
* `Handler.Preserves`, `Handler.Agree`: operations that keep an invariant, or a relation between
  the states of two runs.
* `Prog.Returns`, `Prog.Simulates`: runs at some fuel, and programs that return the same from
  related states.
* `Handler.stopAt`, `Prog.Fails`: runs that stop before an operation.

## Main results

* `Prog.run_bind`: a sequence of two programs runs one after the other.
* `Handler.Preserves.run`, `Calls.preserves`: invariants of operations are invariants of
  programs and of procedures.
* `Handler.Agree.run`, `Calls.agree`: the same for two runs in related states.
* `Calls.meets`: the rule for procedures that meet their contracts.
* `Calls.handler_mono`: more fuel does not change an answer.
* `Prog.returns_bind_iff`, `Prog.Returns.unique`: runs whose fuel is not named.
* `Prog.Simulates.bind`: simulations of programs from simulations of their parts.
-/

namespace PuppetC

/-- Programs over the operations `E` with results in `α`. -/
inductive Prog (E : Type → Type) (α : Type) : Type 1 where
  | ret (a : α)
  | op {β : Type} (e : E β) (k : β → Prog E α)

/-- The meaning of operations on a state, with failures `ε`. -/
abbrev Handler (E : Type → Type) (σ ε : Type) : Type 1 :=
  (β : Type) → E β → σ → Except ε (β × σ)

/-- A run whose observation is known returns, and ends in a state with this observation. -/
theorem exists_ok_of_observed {ε α σ γ : Type} {x : Except ε (α × σ)} {f : σ → γ} {c : γ}
    (h : x.toOption.map (fun r ↦ f r.2) = some c) : ∃ a s, x = .ok (a, s) ∧ f s = c := by
  cases x with
  | error e => cases h
  | ok r => exact ⟨r.1, r.2, rfl, by simpa [Except.toOption] using h⟩

namespace Prog

variable {E F : Type → Type} {σ ε α β γ : Type}

/-- Run one program, then another on its result. -/
def bind : Prog E α → (α → Prog E β) → Prog E β
  | ret a, f => f a
  | op e k, f => op e fun b ↦ bind (k b) f

instance : Monad (Prog E) where
  pure := ret
  bind := bind

/-- The program that performs one operation. -/
def perform (e : E α) : Prog E α := op e ret

/-- Replace the operations of a program by others. -/
def translate (f : (β : Type) → E β → F β) : Prog E α → Prog F α
  | ret a => ret a
  | op e k => op (f _ e) fun b ↦ translate f (k b)

/-- The meaning of a program. -/
def run (h : Handler E σ ε) : Prog E α → σ → Except ε (α × σ)
  | ret a, s => .ok (a, s)
  | op e k, s =>
    match h _ e s with
    | .error x => .error x
    | .ok (b, s') => run h (k b) s'

@[simp] theorem run_pure (h : Handler E σ ε) (a : α) (s : σ) :
    (pure a : Prog E α).run h s = .ok (a, s) := rfl

@[simp] theorem run_perform (h : Handler E σ ε) (e : E α) (s : σ) :
    (perform e).run h s = h α e s := by
  simp only [perform, run]
  cases h α e s <;> rfl

theorem run_bind (h : Handler E σ ε) (p : Prog E α) (f : α → Prog E β) (s : σ) :
    (p >>= f).run h s =
      match p.run h s with
      | .error x => .error x
      | .ok (a, s') => (f a).run h s' := by
  change (p.bind f).run h s = _
  induction p generalizing s with
  | ret a => rfl
  | op e k ih =>
    simp only [bind, run]
    cases h _ e s with
    | error x => rfl
    | ok r => exact ih r.1 r.2

/-- A sequence returns exactly when both parts do. -/
theorem run_bind_eq_ok {h : Handler E σ ε} {p : Prog E α} {f : α → Prog E β} {s : σ}
    {r : β × σ} :
    (p >>= f).run h s = .ok r ↔
      ∃ a s', p.run h s = .ok (a, s') ∧ (f a).run h s' = .ok r := by
  rw [run_bind]
  cases hp : p.run h s with
  | error x => simp
  | ok q => simp [Prod.ext_iff, and_assoc]

theorem run_translate (h : Handler F σ ε) (f : (β : Type) → E β → F β) (p : Prog E α) (s : σ) :
    (p.translate f).run h s = p.run (fun β e ↦ h β (f β e)) s := by
  induction p generalizing s with
  | ret a => rfl
  | op e k ih =>
    simp only [translate, run]
    cases h _ (f _ e) s with
    | error x => rfl
    | ok r => exact ih r.1 r.2

end Prog

/-! ### Invariants and related runs -/

namespace Handler

variable {E : Type → Type} {σ τ ε α : Type}

/-- Every operation keeps the invariant `I`. -/
def Preserves (h : Handler E σ ε) (I : σ → Prop) : Prop :=
  ∀ β (e : E β) s b s', I s → h β e s = .ok (b, s') → I s'

/-- A program keeps what its operations keep. -/
theorem Preserves.run {h : Handler E σ ε} {I : σ → Prop} (hI : h.Preserves I) (p : Prog E α)
    {s : σ} {a : α} {s' : σ} (hs : I s) (hrun : p.run h s = .ok (a, s')) : I s' := by
  induction p generalizing s with
  | ret b =>
    obtain ⟨-, rfl⟩ : b = a ∧ s = s' := by simpa [Prog.run] using hrun
    exact hs
  | op e k ih =>
    simp only [Prog.run] at hrun
    cases he : h _ e s with
    | error x => simp [he] at hrun
    | ok r =>
      rw [he] at hrun
      exact ih r.1 (hI _ e s r.1 r.2 hs he) hrun

/-- Results of two runs agree: both fail alike, or both return the same answer in related
states. -/
def SameOutcome (R : σ → τ → Prop) (x : Except ε (α × σ)) (y : Except ε (α × τ)) : Prop :=
  match x, y with
  | .ok (a, s), .ok (b, t) => a = b ∧ R s t
  | .error e, .error e' => e = e'
  | _, _ => False

/-- Every operation, in related states, has the same outcome under both handlers. -/
def Agree (h : Handler E σ ε) (h' : Handler E τ ε) (R : σ → τ → Prop) : Prop :=
  ∀ β (e : E β) s t, R s t → SameOutcome R (h β e s) (h' β e t)

/-- A program agrees on related states when its operations do. -/
theorem Agree.run {h : Handler E σ ε} {h' : Handler E τ ε} {R : σ → τ → Prop}
    (hR : h.Agree h' R) (p : Prog E α) {s : σ} {t : τ} (hst : R s t) :
    SameOutcome R (p.run h s) (p.run h' t) := by
  induction p generalizing s t with
  | ret a => exact ⟨rfl, hst⟩
  | op e k ih =>
    have he := hR _ e s t hst
    simp only [Prog.run]
    cases hx : h _ e s with
    | error x =>
      cases hy : h' _ e t with
      | error y => simpa only [SameOutcome, hx, hy] using he
      | ok q => simp [SameOutcome, hx, hy] at he
    | ok r =>
      cases hy : h' _ e t with
      | error y => simp [SameOutcome, hx, hy] at he
      | ok q =>
        simp only [SameOutcome, hx, hy] at he
        obtain ⟨hb, hst'⟩ := he
        simpa only [hb] using ih q.1 hst'

end Handler

/-! ### Procedures -/

/-- Operations `O` together with calls of procedures `C`. -/
inductive Calls (C O : Type → Type) (β : Type) : Type where
  | call (c : C β)
  | prim (o : O β)

namespace Calls

variable {C O : Type → Type} {σ τ ε α : Type}

/-- The meaning of operations and procedures when calls may be nested `fuel` deep. Deeper calls
fail with `out`. -/
def handler (body : (β : Type) → C β → Prog (Calls C O) β) (h : Handler O σ ε) (out : ε) :
    ℕ → Handler (Calls C O) σ ε
  | _, β, .prim o => h β o
  | 0, _, .call _ => fun _ ↦ .error out
  | fuel + 1, β, .call c => (body β c).run (handler body h out fuel)

variable {body : (β : Type) → C β → Prog (Calls C O) β} {h : Handler O σ ε} {out : ε}

/-- An invariant of the operations is an invariant of the procedures. -/
theorem preserves {I : σ → Prop} (hI : h.Preserves I) (fuel : ℕ) :
    (handler body h out fuel).Preserves I := by
  induction fuel with
  | zero =>
    intro β e s b s' hs hrun
    cases e with
    | call c => simp [handler] at hrun
    | prim o => exact hI β o s b s' hs hrun
  | succ fuel ih =>
    intro β e s b s' hs hrun
    cases e with
    | call c => exact ih.run (body β c) hs hrun
    | prim o => exact hI β o s b s' hs hrun

/-- Procedures agree on related states when the operations do. -/
theorem agree {h' : Handler O τ ε} {R : σ → τ → Prop} (hR : h.Agree h' R) (fuel : ℕ) :
    (handler body h out fuel).Agree (handler body h' out fuel) R := by
  induction fuel with
  | zero =>
    intro β e s t hst
    cases e with
    | call c => rfl
    | prim o => exact hR β o s t hst
  | succ fuel ih =>
    intro β e s t hst
    cases e with
    | call c => exact ih.run (body β c) hst
    | prim o => exact hR β o s t hst

/-- The rule for procedures: if each body meets its contract when the calls in it do, then every
call meets its contract. -/
theorem meets {R : (β : Type) → C β → σ → β → σ → Prop}
    (hbody : ∀ hd : Handler (Calls C O) σ ε, (∀ β (o : O β), hd β (.prim o) = h β o) →
      (∀ β (c : C β) s b s', hd β (.call c) s = .ok (b, s') → R β c s b s') →
      ∀ β (c : C β) s b s', (body β c).run hd s = .ok (b, s') → R β c s b s')
    (fuel : ℕ) {β : Type} {c : C β} {s : σ} {b : β} {s' : σ}
    (hrun : handler body h out fuel β (.call c) s = .ok (b, s')) : R β c s b s' := by
  induction fuel generalizing β c s b s' with
  | zero => simp [handler] at hrun
  | succ fuel ih =>
    exact hbody (handler body h out fuel) (fun β o ↦ by cases fuel <;> rfl)
      (fun β c s b s' hrun ↦ ih hrun) β c s b s' hrun

/-- An answer is the same with more fuel. -/
theorem handler_mono {fuel fuel' : ℕ} (hle : fuel ≤ fuel') {β : Type} (e : Calls C O β) {s : σ}
    {r : β × σ} (hr : handler body h out fuel β e s = .ok r) :
    handler body h out fuel' β e s = .ok r := by
  induction fuel generalizing fuel' β e s r with
  | zero =>
    cases e with
    | call c => simp [handler] at hr
    | prim o => cases fuel' <;> exact hr
  | succ fuel ih =>
    obtain ⟨fuel', rfl⟩ : ∃ n, fuel' = n + 1 := ⟨fuel' - 1, by omega⟩
    cases e with
    | prim o => exact hr
    | call c =>
      have hmono : ∀ (p : Prog (Calls C O) β) s r,
          p.run (handler body h out fuel) s = .ok r →
            p.run (handler body h out fuel') s = .ok r := by
        intro p
        induction p with
        | ret a => exact fun s r hr ↦ hr
        | op e k ihk =>
          intro s r hr
          simp only [Prog.run] at hr ⊢
          cases he : handler body h out fuel _ e s with
          | error x => simp [he] at hr
          | ok q =>
            rw [ih (by omega) e he]
            exact ihk q.1 q.2 r (by simpa only [he] using hr)
      exact hmono _ _ _ hr

end Calls

/-! ### Families of handlers -/

namespace Handler

variable {E : Type → Type} {σ τ ε α β : Type}

/-- What one handler of a family answers, the later ones answer too. -/
def Increasing (hs : ℕ → Handler E σ ε) : Prop :=
  ∀ m n, m ≤ n → ∀ β (e : E β) s r, hs m β e s = .ok r → hs n β e s = .ok r

/-- What one handler of an increasing family lets a program return, the later ones do too. -/
theorem Increasing.run {hs : ℕ → Handler E σ ε} (h : Increasing hs) {m n : ℕ} (hmn : m ≤ n)
    (p : Prog E α) {s : σ} {r : α × σ} (hrun : p.run (hs m) s = .ok r) :
    p.run (hs n) s = .ok r := by
  induction p generalizing s with
  | ret a => exact hrun
  | op e k ih =>
    simp only [Prog.run] at hrun ⊢
    cases he : hs m _ e s with
    | error x => simp [he] at hrun
    | ok q =>
      rw [h m n hmn _ e s q he]
      exact ih q.1 (by simpa only [he] using hrun)

/-- The same meaning, but `stop` operations fail with the state they are performed in. -/
def stopAt (h : Handler E σ ε) (stop : (β : Type) → E β → Bool) : Handler E σ (ε ⊕ σ) :=
  fun β e s ↦ if stop β e then .error (.inr s) else (h β e s).mapError .inl

theorem stopAt_eq_ok_iff {h : Handler E σ ε} {stop : (β : Type) → E β → Bool} {e : E β} {s : σ}
    {r : β × σ} : h.stopAt stop β e s = .ok r ↔ stop β e = false ∧ h β e s = .ok r := by
  rw [stopAt]
  cases stop β e <;> cases h β e s <;> simp [Except.mapError]

theorem Increasing.stopAt {hs : ℕ → Handler E σ ε} (h : Increasing hs)
    (stop : (β : Type) → E β → Bool) : Increasing fun n ↦ (hs n).stopAt stop := by
  intro m n hmn β e s r hr
  obtain ⟨hstop, hr⟩ := stopAt_eq_ok_iff.1 hr
  exact stopAt_eq_ok_iff.2 ⟨hstop, h m n hmn β e s r hr⟩

end Handler

/-- Handlers at growing fuel are an increasing family. -/
theorem Calls.increasing {C O : Type → Type} {σ ε : Type}
    {body : (β : Type) → C β → Prog (Calls C O) β} {h : Handler O σ ε} {out : ε} :
    Handler.Increasing (Calls.handler body h out) :=
  fun _ _ hmn _ e _ _ hr ↦ Calls.handler_mono hmn e hr

namespace Prog

variable {E : Type → Type} {σ ε α β : Type} {hs : ℕ → Handler E σ ε}

/-- Some handler of a family lets a program return. -/
def Returns (hs : ℕ → Handler E σ ε) (p : Prog E α) (s : σ) (a : α) (s' : σ) : Prop :=
  ∃ n, p.run (hs n) s = .ok (a, s')

theorem returns_pure_iff {a b : α} {s s' : σ} :
    (pure a : Prog E α).Returns hs s b s' ↔ b = a ∧ s' = s := by
  simp only [Returns, run_pure, Except.ok.injEq, Prod.mk.injEq, exists_const]
  exact and_congr eq_comm eq_comm

theorem returns_perform_iff {e : E α} {s s' : σ} {a : α} :
    (perform e).Returns hs s a s' ↔ ∃ n, hs n α e s = .ok (a, s') := by
  simp only [Returns, run_perform]

/-- A sequence returns what its parts return one after the other. -/
theorem returns_bind_iff (hinc : Handler.Increasing hs) {p : Prog E α} {f : α → Prog E β} {s s' : σ}
    {b : β} :
    (p >>= f).Returns hs s b s' ↔ ∃ a t, p.Returns hs s a t ∧ (f a).Returns hs t b s' := by
  constructor
  · rintro ⟨n, hrun⟩
    obtain ⟨a, t, hp, hf⟩ := run_bind_eq_ok.1 hrun
    exact ⟨a, t, ⟨n, hp⟩, ⟨n, hf⟩⟩
  · rintro ⟨a, t, ⟨m, hp⟩, ⟨n, hf⟩⟩
    exact ⟨max m n, run_bind_eq_ok.2 ⟨a, t, hinc.run (Nat.le_max_left m n) p hp,
      hinc.run (Nat.le_max_right m n) (f a) hf⟩⟩

theorem returns_forM_nil_iff {γ : Type} {f : γ → Prog E PUnit} {s s' : σ} {u : PUnit} :
    (([] : List γ).forM f).Returns hs s u s' ↔ s' = s :=
  returns_pure_iff.trans (and_iff_right rfl)

theorem returns_forM_cons_iff (hinc : Handler.Increasing hs) {γ : Type} {f : γ → Prog E PUnit}
    {c : γ} {cs : List γ} {s s' : σ} {u : PUnit} :
    ((c :: cs).forM f).Returns hs s u s' ↔
      ∃ t, (f c).Returns hs s ⟨⟩ t ∧ (cs.forM f).Returns hs t ⟨⟩ s' :=
  (returns_bind_iff hinc).trans ⟨fun ⟨_, h⟩ ↦ h, fun h ↦ ⟨_, h⟩⟩

theorem returns_forM_singleton_iff (hinc : Handler.Increasing hs) {γ : Type}
    {f : γ → Prog E PUnit} {c : γ} {s s' : σ} {u : PUnit} :
    ([c].forM f).Returns hs s u s' ↔ (f c).Returns hs s ⟨⟩ s' := by
  simp only [returns_forM_cons_iff hinc, returns_forM_nil_iff, exists_eq_right']

/-- A program returns in one way at most. -/
theorem Returns.unique (hinc : Handler.Increasing hs) {p : Prog E α} {s t t' : σ} {a b : α}
    (h : p.Returns hs s a t) (h' : p.Returns hs s b t') : a = b ∧ t = t' := by
  obtain ⟨m, hm⟩ := h
  obtain ⟨n, hn⟩ := h'
  have hm' := hinc.run (Nat.le_max_left m n) p hm
  rw [hinc.run (Nat.le_max_right m n) p hn] at hm'
  simpa [eq_comm] using hm'

/-- What a translated program returns. -/
theorem returns_translate_iff {F : Type → Type} {hs : ℕ → Handler F σ ε}
    {f : (β : Type) → E β → F β} {p : Prog E α} {s s' : σ} {a : α} :
    (p.translate f).Returns hs s a s' ↔ p.Returns (fun n β e ↦ hs n β (f β e)) s a s' := by
  simp only [Returns, run_translate]

/-- From some handler of a family on, a program fails with `x`. -/
def Fails (hs : ℕ → Handler E σ ε) (p : Prog E α) (s : σ) (x : ε) : Prop :=
  ∃ m, ∀ n, m ≤ n → p.run (hs n) s = .error x

/-- A program fails where its first part returns and the rest fails. -/
theorem Returns.fails_bind (hinc : Handler.Increasing hs) {p : Prog E α} {f : α → Prog E β}
    {s t : σ} {a : α} {x : ε} (hp : p.Returns hs s a t) (hf : (f a).Fails hs t x) :
    (p >>= f).Fails hs s x := by
  obtain ⟨m, hm⟩ := hp
  obtain ⟨k, hk⟩ := hf
  refine ⟨max m k, fun n hn ↦ ?_⟩
  rw [run_bind, hinc.run (Nat.le_trans (Nat.le_max_left m k) hn) p hm]
  exact hk n (Nat.le_trans (Nat.le_max_right m k) hn)

/-- A program fails where its first part fails. -/
theorem Fails.bind {p : Prog E α} (f : α → Prog E β) {s : σ} {x : ε} (hp : p.Fails hs s x) :
    (p >>= f).Fails hs s x := by
  obtain ⟨m, hm⟩ := hp
  refine ⟨m, fun n hn ↦ ?_⟩
  rw [run_bind, hm n hn]

/-! ### Simulation -/

/-- From related states, one program returns what another returns, in related states. -/
def Simulates (hs : ℕ → Handler E σ ε) (R : σ → σ → Prop) (p p' : Prog E α) : Prop :=
  ∀ s t a s', R s t → p.Returns hs s a s' → ∃ t', p'.Returns hs t a t' ∧ R s' t'

variable {R : σ → σ → Prop}

theorem Simulates.pure (a : α) : Simulates hs R (pure a) (pure a) := by
  rintro s t b s' hst hret
  obtain ⟨rfl, rfl⟩ := returns_pure_iff.1 hret
  exact ⟨t, returns_pure_iff.2 ⟨rfl, rfl⟩, hst⟩

theorem Simulates.bind (hinc : Handler.Increasing hs) {p p' : Prog E α} {f f' : α → Prog E β}
    (hp : Simulates hs R p p') (hf : ∀ a, Simulates hs R (f a) (f' a)) :
    Simulates hs R (p >>= f) (p' >>= f') := by
  intro s t b s' hst hret
  obtain ⟨a, s₁, hret, hrest⟩ := (returns_bind_iff hinc).1 hret
  obtain ⟨t₁, hret', hst₁⟩ := hp s t a s₁ hst hret
  obtain ⟨t', hrest', hst'⟩ := hf a s₁ t₁ b s' hst₁ hrest
  exact ⟨t', (returns_bind_iff hinc).2 ⟨a, t₁, hret', hrest'⟩, hst'⟩

theorem Simulates.forM (hinc : Handler.Increasing hs) {γ : Type} {f f' : γ → Prog E PUnit}
    (hf : ∀ c, Simulates hs R (f c) (f' c)) (cs : List γ) :
    Simulates hs R (cs.forM f) (cs.forM f') := by
  induction cs with
  | nil => exact .pure _
  | cons c cs ih => exact (hf c).bind hinc fun _ ↦ ih

end Prog

end PuppetC
