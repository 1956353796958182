import PuppetC.Agent.Apply
import PuppetC.Support.TextLines

/-!
# Providers that edit a text

Some providers read a whole text into a buffer of 64 KiB, change it there and write it back. What
does not fit the buffer is not read, nor is anything behind a NUL byte.

## Main definitions

* `AgentResource.WantsPresent`: a resource is wanted.
* `readText`: what is read of a text.
* `TextApplied`: what a call of the provider answers, and the text after it.
-/

namespace PuppetC

/-- A resource is wanted unless it says otherwise. -/
def AgentResource.WantsPresent (r : AgentResource) : Prop :=
  (r.param? "ensure").getD "present".toList = "present".toList

instance (r : AgentResource) : Decidable r.WantsPresent := inferInstanceAs (Decidable (_ = _))

/-- What is read of a text into a buffer of 64 KiB. -/
def readText (stored : Bytes) : Bytes := (stored.take (64 * 1024 - 1)).takeWhile (· ≠ '\x00')

/-- `snprintf` into a buffer of the given size. -/
def cutText (size : ℕ) (t : Bytes) : Bytes := t.take (size - 1)

/-- What the call of a provider answers, and the text after it. -/
structure TextApplied where
  result : ApplyResult
  error : Option String
  text : Bytes
  deriving DecidableEq

/-- The call is successful. -/
def TextApplied.Successful (o : TextApplied) : Prop := o.result = .success ∨ o.result = .changed

instance (o : TextApplied) : Decidable o.Successful := inferInstanceAs (Decidable (_ ∨ _))

/-- A text that fits the buffer is read whole. -/
theorem readText_eq {stored : Bytes} (hsize : stored.length < 64 * 1024) (hnul : '\x00' ∉ stored) :
    readText stored = stored := by
  rw [readText, List.take_of_length_le (by omega), List.takeWhile_eq_self_iff]
  intro c hc
  exact decide_eq_true (ne_of_mem_of_not_mem hc hnul)

theorem cutText_eq {size : ℕ} {t : Bytes} (h : t.length < size) : cutText size t = t :=
  List.take_of_length_le (by omega)

end PuppetC
