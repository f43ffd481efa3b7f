import Mathlib.Logic.Function.Basic
import Mathlib.Tactic

/-!
# A flag with one holder

Tasks set a flag before they go on. Who finds it set already does not go on, and who has set it
clears it at the end. The flag is read and set in one step. `P` says of a task's state that the task
went on.
-/
namespace BekenCam

structure Claimed {ι W : Type*} (P : W → Prop) (flag : Bool) (task : ι → W) : Prop where
  one : ∀ i j, P (task i) → P (task j) → i = j
  flag : flag = true ↔ ∃ i, P (task i)

namespace Claimed

variable {ι W : Type*} [DecidableEq ι] {P : W → Prop} {flag : Bool} {task : ι → W} {i : ι} {w : W}

omit [DecidableEq ι] in
/-- Nobody has set a clear flag. -/
theorem nobody (h : Claimed P false task) (i : ι) : ¬P (task i) := fun hi =>
  Bool.false_ne_true (h.flag.mpr ⟨i, hi⟩)

/-- The flag was clear, and is set. -/
theorem claim (h : Claimed P false task) (hw : P w) :
    Claimed P true (Function.update task i w) := by
  have honly : ∀ j, P (Function.update task i w j) → j = i := by
    intro j hj
    by_contra hne
    rw [Function.update_of_ne hne] at hj
    exact h.nobody j hj
  refine ⟨fun j k hj hk => (honly j hj).trans (honly k hk).symm, fun _ => ⟨i, ?_⟩, fun _ => rfl⟩
  rwa [Function.update_self]

/-- A task moves on without the flag. -/
theorem move (h : Claimed P flag task) (hw : P w ↔ P (task i)) :
    Claimed P flag (Function.update task i w) := by
  have hsame : ∀ j, P (Function.update task i w j) ↔ P (task j) := by
    intro j
    by_cases hj : j = i
    · subst hj
      rwa [Function.update_self]
    · rw [Function.update_of_ne hj]
  refine ⟨fun j k hj hk => h.one j k ((hsame j).mp hj) ((hsame k).mp hk), ?_⟩
  simp only [hsame]
  exact h.flag

/-- The holder clears the flag. -/
theorem clear (h : Claimed P flag task) (hi : P (task i)) (hw : ¬P w) :
    Claimed P false (Function.update task i w) := by
  have hnone : ∀ j, ¬P (Function.update task i w j) := by
    intro j hj
    by_cases hne : j = i
    · subst hne
      rw [Function.update_self] at hj
      exact hw hj
    · rw [Function.update_of_ne hne] at hj
      exact hne (h.one j i hj hi)
  exact ⟨fun j _ hj _ => absurd hj (hnone j), fun hf => absurd hf Bool.false_ne_true,
    fun ⟨j, hj⟩ => absurd hj (hnone j)⟩

end Claimed
end BekenCam
