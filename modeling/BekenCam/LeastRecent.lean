import Mathlib.Logic.Function.Basic
import Mathlib.Tactic

/-!
# Stamps in the order of last use

Slots have holders, and a clock stamps the slot whose holder was heard. The age of a holder counts
the events since the last of its own. `Stamped` says that stamps are ordered as ages are, the
younger holder with the greater stamp, although the clock does not move with every event.
-/
namespace BekenCam

/-- The number of events since the last one that is `p`; all of them, if there is none. -/
def age {α : Type*} (p : α → Bool) (events : List α) : ℕ := events.reverse.findIdx p

section Age

variable {α : Type*} {p : α → Bool} {events : List α} {e : α}

theorem age_of_pos (h : p e = true) : age p (events ++ [e]) = 0 := by
  rw [age, List.reverse_concat, List.findIdx_cons, h]
  rfl

theorem age_of_neg (h : p e = false) : age p (events ++ [e]) = age p events + 1 := by
  rw [age, List.reverse_concat, List.findIdx_cons, h]
  rfl

end Age

structure Stamped {ι κ : Type*} (holder : ι → Option κ) (stamp : ι → ℕ) (clock : ℕ)
    (age : κ → ℕ) : Prop where
  unique : ∀ i j k, holder i = some k → holder j = some k → i = j
  stamp_le : ∀ i k, holder i = some k → stamp i ≤ clock
  distinct : ∀ i j k l, holder i = some k → holder j = some l → stamp i = stamp j → i = j
  order : ∀ i j k l, holder i = some k → holder j = some l → (stamp i < stamp j ↔ age l < age k)

namespace Stamped

variable {ι κ : Type*} {holder : ι → Option κ} {stamp : ι → ℕ} {clock : ℕ} {age age' : κ → ℕ}
  {k : κ} {i : ι}

theorem empty : Stamped (fun _ : ι => (none : Option κ)) stamp clock age :=
  ⟨nofun, nofun, nofun, nofun⟩

/-- Nobody in the table was heard. -/
theorem skip (h : Stamped holder stamp clock age)
    (hage : ∀ j l, holder j = some l → age' l = age l + 1) : Stamped holder stamp clock age' where
  unique := h.unique
  stamp_le := h.stamp_le
  distinct := h.distinct
  order i j k l hi hj := by
    rw [hage i k hi, hage j l hj, h.order i j k l hi hj]
    omega

/-- The slot `i` has its holder `k` now, heard by the latest event. -/
theorem put [DecidableEq ι] (h : Stamped holder stamp clock age)
    (halone : ∀ j, holder j = some k → j = i) (hzero : age' k = 0)
    (hage : ∀ j l, holder j = some l → l ≠ k → age' l = age l + 1) :
    Stamped (Function.update holder i (some k)) (Function.update stamp i (clock + 1)) (clock + 1)
      age' := by
  have hothers : ∀ {j l}, j ≠ i → holder j = some l → l ≠ k ∧ age' l = age l + 1 := by
    intro j l hji hj
    have hne : l ≠ k := by
      rintro rfl
      exact hji (halone j hj)
    exact ⟨hne, hage j l hj hne⟩
  refine ⟨fun a b m ha hb => ?_, fun a m ha => ?_, fun a b m n ha hb heq => ?_,
    fun a b m n ha hb => ?_⟩
  · by_cases hai : a = i <;> by_cases hbi : b = i
    · rw [hai, hbi]
    · rw [hai, Function.update_self, Option.some.injEq] at ha
      rw [Function.update_of_ne hbi] at hb
      exact absurd ha.symm (hothers hbi hb).1
    · rw [hbi, Function.update_self, Option.some.injEq] at hb
      rw [Function.update_of_ne hai] at ha
      exact absurd hb.symm (hothers hai ha).1
    · rw [Function.update_of_ne hai] at ha
      rw [Function.update_of_ne hbi] at hb
      exact h.unique a b m ha hb
  · by_cases hai : a = i
    · rw [hai, Function.update_self]
    · rw [Function.update_of_ne hai] at ha ⊢
      exact Nat.le_succ_of_le (h.stamp_le a m ha)
  · by_cases hai : a = i <;> by_cases hbi : b = i
    · rw [hai, hbi]
    · rw [Function.update_of_ne hbi] at hb
      rw [hai, Function.update_self, Function.update_of_ne hbi] at heq
      have hle := h.stamp_le b n hb
      omega
    · rw [Function.update_of_ne hai] at ha
      rw [hbi, Function.update_self, Function.update_of_ne hai] at heq
      have hle := h.stamp_le a m ha
      omega
    · rw [Function.update_of_ne hai] at ha heq
      rw [Function.update_of_ne hbi] at hb heq
      exact h.distinct a b m n ha hb heq
  · by_cases hai : a = i <;> by_cases hbi : b = i
    · rw [hai, Function.update_self, Option.some.injEq] at ha
      rw [hbi, Function.update_self, Option.some.injEq] at hb
      rw [hai, hbi, ← ha, ← hb]
      simp
    · rw [hai, Function.update_self, Option.some.injEq] at ha
      rw [Function.update_of_ne hbi] at hb
      rw [hai, Function.update_self, Function.update_of_ne hbi, ← ha, hzero]
      have hle := h.stamp_le b n hb
      omega
    · rw [hbi, Function.update_self, Option.some.injEq] at hb
      rw [Function.update_of_ne hai] at ha
      rw [hbi, Function.update_self, Function.update_of_ne hai, ← hb, hzero, (hothers hai ha).2]
      have hle := h.stamp_le a m ha
      omega
    · rw [Function.update_of_ne hai] at ha ⊢
      rw [Function.update_of_ne hbi] at hb ⊢
      rw [(hothers hai ha).2, (hothers hbi hb).2, h.order a b m n ha hb]
      omega

theorem free [DecidableEq ι] (h : Stamped holder stamp clock age) (i : ι) :
    Stamped (Function.update holder i none) stamp clock age := by
  have hkept : ∀ {j l}, Function.update holder i none j = some l → holder j = some l := by
    intro j l hj
    by_cases hji : j = i
    · rw [hji, Function.update_self] at hj
      cases hj
    · rwa [Function.update_of_ne hji] at hj
  exact ⟨fun a b m ha hb => h.unique a b m (hkept ha) (hkept hb),
    fun a m ha => h.stamp_le a m (hkept ha),
    fun a b m n ha hb => h.distinct a b m n (hkept ha) (hkept hb),
    fun a b m n ha hb => h.order a b m n (hkept ha) (hkept hb)⟩

/-- The holder of a least stamp is the only oldest one. -/
theorem oldest (h : Stamped holder stamp clock age) {j : ι} {l : κ} (hi : holder i = some k)
    (hleast : ∀ j, stamp i ≤ stamp j) (hj : holder j = some l) (hne : l ≠ k) : age l < age k := by
  rw [← h.order i j k l hi hj]
  rcases Nat.lt_or_eq_of_le (hleast j) with hlt | heq
  · exact hlt
  · rw [← h.distinct i j k l hi hj heq, hi, Option.some.injEq] at hj
    exact absurd hj.symm hne

end Stamped
end BekenCam
