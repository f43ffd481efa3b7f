import Mathlib.Logic.Function.Basic
import Mathlib.Data.List.Basic
import Mathlib.Data.List.Nodup
import Mathlib.Tactic

/-!
# Objects with one owner

Objects are numbered in the order of their creation. A place holds at most one of them, and those
that are gone are listed. `OwnedOnce` says that every object is in one place only until it is gone,
and gone only once.
-/
namespace BekenCam

structure OwnedOnce {P : Type} (slot : P → Option ℕ) (gone : List ℕ) (next : ℕ) : Prop where
  slot_lt : ∀ p r, slot p = some r → r < next
  gone_lt : ∀ r ∈ gone, r < next
  unique : ∀ p q r, slot p = some r → slot q = some r → p = q
  not_gone : ∀ p r, slot p = some r → r ∉ gone
  nodup : gone.Nodup
  kept : ∀ r < next, r ∈ gone ∨ ∃ p, slot p = some r

namespace OwnedOnce

variable {P : Type} [DecidableEq P] {slot : P → Option ℕ} {gone : List ℕ} {next : ℕ} {p q : P}

omit [DecidableEq P] in
theorem empty : OwnedOnce (fun _ : P => none) [] 0 :=
  ⟨nofun, nofun, nofun, nofun, List.nodup_nil, nofun⟩

/-- A new object in an empty place. -/
theorem create (h : OwnedOnce slot gone next) (hp : slot p = none) :
    OwnedOnce (Function.update slot p (some next)) gone (next + 1) := by
  have hcases : ∀ q r, Function.update slot p (some next) q = some r →
      (q = p ∧ r = next) ∨ (q ≠ p ∧ slot q = some r) := by
    intro q r hq
    rw [Function.update_apply] at hq
    split_ifs at hq with hqp
    · exact .inl ⟨hqp, (Option.some.inj hq).symm⟩
    · exact .inr ⟨hqp, hq⟩
  refine ⟨?_, fun r hr => Nat.lt_succ_of_lt (h.gone_lt r hr), ?_, ?_, h.nodup, ?_⟩
  · intro q r hq
    rcases hcases q r hq with ⟨-, rfl⟩ | ⟨-, hq⟩
    · exact Nat.lt_succ_self _
    · exact Nat.lt_succ_of_lt (h.slot_lt q r hq)
  · intro a b r ha hb
    rcases hcases a r ha with ⟨hap, har⟩ | ⟨-, hsa⟩ <;>
      rcases hcases b r hb with ⟨hbp, hbr⟩ | ⟨-, hsb⟩
    · rw [hap, hbp]
    · exact absurd (h.slot_lt b r hsb) (by omega)
    · exact absurd (h.slot_lt a r hsa) (by omega)
    · exact h.unique a b r hsa hsb
  · intro q r hq hgone
    rcases hcases q r hq with ⟨-, rfl⟩ | ⟨-, hq⟩
    · exact absurd (h.gone_lt _ hgone) (Nat.lt_irrefl _)
    · exact h.not_gone q r hq hgone
  · intro r hr
    rcases Nat.lt_succ_iff_lt_or_eq.mp hr with hr | rfl
    · refine (h.kept r hr).imp_right fun ⟨q, hq⟩ => ⟨q, ?_⟩
      have hqp : q ≠ p := by
        rintro rfl
        simp [hp] at hq
      rw [Function.update_of_ne hqp]
      exact hq
    · exact .inr ⟨p, Function.update_self ..⟩

/-- A place hands over what it has. -/
theorem move (h : OwnedOnce slot gone next) (hq : slot q = none) (hne : p ≠ q) :
    OwnedOnce (Function.update (Function.update slot p none) q (slot p)) gone next := by
  have hcases : ∀ a r, Function.update (Function.update slot p none) q (slot p) a = some r →
      (a = q ∧ slot p = some r) ∨ (a ≠ p ∧ a ≠ q ∧ slot a = some r) := by
    intro a r ha
    rw [Function.update_apply, Function.update_apply] at ha
    split_ifs at ha with haq hap
    · exact .inl ⟨haq, ha⟩
    · exact .inr ⟨hap, haq, ha⟩
  refine ⟨?_, h.gone_lt, ?_, ?_, h.nodup, ?_⟩
  · intro a r ha
    rcases hcases a r ha with ⟨-, ha⟩ | ⟨-, -, ha⟩ <;> exact h.slot_lt _ r ha
  · intro a b r ha hb
    rcases hcases a r ha with ⟨haq, hsa⟩ | ⟨hap, -, hsa⟩ <;>
      rcases hcases b r hb with ⟨hbq, hsb⟩ | ⟨hbp, -, hsb⟩
    · rw [haq, hbq]
    · exact absurd (h.unique b p r hsb hsa) hbp
    · exact absurd (h.unique a p r hsa hsb) hap
    · exact h.unique a b r hsa hsb
  · intro a r ha
    rcases hcases a r ha with ⟨-, ha⟩ | ⟨-, -, ha⟩ <;> exact h.not_gone _ r ha
  · intro r hr
    refine (h.kept r hr).imp_right fun ⟨a, ha⟩ => ?_
    by_cases hap : a = p
    · exact ⟨q, by rw [Function.update_self, ← hap, ha]⟩
    · have haq : a ≠ q := by
        rintro rfl
        simp [hq] at ha
      exact ⟨a, by rw [Function.update_of_ne haq, Function.update_of_ne hap, ha]⟩

/-- What a place has is gone. -/
theorem discard (h : OwnedOnce slot gone next) (p : P) :
    OwnedOnce (Function.update slot p none) ((slot p).toList ++ gone) next := by
  have hcases : ∀ a r, Function.update slot p none a = some r → a ≠ p ∧ slot a = some r := by
    intro a r ha
    rw [Function.update_apply] at ha
    split_ifs at ha with hap
    exact ⟨hap, ha⟩
  have hmem : ∀ r, r ∈ (slot p).toList ++ gone ↔ slot p = some r ∨ r ∈ gone := by simp
  refine ⟨?_, ?_, ?_, ?_, ?_, ?_⟩
  · exact fun a r ha => h.slot_lt a r (hcases a r ha).2
  · intro r hr
    rcases (hmem r).mp hr with hr | hr
    · exact h.slot_lt p r hr
    · exact h.gone_lt r hr
  · exact fun a b r ha hb => h.unique a b r (hcases a r ha).2 (hcases b r hb).2
  · intro a r ha hr
    obtain ⟨hap, ha⟩ := hcases a r ha
    rcases (hmem r).mp hr with hr | hr
    · exact hap (h.unique a p r ha hr)
    · exact h.not_gone a r ha hr
  · cases hp : slot p with
    | none => exact h.nodup
    | some r => exact List.nodup_cons.mpr ⟨h.not_gone p r hp, h.nodup⟩
  · intro r hr
    rw [hmem]
    rcases h.kept r hr with hgone | ⟨a, ha⟩
    · exact .inl (.inr hgone)
    · by_cases hap : a = p
      · exact .inl (.inl (hap ▸ ha))
      · exact .inr ⟨a, by rw [Function.update_of_ne hap, ha]⟩

omit [DecidableEq P] in
/-- A new object that is gone at once. -/
theorem waste (h : OwnedOnce slot gone next) : OwnedOnce slot (next :: gone) (next + 1) := by
  refine ⟨fun p r hp => Nat.lt_succ_of_lt (h.slot_lt p r hp), ?_, h.unique, ?_, ?_, ?_⟩
  · intro r hr
    rcases List.mem_cons.mp hr with rfl | hr
    · exact Nat.lt_succ_self _
    · exact Nat.lt_succ_of_lt (h.gone_lt r hr)
  · intro p r hp hr
    rcases List.mem_cons.mp hr with rfl | hr
    · exact absurd (h.slot_lt p _ hp) (Nat.lt_irrefl _)
    · exact h.not_gone p r hp hr
  · exact List.nodup_cons.mpr ⟨fun hr => Nat.lt_irrefl _ (h.gone_lt _ hr), h.nodup⟩
  · intro r hr
    rcases Nat.lt_succ_iff_lt_or_eq.mp hr with hr | rfl
    · exact (h.kept r hr).imp_left (List.mem_cons_of_mem _)
    · exact .inl List.mem_cons_self

end OwnedOnce
end BekenCam
