import Mathlib.Data.Set.Card
import Mathlib.Logic.Function.Basic
import Mathlib.Data.List.Nodup
import Mathlib.Tactic

/-!
# Objects with a reference count

Objects are numbered in the order of their creation. A holder has a reference to at most one of
them. `Counted` says that the count of an object is the number of its holders, and that an object
without holders is deleted once, by the one who gave up the last reference. Until then it is owed.
-/
namespace BekenCam

structure Counted {T A : Type} (holder : T → Option ℕ) (refs : ℕ → ℕ) (owes : A → Option ℕ)
    (deleted : List ℕ) (next : ℕ) : Prop where
  count : ∀ p, {t | holder t = some p}.encard = refs p
  fresh : ∀ p, next ≤ p → refs p = 0
  owes_lt : ∀ a p, owes a = some p → p < next
  deleted_lt : ∀ p ∈ deleted, p < next
  owed : ∀ a p, owes a = some p → refs p = 0 ∧ p ∉ deleted
  unique : ∀ a b p, owes a = some p → owes b = some p → a = b
  gone : ∀ p ∈ deleted, refs p = 0
  nodup : deleted.Nodup
  kept : ∀ p < next, refs p = 0 → p ∈ deleted ∨ ∃ a, owes a = some p

namespace Counted

variable {T A : Type} {holder : T → Option ℕ} {refs : ℕ → ℕ} {owes : A → Option ℕ}
  {deleted : List ℕ} {next p : ℕ} {t u : T} {a : A}

theorem empty : Counted (fun _ : T => none) (fun _ => 0) (fun _ : A => none) [] 0 where
  count _ := by simp
  fresh _ _ := rfl
  owes_lt := nofun
  deleted_lt := nofun
  owed := nofun
  unique := nofun
  gone := nofun
  nodup := List.nodup_nil
  kept := nofun

theorem pos (h : Counted holder refs owes deleted next) (ht : holder t = some p) : 0 < refs p := by
  have hmem : t ∈ {u | holder u = some p} := ht
  have hcount := h.count p
  rcases Nat.eq_zero_or_pos (refs p) with hzero | hpos
  · rw [hzero, Nat.cast_zero, Set.encard_eq_zero] at hcount
    simp [hcount] at hmem
  · exact hpos

/-- The only holder. -/
theorem only (h : Counted holder refs owes deleted next) (hone : refs p = 1)
    (ht : holder t = some p) (hu : holder u = some p) : t = u := by
  have hcount := h.count p
  rw [hone, Nat.cast_one, Set.encard_eq_one] at hcount
  obtain ⟨x, hx⟩ := hcount
  have ht' : t ∈ {v | holder v = some p} := ht
  have hu' : u ∈ {v | holder v = some p} := hu
  rw [hx] at ht' hu'
  rw [Set.mem_singleton_iff.mp ht', Set.mem_singleton_iff.mp hu']

/-- What is held is not deleted. -/
theorem notMem_deleted (h : Counted holder refs owes deleted next) (ht : holder t = some p) :
    p ∉ deleted := by
  intro hmem
  exact absurd (h.gone p hmem) (Nat.pos_iff_ne_zero.mp (h.pos ht))

theorem lt_next (h : Counted holder refs owes deleted next) (ht : holder t = some p) :
    p < next := by
  by_contra hlt
  exact absurd (h.fresh p (by omega)) (Nat.pos_iff_ne_zero.mp (h.pos ht))

/-- An object is deleted exactly when it has no holders and nobody owes it. -/
theorem mem_deleted_iff (h : Counted holder refs owes deleted next) (hp : p < next) :
    p ∈ deleted ↔ (∀ t, holder t ≠ some p) ∧ ∀ a, owes a ≠ some p := by
  constructor
  · intro hmem
    exact ⟨fun t ht => h.notMem_deleted ht hmem, fun a ha => (h.owed a p ha).2 hmem⟩
  · rintro ⟨hnone, howes⟩
    have hcount := h.count p
    have hempty : {t | holder t = some p} = ∅ := by
      ext t
      simp [hnone t]
    rw [hempty, Set.encard_empty] at hcount
    have hzero : refs p = 0 := by exact_mod_cast hcount.symm
    rcases h.kept p hp hzero with hmem | ⟨a, ha⟩
    · exact hmem
    · exact absurd ha (howes a)

variable [DecidableEq T]

theorem encard_adopt (h : Counted holder refs owes deleted next) (ht : holder t = none) (p q : ℕ) :
    {u | Function.update holder t (some p) u = some q}.encard =
      (Function.update refs p (refs p + 1) q : ℕ) := by
  by_cases hq : q = p
  · subst hq
    have hset : {u | Function.update holder t (some q) u = some q} =
        insert t {u | holder u = some q} := by
      ext u
      by_cases hu : u = t
      · simp [hu]
      · simp [hu]
    rw [hset, Set.encard_insert_of_notMem (by simp [ht]), h.count q, Function.update_self]
    push_cast
    rfl
  · have hset : {u | Function.update holder t (some p) u = some q} = {u | holder u = some q} := by
      ext u
      by_cases hu : u = t
      · simp [hu, ht, Ne.symm hq]
      · simp [hu]
    rw [hset, h.count q, Function.update_of_ne hq]

theorem encard_release (h : Counted holder refs owes deleted next) (ht : holder t = some p)
    (q : ℕ) : {u | Function.update holder t none u = some q}.encard =
      (Function.update refs p (refs p - 1) q : ℕ) := by
  by_cases hq : q = p
  · subst hq
    have hset : {u | holder u = some q} =
        insert t {u | Function.update holder t none u = some q} := by
      ext u
      by_cases hu : u = t
      · simp [hu, ht]
      · simp [hu]
    have hcount := h.count q
    rw [hset, Set.encard_insert_of_notMem (by simp)] at hcount
    have hpos := h.pos ht
    rw [Function.update_self]
    have hsucc : (refs q : ℕ∞) = ((refs q - 1 : ℕ) : ℕ∞) + 1 := by
      exact_mod_cast (Nat.sub_add_cancel hpos).symm
    rw [hsucc] at hcount
    exact ENat.add_left_injective_of_ne_top ENat.one_ne_top hcount
  · have hset : {u | Function.update holder t none u = some q} = {u | holder u = some q} := by
      ext u
      by_cases hu : u = t
      · simp [hu, ht, Ne.symm hq]
      · simp [hu]
    rw [hset, h.count q, Function.update_of_ne hq]

/-- A new object, held by its creator. -/
theorem create (h : Counted holder refs owes deleted next) (ht : holder t = none) :
    Counted (Function.update holder t (some next)) (Function.update refs next 1) owes deleted
      (next + 1) := by
  have hzero := h.fresh next (Nat.le_refl _)
  have hcount := fun q => h.encard_adopt ht next q
  rw [hzero] at hcount
  have hold : ∀ {q}, q < next → Function.update refs next 1 q = refs q := fun hq =>
    Function.update_of_ne (Nat.ne_of_lt hq) _ _
  refine ⟨hcount, ?_, ?_, ?_, ?_, h.unique, ?_, h.nodup, ?_⟩
  · intro q hq
    rw [Function.update_of_ne (by omega)]
    exact h.fresh q (by omega)
  · exact fun a q ha => Nat.lt_succ_of_lt (h.owes_lt a q ha)
  · exact fun q hq => Nat.lt_succ_of_lt (h.deleted_lt q hq)
  · intro a q ha
    rw [hold (h.owes_lt a q ha)]
    exact h.owed a q ha
  · intro q hq
    rw [hold (h.deleted_lt q hq)]
    exact h.gone q hq
  · intro q hq hrefs
    rcases Nat.lt_succ_iff_lt_or_eq.mp hq with hlt | rfl
    · rw [hold hlt] at hrefs
      exact h.kept q hlt hrefs
    · simp at hrefs

omit [DecidableEq T] in
/-- The count changes and stays positive. -/
theorem of_pos (h : Counted holder refs owes deleted next) {holder' : T → Option ℕ} {n : ℕ}
    (hp : 0 < refs p) (hn : 0 < n)
    (hcount : ∀ q, {u | holder' u = some q}.encard = (Function.update refs p n q : ℕ)) :
    Counted holder' (Function.update refs p n) owes deleted next := by
  have hcases : ∀ q, Function.update refs p n q = 0 → refs q = 0 := by
    intro q hq
    rw [Function.update_apply] at hq
    split_ifs at hq
    · omega
    · exact hq
  have hkeep : ∀ q, refs q = 0 → Function.update refs p n q = 0 := by
    intro q hq
    rw [Function.update_of_ne (by rintro rfl; omega)]
    exact hq
  exact ⟨hcount, fun q hq => hkeep q (h.fresh q hq), h.owes_lt, h.deleted_lt,
    fun a q ha => ⟨hkeep q (h.owed a q ha).1, (h.owed a q ha).2⟩, h.unique,
    fun q hq => hkeep q (h.gone q hq), h.nodup, fun q hq hrefs => h.kept q hq (hcases q hrefs)⟩

/-- A second reference, to what is held. -/
theorem adopt (h : Counted holder refs owes deleted next) (ht : holder t = none)
    (hu : holder u = some p) :
    Counted (Function.update holder t (some p)) (Function.update refs p (refs p + 1)) owes deleted
      next :=
  h.of_pos (h.pos hu) (Nat.succ_pos _) (h.encard_adopt ht p)

/-- A reference that is not the last one is given up. -/
theorem release (h : Counted holder refs owes deleted next) (ht : holder t = some p)
    (hmore : refs p ≠ 1) :
    Counted (Function.update holder t none) (Function.update refs p (refs p - 1)) owes deleted
      next := by
  have hpos := h.pos ht
  exact h.of_pos hpos (by omega) (h.encard_release ht)

/-- The last reference is given up. -/
theorem releaseLast [DecidableEq A] (h : Counted holder refs owes deleted next)
    (ht : holder t = some p) (hlast : refs p = 1) (ha : owes a = none) :
    Counted (Function.update holder t none) (Function.update refs p 0)
      (Function.update owes a (some p)) deleted next := by
  have hcount := h.encard_release ht
  rw [hlast] at hcount
  have hcases : ∀ b q, Function.update owes a (some p) b = some q →
      (b = a ∧ q = p) ∨ (b ≠ a ∧ owes b = some q ∧ q ≠ p) := by
    intro b q hb
    rw [Function.update_apply] at hb
    split_ifs at hb with hba
    · exact .inl ⟨hba, (Option.some.inj hb).symm⟩
    · refine .inr ⟨hba, hb, ?_⟩
      rintro rfl
      have hzero := (h.owed b q hb).1
      omega
  have hne : ∀ q ∈ deleted, q ≠ p := by
    rintro q hq rfl
    exact h.notMem_deleted ht hq
  have hupdate : ∀ q, refs q = 0 → Function.update refs p 0 q = 0 := by
    intro q hq
    rw [Function.update_apply]
    split_ifs
    · rfl
    · exact hq
  refine ⟨hcount, fun q hq => hupdate q (h.fresh q hq), ?_, h.deleted_lt, ?_, ?_,
    fun q hq => hupdate q (h.gone q hq), h.nodup, ?_⟩
  · intro b q hb
    rcases hcases b q hb with ⟨-, rfl⟩ | ⟨-, hb, -⟩
    · exact h.lt_next ht
    · exact h.owes_lt b q hb
  · intro b q hb
    rcases hcases b q hb with ⟨-, rfl⟩ | ⟨-, hb, -⟩
    · exact ⟨Function.update_self .., fun hq => hne q hq rfl⟩
    · exact ⟨hupdate q (h.owed b q hb).1, (h.owed b q hb).2⟩
  · intro b c q hb hc
    rcases hcases b q hb with ⟨hba, hqp⟩ | ⟨-, hob, hqp⟩ <;>
      rcases hcases c q hc with ⟨hca, hqp'⟩ | ⟨-, hoc, hqp'⟩
    · rw [hba, hca]
    · exact absurd hqp hqp'
    · exact absurd hqp' hqp
    · exact h.unique b c q hob hoc
  · intro q hq hrefs
    by_cases hqp : q = p
    · exact .inr ⟨a, by rw [hqp, Function.update_self]⟩
    · rw [Function.update_of_ne hqp] at hrefs
      refine (h.kept q hq hrefs).imp_right fun ⟨b, hb⟩ => ⟨b, ?_⟩
      rw [Function.update_of_ne, hb]
      rintro rfl
      simp [ha] at hb

omit [DecidableEq T] in
/-- The object that is owed is deleted. -/
theorem delete [DecidableEq A] (h : Counted holder refs owes deleted next) (ha : owes a = some p) :
    Counted holder refs (Function.update owes a none) (p :: deleted) next := by
  have hcases : ∀ b q, Function.update owes a none b = some q → b ≠ a ∧ owes b = some q := by
    intro b q hb
    rw [Function.update_apply] at hb
    split_ifs at hb with hba
    exact ⟨hba, hb⟩
  refine ⟨h.count, h.fresh, fun b q hb => h.owes_lt b q (hcases b q hb).2, ?_, ?_,
    fun b c q hb hc => h.unique b c q (hcases b q hb).2 (hcases c q hc).2, ?_,
    List.nodup_cons.mpr ⟨(h.owed a p ha).2, h.nodup⟩, ?_⟩
  · intro q hq
    rcases List.mem_cons.mp hq with rfl | hq
    · exact h.owes_lt a q ha
    · exact h.deleted_lt q hq
  · intro b q hb
    obtain ⟨hba, hb⟩ := hcases b q hb
    refine ⟨(h.owed b q hb).1, fun hq => ?_⟩
    rcases List.mem_cons.mp hq with rfl | hq
    · exact hba (h.unique b a q hb ha)
    · exact (h.owed b q hb).2 hq
  · intro q hq
    rcases List.mem_cons.mp hq with rfl | hq
    · exact (h.owed a q ha).1
    · exact h.gone q hq
  · intro q hq hrefs
    rcases h.kept q hq hrefs with hmem | ⟨b, hb⟩
    · exact .inl (List.mem_cons_of_mem _ hmem)
    · by_cases hba : b = a
      · obtain rfl : q = p := by simpa [hba, ha] using hb.symm
        exact .inl List.mem_cons_self
      · exact .inr ⟨b, by rw [Function.update_of_ne hba, hb]⟩

/-- A holder hands its reference over. -/
theorem pass (h : Counted holder refs owes deleted next) (hu : holder u = none) (hne : t ≠ u) :
    Counted (Function.update (Function.update holder t none) u (holder t)) refs owes deleted
      next := by
  cases ht : holder t with
  | none =>
    have hsame : Function.update (Function.update holder t none) u none = holder := by
      funext v
      simp only [Function.update_apply]
      split_ifs with hvu hvt
      · rw [hvu, hu]
      · rw [hvt, ht]
      · rfl
    rw [hsame]
    exact h
  | some p =>
    refine ⟨fun q => ?_, h.fresh, h.owes_lt, h.deleted_lt, h.owed, h.unique, h.gone, h.nodup, h.kept⟩
    have hset : {v | Function.update (Function.update holder t none) u (some p) v = some q} =
        Set.preimage (Equiv.swap t u) {v | holder v = some q} := by
      ext v
      by_cases hvu : v = u
      · simp [hvu, ht]
      · by_cases hvt : v = t
        · simp [hvt, hne, hu]
        · simp [hvu, hvt, Equiv.swap_apply_of_ne_of_ne]
    rw [hset, Set.encard_preimage_of_bijective (Equiv.swap t u).bijective]
    exact h.count q

end Counted
end BekenCam
