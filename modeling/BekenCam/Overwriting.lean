import Mathlib.Tactic

/-!
# Overwriting

Updates that write over parts of a state. When an update comes back, what its first time wrote has
been lost already, whatever was written in between. So a list of updates can be written again and
nothing changes, and what one list has written survives another that commutes with it.
-/
namespace BekenCam

variable {S U : Type*}

/-- An update that comes back needs no earlier time of its own. -/
structure Overwrites (act : U → S → S) : Prop where
  again : ∀ u s, act u (act u s) = act u s
  between : ∀ u v s, act u (act v (act u s)) = act u (act v s)

/-- All the updates, in order. -/
def actAll (act : U → S → S) (us : List U) (s : S) : S := us.foldl (fun s u => act u s) s

variable {act : U → S → S}

@[simp] theorem actAll_nil (s : S) : actAll act [] s = s := rfl

@[simp] theorem actAll_cons (u : U) (us : List U) (s : S) :
    actAll act (u :: us) s = actAll act us (act u s) := rfl

theorem actAll_append (us vs : List U) (s : S) :
    actAll act (us ++ vs) s = actAll act vs (actAll act us s) := List.foldl_append

namespace Overwrites

theorem around (h : Overwrites act) (u : U) (us : List U) (s : S) :
    act u (actAll act us (act u s)) = act u (actAll act us s) := by
  induction us generalizing s with
  | nil => exact h.again u s
  | cons v us ih =>
    calc act u (actAll act us (act v (act u s)))
        = act u (actAll act us (act u (act v (act u s)))) := (ih _).symm
      _ = act u (actAll act us (act u (act v s))) := by rw [h.between u v s]
      _ = act u (actAll act us (act v s)) := ih _

theorem actAll_of_mem (h : Overwrites act) {u : U} {us : List U} (hu : u ∈ us) (s : S) :
    actAll act us (act u s) = actAll act us s := by
  obtain ⟨before, after, rfl⟩ := List.append_of_mem hu
  rw [actAll_append, actAll_append, actAll_cons, actAll_cons, h.around]

theorem actAll_of_subset (h : Overwrites act) {us vs : List U} (hvs : vs ⊆ us) (s : S) :
    actAll act us (actAll act vs s) = actAll act us s := by
  induction vs generalizing s with
  | nil => rfl
  | cons v vs ih =>
    obtain ⟨hv, hvs⟩ := List.cons_subset.mp hvs
    rw [actAll_cons, ih hvs, h.actAll_of_mem hv]

theorem actAll_again (h : Overwrites act) (us : List U) (s : S) :
    actAll act us (actAll act us s) = actAll act us s :=
  h.actAll_of_subset (List.Subset.refl us) s

end Overwrites

section Commuting

variable {us vs : List U}

theorem act_actAll_comm {u : U} (h : ∀ v ∈ vs, ∀ s, act u (act v s) = act v (act u s)) (s : S) :
    act u (actAll act vs s) = actAll act vs (act u s) := by
  induction vs generalizing s with
  | nil => rfl
  | cons v vs ih =>
    rw [actAll_cons, ih fun v hv => h v (List.mem_cons_of_mem _ hv), h v List.mem_cons_self,
      actAll_cons]

theorem actAll_comm (h : ∀ u ∈ us, ∀ v ∈ vs, ∀ s, act u (act v s) = act v (act u s)) (s : S) :
    actAll act us (actAll act vs s) = actAll act vs (actAll act us s) := by
  induction us generalizing s with
  | nil => rfl
  | cons u us ih =>
    rw [actAll_cons, actAll_cons, act_actAll_comm (h u List.mem_cons_self),
      ih fun u hu => h u (List.mem_cons_of_mem _ hu)]

/-- What has been written stays when updates that commute with it are written. -/
theorem actAll_stays (h : ∀ u ∈ us, ∀ v ∈ vs, ∀ s, act u (act v s) = act v (act u s)) {s : S}
    (hs : actAll act us s = s) : actAll act us (actAll act vs s) = actAll act vs s := by
  rw [actAll_comm h, hs]

end Commuting

end BekenCam
