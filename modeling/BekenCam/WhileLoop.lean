import Mathlib.Tactic

/-!
# While loops

A loop gets so many rounds, the last of which finds the guard false. It terminates when some number
of rounds is enough: an invariant and a measure show that it is, and an invariant under which the
guard stays true shows that none is.
-/
namespace BekenCam

variable {σ : Type*}

def whileLoop (guard : σ → Bool) (body : σ → σ) : ℕ → σ → Option σ
  | 0, _ => none
  | fuel + 1, s => if guard s then whileLoop guard body fuel (body s) else some s

section Loop

variable {s : σ}

theorem whileLoop_of_le {guard : σ → Bool} {body : σ → σ} {fuel more : ℕ} {r : σ}
    (hle : fuel ≤ more) (h : whileLoop guard body fuel s = some r) :
    whileLoop guard body more s = some r := by
  induction fuel generalizing more s with
  | zero => cases h
  | succ fuel ih =>
    obtain ⟨more, rfl⟩ : ∃ m, more = m + 1 := ⟨more - 1, by omega⟩
    rw [whileLoop] at h ⊢
    split_ifs with hguard
    · rw [if_pos hguard] at h
      exact ih (by omega) h
    · rwa [if_neg hguard] at h

/-- Partial correctness. -/
theorem whileLoop_inv {guard : σ → Bool} {body : σ → σ} {fuel : ℕ} {r : σ} (Inv : σ → Prop)
    (hinv : Inv s) (hstep : ∀ s, Inv s → guard s = true → Inv (body s))
    (h : whileLoop guard body fuel s = some r) : Inv r := by
  induction fuel generalizing s with
  | zero => cases h
  | succ fuel ih =>
    rw [whileLoop] at h
    split_ifs at h with hguard
    · exact ih (hstep s hinv hguard) h
    · exact Option.some.inj h ▸ hinv

/-- Total correctness. -/
theorem whileLoop_total (guard : σ → Bool) (body : σ → σ) (Inv : σ → Prop) (measure : σ → ℕ)
    (hinv : Inv s)
    (hstep : ∀ s, Inv s → guard s = true → Inv (body s) ∧ measure (body s) < measure s) :
    ∃ fuel r, whileLoop guard body fuel s = some r ∧ Inv r ∧ guard r = false := by
  induction hm : measure s using Nat.strong_induction_on generalizing s with
  | _ m ih =>
    subst hm
    cases hguard : guard s with
    | false => exact ⟨1, s, by rw [whileLoop, hguard]; rfl, hinv, hguard⟩
    | true =>
      obtain ⟨hinv', hlt⟩ := hstep s hinv hguard
      obtain ⟨fuel, r, hloop, hr⟩ := ih _ hlt hinv' rfl
      exact ⟨fuel + 1, r, by rw [whileLoop, if_pos hguard, hloop], hr⟩

theorem whileLoop_diverges (guard : σ → Bool) (body : σ → σ) (Inv : σ → Prop) (hinv : Inv s)
    (hstep : ∀ s, Inv s → guard s = true ∧ Inv (body s)) (fuel : ℕ) :
    whileLoop guard body fuel s = none := by
  induction fuel generalizing s with
  | zero => rfl
  | succ fuel ih =>
    obtain ⟨hguard, hinv'⟩ := hstep s hinv
    rw [whileLoop, if_pos hguard, ih hinv']

end Loop

end BekenCam
