import Mathlib.Tactic

/-!
# Runs of a step function

A system takes one labelled step at a time. Where the label names who moves and what
the environment answers, a step is a function, and a step that cannot be taken in a state has
no result. `Within` restricts the runs looked at to those whose every step is allowed. Where the
answers are open, a step is a relation (`Reachable`).
-/
namespace BekenCam

variable {σ ι : Type*}

/-- The state after all the labels, if each step could be taken. -/
def runSteps (step : σ → ι → Option σ) : σ → List ι → Option σ
  | s, [] => some s
  | s, l :: ls => (step s l).bind fun s' => runSteps step s' ls

/-- Every step the run takes is allowed in the state it is taken in. -/
def Within (step : σ → ι → Option σ) (allowed : σ → ι → Prop) : σ → List ι → Prop
  | _, [] => True
  | s, l :: ls => allowed s l ∧ ∀ s', step s l = some s' → Within step allowed s' ls

section Runs

variable {step : σ → ι → Option σ} {allowed : σ → ι → Prop} {Inv : σ → Prop}

@[simp] theorem runSteps_nil (s : σ) : runSteps step s [] = some s := rfl

theorem runSteps_cons {s s' : σ} {l : ι} {ls : List ι} (h : runSteps step s (l :: ls) = some s') :
    ∃ s₁, step s l = some s₁ ∧ runSteps step s₁ ls = some s' :=
  Option.bind_eq_some_iff.mp h

theorem runSteps_concat {s s' : σ} {l : ι} {ls : List ι}
    (h : runSteps step s (ls ++ [l]) = some s') :
    ∃ s₁, runSteps step s ls = some s₁ ∧ step s₁ l = some s' := by
  induction ls generalizing s with
  | nil =>
    obtain ⟨s₁, h₁, hlast⟩ := runSteps_cons h
    cases hlast
    exact ⟨s, rfl, h₁⟩
  | cons l' ls ih =>
    obtain ⟨s₁, h₁, hrest⟩ := runSteps_cons h
    obtain ⟨s₂, hfront, hlast⟩ := ih hrest
    refine ⟨s₂, ?_, hlast⟩
    show (step s l').bind _ = some s₂
    rw [h₁]
    exact hfront

theorem runSteps_append (s : σ) (ls ls' : List ι) :
    runSteps step s (ls ++ ls') = (runSteps step s ls).bind fun s' => runSteps step s' ls' := by
  induction ls generalizing s with
  | nil => rfl
  | cons l ls ih =>
    simp only [List.cons_append, runSteps]
    cases step s l with
    | none => rfl
    | some s₁ => exact ih s₁

theorem Within.cons {s s' : σ} {l : ι} {ls : List ι} (hok : allowed s l)
    (hstep : step s l = some s') (hrest : Within step allowed s' ls) :
    Within step allowed s (l :: ls) := by
  refine ⟨hok, fun s₁ h₁ => ?_⟩
  obtain rfl : s' = s₁ := by simpa [hstep] using h₁
  exact hrest

theorem within_cons_of_some {s s' : σ} {l : ι} {ls : List ι} (hstep : step s l = some s') :
    Within step allowed s (l :: ls) ↔ allowed s l ∧ Within step allowed s' ls := by
  simp [Within, hstep]

theorem within_cons_of_none {s : σ} {l : ι} {ls : List ι} (hstep : step s l = none) :
    Within step allowed s (l :: ls) ↔ allowed s l := by
  simp [Within, hstep]

/-- A concrete run can be checked. -/
instance decidableWithin [∀ s l, Decidable (allowed s l)] :
    (ls : List ι) → (s : σ) → Decidable (Within step allowed s ls)
  | [], _ => isTrue trivial
  | l :: ls, s =>
    match hstep : step s l with
    | none => decidable_of_iff _ (within_cons_of_none hstep).symm
    | some s' =>
      have := decidableWithin ls s'
      decidable_of_iff _ (within_cons_of_some hstep).symm

/-- What every allowed step preserves holds after a run. -/
theorem invariant_of_within
    (hstep : ∀ s l s', Inv s → allowed s l → step s l = some s' → Inv s')
    {ls : List ι} {s s' : σ} (hinv : Inv s) (hwithin : Within step allowed s ls)
    (hrun : runSteps step s ls = some s') : Inv s' := by
  induction ls generalizing s with
  | nil =>
    cases hrun
    exact hinv
  | cons l ls ih =>
    obtain ⟨s₁, h₁, hrest⟩ := runSteps_cons hrun
    exact ih (hstep s l s₁ hinv hwithin.1 h₁) (hwithin.2 s₁ h₁) hrest

/-- What every step preserves holds after a run. -/
theorem invariant_of_steps (hstep : ∀ s l s', Inv s → step s l = some s' → Inv s')
    {ls : List ι} {s s' : σ} (hinv : Inv s) (hrun : runSteps step s ls = some s') : Inv s' := by
  induction ls generalizing s with
  | nil =>
    cases hrun
    exact hinv
  | cons l ls ih =>
    obtain ⟨s₁, h₁, hrest⟩ := runSteps_cons hrun
    exact ih (hstep s l s₁ hinv h₁) hrest

/-- What is known of a state from the labels so far, and each step carries on, holds after a run. -/
theorem invariant_of_history (Known : List ι → σ → Prop) {start s : σ} {ls : List ι}
    (hstart : Known [] start)
    (hstep : ∀ pre l s s', pre ++ [l] <+: ls → Known pre s → step s l = some s' →
      Known (pre ++ [l]) s')
    (hrun : runSteps step start ls = some s) : Known ls s := by
  induction ls using List.reverseRecOn generalizing s with
  | nil =>
    cases hrun
    exact hstart
  | append_singleton ls l ih =>
    obtain ⟨s₁, h₁, hlast⟩ := runSteps_concat hrun
    have hbefore := ih (fun pre l' s s' hpre => hstep pre l' s s'
      (hpre.trans (List.prefix_append ls [l]))) h₁
    exact hstep ls l s₁ s List.prefix_rfl hbefore hlast

/-- What each pass of a counted loop carries on holds after the loop. -/
theorem invariant_of_foldlM {step : σ → ℕ → Option σ} {Inv : ℕ → σ → Prop} {n : ℕ}
    (hstep : ∀ k s s', k < n → Inv k s → step s k = some s' → Inv (k + 1) s') {s s' : σ}
    (hinv : Inv 0 s) (hrun : (List.range n).foldlM step s = some s') : Inv n s' := by
  induction n generalizing s' with
  | zero =>
    cases hrun
    exact hinv
  | succ n ih =>
    rw [List.range_succ, List.foldlM_append] at hrun
    obtain ⟨s₁, hprev, hlast⟩ := Option.bind_eq_some_iff.mp hrun
    have hlast' : step s₁ n = some s' := by simpa using hlast
    have hbefore := ih (fun k s s' hk => hstep k s s' (Nat.lt_succ_of_lt hk)) hprev
    exact hstep n s₁ s' (Nat.lt_succ_self n) hbefore hlast'

/-- A counted loop whose passes all have a result has one. -/
theorem exists_of_foldlM {step : σ → ℕ → Option σ} {n : ℕ}
    (hstep : ∀ k < n, ∀ s, ∃ s', step s k = some s') (s : σ) :
    ∃ s', (List.range n).foldlM step s = some s' := by
  induction n with
  | zero => exact ⟨s, rfl⟩
  | succ n ih =>
    obtain ⟨s₁, hprev⟩ := ih fun k hk => hstep k (Nat.lt_succ_of_lt hk)
    obtain ⟨s', hlast⟩ := hstep n (Nat.lt_succ_self n) s₁
    refine ⟨s', ?_⟩
    rw [List.range_succ, List.foldlM_append, hprev]
    simpa using hlast

end Runs

/-! ## Steps as a relation -/

/-- The states of the runs from `init` whose every step, of the mover `l`, is allowed. -/
inductive Reachable (init : σ → Prop) (step : σ → ι → σ → Prop) (allowed : σ → ι → Prop) : σ → Prop
  | init {s : σ} (h : init s) : Reachable init step allowed s
  | step {s s' : σ} {l : ι} (hs : Reachable init step allowed s) (hok : allowed s l)
      (hstep : step s l s') : Reachable init step allowed s'

theorem Reachable.invariant {init : σ → Prop} {step : σ → ι → σ → Prop} {allowed : σ → ι → Prop}
    {Inv : σ → Prop} (hinit : ∀ s, init s → Inv s)
    (hstep : ∀ s l s', Inv s → allowed s l → step s l s' → Inv s') {s : σ}
    (h : Reachable init step allowed s) : Inv s := by
  induction h with
  | init h => exact hinit _ h
  | step _ hok hs ih => exact hstep _ _ _ ih hok hs

end BekenCam
