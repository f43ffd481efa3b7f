import BekenCam.StaOutcome

/-!
# Associations end

An association in flight has somebody who ends it: the timer, the timer's task or the supplicant.
`session_finish` stops the timer after it has emptied the session, so that this can go wrong for an
association that is published in between.
-/
namespace BekenCam.Sta

namespace Task

/-- The session is empty, and the timer is still to be stopped. -/
def isStopping : Task → Bool
  | took _ _ _ => true
  | _ => false

/-- The deadline has passed, and the timer task is at it. -/
def isDue : Task → Bool
  | fired | aborting | entering _ => true
  | _ => false

end Task

/-- A new association is published when no task is about to stop the timer of an earlier one. -/
def apart (s : State) : Act → Bool
  | .publish => !(s.task .kmsg).isStopping && !(s.task .timer).isStopping &&
      !(s.task .supplicant).isStopping
  | _ => true

/-- The caller is about to start the timer, or to empty the session. -/
def Caller.isTiming : Caller → Bool
  | published _ | stopped _ => true
  | _ => false

/-- Somebody is going to end the association that is in flight: the timer runs or its task is at it,
or the supplicant was asked to give up. -/
structure Watched (s : State) : Prop where
  ends : s.promise.isSome = true → s.timer = true ∨ s.asked = true ∨
    (s.task .timer).isDue = true ∨ s.caller.isTiming = true
  stopping : ∀ w, (s.task w).isStopping = true → s.promise = none

section Deadline

variable {s s' : State} {a : Act}

theorem Watched.setCaller (h : Watched s) {c : Caller}
    (hc : s.caller.isTiming = true → c.isTiming = true) : Watched { s with caller := c } where
  ends hsome := by
    rcases h.ends hsome with ht | ha | hd | ht
    · exact .inl ht
    · exact .inr (.inl ha)
    · exact .inr (.inr (.inl hd))
    · exact .inr (.inr (.inr (hc ht)))
  stopping := h.stopping

theorem Watched.stopping_setTask (h : Watched s) {w : Who} {t : Task}
    (hstopping : t.isStopping = true → s.promise = none) (v : Who)
    (hv : ((s.setTask w t).task v).isStopping = true) : s.promise = none := by
  simp only [State.setTask, Function.update_apply] at hv
  split_ifs at hv
  · exact hstopping hv
  · exact h.stopping v hv

/-- A step of a task that leaves the timer as it is. -/
theorem Watched.setTask (h : Watched s) {w : Who} {t : Task}
    (hdue : w = .timer → (s.task .timer).isDue = true → t.isDue = true)
    (hstopping : t.isStopping = false) : Watched (s.setTask w t) where
  ends hsome := by
    rcases h.ends hsome with ht | ha | hd | ht
    · exact .inl ht
    · exact .inr (.inl ha)
    · refine .inr (.inr (.inl ?_))
      simp only [State.setTask, Function.update_apply]
      split_ifs with hw
      · exact hdue hw.symm hd
      · exact hd
    · exact .inr (.inr (.inr ht))
  stopping := h.stopping_setTask fun ht => absurd (hstopping.symm.trans ht) (by decide)

/-- A step of a task that is at the end of `session_finish`. -/
theorem Watched.setFinishing (h : Watched s) {w : Who} {t : Task} (hw : (s.task w).isDue = false)
    (hstopping : t.isStopping = false) : Watched (s.setTask w t) := by
  refine h.setTask (fun hwt hd => ?_) hstopping
  rw [hwt] at hw
  exact absurd (hw.symm.trans hd) (by decide)

theorem task_dropPublished (s : State) : s.dropPublished.task = s.task := by
  unfold State.dropPublished
  split <;> rfl

theorem Watched.callerStep (h : Watched s) (hapart : apart s a = true)
    (hstep : s.callerStep a = some s') : Watched s' := by
  cases a with
  | check =>
    dsimp only [State.callerStep] at hstep
    split at hstep
    case h_1 hs =>
      split_ifs at hstep
      · cases hstep
        exact h
      · cases hstep
        exact h.setCaller (by simp [hs, Caller.isTiming])
    case h_2 => cases hstep
  | busy =>
    dsimp only [State.callerStep] at hstep
    split at hstep <;> cases hstep
    exact h.setCaller (by simp [‹s.caller = _›, Caller.isTiming])
  | prepare ok secure =>
    dsimp only [State.callerStep] at hstep
    split at hstep <;> cases hstep
    exact h.setCaller (by simp [‹s.caller = _›, Caller.isTiming])
  | build hasResult hasPromise =>
    dsimp only [State.callerStep] at hstep
    split at hstep
    case h_1 hs =>
      have hc : ∀ c, Watched { s with caller := c } := fun c =>
        h.setCaller (by simp [hs, Caller.isTiming])
      split_ifs at hstep <;> cases hstep
      · exact ⟨(hc (.built s.next _)).ends, h.stopping⟩
      · exact ⟨(hc .idle).ends, h.stopping⟩
      · exact hc .idle
    case h_2 => cases hstep
  | publish =>
    dsimp only [State.callerStep] at hstep
    split at hstep <;> cases hstep
    refine ⟨fun _ => .inr (.inr (.inr rfl)), fun w hw => absurd hw ?_⟩
    simp only [apart, Bool.and_eq_true, Bool.not_eq_true'] at hapart
    have htask : (s.task w).isStopping = false := by
      cases w with
      | kmsg => exact hapart.1.1
      | timer => exact hapart.1.2
      | supplicant => exact hapart.2
    refine ne_true_of_eq_false ?_
    rw [task_dropPublished]
    exact htask
  | startTimer =>
    dsimp only [State.callerStep] at hstep
    split at hstep <;> cases hstep
    exact ⟨fun _ => .inl rfl, h.stopping⟩
  | send accepted =>
    dsimp only [State.callerStep] at hstep
    split at hstep
    case h_1 hs =>
      have hc : ∀ c, Watched { s with caller := c } := fun c =>
        h.setCaller (by simp [hs, Caller.isTiming])
      split_ifs at hstep <;> cases hstep
      · exact ⟨(hc .idle).ends, h.stopping⟩
      · exact hc _
    case h_2 => cases hstep
  | stopTimer =>
    dsimp only [State.callerStep] at hstep
    split at hstep <;> cases hstep
    exact ⟨fun _ => .inr (.inr (.inr rfl)), h.stopping⟩
  | cleanup =>
    dsimp only [State.callerStep] at hstep
    split at hstep <;> cases hstep
    exact ⟨by simp, fun _ _ => rfl⟩
  | leave =>
    dsimp only [State.callerStep] at hstep
    split at hstep
    case h_1 hs =>
      cases hstep
      have hc := h.setCaller (c := .idle) (by simp [hs, Caller.isTiming])
      exact ⟨hc.ends, h.stopping⟩
    case h_2 => cases hstep
  | _ => cases hstep

theorem Watched.clientStep (h : Watched s) (hstep : s.clientStep a = some s') : Watched s' := by
  cases a with
  | await k | drop k =>
    dsimp only [State.clientStep] at hstep
    split_ifs at hstep
    cases hstep
    exact ⟨h.ends, h.stopping⟩
  | _ => cases hstep

theorem Watched.kmsgStep (h : Watched s) (hstep : s.kmsgStep a = some s') : Watched s' := by
  cases a with
  | connectInd statusCode =>
    dsimp only [State.kmsgStep] at hstep
    split at hstep
    case h_1 hw =>
      cases hstep
      have hseen : ∀ results : ℕ → ConnectResult, Watched { s with results := results } :=
        fun _ => ⟨h.ends, h.stopping⟩
      split_ifs
      · split
        · exact (hseen _).setTask (by simp) rfl
        · exact h.setTask (by simp) rfl
      · split
        · exact hseen _
        · exact h
    case h_2 => cases hstep
  | decide =>
    dsimp only [State.kmsgStep] at hstep
    split at hstep <;> cases hstep
    split_ifs <;> exact h.setTask (by simp) rfl
  | shake =>
    dsimp only [State.kmsgStep] at hstep
    split at hstep <;> cases hstep
    have hunseen : Watched { s with handshake := true } := ⟨h.ends, h.stopping⟩
    exact hunseen.setTask (by simp) rfl
  | prolong =>
    dsimp only [State.kmsgStep] at hstep
    split at hstep <;> cases hstep
    have hruns : Watched { s with timer := true } := ⟨fun _ => .inl rfl, h.stopping⟩
    exact hruns.setTask (by simp) rfl
  | disconnectInd =>
    dsimp only [State.kmsgStep] at hstep
    split at hstep <;> cases hstep
    have hunseen : Watched { s with linkUp := false } := ⟨h.ends, h.stopping⟩
    exact hunseen.setTask (by simp) rfl
  | unlink =>
    dsimp only [State.kmsgStep] at hstep
    split at hstep <;> cases hstep
    split_ifs <;> exact h.setTask (by simp) rfl
  | _ => cases hstep

theorem Watched.otherStep (h : Watched s) (hstep : s.otherStep a = some s') : Watched s' := by
  cases a with
  | expire =>
    dsimp only [State.otherStep] at hstep
    split at hstep
    case h_1 hw =>
      split_ifs at hstep
      cases hstep
      refine ⟨fun _ => .inr (.inr (.inl ?_)), h.stopping_setTask (by simp [Task.isStopping])⟩
      simp [State.setTask, Task.isDue]
    case h_2 => cases hstep
  | callback =>
    dsimp only [State.otherStep] at hstep
    split at hstep <;> cases hstep
    split_ifs <;> exact h.setTask (fun _ _ => rfl) rfl
  | abort =>
    dsimp only [State.otherStep] at hstep
    split at hstep <;> cases hstep
    exact ⟨fun _ => .inr (.inl rfl), h.stopping_setTask (by simp [Task.isStopping])⟩
  | verdict ok =>
    dsimp only [State.otherStep] at hstep
    split at hstep <;> cases hstep
    exact h.setTask (by simp) rfl
  | connectLeave =>
    cases hstep
    exact ⟨h.ends, h.stopping⟩
  | _ => cases hstep

theorem Watched.finishStep (h : Watched s) (hstep : s.finishStep a = some s') : Watched s' := by
  cases a with
  | finish w =>
    dsimp only [State.finishStep] at hstep
    split at hstep <;> cases hstep
    exact ⟨by simp [State.setTask], fun _ _ => rfl⟩
  | quiet w =>
    dsimp only [State.finishStep] at hstep
    split at hstep
    case h_1 k r status hw =>
      cases hstep
      have hnone : s.promise = none := h.stopping w (by rw [hw]; rfl)
      refine ⟨fun hsome => ?_, h.stopping_setTask (by simp [Task.isStopping])⟩
      rw [show State.promise _ = none from hnone] at hsome
      cases hsome
    case h_2 => cases hstep
  | settle w =>
    dsimp only [State.finishStep] at hstep
    split at hstep
    case h_1 k r status hw =>
      cases hstep
      have hdue : (s.task w).isDue = false := by rw [hw]; rfl
      cases r with
      | none =>
        have hunseen : Watched { s with handshake := false } := ⟨h.ends, h.stopping⟩
        exact hunseen.setFinishing hdue (by split_ifs <;> rfl)
      | some r =>
        have hunseen : Watched { s with
          handshake := false
          results := Function.update s.results r { s.results r with status := status } } :=
          ⟨h.ends, h.stopping⟩
        exact hunseen.setFinishing hdue (by split_ifs <;> rfl)
    case h_2 => cases hstep
  | link w =>
    dsimp only [State.finishStep] at hstep
    split at hstep
    case h_1 k r hw =>
      cases hstep
      have hunseen : Watched { s with linkUp := true } := ⟨h.ends, h.stopping⟩
      exact hunseen.setFinishing (show (s.task w).isDue = false by rw [hw]; rfl) rfl
    case h_2 => cases hstep
  | resolve w =>
    dsimp only [State.finishStep] at hstep
    split at hstep
    case h_1 k r hw =>
      have hmoved : Watched (s.setTask w (.dropping k)) :=
        h.setFinishing (by rw [hw]; rfl) rfl
      split_ifs at hstep <;> cases hstep <;> exact ⟨hmoved.ends, hmoved.stopping⟩
    case h_2 => cases hstep
  | release w =>
    dsimp only [State.finishStep] at hstep
    split at hstep
    case h_1 k hw =>
      cases hstep
      have hmoved : Watched (s.setTask w .idle) := h.setFinishing (by rw [hw]; rfl) rfl
      exact ⟨hmoved.ends, hmoved.stopping⟩
    case h_2 => cases hstep
  | _ => cases hstep

theorem Watched.step (h : Watched s) (hapart : apart s a = true) (hstep : s.step a = some s') :
    Watched s' := by
  rcases step_cases hstep with hs | hs | hs | hs | hs
  · exact h.callerStep hapart hs
  · exact h.clientStep hs
  · exact h.kmsgStep hs
  · exact h.otherStep hs
  · exact h.finishStep hs

/-- The kmsg task stops the timer of an association that was published after it had emptied the
session. -/
def stoppedLate : List Act :=
  start false ++ [.connectInd 1, .decide, .finish .kmsg] ++ start false ++ [.quiet .kmsg]

theorem wifiSta_unwatched : ¬ ∀ (as : List Act) (s : State),
    runSteps State.step init as = some s → Watched s := by
  intro hclaim
  have hend : (runSteps State.step init stoppedLate).map (fun s =>
      (s.promise, s.timer, s.asked, (s.task .timer).isDue, s.caller.isTiming)) =
      some (some 1, false, false, false, false) := by decide +kernel
  obtain ⟨s, hs, heq⟩ := Option.map_eq_some_iff.mp hend
  simp only [Prod.mk.injEq] at heq
  obtain ⟨hpromise, htimer, hasked, hdue, htiming⟩ := heq
  have hends := (hclaim stoppedLate s hs).ends (by rw [hpromise]; rfl)
  simp [htimer, hasked, hdue, htiming] at hends

end Deadline

end BekenCam.Sta
