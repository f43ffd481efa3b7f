import BekenCam.MainServices
import BekenCam.StepRuns

/-!
# The loop of the main task

The task starts the services with the current configuration, polls them, and sleeps until it is
notified or some time has passed. Anybody may write the configuration and announce it. The versions
of the configuration are numbered.
-/
namespace BekenCam.MainTask

/-! ## The loop -/

inductive Stage
  | top
  | polling
  | waiting (busy : Bool)
  | woken (busy : Bool)
  | pausing
  deriving DecidableEq

/-- `announced` and `applied` are the last versions that were announced and that the services were
started with, and `announcing` counts the callers that have set the flag and not yet notified. -/
structure State where
  stage : Stage
  configureRequired : Bool
  running : Kind → Option ℕ
  configChanged : Bool
  notified : Bool
  version : ℕ
  announced : ℕ
  applied : ℕ
  announcing : ℕ

def init : State := ⟨.top, true, fun _ => none, false, false, 0, 0, 0, 0⟩

/-- `poll` says which of the services are done after it, and `check` whether a lost link is to be
brought up again. A wait may always have run out. -/
inductive Act
  | write
  | setFlag
  | notify
  | configure
  | poll (done : Kind → Bool)
  | wake
  | check (reconnect : Bool)
  | pauseEnds

def anyRunning (running : Kind → Option ℕ) : Bool :=
  (running .ap).isSome || (running .sta).isSome || (running .telnet).isSome

def step (s : State) : Act → Option State
  | .write => some { s with version := s.version + 1 }
  | .setFlag => some { s with
      configChanged := true, announced := s.version, announcing := s.announcing + 1 }
  | .notify =>
    if s.announcing = 0 then none
    else some { s with notified := true, announcing := s.announcing - 1 }
  | .configure =>
    if s.stage = .top then
      if s.configureRequired then some { s with
        stage := .polling, configureRequired := false, running := fun _ => some s.version
        applied := s.version }
      else some { s with stage := .polling }
    else none
  | .poll done =>
    if s.stage = .polling then some { s with
      stage := .waiting (anyRunning s.running)
      running := fun k => if done k then none else s.running k }
    else none
  | .wake =>
    match s.stage with
    | .waiting busy => some { s with stage := .woken busy, notified := false }
    | _ => none
  | .check reconnect =>
    match s.stage with
    | .woken busy =>
      if s.configChanged then
        some { s with stage := .pausing, configChanged := false, configureRequired := true }
      else if !busy && reconnect then some { s with
        stage := .top, running := Function.update s.running .sta (some s.version) }
      else some { s with stage := .top }
    | _ => none
  | .pauseEnds => if s.stage = .pausing then some { s with stage := .top } else none

/-- What was announced and not applied is still to be applied, and the task is going to see it. -/
structure Inv (s : State) : Prop where
  announced : s.announced ≤ s.version
  applied : s.applied ≤ s.version
  pending : s.announced ≤ s.applied ∨ s.configureRequired = true ∨ s.configChanged = true
  required : s.configureRequired = true → s.stage = .top ∨ s.stage = .pausing
  pausing : s.stage = .pausing → s.configureRequired = true
  seen : s.configChanged = true → (∃ busy, s.stage = .woken busy) ∨ s.notified = true ∨
    0 < s.announcing
  running : ∀ k v, s.running k = some v → s.applied ≤ v
  idle : s.stage = .waiting false ∨ s.stage = .woken false → ∀ k, s.running k = none

theorem anyRunning_eq_false {running : Kind → Option ℕ} (h : anyRunning running = false) (k : Kind) :
    running k = none := by
  simp only [anyRunning, Bool.or_eq_false_iff, Option.isSome_eq_false_iff, Option.isNone_iff_eq_none]
    at h
  cases k
  · exact h.1.1
  · exact h.1.2
  · exact h.2

theorem inv_init : Inv init := by
  constructor <;> simp [init]

theorem Inv.step {s s' : State} {a : Act} (h : Inv s) (hstep : MainTask.step s a = some s') :
    Inv s' := by
  cases a with
  | write =>
    cases hstep
    exact ⟨h.announced.trans (Nat.le_succ _), h.applied.trans (Nat.le_succ _), h.pending, h.required,
      h.pausing, h.seen, h.running, h.idle⟩
  | setFlag =>
    cases hstep
    exact ⟨le_rfl, h.applied, .inr (.inr rfl), h.required, h.pausing,
      fun _ => .inr (.inr (Nat.succ_pos _)), h.running, h.idle⟩
  | notify =>
    simp only [MainTask.step] at hstep
    split_ifs at hstep
    cases hstep
    exact ⟨h.announced, h.applied, h.pending, h.required, h.pausing, fun _ => .inr (.inl rfl),
      h.running, h.idle⟩
  | configure =>
    simp only [MainTask.step] at hstep
    split_ifs at hstep with htop hrequired
    · cases hstep
      refine ⟨h.announced, le_rfl, .inl h.announced, nofun, nofun, fun hc => ?_, ?_, nofun⟩
      · exact (h.seen hc).imp_left fun ⟨busy, hb⟩ => by simp [htop] at hb
      · intro k v hv
        exact (Option.some.inj hv).le
    · cases hstep
      have hnot : s.configureRequired = false := by simpa using hrequired
      refine ⟨h.announced, h.applied, h.pending, fun hr => ?_, nofun, fun hc => ?_, h.running, nofun⟩
      · exact absurd (hnot.symm.trans hr) (by decide)
      · exact (h.seen hc).imp_left fun ⟨busy, hb⟩ => by simp [htop] at hb
  | poll done =>
    simp only [MainTask.step] at hstep
    split_ifs at hstep with hpolling
    cases hstep
    have hnot : s.configureRequired = false := by
      by_contra hr
      rcases h.required (by simpa using hr) with hs | hs <;> simp [hpolling] at hs
    refine ⟨h.announced, h.applied, h.pending, fun hr => ?_, nofun, fun hc => ?_, ?_, ?_⟩
    · exact absurd (hnot.symm.trans hr) (by decide)
    · exact (h.seen hc).imp_left fun ⟨busy, hb⟩ => by simp [hpolling] at hb
    · intro k v hv
      dsimp only at hv
      split_ifs at hv
      exact h.running k v hv
    · rintro (hidle | hidle) k
      · have hnone := anyRunning_eq_false (Stage.waiting.inj hidle) k
        dsimp only
        split_ifs
        · rfl
        · exact hnone
      · cases hidle
  | wake =>
    simp only [MainTask.step] at hstep
    split at hstep
    · next busy hwaiting =>
      cases hstep
      refine ⟨h.announced, h.applied, h.pending, fun hr => ?_, nofun, fun _ => .inl ⟨busy, rfl⟩,
        h.running, ?_⟩
      · rcases h.required hr with hs | hs <;> simp [hwaiting] at hs
      · rintro (hidle | hidle) k
        · cases hidle
        · obtain rfl := Stage.woken.inj hidle
          exact h.idle (.inl hwaiting) k
    · cases hstep
  | check reconnect =>
    simp only [MainTask.step] at hstep
    split at hstep
    · next busy hwoken =>
      split_ifs at hstep with hchanged hreconnect
      · cases hstep
        exact ⟨h.announced, h.applied, .inr (.inl rfl), fun _ => .inr rfl, fun _ => rfl, nofun,
          h.running, nofun⟩
      · cases hstep
        refine ⟨h.announced, h.applied, h.pending, fun _ => .inl rfl, nofun,
          fun hc => absurd hc hchanged, ?_, nofun⟩
        intro k v hv
        dsimp only at hv
        rw [Function.update_apply] at hv
        split_ifs at hv
        · obtain rfl := Option.some.inj hv
          exact h.applied
        · exact h.running k v hv
      · cases hstep
        exact ⟨h.announced, h.applied, h.pending, fun _ => .inl rfl, nofun,
          fun hc => absurd hc hchanged, h.running, nofun⟩
    · cases hstep
  | pauseEnds =>
    simp only [MainTask.step] at hstep
    split_ifs at hstep with hpausing
    cases hstep
    refine ⟨h.announced, h.applied, h.pending, fun _ => .inl rfl, nofun, fun hc => ?_, h.running,
      nofun⟩
    exact (h.seen hc).imp_left fun ⟨busy, hb⟩ => by simp [hpausing] at hb

/-- No announcement is lost: when the task waits with no notification there or on its way, the
services were started with what was announced last, and none runs with anything older. When it
waits long, none runs at all. -/
theorem mainTask_announced {as : List Act} {s : State} (hrun : runSteps step init as = some s)
    {busy : Bool} (hwaiting : s.stage = .waiting busy) (hquiet : s.notified = false)
    (hcallers : s.announcing = 0) :
    s.announced ≤ s.applied ∧ (∀ k v, s.running k = some v → s.announced ≤ v) ∧
      (busy = false → ∀ k, s.running k = none) := by
  have h : Inv s := invariant_of_steps (fun _ _ _ hs hstep => hs.step hstep) inv_init hrun
  have hnotRequired : ¬ s.configureRequired = true := fun hr => by
    rcases h.required hr with hs | hs <;> simp [hwaiting] at hs
  have hnotChanged : ¬ s.configChanged = true := fun hc => by
    rcases h.seen hc with ⟨b, hb⟩ | hn | ha
    · simp [hwaiting] at hb
    · simp [hquiet] at hn
    · omega
  have hle : s.announced ≤ s.applied := by
    rcases h.pending with hle | hr | hc
    · exact hle
    · exact absurd hr hnotRequired
    · exact absurd hc hnotChanged
  exact ⟨hle, fun k v hv => hle.trans (h.running k v hv), fun hb => h.idle (.inl (hb ▸ hwaiting))⟩

/-- The flag is set while the task is already awake, and the notification comes after it has seen
the flag. -/
def lateNotification : List Act :=
  [.configure, .poll fun _ => true, .wake, .write, .setFlag, .check false, .notify, .pauseEnds,
    .configure, .poll fun _ => false, .wake, .check false, .configure, .poll fun _ => false]

theorem mainTask_announced_late : ∃ s, runSteps step init lateNotification = some s ∧
    s.announced = 1 ∧ s.announced ≤ s.applied := by
  have hrun : ∃ s, runSteps step init lateNotification = some s ∧ s.announced = 1 ∧
      s.stage = .waiting true ∧ s.notified = false ∧ s.announcing = 0 := ⟨_, rfl, rfl, rfl, rfl, rfl⟩
  obtain ⟨s, hs, hannounced, hwaiting, hquiet, hcallers⟩ := hrun
  exact ⟨s, hs, hannounced, (mainTask_announced hs hwaiting hquiet hcallers).1⟩

end BekenCam.MainTask
