import BekenCam.DeviceRuns

/-!
# The services of the main task

The coroutines that bring the access point, the station and the console to the requested state, as
programs. A sleep is where a coroutine is left and resumed. What the services ask may be answered
in any way. A log keeps what the properties are about.
-/
namespace BekenCam.MainTask

open Prog

inductive ConnectStatus
  | associated
  | refused
  | noReply
  | authFailed
  deriving DecidableEq

inductive Command
  | apIsUp
  | apStart
  | apStop
  | staIsUp
  | staIsLinkUp
  | staStart
  | awaitResult
  | staGetAddress
  | staStop
  | telnetIsUp
  | telnetStart
  | telnetStop
  | sleep (ms : ℕ)

/-- `staStart` tells whether there is a promise, `awaitResult` gives none for an empty result. -/
abbrev Answer : Command → Type
  | .apIsUp | .staIsUp | .staIsLinkUp | .staStart | .staGetAddress | .telnetIsUp => Bool
  | .awaitResult => Option ConnectStatus
  | _ => Unit

abbrev Job := Prog Command Answer
abbrev Service := Job Bool

def sleepMs (ms : ℕ) : Job Unit := command (Command.sleep ms)
def wifiApIsUp : Job Bool := command Command.apIsUp
def wifiApStart : Job Unit := command Command.apStart
def wifiApStop : Job Unit := command Command.apStop
def wifiStaIsUp : Job Bool := command Command.staIsUp
def wifiStaIsLinkUp : Job Bool := command Command.staIsLinkUp
def wifiStaStart : Job Bool := command Command.staStart
def await : Job (Option ConnectStatus) := command Command.awaitResult
def wifiStaGetAddress : Job Bool := command Command.staGetAddress
def wifiStaStop : Job Unit := command Command.staStop
def telnetServerIsUp : Job Bool := command Command.telnetIsUp
def telnetConsoleStart : Job Unit := command Command.telnetStart
def telnetServerStop : Job Unit := command Command.telnetStop

/-- Ask `n` times, a second apart. -/
def pollSeconds (question : Job Bool) : ℕ → Service
  | 0 => return false
  | n + 1 => do
    sleepMs 1000
    let yes ← question
    if yes then return true else pollSeconds question n

/-! ## The access point -/

/-- The attempts that are left, from number `attempt` on. -/
def apAttempts (target : Bool) : ℕ → ℕ → Service
  | 0, _ => return false
  | n + 1, attempt =>
    if target then do
      wifiApStart
      let up ← pollSeconds wifiApIsUp 10
      if up then return true
      else do
        wifiApStop
        sleepMs (1000 * attempt)
        apAttempts target n (attempt + 1)
    else do
      wifiApStop
      sleepMs 1000
      let up ← wifiApIsUp
      if !up then return true else apAttempts target n (attempt + 1)

def serviceAp (target : Bool) (maxAttempts : ℕ) : Service := do
  let up ← wifiApIsUp
  if up = target then return true else apAttempts target maxAttempts 1

/-! ## The station -/

/-- The end of an attempt that did not get there. -/
def staGiveUp (attempt : ℕ) (next : Service) : Service := do
  wifiStaStop
  sleepMs (1000 * attempt)
  next

def staAttempts (target : Bool) : ℕ → ℕ → Service
  | 0, _ => return false
  | n + 1, attempt =>
    let next := staAttempts target n (attempt + 1)
    if target then do
      let up ← wifiStaIsUp
      if up then do
        wifiStaStop
        sleepMs 1000
        next
      else do
        let started ← wifiStaStart
        if !started then return false
        else do
          sleepMs 2000
          let result ← await
          match result with
          | none => return false
          | some .associated => do
            let address ← pollSeconds wifiStaGetAddress 20
            if address then return true else staGiveUp attempt next
          | some _ => staGiveUp attempt next
    else do
      wifiStaStop
      sleepMs 1000
      let up ← wifiStaIsUp
      if !up then return true else staGiveUp attempt next

/-- The link is only asked for when the station is up. -/
def staReached (target : Bool) : Job Bool := do
  let up ← wifiStaIsUp
  if target then
    if up then wifiStaIsLinkUp else return false
  else return !up

def serviceSta (target : Bool) (maxAttempts : ℕ) : Service := do
  let reached ← staReached target
  if reached then return true else staAttempts target maxAttempts 1

/-! ## The console -/

def telnetAttempts (target : Bool) : ℕ → Service
  | 0 => return false
  | n + 1 => do
    if target then telnetConsoleStart else telnetServerStop
    sleepMs 1000
    let up ← telnetServerIsUp
    if target = up then return true else telnetAttempts target n

def serviceTelnet (target : Bool) (maxAttempts : ℕ) : Service := do
  let up ← telnetServerIsUp
  if target = up then return true else telnetAttempts target maxAttempts

/-! ## What is logged -/

/-- `starts` are the starts and `resumes` the sleeps. `pending` says that a start was not followed
by a stop, `restarted` that it was followed by another start, and `startedUp` that the station was
started without having been seen down. `seen` is what the last question about the state was
answered. -/
structure Log where
  starts : ℕ
  resumes : ℕ
  pending : Bool
  restarted : Bool
  startedUp : Bool
  seen : Option Bool
  result : Option ConnectStatus
  address : Bool

namespace Log

def empty : Log := ⟨0, 0, false, false, false, none, none, false⟩

def start (l : Log) (ok : Bool) : Log :=
  { l with
    starts := l.starts + 1
    pending := ok
    restarted := l.restarted || l.pending
    result := none
    address := false }

def record (l : Log) : (c : Command) → Answer c → Log
  | .apIsUp, up | .telnetIsUp, up | .staIsUp, up => { l with seen := some up }
  | .staIsLinkUp, up => { l with seen := some up }
  | .apStart, _ | .telnetStart, _ => l.start true
  | .staStart, ok => { l.start ok with startedUp := l.startedUp || l.seen != some false }
  | .awaitResult, result => { l with result := result }
  | .staGetAddress, address => { l with address := address }
  | .apStop, _ | .staStop, _ | .telnetStop, _ => { l with pending := false }
  | .sleep _, _ => { l with resumes := l.resumes + 1 }

/-- Any answer may come. -/
def device : Device Command Answer Log := fun c l r l' => l' = l.record c r

/-- The log of a run. -/
def of (es : List (Σ c, Answer c)) : Log := es.foldl (fun l e => l.record e.1 e.2) .empty

end Log

theorem Log.steps_foldl (es : List (Σ c, Answer c)) (l : Log) :
    Steps Log.device l es (es.foldl (fun l e => l.record e.1 e.2) l) := by
  induction es generalizing l with
  | nil => rfl
  | cons e es ih => exact ⟨_, rfl, ih _⟩

/-! ## What a service does -/

/-- How often may be started and slept, from `before` to `after`. -/
structure Tidy (target : Bool) (attempts perAttempt : ℕ) (before after : Log) : Prop where
  starts : after.starts ≤ before.starts + attempts
  resumes : after.resumes ≤ before.resumes + perAttempt * attempts
  idle : target = false → after.starts = before.starts
  startedUp : after.startedUp = before.startedUp

/-- Only time has passed, with `left` questions to go. -/
structure Waited (total left : ℕ) (before after : Log) : Prop where
  starts : after.starts = before.starts
  resumes : after.resumes + left = before.resumes + total
  pending : after.pending = before.pending
  restarted : after.restarted = before.restarted
  startedUp : after.startedUp = before.startedUp
  result : after.result = before.result

section Attempts

variable {target : Bool} {l l₁ l₂ : Log} {Q : Bool → Log → Prop} {n m k : ℕ}

theorem Tidy.refl : Tidy target 0 k l l := ⟨le_rfl, le_rfl, fun _ => rfl, rfl⟩

theorem Tidy.trans (h : Tidy target n k l l₁) (h' : Tidy target m k l₁ l₂) :
    Tidy target (n + m) k l l₂ where
  starts := by
    have := h.starts
    have := h'.starts
    omega
  resumes := by
    have := h.resumes
    have := h'.resumes
    rw [Nat.mul_add]
    omega
  idle ht := (h'.idle ht).trans (h.idle ht)
  startedUp := h'.startedUp.trans h.startedUp

/-- Each pass leaves `I` for one question fewer, or the answer is yes. -/
theorem wp_pollSeconds {question : Job Bool} {I : ℕ → Log → Prop}
    (hdone : ∀ l, I 0 l → Q false l)
    (hask : ∀ n l, I (n + 1) l → Wp Log.device (fun yes l' => if yes then Q true l' else I n l')
      question (l.record (.sleep 1000) ())) (h : I n l) :
    Wp Log.device Q (pollSeconds question n) l := by
  induction n generalizing l with
  | zero => exact hdone l h
  | succ n ih =>
    refine wp_command.mpr ?_
    rintro ⟨⟩ l₁ rfl
    refine wp_bind.mpr ((hask n l h).mono fun yes l' hl' => ?_)
    cases yes with
    | true => exact hl'
    | false => exact ih hl'

theorem Waited.sleep (h : Waited n (m + 1) l l₁) : Waited n m l (l₁.record (.sleep 1000) ()) :=
  ⟨h.starts, by have := h.resumes; simp only [Log.record]; omega, h.pending, h.restarted,
    h.startedUp, h.result⟩

theorem wp_pollAp : Wp Log.device (fun up l' => (∃ left, Waited n left l l') ∧
    (up = true → l'.seen = some true)) (pollSeconds wifiApIsUp n) l := by
  refine wp_pollSeconds (I := fun left l' => Waited n left l l') ?_ ?_
    ⟨rfl, rfl, rfl, rfl, rfl, rfl⟩
  · exact fun l' h => ⟨⟨0, h⟩, nofun⟩
  · rintro left l' h up l₁ rfl
    have hasked : Waited n left l ((l'.record (.sleep 1000) ()).record .apIsUp up) :=
      ⟨h.sleep.starts, h.sleep.resumes, h.sleep.pending, h.sleep.restarted, h.sleep.startedUp,
        h.sleep.result⟩
    cases up with
    | true => exact ⟨⟨left, hasked⟩, fun _ => rfl⟩
    | false => exact hasked

theorem wp_pollAddress : Wp Log.device (fun got l' => (∃ left, Waited n left l l') ∧
    (got = true → l'.address = true)) (pollSeconds wifiStaGetAddress n) l := by
  refine wp_pollSeconds (I := fun left l' => Waited n left l l') ?_ ?_
    ⟨rfl, rfl, rfl, rfl, rfl, rfl⟩
  · exact fun l' h => ⟨⟨0, h⟩, nofun⟩
  · rintro left l' h got l₁ rfl
    have hasked : Waited n left l ((l'.record (.sleep 1000) ()).record .staGetAddress got) :=
      ⟨h.sleep.starts, h.sleep.resumes, h.sleep.pending, h.sleep.restarted, h.sleep.startedUp,
        h.sleep.result⟩
    cases got with
    | true => exact ⟨⟨left, hasked⟩, fun _ => rfl⟩
    | false => exact hasked

/-! ## The access point -/

/-- Nothing is started twice without a stop between, and only what is left running was reached. -/
structure ApDone (target : Bool) (n : ℕ) (before : Log) (r : Bool) (after : Log) : Prop where
  tidy : Tidy target n 11 before after
  restarted : after.restarted = before.restarted
  pending : after.pending = true → r = true
  seen : r = true → after.seen = some target

theorem ApDone.after (htidy : Tidy target 1 11 l l₁) (hrestarted : l₁.restarted = l.restarted)
    {r : Bool} (h : ApDone target n l₁ r l₂) : ApDone target (n + 1) l r l₂ where
  tidy := by
    rw [Nat.add_comm]
    exact htidy.trans h.tidy
  restarted := h.restarted.trans hrestarted
  pending := h.pending
  seen := h.seen

theorem wp_apAttempts {attempt : ℕ} (hl : l.pending = false) :
    Wp Log.device (ApDone target n l) (apAttempts target n attempt) l := by
  induction n generalizing l attempt with
  | zero => exact ⟨.refl, rfl, fun h => absurd (hl.symm.trans h) (by decide), nofun⟩
  | succ n ih =>
    cases target with
    | true =>
      refine wp_command.mpr ?_
      rintro ⟨⟩ l₁ rfl
      refine wp_bind.mpr (wp_pollAp.mono ?_)
      rintro up l₂ ⟨⟨left, hwaited⟩, hseen⟩
      have hresumes := hwaited.resumes
      simp only [Log.record, Log.start] at hresumes
      have hstarts : l₂.starts = l.starts + 1 := hwaited.starts
      have hrestarted : l₂.restarted = l.restarted := by
        simpa [Log.record, Log.start, hl] using hwaited.restarted
      cases up with
      | true =>
        refine ⟨⟨by omega, by omega, nofun, hwaited.startedUp⟩, hrestarted, fun _ => rfl, hseen⟩
      | false =>
        refine wp_command.mpr ?_
        rintro ⟨⟩ l₃ rfl
        refine wp_command.mpr ?_
        rintro ⟨⟩ l₄ rfl
        have htidy : Tidy true 1 11 l ((l₂.record .apStop ()).record (.sleep (1000 * attempt)) ()) :=
          ⟨hstarts.le, by simp only [Log.record]; omega, nofun, hwaited.startedUp⟩
        exact (ih rfl).mono fun r l' h => ApDone.after htidy hrestarted h
    | false =>
      refine wp_command.mpr ?_
      rintro ⟨⟩ l₁ rfl
      refine wp_command.mpr ?_
      rintro ⟨⟩ l₂ rfl
      refine wp_command.mpr ?_
      rintro up l₃ rfl
      have htidy : Tidy false 1 11 l (((l.record .apStop ()).record (.sleep 1000) ()).record .apIsUp
          up) := ⟨Nat.le_succ _, by simp only [Log.record]; omega, fun _ => rfl, rfl⟩
      cases up with
      | true => exact (ih rfl).mono fun r l' h => h.after htidy rfl
      | false =>
        refine ApDone.after (n := n) htidy rfl ⟨?_, rfl, fun _ => rfl, fun _ => rfl⟩
        exact ⟨Nat.le_add_right _ _, Nat.le_add_right _ _, fun _ => rfl, rfl⟩

/-! ## The station -/

/-- As for the access point, but an association without a result is left pending. -/
structure StaDone (target : Bool) (n : ℕ) (before : Log) (r : Bool) (after : Log) : Prop where
  tidy : Tidy target n 22 before after
  restarted : after.restarted = before.restarted
  pending : after.pending = true → r = true ∨ after.result = none
  reached : r = true → if target then after.result = some .associated ∧ after.address = true
    else after.seen = some false

theorem StaDone.after (htidy : Tidy target 1 22 l l₁) (hrestarted : l₁.restarted = l.restarted)
    {r : Bool} (h : StaDone target n l₁ r l₂) : StaDone target (n + 1) l r l₂ where
  tidy := by
    rw [Nat.add_comm]
    exact htidy.trans h.tidy
  restarted := h.restarted.trans hrestarted
  pending := h.pending
  reached := h.reached

/-- An attempt is given up with the station stopped, after at most 21 sleeps. -/
theorem wp_staGiveUp {attempt : ℕ} {next : Service}
    (hnext : ∀ l', l'.pending = false → Wp Log.device (StaDone target n l') next l')
    (htidy : Tidy target 1 21 l l₁) (hrestarted : l₁.restarted = l.restarted) :
    Wp Log.device (StaDone target (n + 1) l) (staGiveUp attempt next) l₁ := by
  refine wp_command.mpr ?_
  rintro ⟨⟩ l₂ rfl
  refine wp_command.mpr ?_
  rintro ⟨⟩ l₃ rfl
  have hafter : Tidy target 1 22 l
      ((l₁.record .staStop ()).record (.sleep (1000 * attempt)) ()) := by
    refine ⟨htidy.starts, ?_, htidy.idle, htidy.startedUp⟩
    have := htidy.resumes
    simp only [Log.record]
    omega
  exact (hnext _ rfl).mono fun r l' h => StaDone.after hafter hrestarted h

theorem wp_staAttempts {attempt : ℕ} (hl : l.pending = false) :
    Wp Log.device (StaDone target n l) (staAttempts target n attempt) l := by
  induction n generalizing l attempt with
  | zero => exact ⟨.refl, rfl, fun h => absurd (hl.symm.trans h) (by decide), nofun⟩
  | succ n ih =>
    have hnext : ∀ l' : Log, l'.pending = false → Wp Log.device (StaDone target n l')
        (staAttempts target n (attempt + 1)) l' := fun _ hl' => ih hl'
    cases target with
    | true =>
      refine wp_command.mpr ?_
      rintro up l₁ rfl
      cases up with
      | true =>
        refine wp_command.mpr ?_
        rintro ⟨⟩ l₂ rfl
        refine wp_command.mpr ?_
        rintro ⟨⟩ l₃ rfl
        have htidy : Tidy true 1 22 l (((l.record .staIsUp true).record .staStop ()).record
            (.sleep 1000) ()) := ⟨Nat.le_succ _, by simp only [Log.record]; omega, nofun, rfl⟩
        exact (hnext _ rfl).mono fun r l' h => StaDone.after htidy rfl h
      | false =>
        refine wp_command.mpr ?_
        rintro started l₂ rfl
        have hrestarted : (l.restarted || l.pending) = l.restarted := by simp [hl]
        have hstarted : (l.startedUp || (some false != some false)) = l.startedUp := by simp
        cases started with
        | false =>
          exact ⟨⟨by simp only [Log.record, Log.start]; omega, Nat.le_add_right _ _, nofun, hstarted⟩,
            hrestarted, nofun, nofun⟩
        | true =>
          refine wp_command.mpr ?_
          rintro ⟨⟩ l₃ rfl
          refine wp_command.mpr ?_
          rintro result l₄ rfl
          have htidy : Tidy true 1 1 l (((((l.record .staIsUp false).record .staStart true).record
              (.sleep 2000) ()).record .awaitResult result)) :=
            ⟨le_rfl, le_rfl, nofun, hstarted⟩
          cases result with
          | none =>
            refine ⟨⟨?_, ?_, nofun, hstarted⟩, hrestarted, fun _ => .inr rfl, nofun⟩
            · exact Nat.add_le_add_left (Nat.succ_le_succ (Nat.zero_le n)) _
            · simp only [Log.record, Log.start]
              omega
          | some status =>
            have hmore : Tidy true 1 21 l (((((l.record .staIsUp false).record .staStart
                true).record (.sleep 2000) ()).record .awaitResult (some status))) :=
              ⟨htidy.starts, htidy.resumes.trans (by omega), nofun, hstarted⟩
            cases status with
            | associated =>
              refine wp_bind.mpr (wp_pollAddress.mono ?_)
              rintro got l₅ ⟨⟨left, hwaited⟩, hgot⟩
              have hresumes := hwaited.resumes
              simp only [Log.record, Log.start] at hresumes
              have hstarts : l₅.starts = l.starts + 1 := hwaited.starts
              cases got with
              | true =>
                refine ⟨⟨by omega, by omega, nofun, hwaited.startedUp.trans hstarted⟩,
                  hwaited.restarted.trans hrestarted, fun _ => .inl rfl, fun _ => ?_⟩
                exact ⟨hwaited.result, hgot rfl⟩
              | false =>
                exact wp_staGiveUp hnext ⟨hstarts.le, by omega, nofun,
                  hwaited.startedUp.trans hstarted⟩ (hwaited.restarted.trans hrestarted)
            | refused => exact wp_staGiveUp hnext hmore hrestarted
            | noReply => exact wp_staGiveUp hnext hmore hrestarted
            | authFailed => exact wp_staGiveUp hnext hmore hrestarted
    | false =>
      refine wp_command.mpr ?_
      rintro ⟨⟩ l₁ rfl
      refine wp_command.mpr ?_
      rintro ⟨⟩ l₂ rfl
      refine wp_command.mpr ?_
      rintro up l₃ rfl
      cases up with
      | true =>
        exact wp_staGiveUp hnext ⟨Nat.le_succ _, by simp only [Log.record]; omega, fun _ => rfl, rfl⟩
          rfl
      | false =>
        refine ⟨⟨Nat.le_add_right _ _, ?_, fun _ => rfl, rfl⟩, rfl, nofun, fun _ => rfl⟩
        simp only [Log.record]
        omega

/-! ## The console -/

/-- A console that is not there a second later is started again without a stop, and left so. -/
structure TelnetDone (target : Bool) (n : ℕ) (before : Log) (r : Bool) (after : Log) : Prop where
  tidy : Tidy target n 1 before after
  seen : r = true → after.seen = some target
  unseen : target = true → r = false → after.starts = before.starts + n ∧
    (before.pending = true ∨ 0 < n → after.pending = true)

theorem wp_telnetAttempts : Wp Log.device (TelnetDone target n l) (telnetAttempts target n) l := by
  induction n generalizing l with
  | zero => exact ⟨.refl, nofun, fun _ _ => ⟨rfl, fun h => h.resolve_right (Nat.lt_irrefl 0)⟩⟩
  | succ n ih =>
    cases target with
    | true =>
      refine wp_command.mpr ?_
      rintro ⟨⟩ l₁ rfl
      refine wp_command.mpr ?_
      rintro ⟨⟩ l₂ rfl
      refine wp_command.mpr ?_
      rintro up l₃ rfl
      have htidy : Tidy true 1 1 l (((l.record .telnetStart ()).record (.sleep 1000) ()).record
          .telnetIsUp up) := ⟨le_rfl, le_rfl, nofun, rfl⟩
      cases up with
      | true => exact ⟨⟨by simp only [Log.record, Log.start]; omega,
          by simp only [Log.record, Log.start]; omega, nofun, rfl⟩, fun _ => rfl, nofun⟩
      | false =>
        refine ih.mono fun r l' h => ⟨by rw [Nat.add_comm]; exact htidy.trans h.tidy, h.seen,
          fun ht hr => ?_⟩
        obtain ⟨hstarts, hpending⟩ := h.unseen ht hr
        have hall : l.starts + 1 + n = l.starts + (n + 1) := by omega
        exact ⟨hstarts.trans hall, fun _ => hpending (.inl rfl)⟩
    | false =>
      refine wp_command.mpr ?_
      rintro ⟨⟩ l₁ rfl
      refine wp_command.mpr ?_
      rintro ⟨⟩ l₂ rfl
      refine wp_command.mpr ?_
      rintro up l₃ rfl
      have htidy : Tidy false 1 1 l (((l.record .telnetStop ()).record (.sleep 1000) ()).record
          .telnetIsUp up) := ⟨Nat.le_succ _, le_rfl, fun _ => rfl, rfl⟩
      cases up with
      | true => exact ih.mono fun r l' h => ⟨by rw [Nat.add_comm]; exact htidy.trans h.tidy, h.seen,
          nofun⟩
      | false => exact ⟨⟨Nat.le_add_right _ _, by simp only [Log.record]; omega, fun _ => rfl, rfl⟩,
          fun _ => rfl, nofun⟩

end Attempts

/-! ## Whole runs -/

inductive Kind
  | ap
  | sta
  | telnet
  deriving DecidableEq

def service (kind : Kind) (target : Bool) (maxAttempts : ℕ) : Service :=
  match kind with
  | .ap => serviceAp target maxAttempts
  | .sta => serviceSta target maxAttempts
  | .telnet => serviceTelnet target maxAttempts

/-- The requested state was seen, or an association made that led to an address. -/
def Reached (kind : Kind) (target : Bool) (l : Log) : Prop :=
  if kind = .sta ∧ target = true then
    l.starts = 0 ∧ l.seen = some true ∨ l.result = some .associated ∧ l.address = true
  else l.seen = some target

structure Ended (kind : Kind) (target : Bool) (maxAttempts : ℕ) (r : Bool) (l : Log) : Prop where
  starts : l.starts ≤ maxAttempts
  resumes : l.resumes ≤ 22 * maxAttempts
  idle : target = false → l.starts = 0
  startedUp : l.startedUp = false
  restarted : kind ≠ .telnet → l.restarted = false
  pending : kind ≠ .telnet → l.pending = true → r = true ∨ kind = .sta ∧ l.result = none
  reached : r = true → Reached kind target l
  unseen : kind = .telnet → target = true → r = false → l.starts = maxAttempts ∧
    (0 < maxAttempts → l.pending = true)

theorem wp_serviceAp {target : Bool} {n : ℕ} :
    Wp Log.device (Ended .ap target n) (serviceAp target n) .empty := by
  refine wp_command.mpr ?_
  rintro up l₁ rfl
  split_ifs with hup
  · exact ⟨Nat.zero_le _, Nat.zero_le _, fun _ => rfl, rfl, fun _ => rfl, nofun,
      fun _ => by simp [Reached, Log.record, hup], nofun⟩
  · refine (wp_apAttempts (l := Log.empty.record .apIsUp up) rfl).mono fun r l h => ?_
    have hstarts : l.starts ≤ 0 + n := h.tidy.starts
    have hresumes : l.resumes ≤ 0 + 11 * n := h.tidy.resumes
    exact ⟨by omega, by omega, h.tidy.idle, h.tidy.startedUp, fun _ => h.restarted,
      fun _ hp => .inl (h.pending hp), fun hr => by simpa [Reached] using h.seen hr, nofun⟩

theorem wp_serviceTelnet {target : Bool} {n : ℕ} :
    Wp Log.device (Ended .telnet target n) (serviceTelnet target n) .empty := by
  refine wp_command.mpr ?_
  rintro up l₁ rfl
  split_ifs with hup
  · exact ⟨Nat.zero_le _, Nat.zero_le _, fun _ => rfl, rfl, fun _ => rfl, nofun,
      fun _ => by simp [Reached, Log.record, hup], nofun⟩
  · refine (wp_telnetAttempts (l := Log.empty.record .telnetIsUp up)).mono fun r l h => ?_
    have hstarts : l.starts ≤ 0 + n := h.tidy.starts
    have hresumes : l.resumes ≤ 0 + 1 * n := h.tidy.resumes
    refine ⟨by omega, by omega, h.tidy.idle, h.tidy.startedUp, fun hk => absurd rfl hk,
      fun hk => absurd rfl hk, fun hr => by simpa [Reached] using h.seen hr, fun _ ht hr => ?_⟩
    obtain ⟨hall, hleft⟩ := h.unseen ht hr
    exact ⟨hall.trans (Nat.zero_add n), fun hpos => hleft (.inr hpos)⟩

theorem wp_staReached {target : Bool} : Wp Log.device (fun reached l => l.starts = 0 ∧
    l.resumes = 0 ∧ l.pending = false ∧ l.restarted = false ∧ l.startedUp = false ∧
    (reached = true → l.seen = some target)) (staReached target) .empty := by
  refine wp_command.mpr ?_
  rintro up l₁ rfl
  cases target with
  | true =>
    cases up with
    | true =>
      rintro linkUp l₂ rfl
      exact ⟨rfl, rfl, rfl, rfl, rfl, fun h => by rw [h]; rfl⟩
    | false => exact ⟨rfl, rfl, rfl, rfl, rfl, nofun⟩
  | false =>
    refine ⟨rfl, rfl, rfl, rfl, rfl, fun h => ?_⟩
    simp only [Bool.not_eq_true'] at h
    rw [h]
    rfl

theorem wp_serviceSta {target : Bool} {n : ℕ} :
    Wp Log.device (Ended .sta target n) (serviceSta target n) .empty := by
  refine wp_bind.mpr (wp_staReached.mono ?_)
  rintro reached l₁ ⟨hstarts, hresumes, hpending, hrestarted, hstartedUp, hseen⟩
  cases reached with
  | true =>
    refine ⟨by omega, by omega, fun _ => hstarts, hstartedUp, fun _ => hrestarted,
      fun _ _ => .inl rfl, fun _ => ?_, nofun⟩
    unfold Reached
    split_ifs with ht
    · exact .inl ⟨hstarts, (hseen rfl).trans (by rw [ht.2])⟩
    · exact hseen rfl
  | false =>
    refine (wp_staAttempts hpending).mono fun r l h => ?_
    have hstarts' := h.tidy.starts
    have hresumes' := h.tidy.resumes
    refine ⟨by omega, by omega, fun ht => (h.tidy.idle ht).trans hstarts,
      h.tidy.startedUp.trans hstartedUp, fun _ => h.restarted.trans hrestarted,
      fun _ hp => (h.pending hp).imp_right fun hr => ⟨rfl, hr⟩, fun hr => ?_, nofun⟩
    have hreached := h.reached hr
    cases target with
    | true => exact .inr hreached
    | false => exact hreached

/-- Whatever is answered, a service ends after a bounded number of starts and sleeps. It starts
nothing that is to be stopped and no station that was not seen down, and it is successful only if the
requested state was seen. The access point and the station are not started twice without a stop
between, and are left started only on success or without a result; a console that is not seen is
started at every attempt and left so. -/
theorem service_ended {kind : Kind} {target : Bool} {maxAttempts : ℕ} {es : List (Σ c, Answer c)}
    {r : Bool} (hrun : Performs (service kind target maxAttempts) es r) :
    Ended kind target maxAttempts r (Log.of es) := by
  have hwp : Wp Log.device (Ended kind target maxAttempts) (service kind target maxAttempts)
      .empty := by
    cases kind with
    | ap => exact wp_serviceAp
    | sta => exact wp_serviceSta
    | telnet => exact wp_serviceTelnet
  exact hwp.of_run hrun (Log.steps_foldl es .empty)

/-- The first association is refused, the second leads to an address. -/
def secondTry : List (Σ c, Answer c) :=
  [⟨.staIsUp, false⟩, ⟨.staIsUp, false⟩, ⟨.staStart, true⟩, ⟨.sleep 2000, ()⟩,
    ⟨.awaitResult, some .refused⟩, ⟨.staStop, ()⟩, ⟨.sleep 1000, ()⟩, ⟨.staIsUp, false⟩,
    ⟨.staStart, true⟩, ⟨.sleep 2000, ()⟩, ⟨.awaitResult, some .associated⟩, ⟨.sleep 1000, ()⟩,
    ⟨.staGetAddress, true⟩]

theorem service_ended_secondTry : Performs (service .sta true 10) secondTry true ∧
    Ended .sta true 10 true (Log.of secondTry) := by
  have hrun : Performs (service .sta true 10) secondTry true := by
    unfold secondTry
    repeat' first | exact .ret true | refine .call _ _ _ _ _ ?_
  exact ⟨hrun, service_ended hrun⟩

end BekenCam.MainTask
