import BekenCam.IntrusiveList
import BekenCam.StepRuns

/-!
# Software timeouts

The timeouts that run are linked through their own structs, the newest at the tail. One hardware
timer counts them all down: its interrupt takes those that reach zero off the list. The timer is
created with the first timeout and removed some time after the last one. The loops over the list
have fuel; a loop that runs out of it would not return.
-/
namespace BekenCam.Timeout

variable {τ : Type*} [DecidableEq τ]

def infiniteTimeout : UInt32 := 0

def removeDelayTicks : ℤ := 1000

/-- The fields of the timeout structs, the driver's own state and the hardware timers that call
`timeoutIsr`. -/
structure Timeouts (τ : Type*) where
  next : τ → Option τ
  ticks : τ → UInt32
  head : Option τ
  timer : ℤ
  removeDelay : ℤ
  running : List ℤ

def Timeouts.start (next : τ → Option τ) (ticks : τ → UInt32) : Timeouts τ where
  next := next
  ticks := ticks
  head := none
  timer := -1
  removeDelay := removeDelayTicks
  running := []

/-- The macro of this name: `current` goes, and the node before it, or the head, skips it. -/
def removeCurrent (s : Timeouts τ) (prev : Option τ) (current : τ) : Timeouts τ :=
  let (head, next) := unlink s.next s.head prev current
  { s with head := head, next := next }

/-- One node of the countdown, and the node that is previous to the one behind it. -/
def countDown (s : Timeouts τ) (prev : Option τ) (current : τ) : Timeouts τ × Option τ :=
  let s :=
    if s.ticks current > 0 then
      { s with ticks := Function.update s.ticks current (s.ticks current - 1) }
    else s
  if s.ticks current = 0 then
    ({ removeCurrent s prev current with removeDelay := removeDelayTicks }, prev)
  else (s, some current)

def isrLoop : ℕ → Option τ → Option τ → Timeouts τ → Option (Timeouts τ)
  | _, _, none, s => some s
  | 0, _, some _, _ => none
  | fuel + 1, prev, some current, s =>
    let (s, prev) := countDown s prev current
    isrLoop fuel prev (s.next current) s

def timeoutIsr (fuel : ℕ) (timerNum : ℤ) (s : Timeouts τ) : Option (Timeouts τ) :=
  if s.head = none then
    some (
      if s.removeDelay ≤ 0 then
        { s with running := s.running.erase timerNum, timer := -1 }
      else { s with removeDelay := s.removeDelay - 1 })
  else if timerNum ≠ s.timer then some s
  else isrLoop fuel none s.head s

/-- The last node from `current` on. -/
def tailLoop (s : Timeouts τ) : ℕ → τ → Option τ
  | fuel, current =>
    match s.next current, fuel with
    | none, _ => some current
    | some _, 0 => none
    | some following, fuel + 1 => tailLoop s fuel following

def addToTail (fuel : ℕ) (t : τ) (s : Timeouts τ) : Option (Timeouts τ) :=
  match s.head with
  | none => some { s with head := some t }
  | some head =>
    (tailLoop s fuel head).map fun current =>
      { s with next := Function.update s.next current (some t) }

/-- What is returned and the state after it; `answer` is what `timer_create_by_freq` would give. -/
def createTimeout (fuel : ℕ) (t : τ) (ms : UInt32) (answer : ℤ) (s : Timeouts τ) :
    Option (Bool × Timeouts τ) :=
  let ticks := if ms = infiniteTimeout then 0xffffffff else ms + 1
  if ticks = 0 then some (false, s)
  else
    let s := { s with
      ticks := Function.update s.ticks t ticks
      next := Function.update s.next t none }
    if ms = infiniteTimeout then some (true, s)
    else if s.timer < 0 then
      if answer < 0 then some (false, s)
      else
        let s := { s with timer := answer, running := answer :: s.running }
        (addToTail fuel t s).map fun s => (true, s)
    else (addToTail fuel t s).map fun s => (true, s)

def freeLoop (t : τ) : ℕ → Option τ → Option τ → Timeouts τ → Option (Timeouts τ)
  | _, _, none, s => some s
  | 0, _, some _, _ => none
  | fuel + 1, prev, some current, s =>
    if current = t then some { removeCurrent s prev current with removeDelay := removeDelayTicks }
    else freeLoop t fuel (some current) (s.next current) s

def freeTimeout (fuel : ℕ) (t : τ) (s : Timeouts τ) : Option (Timeouts τ) :=
  let s := { s with ticks := Function.update s.ticks t 0 }
  freeLoop t fuel none s.head s

def isTimeoutFinished (s : Timeouts τ) (t : τ) : Bool := s.ticks t = 0

/-- The calls, with what was answered and returned, and the ticks of the hardware. -/
inductive Event (τ : Type*)
  | create (t : τ) (ms : UInt32) (answer : ℤ) (returned : Bool)
  | free (t : τ)
  | tick
deriving DecidableEq

/-- A tick is one interrupt of each timer that is running. -/
def step (fuel : ℕ) (s : Timeouts τ) : Event τ → Option (Timeouts τ)
  | .create t ms answer returned =>
    (createTimeout fuel t ms answer s).bind fun r => if r.1 = returned then some r.2 else none
  | .free t => freeTimeout fuel t s
  | .tick => s.running.foldlM (fun s timerNum => timeoutIsr fuel timerNum s) s

end BekenCam.Timeout
