import BekenCam.StepRuns
import BekenCam.Ownership

/-!
# Scan sessions

Any number of callers of `wifi_scan`, the kmsg task with its indications and the end of a sweep,
and the timer that cancels one. Each section under the session's mutex is one step, and so is each
operation on a promise. A promise has two handles: the one that `wifi_scan` builds and returns, and
the session's copy; the reference count is the number of them. Promises and results are numbered in
the order of their creation. Of a result only what decides its status is kept, and the deadlines of
the timer are left out: it may fire at any time.
-/
namespace BekenCam.Scan

inductive ScanStatus
  | ok
  | incomplete
  | timeout
  deriving DecidableEq, Repr

/-- `dropped` counts what was lost to a failed allocation. -/
structure ScanResult where
  status : ScanStatus
  indications : UInt16
  dropped : UInt16

/-- `client` and `session` tell which handles are still there. -/
structure Promise where
  client : Bool
  session : Bool
  resolved : Bool
  taken : Bool
  value : Option ℕ
  deriving DecidableEq

/-- Where a caller is in `wifi_scan`, with its locals. -/
inductive Frame
  | idle
  | checked
  | built (promise result : ℕ)
  | published (promise : ℕ)
  | failed (promise : ℕ)
  | unsent (promise : ℕ) (result : Option ℕ)

/-- The two tasks that end a session. -/
inductive Worker
  | kmsg
  | timer
  deriving DecidableEq

/-- Where a worker is: `timer_expired` up to `cancel_sweep`, then `session_finish`. -/
inductive Finish
  | idle
  | cancelling
  | entering
  | took (promise result : Option ℕ) (status : ScanStatus)
  | dropping (promise : ℕ)

/-- `handed`, `resolves` and `gone` only record: the promises that were returned, the calls of
`resolve`, and the results that were deleted or awaited. -/
structure State (ι : Type) where
  frame : ι → Frame
  worker : Worker → Finish
  promise : Option ℕ
  result : Option ℕ
  collectSurvey : Bool
  cancelled : Bool
  promises : ℕ → Promise
  results : ℕ → ScanResult
  nextPromise : ℕ
  nextResult : ℕ
  handed : List ℕ
  resolves : List ℕ
  gone : List ℕ

def init (ι : Type) : State ι where
  frame _ := .idle
  worker _ := .idle
  promise := none
  result := none
  collectSurvey := false
  cancelled := false
  promises _ := ⟨false, false, false, false, none⟩
  results _ := ⟨.ok, 0, 0⟩
  nextPromise := 0
  nextResult := 0
  handed := []
  resolves := []
  gone := []

section Handles

variable {ι : Type}

def State.setPromise (s : State ι) (p : ℕ) (obj : Promise) : State ι :=
  { s with promises := Function.update s.promises p obj }

/-- A handle has gone. The last one deletes the promise, and with it the payload. -/
def State.letGo (s : State ι) (p : ℕ) (obj : Promise) : State ι :=
  if obj.client || obj.session then s.setPromise p obj
  else { s.setPromise p { obj with value := none } with gone := obj.value.toList ++ s.gone }

def State.dropClient (s : State ι) (p : ℕ) : State ι :=
  s.letGo p { s.promises p with client := false }

def State.dropSession (s : State ι) (p : ℕ) : State ι :=
  s.letGo p { s.promises p with session := false }

def State.dropPublished (s : State ι) : State ι :=
  match s.promise with
  | some p => s.dropSession p
  | none => s

end Handles

inductive Act (ι : Type)
  -- wifi_scan
  | check (i : ι)
  | build (i : ι)
  | buildFails (i : ι) (hasResult : Bool)
  | publish (i : ι) (collectSurvey : Bool)
  | send (i : ι) (queued : Bool)
  | cleanup (i : ι)
  | leave (i : ι)
  -- the one who was given the promise
  | await (p : ℕ)
  | drop (p : ℕ)
  -- kmsg and timer
  | indication (known outOfMemory : Bool)
  | survey (outOfMemory : Bool)
  | expire
  | cancelSweep (queued : Bool)
  | finish (w : Worker)
  | resolve (w : Worker)
  | release (w : Worker)

section Step

variable {ι : Type} [DecidableEq ι]

def State.setFrame (s : State ι) (i : ι) (f : Frame) : State ι :=
  { s with frame := Function.update s.frame i f }

def State.setWorker (s : State ι) (w : Worker) (f : Finish) : State ι :=
  { s with worker := Function.update s.worker w f }

/-- The steps of `wifi_scan`. -/
def scanStep (s : State ι) : Act ι → Option (State ι)
  | .check i =>
    match s.frame i with
    | .idle => if s.promise.isSome then some s else some (s.setFrame i .checked)
    | _ => none
  | .build i =>
    match s.frame i with
    | .checked =>
      some ({ s with
        promises := Function.update s.promises s.nextPromise ⟨true, false, false, false, none⟩
        results := Function.update s.results s.nextResult ⟨.ok, 0, 0⟩
        nextPromise := s.nextPromise + 1
        nextResult := s.nextResult + 1 }.setFrame i (.built s.nextPromise s.nextResult))
    | _ => none
  | .buildFails i hasResult =>
    match s.frame i with
    | .checked =>
      if hasResult then
        some ({ s with
          nextResult := s.nextResult + 1
          gone := s.nextResult :: s.gone }.setFrame i .idle)
      else some (s.setFrame i .idle)
    | _ => none
  | .publish i collectSurvey =>
    match s.frame i with
    | .built p r =>
      let s₁ := (s.setPromise p { s.promises p with session := true }).dropPublished
      some ({ s₁ with
        promise := some p
        result := some r
        collectSurvey := collectSurvey
        cancelled := false }.setFrame i (.published p))
    | _ => none
  | .send i queued =>
    match s.frame i with
    | .published p =>
      if queued then some ({ s with handed := p :: s.handed }.setFrame i .idle)
      else some (s.setFrame i (.failed p))
    | _ => none
  | .cleanup i =>
    match s.frame i with
    | .failed p =>
      some ({ s.dropPublished with
        promise := none
        result := none }.setFrame i (.unsent p s.result))
    | _ => none
  | .leave i =>
    match s.frame i with
    | .unsent p r =>
      some (({ s with gone := r.toList ++ s.gone }.setFrame i .idle).dropClient p)
    | _ => none
  | _ => none

/-- The steps of the one who was given a promise. `await` waits until it is resolved. -/
def clientStep (s : State ι) : Act ι → Option (State ι)
  | .await p =>
    if p ∈ s.handed ∧ (s.promises p).client = true ∧ (s.promises p).resolved = true then
      let obj := s.promises p
      if obj.taken then some s
      else some { s.setPromise p { obj with taken := true, value := none } with
        gone := obj.value.toList ++ s.gone }
    else none
  | .drop p =>
    if p ∈ s.handed ∧ (s.promises p).client = true then some (s.dropClient p) else none
  | _ => none

/-- A sweep that was cancelled is not a finished one. -/
def finishStatus (cancelled : Bool) (status : ScanStatus) : ScanStatus :=
  if cancelled ∧ status = .ok then .timeout else status

/-- The status that a result is resolved with. -/
def concludeResult (r : ScanResult) (status : ScanStatus) : ScanResult :=
  { r with status := if r.dropped ≠ 0 ∧ status = .ok then .incomplete else status }

def conclude (results : ℕ → ScanResult) (status : ScanStatus) : Option ℕ → ℕ → ScanResult
  | some r => Function.update results r (concludeResult (results r) status)
  | none => results

def statusOf : Worker → ScanStatus
  | .kmsg => .ok
  | .timer => .timeout

/-- Whether `session_finish` is called next. -/
def Finish.ready : Worker → Finish → Bool
  | .kmsg, .idle => true
  | .timer, .entering => true
  | _, _ => false

/-- The steps of kmsg and of the timer. -/
def workerStep (s : State ι) : Act ι → Option (State ι)
  | .indication known outOfMemory =>
    match s.worker .kmsg, s.result with
    | .idle, some r =>
      some { s with results := Function.update s.results r { s.results r with
        indications := (s.results r).indications + 1
        dropped := if known ∨ ¬ outOfMemory then (s.results r).dropped
          else (s.results r).dropped + 1 } }
    | .idle, none => some s
    | _, _ => none
  | .survey outOfMemory =>
    match s.worker .kmsg, s.result with
    | .idle, some r =>
      some { s with results := Function.update s.results r { s.results r with
        dropped := if s.collectSurvey ∧ outOfMemory then (s.results r).dropped + 1
          else (s.results r).dropped } }
    | .idle, none => some s
    | _, _ => none
  | .expire =>
    match s.worker .timer with
    | .idle =>
      if s.promise.isNone then some s
      else if s.cancelled then some (s.setWorker .timer .entering)
      else some ({ s with cancelled := true }.setWorker .timer .cancelling)
    | _ => none
  | .cancelSweep queued =>
    match s.worker .timer with
    | .cancelling => some (s.setWorker .timer (if queued then .idle else .entering))
    | _ => none
  | .finish w =>
    if (s.worker w).ready w then
      some ({ s with
        promise := none
        result := none
        cancelled := false }.setWorker w
          (.took s.promise s.result (finishStatus s.cancelled (statusOf w))))
    else none
  | .resolve w =>
    match s.worker w with
    | .took none _ _ => some (s.setWorker w .idle)
    | .took (some p) r status =>
      let obj := s.promises p
      let s₁ := { s with
        results := conclude s.results status r
        resolves := p :: s.resolves }.setWorker w (.dropping p)
      if obj.resolved then some { s₁ with gone := r.toList ++ s.gone }
      else some (s₁.setPromise p { obj with resolved := true, value := r })
    | _ => none
  | .release w =>
    match s.worker w with
    | .dropping p => some ((s.setWorker w .idle).dropSession p)
    | _ => none
  | _ => none

def step (s : State ι) : Act ι → Option (State ι)
  | a@(.await _) | a@(.drop _) => clientStep s a
  | a@(.indication _ _) | a@(.survey _) | a@(.expire) | a@(.cancelSweep _) | a@(.finish _)
  | a@(.resolve _) | a@(.release _) => workerStep s a
  | a => scanStep s a

end Step

/-! ## The condition -/

/-- A session is published when there is none, and the caller whose request was not queued clears
its own session or none. -/
def inTurn {ι : Type} (s : State ι) : Act ι → Bool
  | .publish _ _ => s.promise.isNone
  | .cleanup i =>
    match s.frame i with
    | .failed p => s.promise.isNone || s.promise == some p
    | _ => true
  | _ => true

end BekenCam.Scan
