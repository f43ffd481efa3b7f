import BekenCam.ScanOwnership

/-!
# Association sessions

One task at a time is in `wifi_sta_start`; the kmsg task, the timer and the supplicant end what it
starts. Each section under the session's mutex is one step, and so is each operation on the timer,
on a flag and on a promise. An association's promise and its result have the same number. The timer
may fire whenever it runs, and its periods are left out, as is what the interface and the supplicant
do by themselves.
-/
namespace BekenCam.Sta

open Scan (Promise)

inductive ConnectStatus
  | associated
  | refused
  | noReply
  | authFailed
  deriving DecidableEq, Repr

/-- `ConnectResult`, without the address of the AP. -/
structure ConnectResult where
  status : ConnectStatus
  statusCode : UInt16
  deriving DecidableEq

/-- Where the caller is in `wifi_sta_start`, with its locals. -/
inductive Caller
  | idle
  | checked
  | free
  | ready (secure : Bool)
  | built (k : ℕ) (secure : Bool)
  | published (k : ℕ)
  | armed (k : ℕ)
  | failed (k : ℕ)
  | stopped (k : ℕ)
  | unsent (k : ℕ) (result : Option ℕ)
  deriving DecidableEq

inductive Who
  | kmsg
  | timer
  | supplicant
  deriving DecidableEq

/-- Where one of the other tasks is: in `session_finish` with its locals, and before that in the
indication's or the timer's handler. -/
inductive Task
  | idle
  | deciding (ok : Bool)
  | shaking
  | prolonging
  | unlinked
  | fired
  | aborting
  | entering (status : ConnectStatus)
  | took (k : ℕ) (result : Option ℕ) (status : ConnectStatus)
  | quiet (k : ℕ) (result : Option ℕ) (status : ConnectStatus)
  | linking (k : ℕ) (result : Option ℕ)
  | resolving (k : ℕ) (result : Option ℕ)
  | dropping (k : ℕ)
  deriving DecidableEq

/-- `asked` tells that the supplicant was asked to give up since the association was published.
`handed`, `resolves`, `gone` and `dropped` only record: the promises that were returned, the calls
of `resolve`, the results that were deleted or awaited, and the session's handles that are gone. -/
structure State where
  caller : Caller
  task : Who → Task
  promise : Option ℕ
  result : Option ℕ
  secure : Bool
  handshake : Bool
  linkUp : Bool
  timer : Bool
  asked : Bool
  promises : ℕ → Promise
  results : ℕ → ConnectResult
  next : ℕ
  handed : List ℕ
  resolves : List ℕ
  gone : List ℕ
  dropped : List ℕ

def init : State where
  caller := .idle
  task _ := .idle
  promise := none
  result := none
  secure := false
  handshake := false
  linkUp := false
  timer := false
  asked := false
  promises _ := ⟨false, false, false, false, none⟩
  results _ := ⟨.associated, 0⟩
  next := 0
  handed := []
  resolves := []
  gone := []
  dropped := []

inductive Act
  -- wifi_sta_start
  | check
  | busy
  | prepare (ok secure : Bool)
  | build (hasResult hasPromise : Bool)
  | publish
  | startTimer
  | send (accepted : Bool)
  | stopTimer
  | cleanup
  | leave
  -- the one who was given the promise
  | await (k : ℕ)
  | drop (k : ℕ)
  -- kmsg
  | connectInd (statusCode : UInt16)
  | decide
  | shake
  | prolong
  | disconnectInd
  | unlink
  -- the timer
  | expire
  | callback
  | abort
  -- the supplicant, and whoever leaves the BSS
  | verdict (ok : Bool)
  | connectLeave
  -- session_finish
  | finish (w : Who)
  | quiet (w : Who)
  | settle (w : Who)
  | link (w : Who)
  | resolve (w : Who)
  | release (w : Who)
  deriving DecidableEq

namespace State

variable (s : State)

def setTask (w : Who) (t : Task) : State := { s with task := Function.update s.task w t }

def setPromise (k : ℕ) (obj : Promise) : State :=
  { s with promises := Function.update s.promises k obj }

/-- A handle has gone. The last one deletes the promise, and with it the payload. -/
def letGo (k : ℕ) (obj : Promise) : State :=
  { s with
    promises := Function.update s.promises k obj.letGo
    gone := (if obj.client || obj.session then none else obj.value).toList ++ s.gone }

/-- The session's handle of a promise has gone. -/
def dropSession (k : ℕ) : State :=
  { s with dropped := k :: s.dropped }.letGo k { s.promises k with session := false }

def dropClient (k : ℕ) : State := s.letGo k { s.promises k with client := false }

def dropPublished : State :=
  match s.promise with
  | some k => s.dropSession k
  | none => s

/-- The steps of `wifi_sta_start`. -/
def callerStep : Act → Option State
  | .check =>
    match s.caller with
    | .idle => some (if s.linkUp then s else { s with caller := .checked })
    | _ => none
  | .busy =>
    match s.caller with
    | .checked => some { s with caller := if s.promise.isSome then .idle else .free }
    | _ => none
  | .prepare ok secure =>
    match s.caller with
    | .free => some { s with caller := if ok then .ready secure else .idle }
    | _ => none
  | .build hasResult hasPromise =>
    match s.caller with
    | .ready secure =>
      if hasResult && hasPromise then
        some { s with
          promises := Function.update s.promises s.next ⟨true, false, false, false, none⟩
          results := Function.update s.results s.next ⟨.associated, 0⟩
          next := s.next + 1
          caller := .built s.next secure }
      else if hasResult then
        some { s with
          next := s.next + 1
          gone := s.next :: s.gone
          dropped := s.next :: s.dropped
          caller := .idle }
      else some { s with caller := .idle }
    | _ => none
  | .publish =>
    match s.caller with
    | .built k secure =>
      let s₁ := (s.setPromise k { s.promises k with session := true }).dropPublished
      some { s₁ with
        promise := some k
        result := some k
        secure := secure
        handshake := false
        asked := false
        caller := .published k }
    | _ => none
  | .startTimer =>
    match s.caller with
    | .published k => some { s with timer := true, caller := .armed k }
    | _ => none
  | .send accepted =>
    match s.caller with
    | .armed k =>
      if accepted then some { s with handed := k :: s.handed, caller := .idle }
      else some { s with caller := .failed k }
    | _ => none
  | .stopTimer =>
    match s.caller with
    | .failed k => some { s with timer := false, caller := .stopped k }
    | _ => none
  | .cleanup =>
    match s.caller with
    | .stopped k =>
      some { s.dropPublished with
        promise := none
        result := none
        caller := .unsent k s.result }
    | _ => none
  | .leave =>
    match s.caller with
    | .unsent k r => some ({ s with gone := r.toList ++ s.gone, caller := .idle }.dropClient k)
    | _ => none
  | _ => none

/-- The steps of the one who was given a promise. `await` waits until it is resolved. -/
def clientStep : Act → Option State
  | .await k =>
    if k ∈ s.handed ∧ (s.promises k).client = true ∧ (s.promises k).resolved = true then
      some { s.setPromise k { s.promises k with taken := true, value := none } with
        gone := (s.promises k).value.toList ++ s.gone }
    else none
  | .drop k =>
    if k ∈ s.handed ∧ (s.promises k).client = true then some (s.dropClient k) else none
  | _ => none

/-- The handlers of the indications, up to `session_finish`. -/
def kmsgStep : Act → Option State
  | .connectInd statusCode =>
    match s.task .kmsg with
    | .idle =>
      let s₁ := match s.result with
        | some r =>
          { s with
            results := Function.update s.results r { s.results r with statusCode := statusCode } }
        | none => s
      some (if s.promise.isSome then s₁.setTask .kmsg (.deciding (statusCode == 0)) else s₁)
    | _ => none
  | .decide =>
    match s.task .kmsg with
    | .deciding ok =>
      some (s.setTask .kmsg (if ok && s.secure then .shaking
        else .entering (if ok then .associated else .refused)))
    | _ => none
  | .shake =>
    match s.task .kmsg with
    | .shaking => some ({ s with handshake := true }.setTask .kmsg .prolonging)
    | _ => none
  | .prolong =>
    match s.task .kmsg with
    | .prolonging => some ({ s with timer := true }.setTask .kmsg .idle)
    | _ => none
  | .disconnectInd =>
    match s.task .kmsg with
    | .idle => some ({ s with linkUp := false }.setTask .kmsg .unlinked)
    | _ => none
  | .unlink =>
    match s.task .kmsg with
    | .unlinked => some (s.setTask .kmsg (if s.handshake then .entering .authFailed else .idle))
    | _ => none
  | _ => none

/-- `timer_expired`, and what the supplicant and `connect_leave` do to the session. -/
def otherStep : Act → Option State
  | .expire =>
    match s.task .timer with
    | .idle => if s.timer then some ({ s with timer := false }.setTask .timer .fired) else none
    | _ => none
  | .callback =>
    match s.task .timer with
    | .fired => some (s.setTask .timer (if s.handshake then .aborting else .entering .noReply))
    | _ => none
  | .abort =>
    match s.task .timer with
    | .aborting => some ({ s with asked := true }.setTask .timer .idle)
    | _ => none
  | .verdict ok =>
    match s.task .supplicant with
    | .idle => some (s.setTask .supplicant (.entering (if ok then .associated else .authFailed)))
    | _ => none
  | .connectLeave => some { s with linkUp := false }
  | _ => none

/-- `session_finish`, from its section under the mutex on. -/
def finishStep : Act → Option State
  | .finish w =>
    match s.task w with
    | .entering status =>
      let s₁ := { s with promise := none, result := none }
      some (s₁.setTask w (match s.promise with
        | some k => .took k s.result status
        | none => .idle))
    | _ => none
  | .quiet w =>
    match s.task w with
    | .took k r status => some ({ s with timer := false }.setTask w (.quiet k r status))
    | _ => none
  | .settle w =>
    match s.task w with
    | .quiet k r status =>
      let s₁ := match r with
        | some r =>
          { s with results := Function.update s.results r { s.results r with status := status } }
        | none => s
      some ({ s₁ with handshake := false }.setTask w
        (if status = ConnectStatus.associated then .linking k r else .resolving k r))
    | _ => none
  | .link w =>
    match s.task w with
    | .linking k r => some ({ s with linkUp := true }.setTask w (.resolving k r))
    | _ => none
  | .resolve w =>
    match s.task w with
    | .resolving k r =>
      let obj := s.promises k
      let s₁ := { s with resolves := k :: s.resolves }.setTask w (.dropping k)
      if obj.resolved then some { s₁ with gone := r.toList ++ s.gone }
      else some (s₁.setPromise k { obj with resolved := true, value := r })
    | _ => none
  | .release w =>
    match s.task w with
    | .dropping k => some ((s.setTask w .idle).dropSession k)
    | _ => none
  | _ => none

def step (s : State) : Act → Option State
  | a@(.await _) | a@(.drop _) => s.clientStep a
  | a@(.connectInd _) | a@(.decide) | a@(.shake) | a@(.prolong) | a@(.disconnectInd)
  | a@(.unlink) => s.kmsgStep a
  | a@(.expire) | a@(.callback) | a@(.abort) | a@(.verdict _) | a@(.connectLeave) => s.otherStep a
  | a@(.finish _) | a@(.quiet _) | a@(.settle _) | a@(.link _) | a@(.resolve _)
  | a@(.release _) => s.finishStep a
  | a => s.callerStep a

end State
end BekenCam.Sta
