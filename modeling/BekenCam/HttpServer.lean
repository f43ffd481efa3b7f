import BekenCam.TaskCrew
import BekenCam.Ownership
import BekenCam.StepRuns

/-!
# Starting and stopping the HTTP server

One task starts and stops the server; its workers accept connections and serve them. Servers, workers
and sockets are numbered in the order of their creation. What a worker does with a connection is left
open: it may look at the server and use the socket any number of times before it closes it.
A use of a server that was freed, of a socket that was closed, or of a semaphore that is not there
is recorded as a fault. The stopper waits with a limit, so a semaphore may not be given in time.
-/
namespace BekenCam.HttpServer

def minWorkers : ℕ := 2

/-- `handler` tells whether there is one. -/
structure Config where
  handler : Bool
  workers : ℕ

/-- `exited` is how often the semaphore was given, if it could be created. -/
structure Server where
  workers : ℕ
  listenFd : Option ℕ
  stopping : Bool
  exited : Option ℕ
  started : ℕ

/-- Where a worker is in `worker_task`. -/
inductive Pc
  | loop
  | accepting
  | serving (fd : ℕ)
  | leaving
  | deleted

/-- Where the task is that starts and stops the server, with its local `server`. -/
inductive Owner
  | idle
  | creating (k : ℕ)
  | stopping (k : ℕ)
  | collecting (k : ℕ)

structure Worker where
  server : ℕ
  pc : Pc

/-- `current` is `s_server`. `closed` only records the sockets that were closed. -/
structure State where
  server : ℕ → Option Server
  nextServer : ℕ
  current : Option ℕ
  worker : ℕ → Option Worker
  nextWorker : ℕ
  owner : Owner
  nextFd : ℕ
  closed : List ℕ
  fault : Bool

def init : State where
  server _ := none
  nextServer := 0
  current := none
  worker _ := none
  nextWorker := 0
  owner := .idle
  nextFd := 0
  closed := []
  fault := false

/-- Who takes the step, and what its calls return. -/
inductive Act
  -- `http_server_start`
  | start (config : Config) (malloc semaphore socket : Bool)
  | create (created : Bool)
  -- `http_server_stop`
  | stop
  | stopping
  | collect (taken : Bool)
  -- worker `i`
  | look (i : ℕ)
  | accept (i : ℕ) (accepted : Bool)
  | serve (i : ℕ)
  | close (i : ℕ)
  | exit (i : ℕ)

namespace State

variable (s : State)

def setServer (k : ℕ) (server : Option Server) : State :=
  { s with server := Function.update s.server k server }

def setWorker (i k : ℕ) (pc : Pc) : State :=
  { s with worker := Function.update s.worker i (some ⟨k, pc⟩) }

/-- A descriptor that `lwip_socket` or `lwip_accept` returned and nobody closed. -/
def isOpen (fd : ℕ) : Bool := fd < s.nextFd && !s.closed.contains fd

def useFd (fd : ℕ) : State := { s with fault := s.fault || !s.isOpen fd }

/-- `lwip_close`. -/
def closeFd (fd : ℕ) : State :=
  { s with fault := s.fault || !s.isOpen fd, closed := fd :: s.closed }

def fail : State := { s with fault := true }

/-- `destroy_server`. -/
def destroy (k : ℕ) : State :=
  match s.server k with
  | none => s.fail
  | some o =>
    match o.listenFd with
    | some fd => (s.closeFd fd).setServer k none
    | none => s.setServer k none

/-- `http_server_start` up to the loop that creates the workers. What it has set up when something
fails is taken down again before another task can see it. -/
def start (config : Config) (malloc semaphore socket : Bool) : State :=
  if !config.handler || config.workers < minWorkers || s.current.isSome then s
  else if !malloc then s
  else
    let k := s.nextServer
    let o : Server :=
      { workers := config.workers
        listenFd := if socket then some s.nextFd else none
        stopping := false
        exited := if semaphore then some 0 else none
        started := 0 }
    let s₁ :=
      { s.setServer k (some o) with
        nextServer := k + 1
        nextFd := if socket then s.nextFd + 1 else s.nextFd }
    if !semaphore || !socket then s₁.destroy k
    else { s₁ with current := some k, owner := .creating k }

/-- `xSemaphoreGive(server->exited)`. The count of the semaphore has a limit. -/
def give (k : ℕ) : State :=
  match s.server k with
  | none => s.fail
  | some o =>
    match o.exited with
    | none => s.fail
    | some n => s.setServer k (some { o with exited := some (min (n + 1) o.workers) })

end State

open State

/-- The steps of the task that starts and stops. -/
def ownerStep (s : State) : Act → Option State
  | .start config malloc semaphore socket =>
    match s.owner with
    | .idle => some (s.start config malloc semaphore socket)
    | _ => none
  | .create created =>
    match s.owner with
    | .creating k =>
      match s.server k with
      | none => some s.fail
      | some o =>
        if o.workers ≤ o.started then some { s with owner := .idle }
        else if !created then some { s with owner := .stopping k }
        else
          some { (s.setServer k (some { o with started := o.started + 1 })).setWorker s.nextWorker k
              .loop with nextWorker := s.nextWorker + 1 }
    | _ => none
  | .stop =>
    match s.owner, s.current with
    | .idle, some k => some { s with owner := .stopping k }
    | .idle, none => some s
    | _, _ => none
  | .stopping =>
    match s.owner with
    | .stopping k =>
      match s.server k with
      | none => some s.fail
      | some o => some { s.setServer k (some { o with stopping := true }) with owner := .collecting k }
    | _ => none
  | .collect taken =>
    match s.owner with
    | .collecting k =>
      match s.server k with
      | none => some s.fail
      | some o =>
        if o.started = 0 then some { s.destroy k with current := none, owner := .idle }
        else
          match o.exited with
          | none => some s.fail
          | some given =>
            if !taken then some { s with owner := .idle }
            else if given = 0 then none
            else
              some (s.setServer k
                (some { o with exited := some (given - 1), started := o.started - 1 }))
    | _ => none
  | _ => none

/-- The steps of `worker_task`, of worker `i` with the server `k`. -/
def workerStep (s : State) (i k : ℕ) (pc : Pc) : Act → Option State
  | .look _ =>
    match pc, s.server k with
    | .loop, none => some s.fail
    | .loop, some o => some (s.setWorker i k (if o.stopping then .leaving else .accepting))
    | _, _ => none
  | .accept _ accepted =>
    match pc, s.server k with
    | .accepting, none => some s.fail
    | .accepting, some o =>
      match o.listenFd with
      | none => some s.fail
      | some fd =>
        if accepted then
          some { (s.useFd fd).setWorker i k (.serving s.nextFd) with nextFd := s.nextFd + 1 }
        else some ((s.useFd fd).setWorker i k .loop)
    | _, _ => none
  | .serve _ =>
    match pc, s.server k with
    | .serving _, none => some s.fail
    | .serving fd, some _ => some (s.useFd fd)
    | _, _ => none
  | .close _ =>
    match pc with
    | .serving fd => some ((s.closeFd fd).setWorker i k .loop)
    | _ => none
  | .exit _ =>
    match pc with
    | .leaving => some ((s.give k).setWorker i k .deleted)
    | _ => none
  | _ => none

/-- The worker that takes the step. -/
def Act.worker : Act → Option ℕ
  | .look i | .accept i _ | .serve i | .close i | .exit i => some i
  | _ => none

def step (s : State) (a : Act) : Option State :=
  match a.worker with
  | none => ownerStep s a
  | some i => (s.worker i).bind fun w => workerStep s i w.server w.pc a

end BekenCam.HttpServer
