import BekenCam.StepRuns

/-!
# Requests to the LMAC

`rw_msg_send` parks a node on `rw_msg_tx_head`, queues its message and waits for the semaphore of
the node. `rwnx_recv_msg` runs in the kmsg task: it takes a message of the LMAC and looks for the
first parked node with its id. Each section with the interrupts disabled, each look at a node and
each operation on a queue or a semaphore is one step. The LMAC takes requests in the order of the
queue and answers each once, requests with the same confirmation in their order, and soon enough
for nobody to time out. Allocations that fail return before anything is parked and are left out,
and so is what becomes of a message that matches no node.
-/
namespace BekenCam.RwMsg

/-! ## Messages -/

/-- The confirmations that the builders of `rw_msg.c` wait for: `MM_RESET`, `MM_START`, `MM_ADD_IF`,
`MM_SET_CHANNEL`, `MM_KEY_ADD`, `MM_KEY_DEL`, `ME_CONFIG`, `ME_CHAN_CONFIG`, `ME_SET_CONTROL_PORT`,
`ME_MGMT_TX`, `ME_STA_ADD`, `ME_STA_DEL`, `SM_CONNECT`, `SM_DISCONNECT`, `APM_START`, `APM_STOP`. -/
def awaited : List UInt16 :=
  [0x001, 0x003, 0x007, 0x011, 0x025, 0x027, 0xC01, 0xC03, 0xC05, 0xC08, 0xC0B, 0xC0D,
    0x1003, 0x1006, 0x1401, 0x1403]

/-- A parked node. `num` tells the calls apart. -/
structure Node where
  num : ℕ
  reqid : UInt16
  deriving DecidableEq

/-- A request on its way, with the id of its confirmation and the call that waits for it. -/
structure Request where
  cfmId : UInt16
  num : Option ℕ
  deriving DecidableEq

/-- A message of the LMAC, with the call whose request it answers. -/
structure KeMsg where
  id : UInt16
  param : List UInt8
  answers : Option ℕ

def KeMsg.request (m : KeMsg) : Request := ⟨m.id, m.answers⟩

/-- The caller's buffer after the copy. Without a buffer or without parameters nothing is copied. -/
def copyCfm : Option (List UInt8) → List UInt8 → Option (List UInt8)
  | none, _ => none
  | some buf, param => some (param.take (min param.length buf.length) ++
      buf.drop (min param.length buf.length))

/-! ## The tasks and kmsg -/

/-- Where a task is in `rw_msg_send`. -/
inductive Pc
  | idle
  | parking (node : Node)
  | sending (node : Node)
  | unparking (node : Node)
  | waiting (node : Node)

/-- Where kmsg is in `rwnx_recv_msg`. -/
inductive Search
  | idle
  | picking (msg : KeMsg)
  | comparing (msg : KeMsg) (node : Node)
  | extracting (msg : KeMsg) (node : Node)
  | advancing (msg : KeMsg) (node : Node)
  | copying (msg : KeMsg) (node : Node)
  | signalling (node : Node)

/-- A call that has returned 0, with its buffer before and after. -/
structure Returned where
  num : ℕ
  given : Option (List UInt8)
  cfm : Option (List UInt8)
  deriving DecidableEq

/-- `sent`, `answers` and `returned` only record what has happened. -/
structure State (ι : Type) where
  pc : ι → Pc
  next : ℕ
  txHead : List Node
  queue : List Request
  lmac : List Request
  rxHead : List KeMsg
  kmsg : Search
  given : ℕ → Option (List UInt8)
  cfm : ℕ → Option (List UInt8)
  signalled : ℕ → Bool
  sent : ℕ → Bool
  answers : List (ℕ × List UInt8)
  returned : List Returned

def init (ι : Type) : State ι where
  pc _ := .idle
  next := 0
  txHead := []
  queue := []
  lmac := []
  rxHead := []
  kmsg := .idle
  given _ := none
  cfm _ := none
  signalled _ := false
  sent _ := false
  answers := []
  returned := []

inductive Act (ι : Type)
  -- rw_msg_send, and rw_msg_post for a request that nobody waits for
  | call (i : ι) (cfmId : UInt16) (cfm : Option (List UInt8))
  | post (cfmId : UInt16)
  | park (i : ι)
  | queue (i : ι)
  | queueFails (i : ι)
  | unpark (i : ι)
  | wake (i : ι)
  -- the LMAC
  | take
  | answer (cfmId : UInt16) (param : List UInt8)
  | indicate (id : UInt16) (param : List UInt8)
  -- rwnx_recv_msg
  | pop
  | pick
  | compare
  | extract
  | advance
  | copy
  | signal

/-- The node after this one. -/
def coListNext (node : Node) : List Node → Option Node
  | [] => none
  | t :: rest => if t = node then rest.head? else coListNext node rest

/-- Compare with this node next, or give up. -/
def lookAt (msg : KeMsg) : Option Node → Search
  | some node => .comparing msg node
  | none => .idle

section Step

variable {ι : Type} [DecidableEq ι]

def State.set (s : State ι) (i : ι) (pc : Pc) : State ι := { s with pc := Function.update s.pc i pc }

/-- One step of a task in `rw_msg_send`. -/
def sendStep (s : State ι) : Act ι → Option (State ι)
  | .call i cfmId cfm =>
    match s.pc i with
    | .idle =>
      if cfmId ∈ awaited then
        some ({ s with
          next := s.next + 1
          given := Function.update s.given s.next cfm
          cfm := Function.update s.cfm s.next cfm }.set i (.parking ⟨s.next, cfmId⟩))
      else none
    | _ => none
  | .post cfmId =>
    if cfmId ∈ awaited then none else some { s with queue := s.queue ++ [⟨cfmId, none⟩] }
  | .park i =>
    match s.pc i with
    | .parking node => some ({ s with txHead := s.txHead ++ [node] }.set i (.sending node))
    | _ => none
  | .queue i =>
    match s.pc i with
    | .sending node =>
      some ({ s with
        queue := s.queue ++ [(⟨node.reqid, some node.num⟩ : Request)]
        sent := Function.update s.sent node.num true }.set i (.waiting node))
    | _ => none
  | .queueFails i =>
    match s.pc i with
    | .sending node => some (s.set i (.unparking node))
    | _ => none
  | .unpark i =>
    match s.pc i with
    | .unparking node => some ({ s with txHead := s.txHead.erase node }.set i .idle)
    | _ => none
  | .wake i =>
    match s.pc i with
    | .waiting node =>
      if s.signalled node.num then
        some ({ s with
          returned := ⟨node.num, s.given node.num, s.cfm node.num⟩ :: s.returned }.set i .idle)
      else none
    | _ => none
  | _ => none

/-- One step of the LMAC. It sends the confirmation of no request of its own accord. -/
def lmacStep (s : State ι) : Act ι → Option (State ι)
  | .take =>
    match s.queue with
    | req :: rest => some { s with queue := rest, lmac := s.lmac ++ [req] }
    | [] => none
  | .answer cfmId param =>
    match s.lmac.find? (·.cfmId == cfmId) with
    | some req =>
      some { s with
        lmac := s.lmac.eraseP (·.cfmId == cfmId)
        rxHead := s.rxHead ++ [⟨cfmId, param, req.num⟩]
        answers := (req.num.toList.map fun n => (n, param)) ++ s.answers }
    | none => none
  | .indicate id param =>
    if id ∈ awaited then none else some { s with rxHead := s.rxHead ++ [⟨id, param, none⟩] }
  | _ => none

/-- One step of kmsg. A node that its sender has taken out is freed, and a search that stands on
one has no step here. -/
def kmsgStep (s : State ι) : Act ι → Option (State ι)
  | .pop =>
    match s.kmsg, s.rxHead with
    | .idle, msg :: rest => some { s with rxHead := rest, kmsg := .picking msg }
    | _, _ => none
  | .pick =>
    match s.kmsg with
    | .picking msg => some { s with kmsg := lookAt msg s.txHead.head? }
    | _ => none
  | .compare =>
    match s.kmsg with
    | .comparing msg node =>
      if node ∈ s.txHead then
        some { s with
          kmsg := if msg.id = node.reqid then .extracting msg node else .advancing msg node }
      else none
    | _ => none
  | .extract =>
    match s.kmsg with
    | .extracting msg node =>
      if node ∈ s.txHead then
        some { s with txHead := s.txHead.erase node, kmsg := .copying msg node }
      else none
    | _ => none
  | .advance =>
    match s.kmsg with
    | .advancing msg node =>
      if node ∈ s.txHead then some { s with kmsg := lookAt msg (coListNext node s.txHead) }
      else none
    | _ => none
  | .copy =>
    match s.kmsg with
    | .copying msg node =>
      some { s with
        cfm := Function.update s.cfm node.num (copyCfm (s.cfm node.num) msg.param)
        kmsg := .signalling node }
    | _ => none
  | .signal =>
    match s.kmsg with
    | .signalling node =>
      some { s with signalled := Function.update s.signalled node.num true, kmsg := .idle }
    | _ => none
  | _ => none

def step (s : State ι) : Act ι → Option (State ι)
  | a@(.take) | a@(.answer _ _) | a@(.indicate _ _) => lmacStep s a
  | a@(.pop) | a@(.pick) | a@(.compare) | a@(.extract) | a@(.advance) | a@(.copy)
  | a@(.signal) => kmsgStep s a
  | a => sendStep s a

end Step

/-! ## The condition -/

/-- The node that a search stands on. -/
def Search.node : Search → Option Node
  | comparing _ node | extracting _ node | advancing _ node => some node
  | _ => none

/-- A message is queued after those of the nodes with its id that are parked before, and a failed
send does not take out the node that a search stands on. -/
def inOrder {ι : Type} (s : State ι) : Act ι → Bool
  | .queue i =>
    match s.pc i with
    | .sending node => (s.txHead.takeWhile (· ≠ node)).all fun t => t.reqid ≠ node.reqid || s.sent t.num
    | _ => true
  | .unpark i =>
    match s.pc i with
    | .unparking node => s.kmsg.node ≠ some node
    | _ => true
  | _ => true

end BekenCam.RwMsg
