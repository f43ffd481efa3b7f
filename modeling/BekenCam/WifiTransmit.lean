import BekenCam.ApModel
import BekenCam.Ownership
import BekenCam.WifiIface

/-!
# Sending frames

The stack's thread posts frames to the core task, which copies them for the archive; the
supplicant's task posts frames of its own. The archive is known by what it may do with a descriptor:
read and overwrite the buffer of one in use, be done with it, or wipe them all in a reset. A frame
does not change while a reference to it is held. Nothing protects the counters: a task reads one,
and stores what it makes of it in a step of its own.
-/
namespace BekenCam.WifiTx

open WifiNet Ap

def ethHdrLen : ℕ := 14
def txHeadRoom : ℕ := 96
def txTailRoom : ℕ := 16
def txInflight : ℕ := 16
def bmsgQueueLen : ℕ := 64

/-- A frame in pieces. -/
structure Pbuf where
  chain : List (List UInt8)
  fits : chain.flatten.length < 2 ^ 16

namespace Pbuf

def bytes (p : Pbuf) : List UInt8 := p.chain.flatten

def totLen (p : Pbuf) : ℕ := p.bytes.length

def copyPartial (p : Pbuf) (len off : ℕ) : List UInt8 := slice p.bytes off len

end Pbuf

inductive Msg
  | tx (ref : ℕ) (p : Pbuf) (vifIdx : UInt8)
  | other

/-- A descriptor of the ring the frames go to. -/
abbrev Td := Fin 64

/-- Addresses in the buffer are offsets from `origAddr`. -/
structure Host where
  origAddr : ℕ
  packetAddr : ℕ
  packetLen : ℕ
  statusDescAddr : ℕ
  ethDestAddr : List UInt8
  ethSrcAddr : List UInt8
  ethertype : List UInt8
  flags : UInt16
  tid : UInt8
  vifIdx : UInt8
  staid : UInt8

/-- The counters of the interfaces, and `s_tx_unknown_vif`. -/
inductive Counter
  | txPosted (i : IfaceId)
  | txPushed (i : IfaceId)
  | txDropped (i : IfaceId)
  | txUnknownVif
  deriving DecidableEq

/-- The tasks that count. -/
inductive Task
  | tcpip
  | supplicant
  | core
  deriving DecidableEq

instance : Fintype Task := ⟨{.tcpip, .supplicant, .core}, fun t => by cases t <;> decide⟩

/-- A `++` under way, with what it read. -/
structure Increment where
  counter : Counter
  read : Option UInt32

/-- The peers of the two interfaces at one time. -/
structure Peers where
  apId : UInt8 → UInt8
  bcmcIdx : UInt8
  clients : Option ApClients

/-- What was handed to the archive, for whom, and who the peers were then. -/
structure Sent where
  iface : IfaceId
  vifIdx : UInt8
  staid : UInt8
  bytes : List UInt8
  peers : Peers

/-- `ring` has the descriptors in use. `begun`, `attempts`, `accepted` and `pushed` are there for
what is said about the rest; `begun` has the increments by their counter, also those under way. -/
structure State where
  table : Table
  stat : Counter → UInt32
  counting : Task → Option Increment
  begun : Counter → ℕ
  queue : List Msg
  nextRef : ℕ
  freedRefs : List ℕ
  inflight : Fin txInflight → Option (Td × ℕ)
  txReset : Bool
  ring : Td → Option Host
  heap : ℕ → List UInt8
  nextBuffer : ℕ
  freedBuffers : List ℕ
  attempts : ℕ
  accepted : List (UInt8 × List UInt8)
  pushed : List Sent
  readFreed : Bool

namespace State

def init (t : Table) : State where
  table := t
  stat := fun _ => 0
  counting := fun _ => none
  begun := fun _ => 0
  queue := []
  nextRef := 0
  freedRefs := []
  inflight := fun _ => none
  txReset := false
  ring := fun _ => none
  heap := fun _ => []
  nextBuffer := 0
  freedBuffers := []
  attempts := 0
  accepted := []
  pushed := []
  readFreed := false

/-! ## Counting -/

/-- A task comes to an increment. -/
def count (s : State) (t : Task) (c : Counter) : State :=
  { s with
    counting := Function.update s.counting t (some ⟨c, none⟩)
    begun := Function.update s.begun c (s.begun c + 1) }

/-- It reads the counter. -/
def load (s : State) (t : Task) : Option State :=
  match s.counting t with
  | some ⟨c, none⟩ =>
    some { s with counting := Function.update s.counting t (some ⟨c, some (s.stat c)⟩) }
  | _ => none

/-- It stores one more than it read. -/
def store (s : State) (t : Task) : Option State :=
  match s.counting t with
  | some ⟨c, some n⟩ =>
    some { s with
      stat := Function.update s.stat c (n + 1)
      counting := Function.update s.counting t none }
  | _ => none

/-! ## Posting -/

def pbufFree (s : State) (ref : ℕ) : State := { s with freedRefs := ref :: s.freedRefs }

/-- Another sender's message. -/
def postOther (s : State) : State :=
  if s.queue.length < bmsgQueueLen then { s with queue := s.queue ++ [.other] } else s

/-- On the stack's thread, or on the supplicant's task. -/
def lowLevelOutput (s : State) (t : Task) (i : IfaceId) (p : Pbuf) : State :=
  if p.totLen ≤ ethHdrLen then s
  else
    let ref := s.nextRef
    let s := { s with nextRef := ref + 1, attempts := s.attempts + 1 }
    if s.queue.length < bmsgQueueLen then
      { s with
        queue := s.queue ++ [Msg.tx ref p (s.table i).vif]
        accepted := s.accepted ++ [((s.table i).vif, p.bytes)] }.count t (.txPosted i)
    else (s.count t (.txDropped i)).pbufFree ref

/-- `alloc` is whether there was memory for the frame. -/
def wifiNetSendRaw (s : State) (vifIdx : UInt8) (p : Pbuf) (alloc : Bool) : State :=
  match ifaceFromVif s.table vifIdx with
  | none => s
  | some i =>
    if !alloc then s
    else
      let ref := s.nextRef
      ({ s with nextRef := ref + 1 }.lowLevelOutput .supplicant i p).pbufFree ref

/-! ## The core task -/

def vPortFree (s : State) (b : ℕ) : State := { s with freedBuffers := b :: s.freedBuffers }

def reapSlot (reset : Bool) (s : State) (k : Fin txInflight) : State :=
  match s.inflight k with
  | none => s
  | some (td, b) =>
    if !reset && (s.ring td).isSome then s
    else { s.vPortFree b with inflight := Function.update s.inflight k none }

def txReap (s : State) : State :=
  (List.finRange txInflight).foldl (reapSlot s.txReset) { s with txReset := false }

def freeSlot (s : State) : Option (Fin txInflight) :=
  (List.finRange txInflight).find? fun k => (s.inflight k).isNone

/-- The archive is done with a descriptor. -/
def complete (s : State) (td : Td) : State :=
  { s with ring := Function.update s.ring td none }

end State

/-- Without a lock there is no access point, and `clients` is none. -/
def apTxStaid (peers : Peers) (dest : Octets 6) : UInt8 :=
  if dest.val.headD 0 &&& 0x01 ≠ 0 then peers.bcmcIdx
  else match peers.clients with
    | none => apNoSta
    | some clients =>
      match apClientsFind clients dest with
      | some c => if (clients c).state = .assoc then (clients c).staIdx else apNoSta
      | none => apNoSta

def txStaid (peers : Peers) (i : IfaceId) (vif : UInt8) (dest : Octets 6) : UInt8 :=
  match i with
  | .sta => peers.apId vif
  | .ap => apTxStaid peers dest

/-- What the core task meets: the peers, the descriptors the archive is done with after the reaping,
the one it gives next and whether there is memory. -/
structure Env where
  peers : Peers
  late : List Td
  td : Td
  malloc : Bool

def fillHost (buffer : ℕ) (mem : List UInt8) (len : ℕ) (vif staid : UInt8) : Host where
  origAddr := buffer
  packetAddr := txHeadRoom + ethHdrLen
  packetLen := len - ethHdrLen
  statusDescAddr := txHeadRoom + ethHdrLen
  ethDestAddr := slice mem txHeadRoom 6
  ethSrcAddr := slice mem (txHeadRoom + 6) 6
  ethertype := slice mem (txHeadRoom + 12) 2
  flags := 0
  tid := 0xFF
  vifIdx := vif
  staid := staid

/-- What the archive makes of a descriptor. -/
def Host.transmitted (h : Host) (mem : List UInt8) : List UInt8 :=
  h.ethDestAddr ++ h.ethSrcAddr ++ h.ethertype ++ slice mem h.packetAddr h.packetLen

namespace State

/-- From the allocation on. -/
def copyAndPush (s : State) (e : Env) (ref : ℕ) (p : Pbuf) (i : IfaceId) (staid : UInt8)
    (k : Fin txInflight) : State :=
  let len := p.totLen
  if !e.malloc then (s.count .core (.txDropped i)).pbufFree ref
  else
    let buffer := s.nextBuffer
    let frame := p.copyPartial len 0
    let mem := writeAt (List.replicate (txHeadRoom + len + txTailRoom) 0) txHeadRoom frame
    let s := { s with nextBuffer := buffer + 1, heap := Function.update s.heap buffer mem }.pbufFree
      ref
    if frame.length ≠ len then (s.count .core (.txDropped i)).vPortFree buffer
    else
      let host := fillHost buffer mem len (s.table i).vif staid
      { s.count .core (.txPushed i) with
        inflight := Function.update s.inflight k (some (e.td, buffer))
        ring := Function.update s.ring e.td (some host)
        pushed := s.pushed ++ [⟨i, host.vifIdx, staid, host.transmitted mem, e.peers⟩] }

def wifiNetTxFromCore (s : State) (e : Env) (ref : ℕ) (p : Pbuf) (vifIdx : UInt8) : State :=
  match ifaceFromVif s.table vifIdx with
  | none => (s.count .core .txUnknownVif).pbufFree ref
  | some i =>
    if hshort : p.totLen ≤ ethHdrLen then (s.count .core (.txDropped i)).pbufFree ref
    else
      let dest : Octets 6 := ⟨p.copyPartial 6 0, by
        have : 6 ≤ p.bytes.length := by simp only [Pbuf.totLen, ethHdrLen] at hshort; omega
        simpa [Pbuf.copyPartial, slice] using this⟩
      let staid := txStaid e.peers i (s.table i).vif dest
      if staid = apNoSta then (s.count .core (.txDropped i)).pbufFree ref
      else
        let s := s.txReap
        match s.freeSlot with
        | none => (s.count .core (.txDropped i)).pbufFree ref
        | some k =>
          let s := e.late.foldl complete s
          if (s.ring e.td).isSome then (s.count .core (.txDropped i)).pbufFree ref
          else s.copyAndPush e ref p i staid k

end State

inductive Label
  | output (i : IfaceId) (p : Pbuf)
  | sendRaw (vifIdx : UInt8) (p : Pbuf) (alloc : Bool)
  | postOther
  | core (e : Env)
  | load (t : Task)
  | store (t : Task)
  | touch (td : Td) (contents : List UInt8)
  | complete (td : Td)
  | reset
  | setTable (t : Table)

/-- A task takes its next frame when its increment is through. The archive reads and overwrites the
buffer of a descriptor in use. A reset wipes the descriptors and is announced. -/
def step (s : State) : Label → Option State
  | .output i p =>
    if (s.counting .tcpip).isNone then some (s.lowLevelOutput .tcpip i p) else none
  | .sendRaw vifIdx p alloc =>
    if (s.counting .supplicant).isNone then some (s.wifiNetSendRaw vifIdx p alloc) else none
  | .postOther => some s.postOther
  | .core e =>
    if (s.counting .core).isNone then
      match s.queue with
      | [] => none
      | .other :: rest => some { s with queue := rest }
      | .tx ref p vifIdx :: rest =>
        some ({ s with queue := rest }.wifiNetTxFromCore e ref p vifIdx)
    else none
  | .load t => s.load t
  | .store t => s.store t
  | .touch td contents => (s.ring td).map fun h =>
    { s with
      heap := Function.update s.heap h.origAddr contents
      readFreed := s.readFreed || s.freedBuffers.contains h.origAddr }
  | .complete td => some (s.complete td)
  | .reset => some { s with txReset := true, ring := fun _ => none }
  | .setTable t => some { s with table := t }

end BekenCam.WifiTx
