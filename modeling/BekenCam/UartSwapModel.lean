import BekenCam.RingBuffer
import BekenCam.UartModel

/-!
# Swapping the transmit queue

`uart_set_tx_buffer` gives the port another queue or none, while tasks write and the interrupt
sends. It flushes the old queue first; the swap is a masked section of its own. Every masked
section is one step, and tasks do not run while `uart_isr` does. With no queue a write waits for
room and stores its byte, in two steps.
-/
namespace BekenCam.Uart

/-- The port, whose queue may be detached. A detached queue stays in `ring` and is not reachable.
`returned`, `reached` and `owners` only record: the bytes whose `uart_write_byte` has returned, the
bytes that the FIFO took, and the writers of the bytes in the queue. `nullRead` tells that a queue
was taken from that is not there. -/
structure SwapPort (w : ℕ) (ι : Type) where
  attached : Bool
  ring : Ringbuf w
  txNeedWrite : Bool
  wrReady : Bool
  txFifoCount : ℕ
  irqSourceEnabled : Bool
  nullRead : Bool
  returned : List (ι × UInt8)
  reached : List (ι × UInt8)
  owners : List ι

variable {w : ℕ} {ι : Type}

/-- `fifo_data = byte`. With the FIFO full the byte has nowhere to go. -/
def SwapPort.fifoWrite (p : SwapPort w ι) (byte : ι × UInt8) : SwapPort w ι :=
  { p with
    reached := if p.txFifoCount < txFifoDepth then p.reached ++ [byte] else p.reached
    txFifoCount := min (p.txFifoCount + 1) txFifoDepth
    wrReady := p.wrReady && decide (p.txFifoCount + 1 < txFifoDepth) }

def SwapPort.return (p : SwapPort w ι) (byte : ι × UInt8) : SwapPort w ι :=
  { p with returned := p.returned ++ [byte] }

/-- The head of the queue goes into the FIFO, if there is one. -/
def SwapPort.sendHead (p : SwapPort w ι) : Bool × SwapPort w ι :=
  match p.ring.getByte, p.owners with
  | (some byte, ring), owner :: owners =>
    (true, { p with ring := ring, owners := owners }.fifoWrite (owner, byte))
  | _, _ => (false, p)

/-- What follows `uart_tx_send_byte_blocked`: the write is retried, or the flush goes on. -/
inductive AfterSwapSend (w : ℕ)
  | retry (byte : UInt8)
  | flush (ring : Option (Ringbuf w))

/-- The next step of a context. A writer that found its queue full has the capacity of that one. -/
inductive SwapPc (w : ℕ)
  | idle
  -- `uart_write_byte`: the first test, the masked section, the test behind it
  | write (byte : UInt8)
  | queueing (byte : UInt8)
  | full (byte : UInt8) (capacity : BitVec w)
  -- `uart_tx_send_byte_blocked`: the wait, the masked section
  | waitReady (k : AfterSwapSend w)
  | sendHead (k : AfterSwapSend w)
  -- `uart_fifo_write_blocked`: the wait, the store
  | blocked (byte : UInt8)
  | storeByte (byte : UInt8)
  -- `uart_set_tx_buffer`: the first test of the flush, its loop, the masked swap
  | flush (ring : Option (Ringbuf w))
  | flushLoop (ring : Option (Ringbuf w))
  | swap (ring : Option (Ringbuf w))
  -- `uart_isr`: the room is counted, then the loop, then the disarm
  | isr
  | isrLoop (room : ℕ)
  | isrDisarm

def AfterSwapSend.pc : AfterSwapSend w → SwapPc w
  | retry byte => .queueing byte
  | flush ring => .flushLoop ring

/-- One step of the writer `i`, of `uart_set_tx_buffer` or of the interrupt. A wait loop has no step
as long as its condition does not hold. -/
def SwapPc.step (i : ι) (p : SwapPort w ι) : SwapPc w → Option (SwapPort w ι × SwapPc w)
  | .idle => none
  | .write byte => some (p, if p.attached then .queueing byte else .blocked byte)
  | .queueing byte =>
    if !p.attached then some (p, .blocked byte)
    else if p.ring.isEmpty && p.wrReady then
      some ((p.fifoWrite (i, byte)).return (i, byte), .idle)
    else
      let (queued, ring) := p.ring.putByte byte
      if queued then
        some ({ p with
          ring := ring
          owners := p.owners ++ [i]
          txNeedWrite := true }.return (i, byte), .idle)
      else some (p, .full byte p.ring.capacity)
  | .full byte capacity =>
    let canWake := decide (txFifoDepth < capacity.toNat) && p.txNeedWrite && p.irqSourceEnabled
    some (p, if canWake then .queueing byte else .waitReady (.retry byte))
  | .waitReady k => if p.wrReady then some (p, .sendHead k) else none
  | .sendHead k =>
    if !p.wrReady then some (p, .waitReady k)
    else if !p.attached then some ({ p with nullRead := true }, k.pc)
    else some (p.sendHead.2, k.pc)
  | .blocked byte => if p.wrReady then some (p, .storeByte byte) else none
  | .storeByte byte => some ((p.fifoWrite (i, byte)).return (i, byte), .idle)
  | .flush ring => some (p, if !p.attached || p.ring.isEmpty then .swap ring else .flushLoop ring)
  | .flushLoop ring =>
    if p.ring.isEmpty then some ({ p with txNeedWrite := false }, .swap ring)
    else some (p, .waitReady (.flush ring))
  | .swap none => some ({ p with txNeedWrite := false, attached := false }, .idle)
  | .swap (some ring) =>
    some ({ p with
      txNeedWrite := false
      attached := true
      ring := ring
      owners := [] }, .idle)
  | .isr =>
    some (p, if p.attached then .isrLoop (txFifoDepth - p.txFifoCount) else .isrDisarm)
  | .isrLoop 0 => some (p, .idle)
  | .isrLoop (room + 1) =>
    some (p.sendHead.2, if p.sendHead.1 then .isrLoop room else .isrDisarm)
  | .isrDisarm => some ({ p with txNeedWrite := false }, .idle)

/-! ## The system -/

/-- Any number of writers, the task that swaps the queue, and the interrupt. -/
structure SwapSystem (w : ℕ) (ι : Type) where
  port : SwapPort w ι
  writer : ι → SwapPc w
  swapper : SwapPc w
  irq : SwapPc w

/-- A queue that is attached is empty. -/
inductive SwapLabel (w : ℕ) (ι : Type)
  | write (i : ι) (byte : UInt8)
  | setTxBuffer (ring : Option (Ringbuf w))
  | interrupt
  | writer (i : ι)
  | swapper
  | irq
  | wire (sent ready : Bool)
  | source (enabled : Bool)

namespace SwapSystem

variable [DecidableEq ι]

def isIdle : SwapPc w → Bool
  | .idle => true
  | _ => false

def setWriter (s : SwapSystem w ι) (i : ι) (pc : SwapPc w) : SwapSystem w ι :=
  { s with writer := Function.update s.writer i pc }

/-- Tasks run while the interrupt does not. The steps of the swapper and of the interrupt belong to
no writer; `i` is any. -/
def step [Inhabited ι] (s : SwapSystem w ι) : SwapLabel w ι → Option (SwapSystem w ι)
  | .write i byte =>
    if isIdle s.irq && isIdle (s.writer i) then some (s.setWriter i (.write byte)) else none
  | .setTxBuffer ring =>
    if isIdle s.irq && isIdle s.swapper && ring.all Ringbuf.isEmpty then
      some { s with swapper := .flush ring }
    else none
  | .interrupt => if isIdle s.irq then some { s with irq := .isr } else none
  | .writer i =>
    if isIdle s.irq then
      ((s.writer i).step i s.port).map fun (port, pc) => { s with port := port }.setWriter i pc
    else none
  | .swapper =>
    if isIdle s.irq then
      (s.swapper.step default s.port).map fun (port, pc) => { s with port := port, swapper := pc }
    else none
  | .irq => (s.irq.step default s.port).map fun (port, pc) => { s with port := port, irq := pc }
  | .wire sent ready =>
    let count := if sent then s.port.txFifoCount - 1 else s.port.txFifoCount
    if ready && decide (txFifoDepth ≤ count) then none
    else some { s with port := { s.port with txFifoCount := count, wrReady := ready } }
  | .source enabled => some { s with port := { s.port with irqSourceEnabled := enabled } }

/-- No queue is attached, `count` bytes are in the FIFO, and nobody is in the driver. -/
def start (ring : Ringbuf w) (count : ℕ) : SwapSystem w ι where
  port :=
    { attached := false
      ring := { ring with outCursor := ring.inCursor }
      txNeedWrite := false
      wrReady := decide (count < txFifoDepth)
      txFifoCount := min count txFifoDepth
      irqSourceEnabled := true
      nullRead := false
      returned := []
      reached := []
      owners := [] }
  writer := fun _ => .idle
  swapper := .idle
  irq := .idle

/-- The swap finds the attached queue empty, a store outside a masked section finds room, and who
takes from the queue finds one attached. -/
def Clean (s : SwapSystem w ι) : SwapLabel w ι → Prop
  | .swapper =>
    match s.swapper with
    | .swap _ => s.port.attached = true → s.port.ring.isEmpty = true
    | _ => True
  | .writer i =>
    match s.writer i with
    | .storeByte _ => s.port.txFifoCount < txFifoDepth
    | .sendHead _ => s.port.attached = true
    | _ => True
  | _ => True

end SwapSystem
end BekenCam.Uart
