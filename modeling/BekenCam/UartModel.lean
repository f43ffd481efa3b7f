import BekenCam.RingBuffer

/-!
# Transmitting over the UART

The transmit half of the driver with one attached queue. A byte reaches the TX FIFO directly,
from the interrupt in batches, from the head of the queue while a caller waits, or from a
context that cannot take interrupts. Every interrupt-masked section is one step.

Three kinds of contexts run this code. Tasks have interrupts enabled. A context with IRQ
masked, such as an IRQ handler, stops all tasks, but a FIQ can still land in it. A context
with both masked stops everything else. The status acknowledgement of `uart_isr` does not
concern the transmit half and is left out.
-/
namespace BekenCam.Uart

@[simp] abbrev txFifoDepth : ℕ := 128

/-! ## The port -/

/-- The registers, the attached queue and the source enable bit of the interrupt controller.
`written` are the bytes stored to `fifo_data`, `accepted` the bytes the driver took over, both
in order; `overrun` tells that a byte was stored into a full FIFO. -/
structure Port (w : ℕ) where
  ring : Ringbuf w
  txNeedWrite : Bool
  wrReady : Bool
  txFifoCount : ℕ
  irqSourceEnabled : Bool
  written : List UInt8
  accepted : List UInt8
  overrun : Bool

variable {w : ℕ}

/-- `fifo_data = byte`. With the FIFO full the byte has nowhere to go. -/
def Port.fifoWrite (p : Port w) (byte : UInt8) : Port w :=
  { p with
    written := p.written ++ [byte]
    overrun := p.overrun || decide (txFifoDepth ≤ p.txFifoCount)
    txFifoCount := min (p.txFifoCount + 1) txFifoDepth
    wrReady := p.wrReady && decide (p.txFifoCount + 1 < txFifoDepth) }

def Port.accept (p : Port w) (byte : UInt8) : Port w := { p with accepted := p.accepted ++ [byte] }

/-- Why the caller of `uart_write_byte` may wait for the interrupt. -/
def Port.canWake (p : Port w) : Bool :=
  decide (txFifoDepth < p.ring.capacity.toNat) && p.txNeedWrite && p.irqSourceEnabled

/-! ## Where a call is -/

/-- What follows `uart_tx_flush_queue`. -/
inductive AfterFlush
  | done
  | waitEmpty
  | write (byte : UInt8)
  deriving DecidableEq, Repr

/-- What follows `uart_tx_send_byte_blocked`. -/
inductive AfterSend
  | retry (byte : UInt8)
  | flush (k : AfterFlush)
  deriving DecidableEq, Repr

/-- The next step of a context. -/
inductive Pc
  | idle
  -- `uart_write_byte`: the test of the interrupt state, the masked section, the test behind it
  | write (byte : UInt8)
  | queueing (byte : UInt8)
  | full (byte : UInt8)
  -- `uart_tx_flush_queue`: the first test, the masked test of the loop
  | flush (k : AfterFlush)
  | flushLoop (k : AfterFlush)
  -- `uart_tx_send_byte_blocked`: the wait, the masked section
  | waitReady (k : AfterSend)
  | sendHead (k : AfterSend)
  -- `uart_fifo_write_blocked` outside a masked section: the wait, the store
  | blocked (byte : UInt8)
  | storeByte (byte : UInt8)
  -- `uart_fifo_wait_empty`
  | waitEmpty
  -- `uart_isr`: the room is counted, then the loop, then the disarm
  | isr
  | isrLoop (room : ℕ)
  | isrDisarm
  deriving DecidableEq, Repr

def AfterFlush.pc : AfterFlush → Pc
  | done => .idle
  | waitEmpty => .waitEmpty
  | write byte => .blocked byte

def AfterSend.pc : AfterSend → Pc
  | retry byte => .queueing byte
  | flush k => .flushLoop k

/-- One step of a context; `irqEnabled` is `portENABLED_IRQ()` there. A wait loop has no step
as long as its condition does not hold. -/
def Pc.step (irqEnabled : Bool) (p : Port w) : Pc → Option (Port w × Pc)
  | .idle => none
  | .write byte => some (p, if irqEnabled then .queueing byte else .flush (.write byte))
  | .queueing byte =>
    if p.ring.isEmpty && p.wrReady then
      some ((p.fifoWrite byte).accept byte, .idle)
    else
      let (queued, ring) := p.ring.putByte byte
      if queued then
        some ({ p with ring := ring, txNeedWrite := true }.accept byte, .idle)
      else
        some (p, .full byte)
  | .full byte => some (p, if p.canWake then .queueing byte else .waitReady (.retry byte))
  | .flush k => some (p, if p.ring.isEmpty then k.pc else .flushLoop k)
  | .flushLoop k =>
    if p.ring.isEmpty then some ({ p with txNeedWrite := false }, k.pc)
    else some (p, .waitReady (.flush k))
  | .waitReady k => if p.wrReady then some (p, .sendHead k) else none
  | .sendHead k =>
    if p.wrReady then
      match p.ring.getByte with
      | (some byte, ring) => some ({ p with ring := ring }.fifoWrite byte, k.pc)
      | (none, _) => some (p, k.pc)
    else
      some (p, .waitReady k)
  | .blocked byte => if p.wrReady then some (p, .storeByte byte) else none
  | .storeByte byte => some ((p.fifoWrite byte).accept byte, .idle)
  | .waitEmpty => if p.txFifoCount = 0 then some (p, .idle) else none
  | .isr => some (p, .isrLoop (txFifoDepth - p.txFifoCount))
  | .isrLoop 0 => some (p, .idle)
  | .isrLoop (room + 1) =>
    match p.ring.getByte with
    | (some byte, ring) => some ({ p with ring := ring }.fifoWrite byte, .isrLoop room)
    | (none, _) => some (p, .isrDisarm)
  | .isrDisarm => some ({ p with txNeedWrite := false }, .idle)

/-! ## The system -/

/-- The contexts: any number of tasks, one with IRQ masked, one with IRQ and FIQ masked. -/
structure System (w : ℕ) (ι : Type) where
  port : Port w
  task : ι → Pc
  irq : Pc
  fiq : Pc

inductive Context (ι : Type)
  | task (i : ι)
  | irq
  | fiq
  deriving DecidableEq, Repr

/-- The calls that come from outside. -/
inductive UartCall
  | writeByte (byte : UInt8)
  | txFlushQueue
  | drain
  | isr
  deriving DecidableEq, Repr

def UartCall.pc : UartCall → Pc
  | writeByte byte => .write byte
  | txFlushQueue => .flush .done
  | drain => .flush .waitEmpty
  | isr => .isr

/-- Someone makes a call or a step, the wire takes a byte out of the FIFO and the status
follows, or the interrupt source is switched. -/
inductive Label (ι : Type)
  | call (c : Context ι) (f : UartCall)
  | step (c : Context ι)
  | wire (sent ready : Bool)
  | source (enabled : Bool)
  deriving DecidableEq, Repr

variable {ι : Type} [DecidableEq ι]

namespace System

def pc (s : System w ι) : Context ι → Pc
  | .task i => s.task i
  | .irq => s.irq
  | .fiq => s.fiq

def setPc (s : System w ι) (c : Context ι) (pc : Pc) : System w ι :=
  match c with
  | .task i => { s with task := Function.update s.task i pc }
  | .irq => { s with irq := pc }
  | .fiq => { s with fiq := pc }

/-- A context runs while no context above it is under way. -/
def runs (s : System w ι) : Context ι → Bool
  | .task _ => decide (s.irq = .idle) && decide (s.fiq = .idle)
  | .irq => decide (s.fiq = .idle)
  | .fiq => true

/-- `uart_isr` is an IRQ handler. -/
def mayCall : Context ι → UartCall → Bool
  | c, .isr => decide (c = .irq)
  | _, _ => true

def irqEnabled : Context ι → Bool
  | .task _ => true
  | _ => false

def step (s : System w ι) : Label ι → Option (System w ι)
  | .call c f =>
    if s.runs c && mayCall c f && decide (s.pc c = .idle) then some (s.setPc c f.pc) else none
  | .step c =>
    if s.runs c then
      ((s.pc c).step (irqEnabled c) s.port).map fun (port, pc) =>
        { s with port := port }.setPc c pc
    else none
  | .wire sent ready =>
    let count := if sent then s.port.txFifoCount - 1 else s.port.txFifoCount
    if ready && decide (txFifoDepth ≤ count) then none
    else some { s with port := { s.port with txFifoCount := count, wrReady := ready } }
  | .source enabled => some { s with port := { s.port with irqSourceEnabled := enabled } }

/-- A port with an empty queue and `count` bytes in the FIFO, nobody in the driver. -/
def start (ring : Ringbuf w) (cursor : BitVec w) (count : ℕ) : System w ι where
  port :=
    { ring := { ring with inCursor := cursor, outCursor := cursor }
      txNeedWrite := false
      wrReady := decide (count < txFifoDepth)
      txFifoCount := min count txFifoDepth
      irqSourceEnabled := true
      written := []
      accepted := []
      overrun := false }
  task := fun _ => .idle
  irq := .idle
  fiq := .idle

end System
end BekenCam.Uart
