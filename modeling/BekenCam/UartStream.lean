import BekenCam.UartModel

/-!
# The transmitted stream

Four paths move bytes into the FIFO. What they share: a byte leaves the queue and enters the
FIFO in one step, a byte goes past the queue only while the queue is empty, and the interrupt
is disarmed only while the queue is empty. The room in the FIFO is the one thing a context
can lose between its test and its store, and only to a FIQ.
-/
namespace BekenCam.Uart

open Ringbuf

variable {w : ℕ}

/-! ## What one step of a context does -/

/-- The effects of a step on the port. -/
inductive Effect (p : Port w) : Pc → Port w → Prop
  | none (pc : Pc) : Effect p pc p
  | direct (byte : UInt8) (hempty : p.ring.unread = []) (hready : p.wrReady = true) :
      Effect p (.queueing byte) ((p.fifoWrite byte).accept byte)
  | queued (byte : UInt8) (ring : Ringbuf w) (hring : ring.unread = p.ring.unread ++ [byte]) :
      Effect p (.queueing byte) ({ p with ring := ring, txNeedWrite := true }.accept byte)
  | sent (k : AfterSend) (byte : UInt8) (ring : Ringbuf w)
      (hring : p.ring.unread = byte :: ring.unread) (hready : p.wrReady = true) :
      Effect p (.sendHead k) ({ p with ring := ring }.fifoWrite byte)
  | batched (room : ℕ) (byte : UInt8) (ring : Ringbuf w)
      (hring : p.ring.unread = byte :: ring.unread) :
      Effect p (.isrLoop (room + 1)) ({ p with ring := ring }.fifoWrite byte)
  | stored (byte : UInt8) : Effect p (.storeByte byte) ((p.fifoWrite byte).accept byte)
  | disarmed (pc : Pc) (hempty : pc = .isrDisarm ∨ p.ring.unread = []) :
      Effect p pc { p with txNeedWrite := false }

theorem Pc.step_effect {p p' : Port w} {pc pc' : Pc} {irqEnabled : Bool}
    (h : pc.step irqEnabled p = some (p', pc')) : Effect p pc p' := by
  cases pc with
  | idle => simp [Pc.step] at h
  | write byte =>
    obtain ⟨rfl, -⟩ : p = p' ∧ _ := by simpa [Pc.step] using h
    exact .none _
  | queueing byte =>
    simp only [Pc.step] at h
    split_ifs at h with hdirect hqueued
    · obtain ⟨rfl, -⟩ := Prod.mk.inj (Option.some.inj h)
      rw [Bool.and_eq_true] at hdirect
      exact .direct byte (isEmpty_iff_unread.mp hdirect.1) hdirect.2
    · obtain ⟨rfl, -⟩ := Prod.mk.inj (Option.some.inj h)
      cases hfull : p.ring.isFull with
      | true => simp [putByte_full byte hfull] at hqueued
      | false => exact .queued byte _ (putByte_spec byte hfull).2
    · obtain ⟨rfl, -⟩ := Prod.mk.inj (Option.some.inj h)
      exact .none _
  | full byte =>
    obtain ⟨rfl, -⟩ : p = p' ∧ _ := by simpa [Pc.step] using h
    exact .none _
  | flush k =>
    obtain ⟨rfl, -⟩ : p = p' ∧ _ := by simpa [Pc.step] using h
    exact .none _
  | flushLoop k =>
    simp only [Pc.step] at h
    split_ifs at h with hempty
    · obtain ⟨rfl, -⟩ := Prod.mk.inj (Option.some.inj h)
      exact .disarmed _ (.inr (isEmpty_iff_unread.mp hempty))
    · obtain ⟨rfl, -⟩ := Prod.mk.inj (Option.some.inj h)
      exact .none _
  | waitReady k =>
    simp only [Pc.step] at h
    split_ifs at h
    obtain ⟨rfl, -⟩ := Prod.mk.inj (Option.some.inj h)
    exact .none _
  | sendHead k =>
    simp only [Pc.step] at h
    split_ifs at h with hready
    · cases hempty : p.ring.isEmpty with
      | true =>
        rw [getByte_empty hempty] at h
        obtain ⟨rfl, -⟩ := Prod.mk.inj (Option.some.inj h)
        exact .none _
      | false =>
        obtain ⟨byte, ring, hget, hring⟩ := getByte_spec hempty
        rw [hget] at h
        obtain ⟨rfl, -⟩ := Prod.mk.inj (Option.some.inj h)
        exact .sent k byte ring hring hready
    · obtain ⟨rfl, -⟩ := Prod.mk.inj (Option.some.inj h)
      exact .none _
  | blocked byte =>
    simp only [Pc.step] at h
    split_ifs at h
    obtain ⟨rfl, -⟩ := Prod.mk.inj (Option.some.inj h)
    exact .none _
  | storeByte byte =>
    obtain ⟨rfl, -⟩ := Prod.mk.inj (Option.some.inj h)
    exact .stored byte
  | waitEmpty =>
    simp only [Pc.step] at h
    split_ifs at h
    obtain ⟨rfl, -⟩ := Prod.mk.inj (Option.some.inj h)
    exact .none _
  | isr =>
    obtain ⟨rfl, -⟩ := Prod.mk.inj (Option.some.inj h)
    exact .none _
  | isrLoop room =>
    cases room with
    | zero =>
      obtain ⟨rfl, -⟩ := Prod.mk.inj (Option.some.inj h)
      exact .none _
    | succ room =>
      simp only [Pc.step] at h
      cases hempty : p.ring.isEmpty with
      | true =>
        rw [getByte_empty hempty] at h
        obtain ⟨rfl, -⟩ := Prod.mk.inj (Option.some.inj h)
        exact .none _
      | false =>
        obtain ⟨byte, ring, hget, hring⟩ := getByte_spec hempty
        rw [hget] at h
        obtain ⟨rfl, -⟩ := Prod.mk.inj (Option.some.inj h)
        exact .batched room byte ring hring
  | isrDisarm =>
    obtain ⟨rfl, -⟩ := Prod.mk.inj (Option.some.inj h)
    exact .disarmed _ (.inl rfl)

/-! ## Which steps belong to which context -/

/-- The steps that put a byte into the queue, or wait to. -/
def Pc.queues : Pc → Bool
  | .queueing _ | .full _ | .waitReady (.retry _) | .sendHead (.retry _) => true
  | _ => false

def AfterFlush.writes : AfterFlush → Bool
  | .write _ => true
  | _ => false

/-- The steps on the way to a store outside a masked section. -/
def Pc.stores : Pc → Bool
  | .flush k | .flushLoop k | .waitReady (.flush k) | .sendHead (.flush k) => k.writes
  | .blocked _ | .storeByte _ => true
  | _ => false

/-- A byte of the context is still to be stored. -/
def Pc.writes : Pc → Bool
  | .write _ => true
  | pc => pc.stores

def Pc.inIsr : Pc → Bool
  | .isr | .isrLoop _ | .isrDisarm => true
  | _ => false

/-- The steps that are only reached with an empty queue and rely on it. -/
def Pc.needsEmpty : Pc → Bool
  | .isrDisarm | .blocked _ | .storeByte _ => true
  | _ => false

/-- The loop of `uart_tx_flush_queue`. -/
def Pc.inFlushLoop : Pc → Bool
  | .flushLoop _ | .waitReady (.flush _) | .sendHead (.flush _) => true
  | _ => false

/-- A task queues its bytes: it never stores one unmasked, and it does not run `uart_isr`. -/
def Pc.OfTask (pc : Pc) : Prop := pc.stores = false ∧ pc.inIsr = false

theorem AfterFlush.pc_ofTask {k : AfterFlush} (h : k.writes = false) : k.pc.OfTask := by
  cases k <;> simp_all [AfterFlush.writes, AfterFlush.pc, Pc.OfTask, Pc.stores, Pc.inIsr]

theorem AfterSend.pc_ofTask {k : AfterSend} (h : (Pc.sendHead k).stores = false) :
    k.pc.OfTask := by
  cases k <;> simp_all [AfterSend.pc, Pc.OfTask, Pc.stores, Pc.inIsr]

theorem Pc.OfTask.step {p p' : Port w} {pc pc' : Pc} (h : pc.step true p = some (p', pc'))
    (htask : pc.OfTask) : pc'.OfTask := by
  obtain ⟨hstores, hisr⟩ := htask
  cases pc with
  | idle => simp [Pc.step] at h
  | write byte =>
    obtain ⟨-, rfl⟩ : _ ∧ _ = pc' := by simpa [Pc.step] using h
    exact ⟨rfl, rfl⟩
  | queueing byte =>
    simp only [Pc.step] at h
    split_ifs at h <;> obtain ⟨-, rfl⟩ := Prod.mk.inj (Option.some.inj h) <;> exact ⟨rfl, rfl⟩
  | full byte =>
    obtain ⟨-, rfl⟩ : _ ∧ _ = pc' := by simpa [Pc.step] using h
    split_ifs <;> exact ⟨rfl, rfl⟩
  | flush k =>
    obtain ⟨-, rfl⟩ : _ ∧ _ = pc' := by simpa [Pc.step] using h
    split_ifs
    · exact k.pc_ofTask hstores
    · exact ⟨hstores, rfl⟩
  | flushLoop k =>
    simp only [Pc.step] at h
    split_ifs at h <;> obtain ⟨-, rfl⟩ := Prod.mk.inj (Option.some.inj h)
    · exact k.pc_ofTask hstores
    · exact ⟨hstores, rfl⟩
  | waitReady k =>
    simp only [Pc.step] at h
    split_ifs at h
    obtain ⟨-, rfl⟩ := Prod.mk.inj (Option.some.inj h)
    cases k <;> exact ⟨hstores, rfl⟩
  | sendHead k =>
    simp only [Pc.step] at h
    split_ifs at h
    · split at h <;> obtain ⟨-, rfl⟩ := Prod.mk.inj (Option.some.inj h) <;>
        exact k.pc_ofTask hstores
    · obtain ⟨-, rfl⟩ := Prod.mk.inj (Option.some.inj h)
      cases k <;> exact ⟨hstores, rfl⟩
  | blocked byte => simp [Pc.stores] at hstores
  | storeByte byte => simp [Pc.stores] at hstores
  | waitEmpty =>
    simp only [Pc.step] at h
    split_ifs at h
    obtain ⟨-, rfl⟩ := Prod.mk.inj (Option.some.inj h)
    exact ⟨rfl, rfl⟩
  | isr => simp [Pc.inIsr] at hisr
  | isrLoop room => simp [Pc.inIsr] at hisr
  | isrDisarm => simp [Pc.inIsr] at hisr

/-- What a step of a context without interrupts leads to: it does not come to queue a byte, it
does not come into `uart_isr`, and it reaches a step that needs an empty queue with an empty
queue only. The loop of the flush is left with an empty queue. -/
structure Pc.Masked (p' : Port w) (pc pc' : Pc) : Prop where
  queues : pc'.queues = false
  inIsr : pc'.inIsr = true → pc.inIsr = true
  needsEmpty : pc'.needsEmpty = true → p'.ring.unread = []
  inFlushLoop : pc.inFlushLoop = true → pc'.inFlushLoop = true ∨ p'.ring.unread = []

theorem Pc.Masked.of_empty {p' : Port w} {pc : Pc} (k : AfterFlush) (hempty : p'.ring.unread = []) :
    Pc.Masked p' pc k.pc := by
  cases k <;> exact ⟨rfl, by simp [AfterFlush.pc, Pc.inIsr], fun _ => hempty, fun _ => .inr hempty⟩

theorem Pc.masked_step {p p' : Port w} {pc pc' : Pc} (h : pc.step false p = some (p', pc'))
    (hqueues : pc.queues = false) (hempty : pc.needsEmpty = true → p.ring.unread = []) :
    Pc.Masked p' pc pc' := by
  cases pc with
  | idle => simp [Pc.step] at h
  | write byte =>
    obtain ⟨rfl, rfl⟩ : p = p' ∧ _ = pc' := by simpa [Pc.step] using h
    constructor <;> simp [Pc.queues, Pc.inIsr, Pc.needsEmpty, Pc.inFlushLoop]
  | queueing byte => simp [Pc.queues] at hqueues
  | full byte => simp [Pc.queues] at hqueues
  | flush k =>
    obtain ⟨rfl, rfl⟩ : p = p' ∧ _ = pc' := by simpa [Pc.step] using h
    split_ifs with hring
    · exact .of_empty k (isEmpty_iff_unread.mp hring)
    · constructor <;> simp [Pc.queues, Pc.inIsr, Pc.needsEmpty, Pc.inFlushLoop]
  | flushLoop k =>
    simp only [Pc.step] at h
    split_ifs at h with hring <;> obtain ⟨rfl, rfl⟩ := Prod.mk.inj (Option.some.inj h)
    · exact .of_empty k (isEmpty_iff_unread.mp hring)
    · constructor <;> simp [Pc.queues, Pc.inIsr, Pc.needsEmpty, Pc.inFlushLoop]
  | waitReady k =>
    cases k with
    | retry byte => simp [Pc.queues] at hqueues
    | flush k =>
      simp only [Pc.step] at h
      split_ifs at h
      obtain ⟨rfl, rfl⟩ := Prod.mk.inj (Option.some.inj h)
      constructor <;> simp [Pc.queues, Pc.inIsr, Pc.needsEmpty, Pc.inFlushLoop]
  | sendHead k =>
    cases k with
    | retry byte => simp [Pc.queues] at hqueues
    | flush k =>
      simp only [Pc.step] at h
      split_ifs at h
      · split at h <;> obtain ⟨rfl, rfl⟩ := Prod.mk.inj (Option.some.inj h) <;>
          constructor <;>
          simp [AfterSend.pc, Pc.queues, Pc.inIsr, Pc.needsEmpty, Pc.inFlushLoop]
      · obtain ⟨rfl, rfl⟩ := Prod.mk.inj (Option.some.inj h)
        constructor <;> simp [Pc.queues, Pc.inIsr, Pc.needsEmpty, Pc.inFlushLoop]
  | blocked byte =>
    simp only [Pc.step] at h
    split_ifs at h
    obtain ⟨rfl, rfl⟩ := Prod.mk.inj (Option.some.inj h)
    exact ⟨rfl, by simp [Pc.inIsr], fun _ => hempty rfl, by simp [Pc.inFlushLoop]⟩
  | storeByte byte =>
    obtain ⟨rfl, rfl⟩ := Prod.mk.inj (Option.some.inj h)
    constructor <;> simp [Pc.queues, Pc.inIsr, Pc.needsEmpty, Pc.inFlushLoop]
  | waitEmpty =>
    simp only [Pc.step] at h
    split_ifs at h
    obtain ⟨rfl, rfl⟩ := Prod.mk.inj (Option.some.inj h)
    constructor <;> simp [Pc.queues, Pc.inIsr, Pc.needsEmpty, Pc.inFlushLoop]
  | isr =>
    obtain ⟨rfl, rfl⟩ := Prod.mk.inj (Option.some.inj h)
    constructor <;> simp [Pc.queues, Pc.inIsr, Pc.needsEmpty, Pc.inFlushLoop]
  | isrLoop room =>
    cases room with
    | zero =>
      obtain ⟨rfl, rfl⟩ := Prod.mk.inj (Option.some.inj h)
      constructor <;> simp [Pc.queues, Pc.inIsr, Pc.needsEmpty, Pc.inFlushLoop]
    | succ room =>
      simp only [Pc.step] at h
      cases hring : p.ring.isEmpty with
      | true =>
        rw [getByte_empty hring] at h
        obtain ⟨rfl, rfl⟩ := Prod.mk.inj (Option.some.inj h)
        refine ⟨rfl, fun _ => rfl, fun _ => isEmpty_iff_unread.mp hring, ?_⟩
        simp [Pc.inFlushLoop]
      | false =>
        obtain ⟨byte, ring, hget, -⟩ := getByte_spec hring
        rw [hget] at h
        obtain ⟨rfl, rfl⟩ := Prod.mk.inj (Option.some.inj h)
        constructor <;> simp [Pc.queues, Pc.inIsr, Pc.needsEmpty, Pc.inFlushLoop]
  | isrDisarm =>
    obtain ⟨rfl, rfl⟩ := Prod.mk.inj (Option.some.inj h)
    constructor <;> simp [Pc.queues, Pc.inIsr, Pc.needsEmpty, Pc.inFlushLoop]

/-- A context without interrupts leaves an empty queue empty. -/
theorem Effect.stays_empty {p p' : Port w} {pc : Pc} (h : Effect p pc p')
    (hqueues : pc.queues = false) (hempty : p.ring.unread = []) : p'.ring.unread = [] := by
  cases h with
  | none => exact hempty
  | direct byte => simp [Pc.queues] at hqueues
  | queued byte ring hring => simp [Pc.queues] at hqueues
  | sent k byte ring hring => simp [hempty] at hring
  | batched room byte ring hring => simp [hempty] at hring
  | stored byte => exact hempty
  | disarmed => exact hempty

/-- The store outside a masked section comes behind a test that found room. -/
theorem Pc.step_storeByte {p p' : Port w} {pc : Pc} {irqEnabled : Bool} {byte : UInt8}
    (h : pc.step irqEnabled p = some (p', .storeByte byte)) : p' = p ∧ p.wrReady = true := by
  have hflush : ∀ k : AfterFlush, k.pc ≠ .storeByte byte := by
    intro k
    cases k <;> simp [AfterFlush.pc]
  have hsend : ∀ k : AfterSend, k.pc ≠ .storeByte byte := by
    intro k
    cases k <;> simp [AfterSend.pc]
  cases pc with
  | blocked b =>
    simp only [Pc.step] at h
    split_ifs at h with hready
    obtain ⟨rfl, -⟩ := Prod.mk.inj (Option.some.inj h)
    exact ⟨rfl, hready⟩
  | isrLoop room => cases room <;> grind [Pc.step]
  | _ => grind [Pc.step]

/-- The loop of `uart_isr` starts with the room counted, and each round uses up one. -/
theorem Pc.step_isrLoop {p p' : Port w} {pc : Pc} {irqEnabled : Bool} {room : ℕ}
    (h : pc.step irqEnabled p = some (p', .isrLoop room)) :
    (p' = p ∧ room = txFifoDepth - p.txFifoCount) ∨
      (pc = .isrLoop (room + 1) ∧ p.ring.unread ≠ [] ∧
        p'.txFifoCount = min (p.txFifoCount + 1) txFifoDepth) := by
  have hflush : ∀ k : AfterFlush, k.pc ≠ .isrLoop room := by
    intro k
    cases k <;> simp [AfterFlush.pc]
  have hsend : ∀ k : AfterSend, k.pc ≠ .isrLoop room := by
    intro k
    cases k <;> simp [AfterSend.pc]
  cases pc with
  | isr =>
    obtain ⟨rfl, hroom⟩ := Prod.mk.inj (Option.some.inj h)
    exact .inl ⟨rfl, (Pc.isrLoop.inj hroom).symm⟩
  | isrLoop n =>
    cases n with
    | zero => simp [Pc.step] at h
    | succ n =>
      simp only [Pc.step] at h
      cases hring : p.ring.isEmpty with
      | true => simp [getByte_empty hring] at h
      | false =>
        obtain ⟨byte, ring, hget, hunread⟩ := getByte_spec hring
        rw [hget] at h
        obtain ⟨rfl, hroom⟩ := Prod.mk.inj (Option.some.inj h)
        obtain rfl := Pc.isrLoop.inj hroom
        exact .inr ⟨rfl, by simp [hunread], rfl⟩
  | _ => grind [Pc.step]

/-- A context without interrupts that has nothing to store and finds an empty queue leaves
the FIFO alone. -/
theorem Pc.silent_step {p p' : Port w} {pc pc' : Pc} (h : pc.step false p = some (p', pc'))
    (hwrites : pc.writes = false) (hqueues : pc.queues = false) (hempty : p.ring.unread = []) :
    p'.txFifoCount = p.txFifoCount ∧ pc'.writes = false := by
  have hnone : p.ring.isEmpty = true := isEmpty_iff_unread.mpr hempty
  have hget := getByte_empty hnone
  have hflush : ∀ k : AfterFlush, k.writes = false → k.pc.writes = false := by
    intro k
    cases k <;> simp [AfterFlush.writes, AfterFlush.pc, Pc.writes, Pc.stores]
  cases pc with
  | isrLoop room => cases room <;> grind [Pc.step, Pc.writes, Pc.stores]
  | waitReady k => cases k <;> grind [Pc.step, Pc.writes, Pc.stores, Pc.queues]
  | sendHead k => cases k <;> grind [Pc.step, Pc.writes, Pc.stores, Pc.queues, AfterSend.pc]
  | _ => grind [Pc.step, Pc.writes, Pc.stores, Pc.queues]

/-- A context without interrupts either leaves the count alone, or writes what it takes out of
the queue, in the loop that empties it, or writes its own byte behind an empty queue. -/
theorem Effect.counted {p p' : Port w} {pc : Pc} (h : Effect p pc p') (hqueues : pc.queues = false)
    (hisr : pc.inIsr = false) (hempty : pc.needsEmpty = true → p.ring.unread = []) :
    p'.txFifoCount = p.txFifoCount ∨ pc.inFlushLoop = true ∨ p'.ring.unread = [] := by
  cases h with
  | none => exact .inl rfl
  | direct => simp [Pc.queues] at hqueues
  | queued => simp [Pc.queues] at hqueues
  | sent k =>
    cases k with
    | retry => simp [Pc.queues] at hqueues
    | flush => exact .inr (.inl rfl)
  | batched => simp [Pc.inIsr] at hisr
  | stored => exact .inr (.inr (hempty rfl))
  | disarmed => exact .inl rfl

/-- A store finds room: where the port promises it, or where the context has kept it. -/
theorem Effect.no_overrun {p p' : Port w} {pc : Pc} (h : Effect p pc p')
    (hready : p.wrReady = true → p.txFifoCount < txFifoDepth) (hover : p.overrun = false)
    (hstore : ∀ byte, pc = .storeByte byte → p.txFifoCount < txFifoDepth)
    (hloop : ∀ room, pc = .isrLoop (room + 1) → p.ring.unread ≠ [] →
      p.txFifoCount < txFifoDepth) : p'.overrun = false := by
  have hwrite : ∀ (q : Port w) (byte : UInt8), q.overrun = false →
      q.txFifoCount < txFifoDepth → (q.fifoWrite byte).overrun = false := by
    intro q byte hq hlt
    simp only [Port.fifoWrite, hq, Bool.false_or, decide_eq_false_iff_not]
    omega
  cases h with
  | none => exact hover
  | direct byte _ hr => exact hwrite p byte hover (hready hr)
  | queued => exact hover
  | sent k byte ring _ hr => exact hwrite _ byte hover (hready hr)
  | batched room byte ring hring =>
    exact hwrite _ byte hover (hloop room rfl (by simp [hring]))
  | stored byte => exact hwrite p byte hover (hstore byte rfl)
  | disarmed => exact hover

/-! ## Order and liveness of the queue -/

/-- The bytes accepted are the bytes written followed by the bytes queued; a queue that is not
empty has its interrupt; and the status never promises room in a full FIFO. -/
structure Port.Stream (p : Port w) : Prop where
  bytes : p.accepted = p.written ++ p.ring.unread
  armed : p.ring.unread ≠ [] → p.txNeedWrite = true
  ready : p.wrReady = true → p.txFifoCount < txFifoDepth
  count_le : p.txFifoCount ≤ txFifoDepth

theorem Port.Stream.fifoWrite {p : Port w} (byte : UInt8) (h : p.Stream) :
    ((p.fifoWrite byte).wrReady = true → (p.fifoWrite byte).txFifoCount < txFifoDepth) ∧
      (p.fifoWrite byte).txFifoCount ≤ txFifoDepth := by
  have hle := h.count_le
  constructor
  · intro hready
    simp only [Port.fifoWrite, Bool.and_eq_true, decide_eq_true_eq] at hready ⊢
    omega
  · simp only [Port.fifoWrite]
    omega

/-- A step preserves the stream if it starts with an empty queue wherever it relies on one. -/
theorem Port.Stream.step {p p' : Port w} {pc : Pc} (h : p.Stream)
    (hempty : pc.needsEmpty = true → p.ring.unread = []) (heff : Effect p pc p') : p'.Stream := by
  cases heff with
  | none => exact h
  | direct byte hnone hready =>
    obtain ⟨hr, hc⟩ := h.fifoWrite byte
    refine ⟨?_, fun hne => absurd hnone hne, hr, hc⟩
    simp [Port.accept, Port.fifoWrite, h.bytes, hnone]
  | queued byte ring hring =>
    refine ⟨?_, fun _ => rfl, h.ready, h.count_le⟩
    simp [Port.accept, h.bytes, hring]
  | sent k byte ring hring hready =>
    have hp : Port.Stream { p with ring := ring, accepted := p.written ++ ring.unread } :=
      ⟨rfl, fun _ => h.armed (by simp [hring]), h.ready, h.count_le⟩
    obtain ⟨hr, hc⟩ := hp.fifoWrite byte
    refine ⟨?_, fun _ => h.armed (by simp [hring]), hr, hc⟩
    simp [Port.fifoWrite, h.bytes, hring]
  | batched room byte ring hring =>
    have hp : Port.Stream { p with ring := ring, accepted := p.written ++ ring.unread } :=
      ⟨rfl, fun _ => h.armed (by simp [hring]), h.ready, h.count_le⟩
    obtain ⟨hr, hc⟩ := hp.fifoWrite byte
    refine ⟨?_, fun _ => h.armed (by simp [hring]), hr, hc⟩
    simp [Port.fifoWrite, h.bytes, hring]
  | stored byte =>
    have hnone := hempty rfl
    obtain ⟨hr, hc⟩ := h.fifoWrite byte
    refine ⟨?_, fun hne => absurd hnone hne, hr, hc⟩
    simp [Port.accept, Port.fifoWrite, h.bytes, hnone]
  | disarmed _ hnone =>
    have hring : p.ring.unread = [] := by
      rcases hnone with rfl | hring
      · exact hempty rfl
      · exact hring
    exact ⟨h.bytes, fun hne => absurd hring hne, h.ready, h.count_le⟩

end BekenCam.Uart
