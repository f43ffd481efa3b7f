import BekenCam.UartStream

/-!
# Transmitting under preemption

Every interleaving of tasks, the interrupt and contexts that cannot take one. The stream is
kept by all of them. The room is kept too, with one exception: `uart_fifo_write_blocked` of a
context with only IRQ masked tests and stores in two steps, and a FIQ that writes in between
takes the room. The count of `uart_isr` is not such a case, since a FIQ that writes empties the
queue first.
-/
namespace BekenCam.Uart

open Ringbuf

variable {w : ℕ} {ι : Type} [DecidableEq ι]

namespace System

@[simp] theorem setPc_port (s : System w ι) (c : Context ι) (pc : Pc) :
    (s.setPc c pc).port = s.port := by cases c <;> rfl

@[simp] theorem setPc_irq_of_fiq (s : System w ι) (pc : Pc) : (s.setPc .fiq pc).irq = s.irq := rfl

/-! ## Every run -/

/-- The stream, and every context on the steps that belong to it. -/
structure Inv (s : System w ι) : Prop where
  stream : s.port.Stream
  task : ∀ i, (s.task i).OfTask
  irq_queues : s.irq.queues = false
  irq_empty : s.irq.needsEmpty = true → s.port.ring.unread = []
  fiq_queues : s.fiq.queues = false
  fiq_isr : s.fiq.inIsr = false
  fiq_empty : s.fiq.needsEmpty = true → s.port.ring.unread = []

theorem OfTask_needsEmpty {pc : Pc} (h : pc.OfTask) : pc.needsEmpty = false := by
  obtain ⟨hstores, hisr⟩ := h
  cases pc <;> simp_all [Pc.stores, Pc.inIsr, Pc.needsEmpty]

omit [DecidableEq ι] in
theorem inv_start (ring : Ringbuf w) (cursor : BitVec w) (count : ℕ) :
    (start ring cursor count : System w ι).Inv := by
  have hnone : (start ring cursor count : System w ι).port.ring.unread = [] :=
    isEmpty_iff_unread.mp (isEmpty_reset ring cursor)
  refine ⟨⟨hnone.symm, fun hne => absurd hnone hne, ?_, Nat.min_le_right _ _⟩,
    fun _ => ⟨rfl, rfl⟩, rfl, by simp [start, Pc.needsEmpty], rfl, rfl,
    by simp [start, Pc.needsEmpty]⟩
  intro hready
  simp only [start, decide_eq_true_eq] at hready ⊢
  omega

/-- A context that starts a call. -/
theorem Inv.call {s : System w ι} {c : Context ι} {f : UartCall} (h : s.Inv)
    (hmay : mayCall c f = true) : (s.setPc c f.pc).Inv := by
  have hqueues : f.pc.queues = false := by cases f <;> rfl
  have hneeds : f.pc.needsEmpty = false := by cases f <;> rfl
  have hstores : f.pc.stores = false := by cases f <;> rfl
  cases c with
  | task i =>
    refine ⟨h.stream, fun j => ?_, h.irq_queues, h.irq_empty, h.fiq_queues, h.fiq_isr, h.fiq_empty⟩
    simp only [setPc, Function.update_apply]
    split_ifs
    · cases f with
      | isr => simp [mayCall] at hmay
      | writeByte byte => exact ⟨rfl, rfl⟩
      | txFlushQueue => exact ⟨rfl, rfl⟩
      | drain => exact ⟨rfl, rfl⟩
    · exact h.task j
  | irq =>
    exact ⟨h.stream, h.task, hqueues, by simp [setPc, hneeds], h.fiq_queues, h.fiq_isr,
      h.fiq_empty⟩
  | fiq =>
    refine ⟨h.stream, h.task, h.irq_queues, h.irq_empty, hqueues, ?_, by simp [setPc, hneeds]⟩
    cases f with
    | isr => simp [mayCall] at hmay
    | writeByte byte => rfl
    | txFlushQueue => rfl
    | drain => rfl

/-- A step of a context: tasks run alone, the IRQ context runs while no FIQ is under way. -/
theorem Inv.advance {s : System w ι} {c : Context ι} {port : Port w} {pc' : Pc} (h : s.Inv)
    (hruns : s.runs c = true) (hstep : (s.pc c).step (irqEnabled c) s.port = some (port, pc')) :
    ({ s with port := port }.setPc c pc').Inv := by
  have heff := Pc.step_effect hstep
  cases c with
  | task i =>
    have htask : (s.task i).OfTask := h.task i
    simp only [runs, Bool.and_eq_true, decide_eq_true_eq] at hruns
    refine ⟨h.stream.step (by simp [pc, OfTask_needsEmpty htask]) heff, fun j => ?_,
      h.irq_queues, ?_, h.fiq_queues, h.fiq_isr, ?_⟩
    · simp only [setPc, Function.update_apply]
      split_ifs
      · exact htask.step hstep
      · exact h.task j
    · intro hneeds
      simp [setPc, hruns.1, Pc.needsEmpty] at hneeds
    · intro hneeds
      simp [setPc, hruns.2, Pc.needsEmpty] at hneeds
  | irq =>
    have hmasked := Pc.masked_step hstep h.irq_queues h.irq_empty
    simp only [runs, decide_eq_true_eq] at hruns
    refine ⟨h.stream.step h.irq_empty heff, h.task, hmasked.queues, hmasked.needsEmpty,
      h.fiq_queues, h.fiq_isr, ?_⟩
    intro hneeds
    simp [setPc, hruns, Pc.needsEmpty] at hneeds
  | fiq =>
    have hmasked := Pc.masked_step hstep h.fiq_queues h.fiq_empty
    refine ⟨h.stream.step h.fiq_empty heff, h.task, h.irq_queues, ?_, hmasked.queues, ?_,
      hmasked.needsEmpty⟩
    · intro hneeds
      exact heff.stays_empty h.fiq_queues (h.irq_empty hneeds)
    · by_contra hisr
      have hin := hmasked.inIsr (by simpa [setPc] using hisr)
      have hnot : s.fiq.inIsr = false := h.fiq_isr
      simp [pc, hnot] at hin

/-- The wire and the source switch do not touch the queue. -/
theorem Inv.step {s s' : System w ι} {l : Label ι} (h : s.Inv) (hstep : s.step l = some s') :
    s'.Inv := by
  cases l with
  | call c f =>
    simp only [System.step] at hstep
    split_ifs at hstep with hcall
    cases hstep
    simp only [Bool.and_eq_true] at hcall
    exact h.call hcall.1.2
  | step c =>
    simp only [System.step] at hstep
    split_ifs at hstep with hruns
    obtain ⟨⟨port, pc⟩, hpc, rfl⟩ := Option.map_eq_some_iff.mp hstep
    exact h.advance hruns hpc
  | wire sent ready =>
    simp only [System.step] at hstep
    split_ifs at hstep with hsent hfull hfull
    all_goals
      cases hstep
      refine ⟨⟨h.stream.bytes, h.stream.armed, fun hready => ?_, ?_⟩, h.task, h.irq_queues,
        h.irq_empty, h.fiq_queues, h.fiq_isr, h.fiq_empty⟩
    · have hr : ready = true := hready
      simpa [hr] using hfull
    · have hle := h.stream.count_le
      simp only
      omega
    · have hr : ready = true := hready
      simpa [hr] using hfull
    · exact h.stream.count_le
  | source enabled =>
    cases hstep
    obtain ⟨hbytes, harmed, hready, hle⟩ := h.stream
    exact ⟨⟨hbytes, harmed, hready, hle⟩, h.task, h.irq_queues, h.irq_empty, h.fiq_queues, h.fiq_isr,
      h.fiq_empty⟩

theorem Inv.run {ring : Ringbuf w} {cursor : BitVec w} {count : ℕ} {ls : List (Label ι)}
    {s : System w ι} (hrun : runSteps System.step (start ring cursor count) ls = some s) : s.Inv :=
  invariant_of_steps (fun _ _ _ h hstep => h.step hstep) (inv_start ring cursor count) hrun

/-! ## The room in the FIFO -/

/-- Nothing was stored into a full FIFO. A context past its test still has the room it saw, and
the loop of `uart_isr` has the room it counted, or there is nothing left to send, or the FIQ
that sends it is still flushing. -/
structure Room (s : System w ι) : Prop where
  overrun : s.port.overrun = false
  fiq_store : ∀ byte, s.fiq = .storeByte byte → s.port.txFifoCount < txFifoDepth
  irq_store : ∀ byte, s.irq = .storeByte byte →
    s.port.txFifoCount < txFifoDepth ∧ s.fiq.writes = false
  irq_loop : ∀ room, s.irq = .isrLoop room → s.port.txFifoCount + room ≤ txFifoDepth ∨
    s.port.ring.unread = [] ∨ s.fiq.inFlushLoop = true

/-- No FIQ starts to write between the test and the store of an interrupt context. -/
def Undisturbed (s : System w ι) : Label ι → Prop
  | .call .fiq (.writeByte _) => ∀ byte, s.irq ≠ .storeByte byte
  | _ => True

theorem Room.call {s : System w ι} {c : Context ι} {f : UartCall} (h : s.Room)
    (hruns : s.runs c = true) (hidle : s.pc c = .idle) (hfree : s.Undisturbed (.call c f)) :
    (s.setPc c f.pc).Room := by
  cases c with
  | task i => exact ⟨h.overrun, h.fiq_store, h.irq_store, h.irq_loop⟩
  | irq =>
    refine ⟨h.overrun, h.fiq_store, ?_, ?_⟩
    · intro byte hirq
      cases f <;> simp [setPc, UartCall.pc] at hirq
    · intro room hirq
      cases f <;> simp [setPc, UartCall.pc] at hirq
  | fiq =>
    have hfiq : s.fiq = .idle := hidle
    refine ⟨h.overrun, ?_, ?_, ?_⟩
    · intro byte hpc
      cases f <;> simp [setPc, UartCall.pc] at hpc
    · intro byte hirq
      refine ⟨(h.irq_store byte hirq).1, ?_⟩
      cases f with
      | writeByte b => exact absurd hirq (hfree byte)
      | txFlushQueue => rfl
      | drain => rfl
      | isr => rfl
    · intro room hirq
      rcases h.irq_loop room hirq with hroom | hnone | hflush
      · exact .inl hroom
      · exact .inr (.inl hnone)
      · simp [hfiq, Pc.inFlushLoop] at hflush

theorem Room.advance_fiq {s : System w ι} {port : Port w} {pc' : Pc} (h : s.Room) (hinv : s.Inv)
    (hstep : s.fiq.step false s.port = some (port, pc')) :
    ({ s with port := port }.setPc .fiq pc').Room := by
  have heff := Pc.step_effect hstep
  have hmasked := Pc.masked_step hstep hinv.fiq_queues hinv.fiq_empty
  have hflush : s.fiq.inFlushLoop = true →
      pc'.inFlushLoop = true ∨ port.ring.unread = [] := hmasked.inFlushLoop
  refine ⟨?_, ?_, ?_, ?_⟩
  · refine heff.no_overrun hinv.stream.ready h.overrun h.fiq_store ?_
    intro room hroom
    have hisr := hinv.fiq_isr
    simp [hroom, Pc.inIsr] at hisr
  · intro byte hpc
    obtain rfl : pc' = .storeByte byte := hpc
    obtain ⟨rfl, hready⟩ := Pc.step_storeByte hstep
    exact hinv.stream.ready hready
  · intro byte hirq
    obtain ⟨hlt, hwrites⟩ := h.irq_store byte hirq
    have hirq' : s.irq = .storeByte byte := hirq
    have hnone := hinv.irq_empty (by simp [hirq', Pc.needsEmpty])
    obtain ⟨hcount, hwrites'⟩ := Pc.silent_step hstep hwrites hinv.fiq_queues hnone
    refine ⟨?_, hwrites'⟩
    simpa [setPc, hcount] using hlt
  · intro room hirq
    rcases h.irq_loop room hirq with hroom | hnone | hloop
    · rcases heff.counted hinv.fiq_queues hinv.fiq_isr hinv.fiq_empty with hcount | hloop | hnone
      · exact .inl (by simpa [setPc, hcount] using hroom)
      · exact .inr (hflush hloop).symm
      · exact .inr (.inl hnone)
    · exact .inr (.inl (heff.stays_empty hinv.fiq_queues hnone))
    · exact .inr (hflush hloop).symm

theorem Room.advance_irq {s : System w ι} {port : Port w} {pc' : Pc} (h : s.Room) (hinv : s.Inv)
    (hfiq : s.fiq = .idle) (hstep : s.irq.step false s.port = some (port, pc')) :
    ({ s with port := port }.setPc .irq pc').Room := by
  have heff := Pc.step_effect hstep
  have hroom : ∀ room, s.irq = .isrLoop room → s.port.ring.unread ≠ [] →
      s.port.txFifoCount + room ≤ txFifoDepth := by
    intro room hirq hne
    rcases h.irq_loop room hirq with hle | hnone | hflush
    · exact hle
    · exact absurd hnone hne
    · simp [hfiq, Pc.inFlushLoop] at hflush
  refine ⟨?_, ?_, ?_, ?_⟩
  · refine heff.no_overrun hinv.stream.ready h.overrun (fun byte hirq => ?_) ?_
    · exact (h.irq_store byte hirq).1
    · intro room hirq hne
      have hle := hroom (room + 1) hirq hne
      omega
  · intro byte hpc
    have hnot : s.fiq = .storeByte byte := hpc
    simp [hfiq] at hnot
  · intro byte hpc
    obtain rfl : pc' = .storeByte byte := hpc
    obtain ⟨rfl, hready⟩ := Pc.step_storeByte hstep
    refine ⟨hinv.stream.ready hready, ?_⟩
    simp [setPc, hfiq, Pc.writes, Pc.stores]
  · intro room hpc
    obtain rfl : pc' = .isrLoop room := hpc
    have hle := hinv.stream.count_le
    rcases Pc.step_isrLoop hstep with ⟨rfl, rfl⟩ | ⟨hirq, hne, hcount⟩
    · refine .inl ?_
      simp only [setPc]
      omega
    · have hroom' := hroom (room + 1) hirq hne
      refine .inl ?_
      simp only [setPc, hcount]
      omega

theorem Room.advance_task {s : System w ι} {i : ι} {port : Port w} {pc' : Pc} (h : s.Room)
    (hinv : s.Inv) (hirq : s.irq = .idle) (hfiq : s.fiq = .idle)
    (hstep : (s.task i).step true s.port = some (port, pc')) :
    ({ s with port := port }.setPc (.task i) pc').Room := by
  have heff := Pc.step_effect hstep
  obtain ⟨hstores, hisr⟩ := hinv.task i
  refine ⟨?_, ?_, ?_, ?_⟩
  · refine heff.no_overrun hinv.stream.ready h.overrun ?_ ?_
    · intro byte hpc
      simp [hpc, Pc.stores] at hstores
    · intro room hpc
      simp [hpc, Pc.inIsr] at hisr
  · intro byte hpc
    simp [setPc, hfiq] at hpc
  · intro byte hpc
    simp [setPc, hirq] at hpc
  · intro room hpc
    simp [setPc, hirq] at hpc

theorem Room.step {s s' : System w ι} {l : Label ι} (h : s.Room) (hinv : s.Inv)
    (hfree : s.Undisturbed l) (hstep : s.step l = some s') : s'.Room := by
  cases l with
  | call c f =>
    simp only [System.step] at hstep
    split_ifs at hstep with hcall
    cases hstep
    simp only [Bool.and_eq_true, decide_eq_true_eq] at hcall
    exact h.call hcall.1.1 hcall.2 hfree
  | step c =>
    simp only [System.step] at hstep
    split_ifs at hstep with hruns
    obtain ⟨⟨port, pc'⟩, hpc, rfl⟩ := Option.map_eq_some_iff.mp hstep
    cases c with
    | task i =>
      simp only [runs, Bool.and_eq_true, decide_eq_true_eq] at hruns
      exact h.advance_task hinv hruns.1 hruns.2 hpc
    | irq =>
      simp only [runs, decide_eq_true_eq] at hruns
      exact h.advance_irq hinv hruns hpc
    | fiq => exact h.advance_fiq hinv hpc
  | wire sent ready =>
    -- the wire only makes room
    have hless : ∃ count ≤ s.port.txFifoCount, s' =
        { s with port := { s.port with txFifoCount := count, wrReady := ready } } := by
      simp only [System.step] at hstep
      split_ifs at hstep <;> cases hstep
      · exact ⟨s.port.txFifoCount - 1, by omega, rfl⟩
      · exact ⟨s.port.txFifoCount, le_rfl, rfl⟩
    obtain ⟨count, hle, rfl⟩ := hless
    refine ⟨h.overrun, fun byte hpc => ?_, fun byte hpc => ⟨?_, ?_⟩, fun room hpc => ?_⟩
    · exact hle.trans_lt (h.fiq_store byte hpc)
    · exact hle.trans_lt (h.irq_store byte hpc).1
    · exact (h.irq_store byte hpc).2
    · refine (h.irq_loop room hpc).imp_left fun hroom => ?_
      simp only
      omega
  | source enabled =>
    cases hstep
    exact ⟨h.overrun, h.fiq_store, h.irq_store, h.irq_loop⟩

omit [DecidableEq ι] in
theorem room_start (ring : Ringbuf w) (cursor : BitVec w) (count : ℕ) :
    (start ring cursor count : System w ι).Room := by
  constructor <;> simp [start]

/-! ## The theorem -/

/-- Every byte accepted is in the FIFO's input exactly once or still queued, in the order of
acceptance; no byte was stored into a full FIFO; a queue that is not empty has its interrupt. -/
structure Safe (s : System w ι) : Prop where
  bytes : s.port.accepted = s.port.written ++ s.port.ring.unread
  room : s.port.overrun = false
  armed : s.port.ring.unread ≠ [] → s.port.txNeedWrite = true

/-- Transmitting is safe in every interleaving in which no FIQ starts to write between the test
and the store of an interrupt context. -/
theorem uart_tx_safe (ring : Ringbuf w) (cursor : BitVec w) (count : ℕ) (ls : List (Label ι))
    (s : System w ι) (hfree : Within step Undisturbed (start ring cursor count) ls)
    (hrun : runSteps step (start ring cursor count) ls = some s) : s.Safe := by
  have hstep : ∀ (s : System w ι) l s', (s.Inv ∧ s.Room) → Undisturbed s l →
      step s l = some s' → s'.Inv ∧ s'.Room :=
    fun s l s' h hok hstep => ⟨h.1.step hstep, h.2.step h.1 hok hstep⟩
  obtain ⟨hinv, hroom⟩ :=
    invariant_of_within hstep ⟨inv_start ring cursor count, room_start ring cursor count⟩ hfree hrun
  exact ⟨hinv.stream.bytes, hroom.overrun, hinv.stream.armed⟩

def oneByteRing : Ringbuf 8 := ⟨[0], 0, 0, 0, rfl, 0, by decide, rfl⟩

/-- The second byte of a task waits in the queue for the interrupt, and a FIQ that writes the
third sends it on before its own. -/
def fiqFlushes : List (Label (Fin 1)) :=
  [.call (.task 0) (.writeByte 1), .step (.task 0), .step (.task 0),
    .call (.task 0) (.writeByte 2), .step (.task 0), .step (.task 0), .wire true true,
    .call .irq .isr, .step .irq, .call .fiq (.writeByte 3), .step .fiq, .step .fiq, .step .fiq,
    .step .fiq, .step .fiq, .step .fiq, .wire true true, .step .fiq, .step .fiq, .step .irq,
    .step .irq]

theorem uart_tx_safe_fiqFlushes : ∃ s, runSteps step (start oneByteRing 0 127) fiqFlushes = some s ∧
    s.Safe ∧ s.port.written = [1, 2, 3] := by
  obtain ⟨s, hs⟩ : ∃ s, runSteps step (start oneByteRing 0 127) fiqFlushes = some s := ⟨_, rfl⟩
  have hfree : Within step Undisturbed (start oneByteRing 0 127) fiqFlushes := by
    repeat' first
      | exact trivial
      | refine Within.cons ?_ rfl ?_
      | exact fun _ => nofun
  refine ⟨s, hs, uart_tx_safe oneByteRing 0 127 fiqFlushes s hfree hs, ?_⟩
  cases hs
  rfl

/-! ## A byte too many -/

/-- A FIFO with room for one byte: the IRQ context has seen the room, the FIQ takes it. -/
def fiqOverruns : List (Label (Fin 0)) :=
  [.call .irq (.writeByte 1), .step .irq, .step .irq, .step .irq,
    .call .fiq (.writeByte 2), .step .fiq, .step .fiq, .step .fiq, .step .fiq, .step .irq]

theorem uart_fiq_overruns : ∃ s,
    runSteps step (start oneByteRing 0 127) fiqOverruns = some s ∧ ¬ s.Safe := by
  refine ⟨_, rfl, fun hsafe => ?_⟩
  exact absurd hsafe.room (by decide)

end System
end BekenCam.Uart
