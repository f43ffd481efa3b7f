import BekenCam.UartSwapModel

/-!
# Nothing is lost in a swap

Of each writer, the bytes whose write has returned are those that reached the FIFO followed by those
in the queue, in order. Between writers the order is kept only as long as the queue is: a writer
that waits for room may store its byte past a queue that was attached in the meantime, which has
none of its own bytes. A byte that is queued between the flush and the swap is lost, and so is one
that a store outside a masked section has no room for.
-/
namespace BekenCam.Uart

open Ringbuf

variable {w : ℕ} {ι : Type} [DecidableEq ι]

/-- The bytes of one writer. -/
def bytesOf (i : ι) (bytes : List (ι × UInt8)) : List UInt8 :=
  (bytes.filter fun byte => byte.1 = i).map Prod.snd

@[simp] theorem bytesOf_nil (i : ι) : bytesOf i [] = [] := rfl

@[simp] theorem bytesOf_append (i : ι) (a b : List (ι × UInt8)) :
    bytesOf i (a ++ b) = bytesOf i a ++ bytesOf i b := by
  simp [bytesOf]

theorem bytesOf_of_ne {i j : ι} (h : j ≠ i) (byte : UInt8) : bytesOf i [(j, byte)] = [] := by
  simp [bytesOf, h]

omit [DecidableEq ι] in
/-- The bytes in the queue with their writers. -/
def SwapPort.queued (p : SwapPort w ι) : List (ι × UInt8) := p.owners.zip p.ring.unread

structure SwapPort.Line (p : SwapPort w ι) : Prop where
  owners : p.owners.length = p.ring.unread.length
  order : ∀ i, bytesOf i p.returned = bytesOf i p.reached ++ bytesOf i p.queued
  detached : p.attached = false → p.ring.unread = []
  armed : p.ring.unread ≠ [] → p.txNeedWrite = true
  ready : p.wrReady = true → p.txFifoCount < txFifoDepth
  count_le : p.txFifoCount ≤ txFifoDepth
  nullRead : p.nullRead = false

namespace SwapPort

variable {p : SwapPort w ι}

omit [DecidableEq ι] in
theorem queued_of_empty (h : p.ring.unread = []) : p.queued = [] := by
  rw [queued, h, List.zip_nil_right]

omit [DecidableEq ι] in
theorem fifoWrite_reached (byte : ι × UInt8) (h : p.txFifoCount < txFifoDepth) :
    (p.fifoWrite byte).reached = p.reached ++ [byte] :=
  if_pos h

omit [DecidableEq ι] in
theorem fifoWrite_count (byte : ι × UInt8) :
    (p.fifoWrite byte).txFifoCount ≤ txFifoDepth ∧
      ((p.fifoWrite byte).wrReady = true → (p.fifoWrite byte).txFifoCount < txFifoDepth) := by
  refine ⟨Nat.min_le_right _ _, fun hready => ?_⟩
  simp only [fifoWrite, Bool.and_eq_true, decide_eq_true_eq] at hready ⊢
  omega

/-- A writer's byte goes into the FIFO past a queue that has none of its bytes. -/
theorem Line.write (h : p.Line) {i : ι} (byte : UInt8) (hroom : p.txFifoCount < txFifoDepth)
    (halone : bytesOf i p.queued = []) :
    ((p.fifoWrite (i, byte)).return (i, byte)).Line where
  owners := h.owners
  order j := by
    have hqueued : ((p.fifoWrite (i, byte)).return (i, byte)).queued = p.queued := rfl
    have hreturned : ((p.fifoWrite (i, byte)).return (i, byte)).returned =
        p.returned ++ [(i, byte)] := rfl
    have hreached : ((p.fifoWrite (i, byte)).return (i, byte)).reached =
        p.reached ++ [(i, byte)] := fifoWrite_reached _ hroom
    rw [hqueued, hreturned, hreached, bytesOf_append, bytesOf_append, h.order j]
    by_cases hij : i = j
    · subst hij
      simp [halone]
    · simp [bytesOf_of_ne hij]
  detached := h.detached
  armed := h.armed
  ready := (fifoWrite_count (i, byte)).2
  count_le := (fifoWrite_count (i, byte)).1
  nullRead := h.nullRead

/-- A writer's byte goes into the queue. -/
theorem Line.put (h : p.Line) {i : ι} {byte : UInt8} {ring : Ringbuf w}
    (hattached : p.attached = true) (hring : ring.unread = p.ring.unread ++ [byte]) :
    ({ p with
      ring := ring
      owners := p.owners ++ [i]
      txNeedWrite := true }.return (i, byte)).Line where
  owners := by
    have howners := h.owners
    simp [SwapPort.return, hring, howners]
  order j := by
    have hqueued : ({ p with
        ring := ring
        owners := p.owners ++ [i]
        txNeedWrite := true }.return (i, byte)).queued = p.queued ++ [(i, byte)] := by
      simp only [queued, SwapPort.return]
      rw [hring, List.zip_append h.owners]
      rfl
    have hreturned : ({ p with
        ring := ring
        owners := p.owners ++ [i]
        txNeedWrite := true }.return (i, byte)).returned = p.returned ++ [(i, byte)] := rfl
    rw [hqueued, hreturned, bytesOf_append, bytesOf_append, h.order j, List.append_assoc]
    rfl
  detached hdetached := by
    have hnot : p.attached = false := hdetached
    simp [hattached] at hnot
  armed _ := rfl
  ready := h.ready
  count_le := h.count_le
  nullRead := h.nullRead

omit [DecidableEq ι] in
theorem sendHead_empty (h : p.ring.unread = []) : p.sendHead = (false, p) := by
  rw [sendHead, getByte_empty (isEmpty_iff_unread.mpr h)]

omit [DecidableEq ι] in
theorem sendHead_attached : p.sendHead.2.attached = p.attached := by
  unfold sendHead
  split <;> rfl

/-- The head of the queue leaves with its writer. -/
theorem Line.sendHead_spec (h : p.Line) (hne : p.ring.unread ≠ []) :
    ∃ owner byte owners ring, p.sendHead =
      (true, { p with ring := ring, owners := owners }.fifoWrite (owner, byte)) ∧
      p.owners = owner :: owners ∧ p.ring.unread = byte :: ring.unread := by
  have hsome : p.ring.isEmpty = false := by
    rw [Bool.eq_false_iff]
    exact fun hempty => hne (isEmpty_iff_unread.mp hempty)
  obtain ⟨byte, ring, hget, hring⟩ := getByte_spec hsome
  cases howners : p.owners with
  | nil =>
    have hlen := h.owners
    simp [howners, hring] at hlen
  | cons owner owners =>
    refine ⟨owner, byte, owners, ring, ?_, rfl, hring⟩
    rw [sendHead, hget, howners]

theorem Line.sendHead (h : p.Line) (hroom : p.ring.unread ≠ [] → p.txFifoCount < txFifoDepth) :
    p.sendHead.2.Line := by
  by_cases hnone : p.ring.unread = []
  · rw [sendHead_empty hnone]
    exact h
  · obtain ⟨owner, byte, owners, ring, hsend, howners, hring⟩ := h.sendHead_spec hnone
    rw [hsend]
    have hreached : ({ p with ring := ring, owners := owners }.fifoWrite (owner, byte)).reached =
        p.reached ++ [(owner, byte)] := if_pos (hroom hnone)
    have hqueued : p.queued = [(owner, byte)] ++
        ({ p with ring := ring, owners := owners }.fifoWrite (owner, byte)).queued := by
      rw [queued, howners, hring]
      rfl
    refine ⟨?_, fun i => ?_, ?_, fun _ => h.armed hnone, (fifoWrite_count (owner, byte)).2,
      (fifoWrite_count (owner, byte)).1, h.nullRead⟩
    · have hlen := h.owners
      rw [howners, hring, List.length_cons, List.length_cons] at hlen
      exact Nat.succ.inj hlen
    · change bytesOf i p.returned = _
      rw [h.order i, hreached, hqueued, bytesOf_append, bytesOf_append, List.append_assoc]
    · intro hdetached
      exact absurd (h.detached hdetached) hnone

/-- A queue that has none of the writer's bytes has none after its head left. -/
theorem Line.sendHead_alone (h : p.Line) {i : ι} (halone : bytesOf i p.queued = []) :
    bytesOf i p.sendHead.2.queued = [] := by
  by_cases hnone : p.ring.unread = []
  · rw [sendHead_empty hnone]
    exact halone
  · obtain ⟨owner, byte, owners, ring, hsend, howners, hring⟩ := h.sendHead_spec hnone
    have hqueued : p.queued = [(owner, byte)] ++ p.sendHead.2.queued := by
      rw [hsend, queued, howners, hring]
      rfl
    rw [hqueued, bytesOf_append] at halone
    exact (List.append_eq_nil_iff.mp halone).2

/-- The interrupt goes off with an empty queue. -/
theorem Line.disarm (h : p.Line) (hnone : p.ring.unread = []) :
    ({ p with txNeedWrite := false } : SwapPort w ι).Line :=
  ⟨h.owners, h.order, h.detached, fun hne => absurd hnone hne, h.ready, h.count_le, h.nullRead⟩

theorem Line.detach (h : p.Line) (hnone : p.ring.unread = []) :
    ({ p with txNeedWrite := false, attached := false } : SwapPort w ι).Line :=
  ⟨h.owners, h.order, fun _ => hnone, fun hne => absurd hnone hne, h.ready, h.count_le, h.nullRead⟩

/-- An empty queue is swapped for another one. -/
theorem Line.attach (h : p.Line) (hnone : p.ring.unread = []) {ring : Ringbuf w}
    (hring : ring.unread = []) :
    ({ p with
      txNeedWrite := false
      attached := true
      ring := ring
      owners := [] } : SwapPort w ι).Line := by
  refine ⟨by simp [hring], fun i => ?_, nofun, fun hne => absurd hring hne, h.ready, h.count_le,
    h.nullRead⟩
  have horder := h.order i
  rw [queued_of_empty hnone] at horder
  exact horder

end SwapPort

/-! ## The contexts -/

section Contexts

variable {p p' : SwapPort w ι} {i : ι} {pc pc' : SwapPc w}

def SwapPc.ofWriter : SwapPc w → Bool
  | .idle | .write _ | .queueing _ | .full _ _ | .waitReady (.retry _) | .sendHead (.retry _)
  | .blocked _ | .storeByte _ => true
  | _ => false

/-- A writer on the way to a store outside a masked section. -/
def SwapPc.stores : SwapPc w → Bool
  | .blocked _ | .storeByte _ => true
  | _ => false

/-- The swapper's new queue is empty, and while it flushes the old one is attached. -/
def SwapPc.OfSwapper (attached : Bool) : SwapPc w → Prop
  | .idle => True
  | .flush ring | .swap ring => ∀ r ∈ ring, r.unread = []
  | .flushLoop ring | .waitReady (.flush ring) | .sendHead (.flush ring) =>
    attached = true ∧ ∀ r ∈ ring, r.unread = []
  | _ => False

/-- The interrupt has the room it counted, and disarms with an empty queue. -/
def SwapPc.OfIrq (p : SwapPort w ι) : SwapPc w → Prop
  | .idle | .isr => True
  | .isrLoop room => p.txFifoCount + room ≤ txFifoDepth
  | .isrDisarm => p.ring.unread = []
  | _ => False

/-- The other writers have no bytes in the queue if they had none. -/
def KeepsAlone (p p' : SwapPort w ι) (i : ι) : Prop :=
  ∀ j, j ≠ i → bytesOf j p.queued = [] → bytesOf j p'.queued = []

/-- What a step of a writer has to find, apart from the line. -/
def CleanWriter (p : SwapPort w ι) : SwapPc w → Prop
  | .storeByte _ => p.txFifoCount < txFifoDepth
  | .sendHead _ => p.attached = true
  | _ => True

structure WriterStep (p p' : SwapPort w ι) (i : ι) (pc' : SwapPc w) : Prop where
  line : p'.Line
  ofWriter : pc'.ofWriter = true
  alone : pc'.stores = true → bytesOf i p'.queued = []
  others : KeepsAlone p p' i
  attached : p'.attached = p.attached

theorem WriterStep.of_same (h : p.Line) (hpc : pc'.ofWriter = true)
    (halone : pc'.stores = true → bytesOf i p.queued = []) : WriterStep p p i pc' :=
  ⟨h, hpc, halone, fun _ _ hnone => hnone, rfl⟩

theorem bytesOf_detached (h : p.Line) (hdetached : p.attached = false) :
    bytesOf i p.queued = [] := by
  rw [SwapPort.queued_of_empty (h.detached hdetached), bytesOf_nil]

theorem SwapPc.writer_step (h : p.Line) (hpc : pc.ofWriter = true)
    (halone : pc.stores = true → bytesOf i p.queued = []) (hclean : CleanWriter p pc)
    (hstep : pc.step i p = some (p', pc')) : WriterStep p p' i pc' := by
  cases pc with
  | idle => simp [SwapPc.step] at hstep
  | write byte =>
    obtain ⟨rfl, rfl⟩ := Prod.mk.inj (Option.some.inj hstep)
    split_ifs with hattached
    · exact .of_same h rfl nofun
    · exact .of_same h rfl fun _ => bytesOf_detached h (by simpa using hattached)
  | queueing byte =>
    simp only [SwapPc.step] at hstep
    split_ifs at hstep with hattached hdirect hqueued
    · obtain ⟨rfl, rfl⟩ := Prod.mk.inj (Option.some.inj hstep)
      exact .of_same h rfl fun _ => bytesOf_detached h (by simpa using hattached)
    · obtain ⟨rfl, rfl⟩ := Prod.mk.inj (Option.some.inj hstep)
      rw [Bool.and_eq_true] at hdirect
      have hnone := SwapPort.queued_of_empty (isEmpty_iff_unread.mp hdirect.1)
      exact ⟨h.write byte (h.ready hdirect.2) (by rw [hnone, bytesOf_nil]), rfl, nofun,
        fun _ _ hnone => hnone, rfl⟩
    · obtain ⟨rfl, rfl⟩ := Prod.mk.inj (Option.some.inj hstep)
      cases hfull : p.ring.isFull with
      | true => simp [putByte_full byte hfull] at hqueued
      | false =>
        have hring := (putByte_spec byte hfull).2
        refine ⟨h.put (by simpa using hattached) hring, rfl, nofun, ?_, rfl⟩
        intro j hj hnone
        have hqueue : (p.owners ++ [i]).zip (p.ring.putByte byte).2.unread =
            p.queued ++ [(i, byte)] := by
          rw [hring, List.zip_append h.owners]
          rfl
        change bytesOf j ((p.owners ++ [i]).zip (p.ring.putByte byte).2.unread) = []
        rw [hqueue, bytesOf_append, hnone, bytesOf_of_ne (Ne.symm hj)]
        rfl
    · obtain ⟨rfl, rfl⟩ := Prod.mk.inj (Option.some.inj hstep)
      exact .of_same h rfl nofun
  | full byte capacity =>
    obtain ⟨rfl, rfl⟩ := Prod.mk.inj (Option.some.inj hstep)
    split_ifs <;> exact .of_same h rfl nofun
  | waitReady k =>
    simp only [SwapPc.step] at hstep
    split_ifs at hstep
    obtain ⟨rfl, rfl⟩ := Prod.mk.inj (Option.some.inj hstep)
    cases k with
    | retry byte => exact .of_same h rfl nofun
    | flush ring => simp [SwapPc.ofWriter] at hpc
  | sendHead k =>
    cases k with
    | flush ring => simp [SwapPc.ofWriter] at hpc
    | retry byte =>
      have hattached : p.attached = true := hclean
      simp only [SwapPc.step, hattached, Bool.not_true, Bool.false_eq_true, if_false] at hstep
      split_ifs at hstep with hready
      · obtain ⟨rfl, rfl⟩ := Prod.mk.inj (Option.some.inj hstep)
        exact .of_same h rfl nofun
      · obtain ⟨rfl, rfl⟩ := Prod.mk.inj (Option.some.inj hstep)
        refine ⟨h.sendHead fun _ => h.ready (by simpa using hready), rfl, nofun,
          fun j _ hnone => h.sendHead_alone hnone, ?_⟩
        exact SwapPort.sendHead_attached
  | blocked byte =>
    simp only [SwapPc.step] at hstep
    split_ifs at hstep
    obtain ⟨rfl, rfl⟩ := Prod.mk.inj (Option.some.inj hstep)
    exact .of_same h rfl fun _ => halone rfl
  | storeByte byte =>
    obtain ⟨rfl, rfl⟩ := Prod.mk.inj (Option.some.inj hstep)
    exact ⟨h.write byte hclean (halone rfl), rfl, nofun, fun _ _ hnone => hnone, rfl⟩
  | flush | flushLoop | swap | isr | isrLoop | isrDisarm => simp [SwapPc.ofWriter] at hpc

structure SwapperStep (p p' : SwapPort w ι) (pc' : SwapPc w) : Prop where
  line : p'.Line
  ofSwapper : pc'.OfSwapper p'.attached
  others : ∀ j, bytesOf j p.queued = [] → bytesOf j p'.queued = []

/-- The swap itself needs an empty queue. -/
theorem SwapPc.swapper_step (h : p.Line) (hpc : pc.OfSwapper p.attached)
    (hclean : ∀ ring, pc = .swap ring → p.ring.unread = [])
    (hstep : pc.step i p = some (p', pc')) : SwapperStep p p' pc' := by
  cases pc with
  | idle => simp [SwapPc.step] at hstep
  | flush ring =>
    obtain ⟨rfl, rfl⟩ := Prod.mk.inj (Option.some.inj hstep)
    split_ifs with hnone
    · exact ⟨h, hpc, fun _ hnone => hnone⟩
    · refine ⟨h, ⟨?_, hpc⟩, fun _ hnone => hnone⟩
      simp only [Bool.or_eq_true, not_or] at hnone
      simpa using hnone.1
  | flushLoop ring =>
    simp only [SwapPc.step] at hstep
    split_ifs at hstep with hnone <;> obtain ⟨rfl, rfl⟩ := Prod.mk.inj (Option.some.inj hstep)
    · exact ⟨h.disarm (isEmpty_iff_unread.mp hnone), hpc.2, fun _ hnone => hnone⟩
    · exact ⟨h, hpc, fun _ hnone => hnone⟩
  | waitReady k =>
    simp only [SwapPc.step] at hstep
    split_ifs at hstep
    obtain ⟨rfl, rfl⟩ := Prod.mk.inj (Option.some.inj hstep)
    cases k with
    | retry byte => exact absurd hpc id
    | flush ring => exact ⟨h, hpc, fun _ hnone => hnone⟩
  | sendHead k =>
    cases k with
    | retry byte => exact absurd hpc id
    | flush ring =>
      have hattached : p.attached = true := hpc.1
      simp only [SwapPc.step, hattached, Bool.not_true, Bool.false_eq_true, if_false] at hstep
      split_ifs at hstep with hready
      · obtain ⟨rfl, rfl⟩ := Prod.mk.inj (Option.some.inj hstep)
        exact ⟨h, hpc, fun _ hnone => hnone⟩
      · obtain ⟨rfl, rfl⟩ := Prod.mk.inj (Option.some.inj hstep)
        refine ⟨h.sendHead fun _ => h.ready (by simpa using hready), ?_,
          fun j hnone => h.sendHead_alone hnone⟩
        exact ⟨SwapPort.sendHead_attached.trans hpc.1, hpc.2⟩
  | swap ring =>
    have hnone := hclean ring rfl
    cases ring with
    | none =>
      obtain ⟨rfl, rfl⟩ := Prod.mk.inj (Option.some.inj hstep)
      exact ⟨h.detach hnone, trivial, fun _ hnone => hnone⟩
    | some ring =>
      obtain ⟨rfl, rfl⟩ := Prod.mk.inj (Option.some.inj hstep)
      exact ⟨h.attach hnone (hpc ring rfl), trivial, fun _ _ => rfl⟩
  | write | queueing | full | blocked | storeByte | isr | isrLoop | isrDisarm =>
    exact absurd hpc id

structure IrqStep (p p' : SwapPort w ι) (pc' : SwapPc w) : Prop where
  line : p'.Line
  ofIrq : pc'.OfIrq p'
  others : ∀ j, bytesOf j p.queued = [] → bytesOf j p'.queued = []
  attached : p'.attached = p.attached

theorem SwapPc.irq_step (h : p.Line) (hpc : pc.OfIrq p) (hstep : pc.step i p = some (p', pc')) :
    IrqStep p p' pc' := by
  cases pc with
  | idle => simp [SwapPc.step] at hstep
  | isr =>
    obtain ⟨rfl, rfl⟩ := Prod.mk.inj (Option.some.inj hstep)
    refine ⟨h, ?_, fun _ hnone => hnone, rfl⟩
    split_ifs with hattached
    · have hle := h.count_le
      change p.txFifoCount + (txFifoDepth - p.txFifoCount) ≤ txFifoDepth
      omega
    · exact h.detached (by simpa using hattached)
  | isrLoop room =>
    cases room with
    | zero =>
      obtain ⟨rfl, rfl⟩ := Prod.mk.inj (Option.some.inj hstep)
      exact ⟨h, trivial, fun _ hnone => hnone, rfl⟩
    | succ room =>
      have hroom : p.txFifoCount + (room + 1) ≤ txFifoDepth := hpc
      obtain ⟨rfl, rfl⟩ := Prod.mk.inj (Option.some.inj hstep)
      refine ⟨h.sendHead fun _ => by omega, ?_, fun j hnone => h.sendHead_alone hnone,
        SwapPort.sendHead_attached⟩
      by_cases hnone : p.ring.unread = []
      · rw [SwapPort.sendHead_empty hnone]
        exact hnone
      · obtain ⟨owner, byte, owners, ring, hsend, -, -⟩ := h.sendHead_spec hnone
        rw [hsend]
        change min (p.txFifoCount + 1) txFifoDepth + room ≤ txFifoDepth
        omega
  | isrDisarm =>
    obtain ⟨rfl, rfl⟩ := Prod.mk.inj (Option.some.inj hstep)
    exact ⟨h.disarm hpc, trivial, fun _ hnone => hnone, rfl⟩
  | write | queueing | full | waitReady | sendHead | blocked | storeByte | flush | flushLoop
  | swap => exact absurd hpc id

end Contexts

/-! ## Every run -/

namespace SwapSystem

structure Inv (s : SwapSystem w ι) : Prop where
  line : s.port.Line
  writer : ∀ i, (s.writer i).ofWriter = true
  alone : ∀ i, (s.writer i).stores = true → bytesOf i s.port.queued = []
  swapper : s.swapper.OfSwapper s.port.attached
  irq : s.irq.OfIrq s.port

theorem inv_start (ring : Ringbuf w) (count : ℕ) : (start ring count : SwapSystem w ι).Inv where
  line := by
    have hnone : ({ ring with outCursor := ring.inCursor } : Ringbuf w).unread = [] :=
      isEmpty_iff_unread.mp (isEmpty_reset ring ring.inCursor)
    refine ⟨?_, fun _ => rfl, fun _ => hnone, fun hne => absurd hnone hne, fun hready => ?_,
      Nat.min_le_right _ _, rfl⟩
    · simp [start, hnone]
    · simp only [start, decide_eq_true_eq] at hready ⊢
      omega
  writer _ := rfl
  alone _ := nofun
  swapper := trivial
  irq := trivial

omit [DecidableEq ι] in
theorem eq_idle {pc : SwapPc w} (h : isIdle pc = true) : pc = .idle := by
  cases pc <;> first | rfl | cases h

/-- The wire only makes room. -/
theorem Inv.wire {s : SwapSystem w ι} {count : ℕ} {ready : Bool} (h : s.Inv)
    (hle : count ≤ s.port.txFifoCount) (hready : ready = true → count < txFifoDepth) :
    ({ s with port := { s.port with txFifoCount := count, wrReady := ready } } :
      SwapSystem w ι).Inv := by
  refine ⟨⟨h.line.owners, h.line.order, h.line.detached, h.line.armed, hready,
    le_trans hle h.line.count_le, h.line.nullRead⟩, h.writer, h.alone, h.swapper, ?_⟩
  have hirq := h.irq
  change s.irq.OfIrq _
  cases hpc : s.irq with
  | isrLoop room =>
    rw [hpc] at hirq
    exact le_trans (Nat.add_le_add_right hle room) hirq
  | isrDisarm =>
    rw [hpc] at hirq
    exact hirq
  | idle | isr => trivial
  | write | queueing | full | waitReady | sendHead | blocked | storeByte | flush | flushLoop
  | swap =>
    rw [hpc] at hirq
    exact absurd hirq id

theorem Inv.step [Inhabited ι] {s t : SwapSystem w ι} {l : SwapLabel w ι} (h : s.Inv)
    (hclean : s.Clean l) (hstep : s.step l = some t) : t.Inv := by
  cases l with
  | write i byte =>
    simp only [SwapSystem.step] at hstep
    split_ifs at hstep
    obtain rfl := Option.some.inj hstep
    refine ⟨h.line, fun j => ?_, fun j => ?_, h.swapper, h.irq⟩
    · simp only [setWriter, Function.update_apply]
      split_ifs
      · rfl
      · exact h.writer j
    · simp only [setWriter, Function.update_apply]
      split_ifs
      · nofun
      · exact h.alone j
  | setTxBuffer ring =>
    simp only [SwapSystem.step] at hstep
    split_ifs at hstep with hcall
    obtain rfl := Option.some.inj hstep
    simp only [Bool.and_eq_true] at hcall
    refine ⟨h.line, h.writer, h.alone, fun r hr => ?_, h.irq⟩
    have hempty := hcall.2
    rw [Option.mem_def.mp hr] at hempty
    exact isEmpty_iff_unread.mp hempty
  | interrupt =>
    simp only [SwapSystem.step] at hstep
    split_ifs at hstep
    obtain rfl := Option.some.inj hstep
    exact ⟨h.line, h.writer, h.alone, h.swapper, trivial⟩
  | writer i =>
    simp only [SwapSystem.step] at hstep
    split_ifs at hstep with hidle
    obtain ⟨⟨port, pc⟩, hpc, rfl⟩ := Option.map_eq_some_iff.mp hstep
    have hwriter := SwapPc.writer_step h.line (h.writer i) (h.alone i) hclean hpc
    refine ⟨hwriter.line, fun j => ?_, fun j => ?_, ?_, ?_⟩
    · simp only [setWriter, Function.update_apply]
      split_ifs
      · exact hwriter.ofWriter
      · exact h.writer j
    · simp only [setWriter, Function.update_apply]
      split_ifs with hji
      · rw [hji]
        exact hwriter.alone
      · exact fun hstores => hwriter.others j hji (h.alone j hstores)
    · change s.swapper.OfSwapper port.attached
      rw [hwriter.attached]
      exact h.swapper
    · change s.irq.OfIrq port
      rw [eq_idle hidle]
      trivial
  | swapper =>
    simp only [SwapSystem.step] at hstep
    split_ifs at hstep with hidle
    obtain ⟨⟨port, pc⟩, hpc, rfl⟩ := Option.map_eq_some_iff.mp hstep
    have hempty : ∀ ring, s.swapper = .swap ring → s.port.ring.unread = [] := by
      intro ring hswap
      cases hattached : s.port.attached with
      | false => exact h.line.detached hattached
      | true =>
        simp only [Clean, hswap] at hclean
        exact isEmpty_iff_unread.mp (hclean hattached)
    have hswapper := SwapPc.swapper_step h.line h.swapper hempty hpc
    refine ⟨hswapper.line, h.writer, fun j hstores => hswapper.others j (h.alone j hstores),
      hswapper.ofSwapper, ?_⟩
    change s.irq.OfIrq port
    rw [eq_idle hidle]
    trivial
  | irq =>
    obtain ⟨⟨port, pc⟩, hpc, rfl⟩ := Option.map_eq_some_iff.mp hstep
    have hirq := SwapPc.irq_step h.line h.irq hpc
    refine ⟨hirq.line, h.writer, fun j hstores => hirq.others j (h.alone j hstores), ?_, hirq.ofIrq⟩
    change s.swapper.OfSwapper port.attached
    rw [hirq.attached]
    exact h.swapper
  | wire sent ready =>
    simp only [SwapSystem.step] at hstep
    have hready : ∀ count, ¬(ready && decide (txFifoDepth ≤ count)) = true → ready = true →
        count < txFifoDepth := by
      intro count hfull hr
      simpa [hr] using hfull
    split_ifs at hstep with hsent hfull hfull <;> obtain rfl := Option.some.inj hstep
    · exact h.wire (Nat.sub_le _ _) (hready _ hfull)
    · exact h.wire (Nat.le_refl _) (hready _ hfull)
  | source enabled =>
    cases hstep
    obtain ⟨howners, horder, hdetached, harmed, hready, hle, hnull⟩ := h.line
    refine ⟨⟨howners, horder, hdetached, harmed, hready, hle, hnull⟩, h.writer, h.alone,
      h.swapper, ?_⟩
    have hirq := h.irq
    change s.irq.OfIrq _
    cases hpc : s.irq <;> rw [hpc] at hirq <;> exact hirq

/-- What a writer returned has reached the FIFO or stands in a queue that is attached and whose
interrupt is on. -/
structure Sound (s : SwapSystem w ι) : Prop where
  order : ∀ i, bytesOf i s.port.returned = bytesOf i s.port.reached ++ bytesOf i s.port.queued
  owners : s.port.owners.length = s.port.ring.unread.length
  waiting : s.port.ring.unread ≠ [] → s.port.attached = true ∧ s.port.txNeedWrite = true
  nullRead : s.port.nullRead = false

theorem Inv.sound {s : SwapSystem w ι} (h : s.Inv) : s.Sound where
  order := h.line.order
  owners := h.line.owners
  waiting hne := by
    refine ⟨?_, h.line.armed hne⟩
    cases hattached : s.port.attached with
    | true => rfl
    | false => exact absurd (h.line.detached hattached) hne
  nullRead := h.line.nullRead

/-- Swapping or detaching the queue loses nothing in any run in which the swap finds it empty. -/
theorem uart_set_tx_buffer_sound [Inhabited ι] (ring : Ringbuf w) (count : ℕ)
    (ls : List (SwapLabel w ι)) (s : SwapSystem w ι)
    (hclean : Within step Clean (start ring count) ls)
    (hrun : runSteps step (start ring count) ls = some s) : s.Sound :=
  (invariant_of_within (fun _ _ _ h hok hstep => h.step hok hstep) (inv_start ring count) hclean
    hrun).sound

theorem oneByte_size : [(0 : UInt8)].length = (0 : BitVec 8).toNat + 1 := rfl

theorem oneByte_power : ∃ k < 8, (0 : BitVec 8).toNat + 1 = 2 ^ k := ⟨0, by decide, rfl⟩

def oneByteQueue : Ringbuf 8 := ⟨[0], 0, 0, 0, oneByte_size, oneByte_power⟩

instance (s : SwapSystem w ι) (l : SwapLabel w ι) : Decidable (s.Clean l) := by
  unfold Clean
  split
  · split <;> infer_instance
  · split <;> infer_instance
  · infer_instance

local instance oneWriter : NeZero 1 := ⟨Nat.one_ne_zero⟩

/-- A byte waits behind a full FIFO when the queue is detached, and the flush sends it. -/
def detachWaits : List (SwapLabel 8 (Fin 1)) :=
  [.setTxBuffer (some oneByteQueue), .swapper, .swapper, .write 0 1, .writer 0, .writer 0,
    .write 0 2, .writer 0, .writer 0, .setTxBuffer none, .swapper, .swapper, .wire true true,
    .swapper, .swapper, .swapper, .swapper, .write 0 3, .writer 0, .wire true true, .writer 0,
    .writer 0]

theorem uart_set_tx_buffer_sound_detachWaits :
    ∃ s, runSteps step (start oneByteQueue 127) detachWaits = some s ∧ s.Sound ∧
      s.port.attached = false ∧ bytesOf 0 s.port.reached = [1, 2, 3] := by
  obtain ⟨s, hs⟩ : ∃ s, runSteps step (start oneByteQueue 127) detachWaits = some s := ⟨_, rfl⟩
  have hclean : Within step Clean (start oneByteQueue 127) detachWaits := by decide +kernel
  refine ⟨s, hs, uart_set_tx_buffer_sound oneByteQueue 127 detachWaits s hclean hs, ?_⟩
  cases hs
  decide +kernel

/-- The flush has found the queue empty; before the swap a writer finds the FIFO full and queues. -/
def queuedInTheGap : List (SwapLabel 8 (Fin 1)) :=
  [.setTxBuffer (some oneByteQueue), .swapper, .swapper, .setTxBuffer none, .swapper, .write 0 1,
    .writer 0, .writer 0, .swapper]

/-- The byte stays in a queue that is no longer attached. -/
theorem uart_set_tx_buffer_loses : ¬ ∀ (ring : Ringbuf 8) (count : ℕ)
    (ls : List (SwapLabel 8 (Fin 1))) (s : SwapSystem 8 (Fin 1)),
    runSteps step (start ring count) ls = some s → s.Sound := by
  intro hclaim
  obtain ⟨s, hs⟩ : ∃ s, runSteps step (start oneByteQueue 128) queuedInTheGap = some s := ⟨_, rfl⟩
  have hsound := hclaim oneByteQueue 128 queuedInTheGap s hs
  cases hs
  exact absurd (hsound.waiting (by decide +kernel)).1 (by decide +kernel)

end SwapSystem
end BekenCam.Uart
