import BekenCam.CircularWindow
import BekenCam.StepRuns

/-!
# The camera stream

Frames land in slots. The end-of-frame interrupt closes the slot that the DMA filled and points the
DMA at a free one; a consumer takes the closed slots from a queue and gives them back. The
interrupt is one step, and it may come between any two steps of the consumer. A pointer into the
slots is its offset from the first one, and the optional callback is left out.
-/
namespace BekenCam.Camera

def streamMaxSlots : UInt32 := 8
def trailerBytes : UInt32 := 5
def maxDmaBytes : UInt32 := 65536

inductive Errno
  | eagain
  | einval
  | enxio
  | ebusy
  | eio
  | other (rc : ℤ)
  deriving DecidableEq

/-! ## Starting -/

/-- `camera_stream_config_t`, without the callback. -/
structure StreamRequest where
  slots : UInt32
  slotSize : UInt32
  slotCount : UInt32

/-- A configuration that `camera_stream_start` accepted. -/
structure StreamConfig where
  slotSize : ℕ
  slotCount : ℕ
  size_pos : 0 < slotSize
  count_ge : 2 ≤ slotCount
  count_le : slotCount ≤ 8

/-- What the start depends on: the sensor, a stream that runs, and the bound on the frames. -/
structure CameraState where
  hasSensor : Bool
  streaming : Bool
  frameMaxBytes : UInt32

def StreamRequest.misfit (r : StreamRequest) : Prop :=
  r.slots = 0 ∨ r.slots &&& 3 ≠ 0 ∨ r.slotSize = 0 ∨ r.slotSize &&& 3 ≠ 0 ∨
    maxDmaBytes < r.slotSize ∨ r.slotCount < 2 ∨ streamMaxSlots < r.slotCount

instance (r : StreamRequest) : Decidable r.misfit := by
  unfold StreamRequest.misfit
  infer_instance

theorem StreamRequest.accepted {r : StreamRequest} (h : ¬r.misfit) :
    0 < r.slotSize.toNat ∧ 2 ≤ r.slotCount.toNat ∧ r.slotCount.toNat ≤ 8 := by
  simp only [misfit, not_or, UInt32.lt_iff_toNat_lt, not_lt] at h
  obtain ⟨-, -, hsize, -, -, hge, hle⟩ := h
  refine ⟨Nat.pos_of_ne_zero fun hzero => hsize ?_, hge, hle⟩
  exact UInt32.toNat_inj.mp hzero

/-- `rc` is what `gdma_configure` returns. -/
def cameraStreamStart (camera : CameraState) (request : Option StreamRequest) (rc : ℤ) :
    Except Errno StreamConfig :=
  if !camera.hasSensor then .error .enxio
  else if camera.streaming then .error .ebusy
  else
    match request with
    | none => .error .einval
    | some r =>
      if h : r.misfit then .error .einval
      else if camera.frameMaxBytes ≠ 0 ∧ r.slotSize < camera.frameMaxBytes + trailerBytes then
        .error .einval
      else if rc ≠ 0 then .error (if rc < 0 then .other rc else .eio)
      else
        .ok ⟨r.slotSize.toNat, r.slotCount.toNat, (StreamRequest.accepted h).1,
          (StreamRequest.accepted h).2.1, (StreamRequest.accepted h).2.2⟩

/-! ## The stream -/

variable {c : StreamConfig}

abbrev Slot (c : StreamConfig) := Fin c.slotCount

instance : NeZero c.slotCount := ⟨by
  have hge := c.count_ge
  omega⟩

instance : Inhabited (Slot c) := ⟨0⟩

structure Frame where
  data : ℕ
  size : UInt32
  deriving DecidableEq

/-- `g_stream`, with the slot that the DMA was started on and the content of the slots. -/
structure Stream (c : StreamConfig) where
  armed : Bool
  current : Slot c
  busy : Slot c → Bool
  size : Slot c → UInt32
  queue : List (Slot c)
  head : UInt32
  tail : UInt32
  dropped : UInt32
  dma : Option (Slot c)
  memory : Slot c → List UInt8

def streamSlotPtr (slot : Slot c) : ℕ := slot * c.slotSize

namespace Stream

variable (s : Stream c)

/-- The state of a stream that has just started. -/
def started (memory : Slot c → List UInt8) : Stream c where
  armed := false
  current := 0
  busy := Function.update (fun _ => false) 0 true
  size := fun _ => 0
  queue := List.replicate c.slotCount 0
  head := 0
  tail := 0
  dropped := 0
  dma := none
  memory := memory

def arm (slot : Slot c) : Stream c := { s with dma := some slot }

/-- The slots that are tried in turn, the one behind the current slot first. -/
def candidates : List (Slot c) :=
  (List.range' 1 (c.slotCount - 1)).map fun i =>
    ⟨(s.current + i) % c.slotCount, Nat.mod_lt _ (NeZero.pos c.slotCount)⟩

def nextFree : Option (Slot c) := s.candidates.find? fun candidate => !s.busy candidate

/-- The slot holds a whole JPEG of `size` bytes and the trailer behind it. -/
def whole (bytes size : UInt32) : Bool :=
  let slot := s.memory s.current
  decide (4 ≤ size) && bytes == size + trailerBytes && decide (bytes.toNat ≤ c.slotSize) &&
    slot.getD 0 0 == 0xFF && slot.getD 1 0 == 0xD8 && slot.getD (size - 2).toNat 0 == 0xFF &&
    slot.getD (size - 1).toNat 0 == 0xD9

/-- The current slot goes into the queue, and `next` is the current one. -/
def close (next : Slot c) (size : UInt32) : Stream c :=
  { s with
    size := Function.update s.size s.current size
    queue := s.queue.set (s.head.toNat % c.slotCount) s.current
    head := s.head + 1
    busy := Function.update s.busy next true
    current := next }

/-- `bytes` were transferred into the current slot, and the encoder counted `size` of them. -/
def onEndFrame (bytes size : UInt32) : Stream c :=
  if !s.armed then { s.arm s.current with armed := true }
  else
    match s.whole bytes size, s.nextFree with
    | true, some next => (s.close next size).arm next
    | _, _ => { s with dropped := s.dropped + 1 }.arm s.current

/-- The slot at the tail of the queue. -/
def tailSlot : Slot c := s.queue.getD (s.tail.toNat % c.slotCount) default

/-- `busy[slot] = 0`, if the frame's slot is one. -/
def releaseFrame (frame : Frame) : Stream c :=
  if h : frame.data / c.slotSize < c.slotCount then
    { s with busy := Function.update s.busy ⟨frame.data / c.slotSize, h⟩ false }
  else s

end Stream

/-! ## Interrupt and consumer -/

/-- The next step of `camera_stream_get`. -/
inductive GetPc (c : StreamConfig)
  | idle
  | slot
  | frame (slot : Slot c)
  | advance (frame : Frame)

/-- A frame as it was when it ended. -/
structure Captured (c : StreamConfig) where
  slot : Slot c
  size : UInt32
  data : List UInt8

/-- The frame that ends in the current slot. -/
def Stream.ending (s : Stream c) (size : UInt32) : Captured c :=
  ⟨s.current, size, s.memory s.current⟩

/-- `taken` are the frames that `camera_stream_get` returned and `held` the places in `taken` of
those not given back. `captured` and `others` only record: the whole frames that ended while another
slot was free, and the number of the other frames since the first arming. -/
structure System (c : StreamConfig) where
  stream : Stream c
  get : GetPc c
  taken : List Frame
  held : List ℕ
  captured : List (Captured c)
  others : ℕ

/-- The DMA stores while it is armed. -/
inductive Label
  | dma (content : List UInt8)
  | endFrame (bytes size : UInt32)
  | get
  | getStep
  | release (k : ℕ)
  deriving DecidableEq

namespace System

variable (s : System c)

def start (memory : Slot c → List UInt8) : System c := ⟨.started memory, .idle, [], [], [], 0⟩

/-- Another slot than the current one is free. -/
def anotherFree : Prop := ∃ slot, slot ≠ s.stream.current ∧ s.stream.busy slot = false

instance : Decidable s.anotherFree := by
  unfold anotherFree
  infer_instance

/-- What there is to record of a frame that ends. -/
def record (bytes size : UInt32) : System c :=
  if !s.stream.armed then s
  else if s.stream.whole bytes size = true ∧ s.anotherFree then
    { s with captured := s.captured ++ [s.stream.ending size] }
  else { s with others := s.others + 1 }

/-- A `camera_stream_get` that finds the queue empty is one step and changes nothing. -/
def step (s : System c) : Label → Option (System c)
  | .dma content =>
    s.stream.dma.map fun slot =>
      { s with
        stream := { s.stream with memory := Function.update s.stream.memory slot content } }
  | .endFrame bytes size =>
    some { s.record bytes size with stream := s.stream.onEndFrame bytes size }
  | .get =>
    match s.get with
    | .idle => some (if s.stream.tail = s.stream.head then s else { s with get := .slot })
    | _ => none
  | .getStep =>
    match s.get with
    | .idle => none
    | .slot => some { s with get := .frame s.stream.tailSlot }
    | .frame slot => some { s with get := .advance ⟨streamSlotPtr slot, s.stream.size slot⟩ }
    | .advance frame =>
      some { s with
        stream := { s.stream with tail := s.stream.tail + 1 }
        get := .idle
        taken := s.taken ++ [frame]
        held := s.held ++ [s.taken.length] }
  | .release k =>
    match s.get, s.taken[k]? with
    | .idle, some frame =>
      if k ∈ s.held then
        some { s with stream := s.stream.releaseFrame frame, held := s.held.erase k }
      else none
    | _, _ => none

end System
end BekenCam.Camera
