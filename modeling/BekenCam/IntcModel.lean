import BekenCam.StepRuns

/-!
# The interrupt controller

Drivers register functions for interrupt sources. The table of handlers has one row a function, with
the mask of its sources, and keeps the OR of all masks beside the rows. An interrupt pass calls the
functions of the pending sources and disables the pending sources that no row covers.
-/
namespace BekenCam.Intc

variable {η σ : Type*} [DecidableEq η]

structure InterruptHandler (η : Type*) where
  handler : η
  source : BitVec 32
deriving DecidableEq

/-- The rows in use; the array of the driver holds `maxHandlers` of them. -/
structure HandlersCollection (η : Type*) where
  handledMask : BitVec 32
  handlers : List (InterruptHandler η)
deriving DecidableEq

def maxHandlers : ℕ := 32

def orSources (handlers : List (InterruptHandler η)) : BitVec 32 :=
  handlers.foldl (fun mask h => mask ||| h.source) 0

def recomputeHandledMask (c : HandlersCollection η) : HandlersCollection η :=
  { c with handledMask := orSources c.handlers }

def addSource (source : BitVec 32) (h : InterruptHandler η) : InterruptHandler η :=
  { h with source := h.source ||| source }

def dropSource (source : BitVec 32) (h : InterruptHandler η) : InterruptHandler η :=
  { h with source := h.source &&& ~~~source }

/-- No result where an assertion fails: an empty mask, or no row left for a new function. -/
def registerHandler (c : HandlersCollection η) (source : BitVec 32) (func : η) :
    Option (HandlersCollection η) :=
  if source = 0 then none
  else
    match c.handlers.findIdx? (fun h => h.handler = func) with
    | some found =>
      some { handledMask := c.handledMask ||| source
             handlers := c.handlers.modify found (addSource source) }
    | none =>
      if c.handlers.length < maxHandlers then
        some { handledMask := c.handledMask ||| source
               handlers := c.handlers ++ [addSource source ⟨func, 0⟩] }
      else none

/-- The last row of the function, and whether it goes: the loop does not stop at a match. -/
def findDelete (handlers : List (InterruptHandler η)) (source : BitVec 32) (func : η) :
    Option (ℕ × Bool) :=
  handlers.zipIdx.foldl
    (fun found h =>
      if h.1.handler = func then some (h.2, h.1.source &&& ~~~source == 0) else found)
    none

def unregisterHandler (c : HandlersCollection η) (source : BitVec 32) (func : η) :
    HandlersCollection η × Bool :=
  match findDelete c.handlers source func with
  | none => (c, false)
  | some (found, true) =>
    (recomputeHandledMask { c with handlers := c.handlers.eraseIdx found }, true)
  | some (found, false) =>
    (recomputeHandledMask { c with handlers := c.handlers.modify found (dropSource source) }, true)

/-- The functions of the pending sources, the first `length` of them, and how many there are. -/
def findHandlers (c : HandlersCollection η) (source : BitVec 32) (length : ℕ) : List η × ℕ :=
  let found := (c.handlers.filter fun h => h.source &&& source ≠ 0).map (·.handler)
  (found.take length, found.length)

/-- The table, the enable register of the controller and all else. -/
structure Core (η σ : Type*) where
  manager : HandlersCollection η
  irqEnable : BitVec 32
  rest : σ
deriving DecidableEq

/-- What the passes start outside this driver: the functions registered, and the write that
acknowledges the pending sources. -/
structure Surroundings (η σ : Type*) where
  run : η → Core η σ → Core η σ
  acknowledge : BitVec 32 → σ → σ

def enableIrqSource (source : BitVec 32) (s : Core η σ) : Core η σ :=
  { s with irqEnable := s.irqEnable ||| source }

def disableIrqSource (source : BitVec 32) (s : Core η σ) : Core η σ :=
  { s with irqEnable := s.irqEnable &&& ~~~source }

def irqMask : BitVec 32 := 0x0000FFFF

def fiqMask : BitVec 32 := 0xFFFF0000

namespace Surroundings

variable (m : Surroundings η σ)

/-- No result where the assertion on the number of functions fails. -/
def processHandlers (source : BitVec 32) (s : Core η σ) : Option (Core η σ) :=
  let (handlers, count) := findHandlers s.manager source 4
  if count ≤ 4 then some (handlers.foldl (fun s f => m.run f s) s) else none

/-- One pass over the sources of `mask`, where the status register reads `pending`. -/
def servePass (mask pending : BitVec 32) (s : Core η σ) : Option (Core η σ) :=
  let status := pending &&& mask
  let s := { s with rest := m.acknowledge status s.rest }
  if status = 0 then some s
  else
    let orphans := status &&& ~~~s.manager.handledMask
    (m.processHandlers status s).map fun s =>
      if orphans ≠ 0 then disableIrqSource orphans s else s

def intcIrq (pending : BitVec 32) (s : Core η σ) : Option (Core η σ) :=
  m.servePass irqMask pending s

def intcFiq (pending : BitVec 32) (s : Core η σ) : Option (Core η σ) :=
  m.servePass fiqMask pending s

end Surroundings

/-- After `intc_init`: no rows. -/
def Core.start (irqEnable : BitVec 32) (rest : σ) : Core η σ where
  manager := { handledMask := 0, handlers := [] }
  irqEnable := irqEnable
  rest := rest

/-- The calls of the drivers and the passes of the hardware. -/
inductive Event (η : Type*)
  | register (source : BitVec 32) (func : η)
  | unregister (source : BitVec 32) (func : η)
  | enable (source : BitVec 32)
  | disable (source : BitVec 32)
  | irq (pending : BitVec 32)
  | fiq (pending : BitVec 32)
deriving DecidableEq

def Surroundings.step (m : Surroundings η σ) (s : Core η σ) : Event η → Option (Core η σ)
  | .register source func =>
    (registerHandler s.manager source func).map fun c => { s with manager := c }
  | .unregister source func =>
    some { s with manager := (unregisterHandler s.manager source func).1 }
  | .enable source => some (enableIrqSource source s)
  | .disable source => some (disableIrqSource source s)
  | .irq pending => m.intcIrq pending s
  | .fiq pending => m.intcFiq pending s

end BekenCam.Intc
