import BekenCam.BlockHash
import BekenCam.StepRuns
import BekenCam.Wpa2Digests

/-!
# The hash engine and its driver

`sha.c`. A context buffers one block and counts the bytes; the chaining value stays in the registers
of the engine, of which there is one. What the engine computes is not in the repository.
-/
namespace BekenCam.Security

open Standard (octets)

def loadBe32 (p : List UInt8) : UInt32 := Wpa2.be32 p

def storeBe32 (w : UInt32) : List UInt8 := Wpa2.be32Bytes w

/-! ## Modes -/

/-- `SHA_MODE` -/
inductive ShaMode
  | sha1 | sha224 | sha256 | sha512_224 | sha512_256 | sha384 | sha512
  deriving DecidableEq, Repr

namespace ShaMode

def value : ShaMode → ℕ
  | sha1 => 0
  | sha224 => 2
  | sha256 => 3
  | sha512_224 => 4
  | sha512_256 => 5
  | sha384 => 6
  | sha512 => 7

/-- `sha_state_bits` -/
def stateBits : ShaMode → ℕ
  | sha1 => 160
  | sha224 | sha256 => 256
  | sha384 | sha512_224 | sha512_256 | sha512 => 512

/-- `sha_digest_bits` -/
def digestBits : ShaMode → ℕ
  | sha1 => 160
  | sha224 | sha512_224 => 224
  | sha256 | sha512_256 => 256
  | sha384 => 384
  | sha512 => 512

end ShaMode

def shaBlockSizeSmall : ℕ := 64
def shaBlockSizeLarge : ℕ := 128

def ShaMode.blockSize (mode : ShaMode) : ℕ :=
  if mode.value ≤ ShaMode.sha256.value then shaBlockSizeSmall else shaBlockSizeLarge

/-- The length field of the padding. -/
def lengthSizeOf (blockSize : ℕ) : ℕ := if blockSize = shaBlockSizeLarge then 16 else 8

/-! ## Registers -/

/-- `hw_security_sha_t`, without the start bits: a start is over when a function returns. -/
structure ShaRegs where
  block : List UInt32
  digest : List UInt32
  enable : Bool
  mode : ShaMode
  block_size : block.length = 32
  digest_size : digest.length = 16

/-- What the registers hold once a start by INIT or by NEXT is over. -/
structure ShaEngine where
  init : ShaRegs → ShaRegs
  next : ShaRegs → ShaRegs

namespace ShaRegs

/-- The block the engine takes in; its words are big-endian. -/
def message (r : ShaRegs) : List UInt8 :=
  (r.block.drop (32 - r.mode.blockSize / 4)).flatMap storeBe32

/-- The chaining value. -/
def chaining (r : ShaRegs) : List UInt32 := r.digest.drop (16 - r.mode.stateBits / 32)

def configure (r : ShaRegs) (mode : ShaMode) : ShaRegs := { r with enable := true, mode }

def setBlock (r : ShaRegs) (base : ℕ) (words : List UInt32) (h : base + words.length ≤ 32) :
    ShaRegs :=
  { r with
    block := writeAt r.block base words
    block_size := by rw [length_writeAt_of_le (by rwa [r.block_size]), r.block_size] }

@[simp] theorem configure_mode (r : ShaRegs) (mode : ShaMode) : (r.configure mode).mode = mode := rfl

@[simp] theorem setBlock_mode (r : ShaRegs) {base : ℕ} {words : List UInt32}
    (h : base + words.length ≤ 32) : (r.setBlock base words h).mode = r.mode := rfl

@[simp] theorem setBlock_chaining (r : ShaRegs) {base : ℕ} {words : List UInt32}
    (h : base + words.length ≤ 32) : (r.setBlock base words h).chaining = r.chaining := rfl

end ShaRegs

/-! ## Contexts -/

/-- `sha_context_t`, between two calls. -/
structure ShaContext where
  mode : ShaMode
  firstBlock : Bool
  blockSize : ℕ
  total : UInt64
  bufferLen : ℕ
  buffer : List UInt8
  blockSize_eq : blockSize = mode.blockSize
  fits : bufferLen < blockSize
  buffer_size : buffer.length = shaBlockSizeLarge

theorem blockSize_cases (mode : ShaMode) :
    mode.blockSize = shaBlockSizeSmall ∨ mode.blockSize = shaBlockSizeLarge := by
  rw [ShaMode.blockSize]
  split_ifs
  · exact Or.inl rfl
  · exact Or.inr rfl

theorem blockSize_le (mode : ShaMode) : mode.blockSize ≤ shaBlockSizeLarge := by
  rcases blockSize_cases mode with h | h
  · rw [h]
    decide
  · rw [h]

theorem blockSize_pos (mode : ShaMode) : 0 < mode.blockSize := by
  rcases blockSize_cases mode with h | h <;> rw [h] <;> decide

theorem blockSize_words (mode : ShaMode) : mode.blockSize / 4 * 4 = mode.blockSize := by
  rcases blockSize_cases mode with h | h <;> rw [h] <;> decide

def blockWords (count : ℕ) (block : List UInt8) : List UInt32 :=
  (List.range count).map fun i => loadBe32 (block.drop (i * 4))

@[simp] theorem length_blockWords (count : ℕ) (block : List UInt8) :
    (blockWords count block).length = count := by
  rw [blockWords, List.length_map, List.length_range]

/-- `process_block` of a context in this mode; the caller notes that its first block is done. -/
def processBlock (engine : ShaEngine) (mode : ShaMode) (firstBlock : Bool) (buffer : List UInt8)
    (regs : ShaRegs) : ShaRegs :=
  let count := mode.blockSize / 4
  let loaded := regs.setBlock (32 - count) (blockWords count buffer) (by
    have := blockSize_le mode
    simp only [shaBlockSizeLarge] at this
    rw [length_blockWords]
    omega)
  if firstBlock then engine.init loaded else engine.next loaded

/-- The context `sha_create_context` fills in; the caller enables the engine in this mode. -/
def shaCreateContext (mode : ShaMode) : ShaContext where
  mode := mode
  firstBlock := true
  blockSize := mode.blockSize
  total := 0
  bufferLen := 0
  buffer := List.replicate shaBlockSizeLarge 0
  blockSize_eq := rfl
  fits := blockSize_pos mode
  buffer_size := List.length_replicate

namespace ShaContext

variable (engine : ShaEngine) (c : ShaContext)

theorem blockSize_le_buffer : c.blockSize ≤ c.buffer.length := by
  rw [c.blockSize_eq, c.buffer_size]
  exact blockSize_le c.mode

/-- One turn of the loop of `sha_update`. -/
def fill (regs : ShaRegs) (piece : List UInt8) (h : c.bufferLen + piece.length ≤ c.blockSize) :
    ShaContext × ShaRegs :=
  let buffer := writeAt c.buffer c.bufferLen piece
  have hsize : buffer.length = shaBlockSizeLarge := by
    rw [length_writeAt_of_le (h.trans c.blockSize_le_buffer), c.buffer_size]
  if hfull : c.bufferLen + piece.length = c.blockSize then
    ({ c with
        firstBlock := false
        bufferLen := 0
        buffer := buffer
        fits := Nat.zero_lt_of_lt c.fits
        buffer_size := hsize },
      processBlock engine c.mode c.firstBlock buffer regs)
  else
    ({ c with
        bufferLen := c.bufferLen + piece.length
        buffer := buffer
        fits := by omega
        buffer_size := hsize },
      regs)

theorem take_fits (input : List UInt8) :
    c.bufferLen + (input.take (min input.length (c.blockSize - c.bufferLen))).length ≤
      c.blockSize := by
  have hfits := c.fits
  rw [List.length_take]
  omega

/-- The loop of `sha_update`. -/
def absorb (c : ShaContext) (regs : ShaRegs) (input : List UInt8) : ShaContext × ShaRegs :=
  if input = [] then (c, regs)
  else
    let chunk := min input.length (c.blockSize - c.bufferLen)
    let next := c.fill engine regs (input.take chunk) (c.take_fits input)
    absorb next.1 next.2 (input.drop chunk)
termination_by input.length
decreasing_by
  have hpos := List.length_pos_iff.mpr ‹¬input = []›
  have hfits := c.fits
  rw [List.length_drop]
  omega

end ShaContext

def shaUpdate (engine : ShaEngine) (c : ShaContext) (regs : ShaRegs) (input : List UInt8) :
    ShaContext × ShaRegs :=
  { c with total := c.total + UInt64.ofNat input.length }.absorb engine regs input

/-- The eight bytes of the length that `sha_finish` writes. -/
def lengthBytes (totalBits : UInt64) : List UInt8 :=
  (List.range 8).map fun i => (totalBits >>> UInt64.ofNat ((7 - i) * 8)).toUInt8

/-- The block buffer with zeros from `from'` to the end of the block. -/
def zeroRest (buffer : List UInt8) (from' blockSize : ℕ) : List UInt8 :=
  writeAt buffer from' (List.replicate (blockSize - from') 0)

theorem length_zeroRest {buffer : List UInt8} {from' blockSize : ℕ}
    (h : from' + (blockSize - from') ≤ buffer.length) :
    (zeroRest buffer from' blockSize).length = buffer.length := by
  rw [zeroRest, length_writeAt_of_le (by rwa [List.length_replicate])]

@[simp] theorem length_lengthBytes (totalBits : UInt64) : (lengthBytes totalBits).length = 8 := by
  simp [lengthBytes]

namespace ShaContext

variable (engine : ShaEngine) (c : ShaContext)

theorem eight_le_blockSize : 8 ≤ c.blockSize := by
  rcases blockSize_cases c.mode with h | h <;> rw [c.blockSize_eq, h] <;> decide

/-- The last block: zeros behind `len`, and the length in bits at its end. -/
def lastBlock (firstBlock : Bool) (len : ℕ) (buffer : List UInt8) (regs : ShaRegs)
    (hlen : len < c.blockSize) (hbuffer : buffer.length = shaBlockSizeLarge) :
    ShaContext × ShaRegs :=
  let padded :=
    writeAt (zeroRest buffer len c.blockSize) (c.blockSize - 8) (lengthBytes (c.total * 8))
  have hsize : padded.length = shaBlockSizeLarge := by
    have hle := c.blockSize_le_buffer
    have height := c.eight_le_blockSize
    rw [c.buffer_size] at hle
    have hzero : (zeroRest buffer len c.blockSize).length = shaBlockSizeLarge := by
      rw [length_zeroRest (by omega), hbuffer]
    rw [length_writeAt_of_le (by rw [length_lengthBytes]; omega), hzero]
  ({ c with
      firstBlock := false
      bufferLen := len
      buffer := padded
      fits := hlen
      buffer_size := hsize },
    processBlock engine c.mode firstBlock padded regs)

/-- The bit 1 behind the message. -/
def marked : List UInt8 := writeAt c.buffer c.bufferLen [0x80]

theorem length_marked : c.marked.length = shaBlockSizeLarge := by
  have hle := c.blockSize_le_buffer
  have hfits := c.fits
  rw [marked, length_writeAt_of_le (by rw [List.length_singleton]; omega), c.buffer_size]

/-- `sha_finish` up to where it reads the digest. -/
def padAndProcess (regs : ShaRegs) : ShaContext × ShaRegs :=
  let len := c.bufferLen + 1
  if hflush : len + lengthSizeOf c.blockSize > c.blockSize then
    let flushed := zeroRest c.marked len c.blockSize
    c.lastBlock engine false 0 flushed (processBlock engine c.mode c.firstBlock flushed regs)
      (Nat.zero_lt_of_lt c.fits) (by
        have hle := c.blockSize_le_buffer
        have hfits := c.fits
        have hmarked := c.length_marked
        rw [c.buffer_size] at hle
        rw [length_zeroRest (by omega), hmarked])
  else
    c.lastBlock engine c.firstBlock len c.marked regs (by
      have hpos : 0 < lengthSizeOf c.blockSize := by
        rw [lengthSizeOf]
        split_ifs <;> decide
      omega) c.length_marked

end ShaContext

/-- What is read out of the digest registers at the end of `sha_finish`. -/
def readDigest (mode : ShaMode) (regs : ShaRegs) : List UInt8 :=
  (List.range (mode.digestBits / 32)).flatMap fun i =>
    storeBe32 (regs.digest.getD (16 - mode.stateBits / 32 + i) 0)

/-- What `sha_finish` leaves in `sum`. -/
def shaFinish (engine : ShaEngine) (c : ShaContext) (regs : ShaRegs) : List UInt8 :=
  readDigest c.mode (c.padAndProcess engine regs).2

/-- `sha_oneshot`, where there was memory for the context. -/
def shaOneshot (engine : ShaEngine) (mode : ShaMode) (regs : ShaRegs) (input : List UInt8) :
    List UInt8 :=
  let fed := shaUpdate engine (shaCreateContext mode) (regs.configure mode) input
  shaFinish engine fed.1 fed.2

/-! ## Several contexts -/

/-- The engine and the contexts that were created and not destroyed. -/
structure ShaSystem where
  regs : ShaRegs
  contexts : ℕ → Option ShaContext

/-- A call of the driver; the handle of a context is where it lies. -/
inductive ShaCall
  | create (h : ℕ) (mode : ShaMode)
  | update (h : ℕ) (input : List UInt8)
  | finish (h : ℕ)
  | destroy (h : ℕ)

namespace ShaSystem

def put (s : ShaSystem) (h : ℕ) (next : ShaContext × ShaRegs) : ShaSystem :=
  ⟨next.2, Function.update s.contexts h (some next.1)⟩

def create (s : ShaSystem) (h : ℕ) (mode : ShaMode) : ShaSystem :=
  s.put h (shaCreateContext mode, s.regs.configure mode)

@[simp] theorem put_regs (s : ShaSystem) (h : ℕ) (next : ShaContext × ShaRegs) :
    (s.put h next).regs = next.2 := rfl

@[simp] theorem put_contexts (s : ShaSystem) (h : ℕ) (next : ShaContext × ShaRegs) :
    (s.put h next).contexts h = some next.1 := Function.update_self ..

theorem put_contexts_ne (s : ShaSystem) {h h' : ℕ} (hne : h ≠ h') (next : ShaContext × ShaRegs) :
    (s.put h' next).contexts h = s.contexts h := Function.update_of_ne hne ..

/-- A call returns: a new context lies where none is, the others are called with one that is. -/
def step (engine : ShaEngine) (s : ShaSystem) : ShaCall → Option ShaSystem
  | .create h mode => if (s.contexts h).isNone then some (s.create h mode) else none
  | .update h input => (s.contexts h).map fun c => s.put h (shaUpdate engine c s.regs input)
  | .finish h => (s.contexts h).map fun c => s.put h (c.padAndProcess engine s.regs)
  | .destroy h =>
    (s.contexts h).map fun _ => { s with contexts := Function.update s.contexts h none }

end ShaSystem

end BekenCam.Security
