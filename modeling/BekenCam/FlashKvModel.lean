import BekenCam.ByteBuffer
import BekenCam.CommandProgram
import BekenCam.Crc32

/-!
# The flash key-value store

One 4 KB sector of raw SPI flash: a header (magic, version), then 4-byte aligned
records (key, length, value, CRC-32). Every function below is a program over the
flash driver's commands, so the same text is run alone, cut short by a power loss,
or interleaved with a second caller. Offsets are relative to the sector's address.

`malloc` is taken to succeed: the `-ENOMEM` exits and the assertion in `walk` are
not part of the programs. `uint32_t` offsets never exceed 8192 here and are natural
numbers; a key is a `UInt16` and a checksum a `UInt32`.
-/
namespace BekenCam.FlashKv

open Crc32

/-! ## The driver's commands -/

inductive FlashCmd
  | flashRead (off n : ℕ)
  | flashWrite (off : ℕ) (src : List UInt8)
  | flashEraseSector
  | flashUnprotect
  deriving DecidableEq

@[reducible] def FlashCmd.Answer : FlashCmd → Type
  | flashRead _ _ => List UInt8
  | _ => Unit

abbrev FlashM (α : Type) := Prog FlashCmd FlashCmd.Answer α

def flashRead (off n : ℕ) : FlashM (List UInt8) := Prog.command (FlashCmd.flashRead off n)
def flashWrite (off : ℕ) (src : List UInt8) : FlashM Unit :=
  Prog.command (FlashCmd.flashWrite off src)
def flashEraseSector : FlashM Unit := Prog.command FlashCmd.flashEraseSector
def flashUnprotect : FlashM Unit := Prog.command FlashCmd.flashUnprotect

/-! ## Layout -/

@[simp] abbrev kvSectorSize : ℕ := 4096
@[simp] abbrev flashReadBlockSize : ℕ := 32
@[simp] abbrev flashKvMaxValueLen : ℕ := 256
@[simp] abbrev headerSize : ℕ := 8
@[simp] abbrev recordHeadSize : ℕ := 4
@[simp] abbrev recordCrcSize : ℕ := 4

/-- Reserved: marks the end of the log, never a valid key. -/
def flashKvKeyNone : UInt16 := 0xFFFF
def kvMagic : UInt32 := 0x564B4C46
def kvVersion : UInt32 := 1

/-- The error codes the store returns, as negated `errno` values in the source. -/
inductive Errno
  | enoent
  | eio
  | einval
  | enospc
  | ebadmsg
  | emsgsize
  deriving DecidableEq, Repr

inductive FlashKvState
  | blank
  | foreign
  | valid
  | torn
  deriving DecidableEq, Repr

def readU16le (p : List UInt8) : UInt16 :=
  (p.getD 0 0).toUInt16 ||| ((p.getD 1 0).toUInt16 <<< 8)

def readU32le (p : List UInt8) : UInt32 :=
  (p.getD 0 0).toUInt32 ||| ((p.getD 1 0).toUInt32 <<< 8) |||
    ((p.getD 2 0).toUInt32 <<< 16) ||| ((p.getD 3 0).toUInt32 <<< 24)

def writeU16le (v : UInt16) : List UInt8 := [(v &&& 0xFF).toUInt8, (v >>> 8).toUInt8]

def writeU32le (v : UInt32) : List UInt8 :=
  writeU16le (v &&& 0xFFFF).toUInt16 ++ writeU16le (v >>> 16).toUInt16

/-- `(n + 3) & ~3`. -/
def align4 (n : ℕ) : ℕ := (n + 3) / 4 * 4

def recordSize (len : ℕ) : ℕ := recordHeadSize + align4 len + recordCrcSize

def recordCrc (head value : List UInt8) : UInt32 :=
  crc32Final (crc32Update (crc32Update crc32Init head) value)

/-- The bytes `encode_record` leaves in `dst`; the padding behind the value is zero. -/
def encodeRecord (key : UInt16) (value : List UInt8) : List UInt8 :=
  let len := value.length
  let size := recordSize len
  let dst := List.replicate size 0
  let dst := writeAt dst 0 (writeU16le key)
  let dst := writeAt dst 2 (writeU16le (UInt16.ofNat len))
  let dst := writeAt dst recordHeadSize value
  writeAt dst (size - recordCrcSize)
    (writeU32le (recordCrc (slice dst 0 recordHeadSize) (slice dst recordHeadSize len)))

def encodeHeader : List UInt8 := writeU32le kvMagic ++ writeU32le kvVersion

/-! ## Reading the log -/

def headerState : FlashM FlashKvState := do
  let header ← flashRead 0 headerSize
  if readU32le header = kvMagic ∧ readU32le (header.drop 4) = kvVersion then
    return .valid
  else if header.any (· ≠ 0xFF) then
    return .foreign
  else
    return .blank

/-- A record as `walk` reports it. -/
structure Record where
  key : UInt16
  value : List UInt8
  off : ℕ
  deriving DecidableEq, Repr

/-- The loop of `walk` from offset `off`: the clean flag, the visitor's context and
the offset of the first byte after the last valid record. -/
def walkFrom {β : Type} (visit : β → Record → β) (ctx : β) (off : ℕ) : FlashM (Bool × β × ℕ) :=
  if off = kvSectorSize then
    return (true, ctx, off)
  else do
    let head ← flashRead off recordHeadSize
    let key := readU16le head
    let len := (readU16le (head.drop 2)).toNat
    if key = flashKvKeyNone then
      return (true, ctx, off)
    else if len > flashKvMaxValueLen ∨ off + recordSize len > kvSectorSize then
      return (false, ctx, off)
    else
      let value ← flashRead (off + recordHeadSize) len
      let crc ← flashRead (off + recordHeadSize + align4 len) recordCrcSize
      if readU32le crc ≠ recordCrc head value then
        return (false, ctx, off)
      else
        walkFrom visit (visit ctx ⟨key, value, off⟩) (off + recordSize len)
termination_by kvSectorSize - off
decreasing_by
  simp only [recordSize, recordHeadSize, recordCrcSize, kvSectorSize] at *
  omega

def walk {β : Type} (visit : β → Record → β) (ctx : β) : FlashM (Bool × β × ℕ) :=
  walkFrom visit ctx headerSize

def tailIsBlank (off : ℕ) : FlashM Bool :=
  if off < kvSectorSize then do
    let block ← flashRead off (min (kvSectorSize - off) flashReadBlockSize)
    if block.any (· ≠ 0xFF) then
      return false
    else
      tailIsBlank (off + flashReadBlockSize)
  else
    return true
termination_by kvSectorSize - off
decreasing_by
  simp only [kvSectorSize, flashReadBlockSize] at *
  omega

/-- The state, and the offset where the next record goes. The source leaves the
offset unset unless the header is valid. -/
def scan : FlashM (FlashKvState × ℕ) := do
  let header ← headerState
  if header ≠ .valid then
    return (header, 0)
  else
    let (clean, _, stop) ← walk (fun (_ : Unit) _ => ()) ()
    if !clean then
      return (.torn, stop)
    else
      let blankTail ← tailIsBlank stop
      if !blankTail then return (.torn, stop) else return (.valid, stop)

def flashKvState : FlashM FlashKvState := do
  let (state, _) ← scan
  return state

/-- The newest record of a key: its length, or `-ENOENT` if the key is not set or
was removed. -/
structure Lookup where
  key : UInt16
  len : Except Errno ℕ
  off : ℕ

def lookupVisit (l : Lookup) (r : Record) : Lookup :=
  if r.key ≠ l.key then l
  else { l with
    len := if r.value.length ≠ 0 then .ok r.value.length else .error .enoent
    off := r.off }

/-- The return value, and the bytes copied to the start of the caller's buffer.
`buf` tells whether a buffer was passed. -/
def flashKvGet (key : UInt16) (buf : Bool) (size exactSize : ℕ) :
    FlashM (Except Errno ℕ × List UInt8) := do
  if key = flashKvKeyNone then
    return (.error .einval, [])
  else
    let header ← headerState
    if header ≠ .valid then
      return (.error .enoent, [])
    else
      let (_, l, _) ← walk lookupVisit ⟨key, .error .enoent, 0⟩
      match l.len with
      | .error e => return (.error e, [])
      | .ok len =>
        if exactSize ≠ 0 ∧ len ≠ exactSize then
          return (.error .ebadmsg, [])
        else if buf then
          if size < len then
            return (.error .emsgsize, [])
          else
            let value ← flashRead (l.off + recordHeadSize) len
            return (.ok len, value)
        else
          return (.ok len, [])

/-! ## The compaction image -/

/-- A copy of the sector in RAM: `n` bytes of `data` are in use. -/
structure Image where
  data : List UInt8
  n : ℕ
  overflow : Bool

/-- The loop of `image_put` that closes the gap over every record of `key`. -/
def imageDrop (key : UInt16) (data : List UInt8) (n off : ℕ) : List UInt8 × ℕ :=
  if off < n then
    let size := recordSize (readU16le (data.drop (off + 2))).toNat
    if readU16le (data.drop off) = key then
      imageDrop key (writeAt data off (slice data (off + size) (n - off - size))) (n - size) off
    else
      imageDrop key data n (off + size)
  else
    (data, n)
termination_by n - off
decreasing_by all_goals
  simp only [recordSize, recordHeadSize, recordCrcSize]
  omega

/-- Drops any record of `key` from the image, then appends the new value unless it
is empty. The answer is `false` when the value does not fit. -/
def imagePut (img : Image) (key : UInt16) (value : List UInt8) : Bool × Image :=
  let (data, n) := imageDrop key img.data img.n headerSize
  if value.length = 0 then
    (true, { img with data := data, n := n })
  else if n + recordSize value.length > kvSectorSize then
    (false, { img with data := data, n := n })
  else
    let record := encodeRecord key value
    (true, { img with data := writeAt data n record, n := n + record.length })

def collectVisit (img : Image) (r : Record) : Image :=
  let (ok, img') := imagePut img r.key r.value
  if !ok then { img' with overflow := true } else img'

/-- The image `rebuild` starts from: only the header is in use. What `malloc` left
in the other bytes is never read; it is zero here. -/
def initialImage : Image :=
  ⟨writeAt (List.replicate kvSectorSize 0) 0 encodeHeader, headerSize, false⟩

/-! ## Writing -/

def readBack (off : ℕ) (src : List UInt8) (done : ℕ) : FlashM (Except Errno Unit) :=
  if done < src.length then do
    let n := min (src.length - done) flashReadBlockSize
    let block ← flashRead (off + done) n
    if block ≠ slice src done n then
      return .error .eio
    else
      readBack off src (done + flashReadBlockSize)
  else
    return .ok ()
termination_by src.length - done
decreasing_by
  simp only [flashReadBlockSize]
  omega

/-- Writes `src` and reads it back, since a write to a locked or protected region is
silently ignored. -/
def writeVerified (off : ℕ) (src : List UInt8) : FlashM (Except Errno Unit) := do
  flashWrite off src
  readBack off src 0

/-- The first half of `rebuild`: the surviving records of a store with a good header. -/
def collectImage (state : FlashKvState) : FlashM Image :=
  if state = .valid ∨ state = .torn then do
    let (_, img, _) ← walk collectVisit initialImage
    return img
  else
    return initialImage

/-- Erases the sector and writes back the surviving records plus the new value. -/
def rebuild (state : FlashKvState) (key : UInt16) (value : List UInt8) :
    FlashM (Except Errno Unit) := do
  let img ← collectImage state
  if img.overflow then
    return .error .enospc
  else
    let (ok, img) := imagePut img key value
    if !ok then
      return .error .enospc
    else
      flashEraseSector
      writeVerified 0 (img.data.take img.n)

def append (key : UInt16) (value : List UInt8) : FlashM (Except Errno Unit) := do
  let (state, stop) ← scan
  if state = .valid ∧ stop + recordSize value.length ≤ kvSectorSize then
    writeVerified stop (encodeRecord key value)
  else
    rebuild state key value

def flashKvEraseKey (key : UInt16) : FlashM (Except Errno Unit) := do
  let (len, _) ← flashKvGet key false 0 0
  match len with
  | .error .enoent => return .ok ()
  | .error e => return .error e
  | .ok _ => append key []

/-- The pointer and length passed to `flash_kv_set`: a null pointer with any length,
or that many readable bytes. -/
inductive Source
  | null (len : ℕ)
  | bytes (b : List UInt8)
  deriving DecidableEq, Repr

def Source.len : Source → ℕ
  | null len => len
  | bytes b => b.length

def Source.isNull : Source → Bool
  | null _ => true
  | bytes _ => false

def Source.content : Source → List UInt8
  | null _ => []
  | bytes b => b

def flashKvSet (key : UInt16) (data : Source) : FlashM (Except Errno Unit) := do
  if key = flashKvKeyNone ∨ data.len > flashKvMaxValueLen ∨ (data.len ≠ 0 ∧ data.isNull) then
    return .error .einval
  else if data.len = 0 then
    flashKvEraseKey key
  else
    let (ret, current) ← flashKvGet key true data.len 0
    if ret = .ok data.len ∧ current = data.content then
      return .ok ()
    else
      append key data.content

def eraseCheck (off : ℕ) : FlashM (Except Errno Unit) :=
  if off < kvSectorSize then do
    let block ← flashRead off flashReadBlockSize
    if block.any (· ≠ 0xFF) then
      return .error .eio
    else
      eraseCheck (off + flashReadBlockSize)
  else
    return .ok ()
termination_by kvSectorSize - off
decreasing_by
  simp only [kvSectorSize, flashReadBlockSize] at *
  omega

def flashKvErase : FlashM (Except Errno Unit) := do
  flashUnprotect
  flashEraseSector
  eraseCheck 0

/-! ## Typed access -/

/-- The destination keeps what it had on an error. -/
def flashKvGetU8 (key : UInt16) (dst : UInt8) : FlashM (Except Errno Unit × UInt8) := do
  let (ret, value) ← flashKvGet key true 1 1
  match ret with
  | .error e => return (.error e, dst)
  | .ok _ => return (.ok (), value.getD 0 0)

def flashKvGetBool (key : UInt16) (dst : Bool) : FlashM (Except Errno Unit × Bool) := do
  let (ret, value) ← flashKvGetU8 key 0
  match ret with
  | .error e => return (.error e, dst)
  | .ok _ => return (.ok (), value ≠ 0)

/-- `dst` is the whole character array, terminator and stale bytes included. -/
def flashKvGetString (key : UInt16) (dst : List UInt8) : FlashM (Except Errno ℕ × List UInt8) := do
  if dst.length = 0 then
    return (.error .einval, dst)
  else
    let (ret, value) ← flashKvGet key true (dst.length - 1) 0
    match ret with
    | .error e => return (.error e, dst)
    | .ok len =>
      let dst := writeAt dst 0 value
      if len > 0 then return (.ok len, writeAt dst len [0]) else return (.ok len, dst)

def flashKvSetU8 (key : UInt16) (value : UInt8) : FlashM (Except Errno Unit) :=
  flashKvSet key (.bytes [value])

def flashKvSetBool (key : UInt16) (value : Bool) : FlashM (Except Errno Unit) :=
  flashKvSetU8 key (if value then 1 else 0)

/-- The bytes of a C string: everything before the first NUL. -/
def cString (src : List UInt8) : List UInt8 := src.takeWhile (· ≠ 0)

/-- The bytes in front of the first NUL, without a NUL among them. -/
theorem zero_notMem_cString (src : List UInt8) : (0 : UInt8) ∉ cString src := by
  intro h
  have hall := List.all_eq_true.mp (List.all_takeWhile (p := (· ≠ (0 : UInt8))) (l := src)) 0 h
  simp at hall

theorem cString_eq {v : List UInt8} (h : (0 : UInt8) ∉ v) : cString v = v := by
  have hall : ∀ b ∈ v, decide (b ≠ 0) = true := fun b hb => by
    simpa using fun hzero : b = 0 => h (hzero ▸ hb)
  have hwhole : (v ++ []).takeWhile (· ≠ 0) = v ++ [].takeWhile (· ≠ 0) :=
    List.takeWhile_append_of_pos hall
  rwa [List.append_nil, List.takeWhile_nil, List.append_nil] at hwhole

theorem cString_append_zero {v : List UInt8} (h : (0 : UInt8) ∉ v) (rest : List UInt8) :
    cString (v ++ 0 :: rest) = v := by
  rw [cString, List.takeWhile_append_of_pos]
  · simp
  · intro b hb
    have hne : b ≠ 0 := fun hc => h (hc ▸ hb)
    simpa using hne

def flashKvSetString (key : UInt16) (src : List UInt8) : FlashM (Except Errno Unit) :=
  flashKvSet key (.bytes (cString src))

/-! ## A working NOR sector -/

/-- The content of the store's sector. -/
structure Sector where
  bytes : List UInt8
  size : bytes.length = kvSectorSize

@[ext] theorem Sector.ext {s t : Sector} (h : s.bytes = t.bytes) : s = t := by
  cases s; cases t; simp_all

def Sector.erased : Sector := ⟨blank kvSectorSize, by simp⟩

/-- Reads see the bytes, a program ANDs into them and an erase sets them all. -/
def nor : Handler FlashCmd FlashCmd.Answer Sector
  | .flashRead off n, s => (slice s.bytes off n, s)
  | .flashWrite off src, s => ((), ⟨program s.bytes off src, by simp [s.size]⟩)
  | .flashEraseSector, _ => ((), Sector.erased)
  | .flashUnprotect, s => ((), s)

/-- What a call returns and leaves behind on a working sector. -/
abbrev exec {α : Type} (m : FlashM α) (s : Sector) : α × Sector := m.run nor s

section Exec

variable {β : Type} (s : Sector)

@[simp] theorem exec_pure (b : β) : exec (pure b) s = (b, s) := rfl

/-- A call whose answer is known is replaced by its answer. -/
theorem exec_bind_of {α : Type} {m : FlashM α} {s s' : Sector} {a : α} (h : exec m s = (a, s'))
    (f : α → FlashM β) : exec (m >>= f) s = exec (f a) s' := by
  unfold exec at h ⊢
  rw [Prog.run_bind, h]

@[simp] theorem exec_flashRead_bind (off n : ℕ) (f : List UInt8 → FlashM β) :
    exec (flashRead off n >>= f) s = exec (f (slice s.bytes off n)) s := rfl

@[simp] theorem exec_flashWrite_bind (off : ℕ) (src : List UInt8) (f : Unit → FlashM β) :
    exec (flashWrite off src >>= f) s =
      exec (f ()) ⟨program s.bytes off src, by simp [s.size]⟩ := rfl

@[simp] theorem exec_flashEraseSector_bind (f : Unit → FlashM β) :
    exec (flashEraseSector >>= f) s = exec (f ()) Sector.erased := rfl

@[simp] theorem exec_flashUnprotect_bind (f : Unit → FlashM β) :
    exec (flashUnprotect >>= f) s = exec (f ()) s := rfl

end Exec

end BekenCam.FlashKv
