import BekenCam.Crc32
import BekenCam.FlashDriver

/-!
# Flashing over the serial line

The host side of `bkloader flash` and the device's `flash_write` command. The line carries the
numbers; of the host's other ways to give up, an answer that does not come is one that differs.
`loadi` puts the chunk into the buffer and answers some checksum. Addresses and sizes are naturals.
-/
namespace BekenCam.Bkloader

open Nor Flash Crc32

/-! ## The device -/

structure Device where
  chip : Chip
  ram : ℕ → UInt8

def validRam (addr : ℕ) : Bool :=
  (0x00400000 ≤ addr ∧ addr < 0x00400000 + 0x00040000) ∨
    (0x00900000 ≤ addr ∧ addr < 0x00900000 + 0x00040000)

def validChecksum (addr1 addr2 size checksum : ℕ) : Bool :=
  (addr1 + addr2 + size) % 2 ^ 32 = checksum

def crcChunk : ℕ := 256

/-- The loop of `flash_crc32`. -/
def crcLoop (c : Chip) (flashAddr size : ℕ) (crc : UInt32) : UInt32 :=
  if size = 0 then crc
  else
    let n := min size crcChunk
    crcLoop c (flashAddr + n) (size - n) (crc32Update crc (flashRead c flashAddr n))
termination_by size
decreasing_by
  simp only [crcChunk]
  omega

def flashCrc32 (c : Chip) (flashAddr size : ℕ) : UInt32 :=
  crc32Final (crcLoop c flashAddr size crc32Init)

/-- From the sector at `s` up to the last one. -/
def eraseSectors (c : Chip) (s lastSector : ℕ) : Chip :=
  if s ≤ lastSector then eraseSectors (flashEraseSector c s) (s + flashSectorSize) lastSector else c
termination_by lastSector + 1 - s
decreasing_by
  simp only [flashSectorSize]
  omega

def Device.ramBytes (d : Device) (addr size : ℕ) : List UInt8 :=
  (List.range size).map fun i => d.ram (addr + i)

/-- `command_flash_write`: the checksum of what the flash holds now, unless it complains. -/
def commandFlashWrite (d : Device) (fromAddr toAddr size checksum : ℕ) : Option (UInt32 × Device) :=
  if !validChecksum fromAddr toAddr size checksum then none
  else if !validRam fromAddr then none
  else if size = 0 then none
  else
    let firstSector := toAddr / flashSectorSize * flashSectorSize
    let lastSector := (toAddr + size - 1) / flashSectorSize * flashSectorSize
    let chip := eraseSectors d.chip firstSector lastSector
    let chip := flashWrite chip toAddr (d.ramBytes fromAddr size)
    some (flashCrc32 chip toAddr size, { d with chip := chip })

/-- The bytes of a chunk, in the buffer. -/
def Device.loadi (d : Device) (bufAddr : ℕ) (chunk : List UInt8) : Device :=
  { d with
    ram := fun a =>
      if bufAddr ≤ a ∧ a < bufAddr + chunk.length then chunk.getD (a - bufAddr) 0 else d.ram a }

/-! ## The host -/

def sectorSize : ℕ := 4096

inductive Segment
  | bootloader
  | app
  | download
  | full2m
  | full4m
  deriving DecidableEq

def Segment.addr : Segment → ℕ
  | bootloader => 0x00000000
  | app => 0x00011000
  | download => 0x00132000
  | full2m => 0x00000000
  | full4m => 0x00000000

def Segment.size : Segment → ℕ
  | bootloader => 64 * 1024
  | app => 1156 * 1024
  | download => 696 * 1024
  | full2m => 2 * 1024 * 1024
  | full4m => 4 * 1024 * 1024

/-- `step_flash_write`. -/
def stepFlashWrite (d : Device) (bufAddr flashAddr size : ℕ) : Option (UInt32 × Device) :=
  commandFlashWrite d bufAddr flashAddr size ((bufAddr + flashAddr + size) % 2 ^ 32)

/-- A pass of the loop; `fwCrc` is what `loadi` answers. -/
def flashChunk (data : List UInt8) (flashBase chunkSize bufAddr : ℕ) (fwCrc : UInt32) (i : ℕ)
    (d : Device) : Option Device :=
  let offset := i * chunkSize
  let chunk := slice data offset chunkSize
  let chunkAddr := flashBase + offset
  let d := d.loadi bufAddr chunk
  let localCrc := crc32 chunk
  if fwCrc ≠ localCrc then none
  else
    match stepFlashWrite d bufAddr chunkAddr chunk.length with
    | none => none
    | some (flashCrc, d) => if flashCrc ≠ localCrc then none else some d

/-- There is no result when the host gives up, or divides by an empty chunk size. -/
def modeFlash (seg : Segment) (data : List UInt8) (chunkArg bufAddr : ℕ) (fwCrc : ℕ → UInt32)
    (d : Device) : Option Device :=
  let fileSize := data.length
  if chunkArg % sectorSize ≠ 0 then none
  else if fileSize > seg.size then none
  else
    let chunkSize := min chunkArg fileSize
    if chunkSize = 0 then none
    else
      let nChunks := (fileSize + chunkSize - 1) / chunkSize
      (List.range nChunks).foldlM
        (fun d i => flashChunk data seg.addr chunkSize bufAddr (fwCrc i) i d) d

end BekenCam.Bkloader
