import BekenCam.ByteBuffer
import BekenCam.Tiling

/-!
# The TLV reader

`tlv.c`: a walk over entries of type, length and payload, all of whose address arithmetic is that of
`uint32_t`. The loop and the recursion into containers need not end, so they count down fuel; a walk
that has used it up has no result yet.
-/
namespace BekenCam.Tlv

def tlvEntryHeaderSize : ℕ := 8

def readU32le (p : List UInt8) : UInt32 :=
  (p.getD 0 0).toUInt32 ||| ((p.getD 1 0).toUInt32 <<< 8) ||| ((p.getD 2 0).toUInt32 <<< 16) |||
    ((p.getD 3 0).toUInt32 <<< 24)

/-- The results of a walk. -/
inductive TlvResult
  | ok
  | errTooLarge
  | errRead
  deriving DecidableEq

/-- Nothing when the read fails. -/
abbrev TlvReadFn := UInt32 → (n : ℕ) → Option (Octets n)

structure TlvEntry where
  type : UInt32
  /-- Payload length in bytes. -/
  len : UInt32
  payloadOffset : UInt32
  depth : UInt32
  deriving DecidableEq

/-- The bounds a call of `walk_range` gets. -/
structure Range where
  start : UInt32
  stop : UInt32
  deriving DecidableEq

/-- A call of `visit`: the entry, where its header is, and the range it was found in. -/
structure Visit where
  entry : TlvEntry
  addr : UInt32
  range : Range
  deriving DecidableEq

/-- What has been visited, and the result once there is one. -/
structure Walk where
  visited : List Visit
  result : Option TlvResult
  deriving DecidableEq

/-- What follows only happens behind `TLV_OK`. -/
def Walk.andThen (w next : Walk) : Walk :=
  if w.result = some .ok then ⟨w.visited ++ next.visited, next.result⟩ else w

section

variable (read : TlvReadFn) (isContainer : UInt32 → Bool)

/-- The loop of `walk_range` from `addr` on. -/
def walkFrom : ℕ → Range → UInt32 → UInt32 → Walk
  | 0, _, _, _ => ⟨[], none⟩
  | fuel + 1, range, addr, depth =>
    if addr < range.stop then
      match read addr tlvEntryHeaderSize with
      | none => ⟨[], some .errRead⟩
      | some header =>
        let entry : TlvEntry :=
          { type := readU32le header.val
            len := readU32le (header.val.drop 4)
            payloadOffset := addr + UInt32.ofNat tlvEntryHeaderSize
            depth := depth }
        let next := entry.payloadOffset + entry.len
        if next > range.stop then ⟨[], some .errTooLarge⟩
        else
          let nested :=
            if isContainer entry.type then
              walkFrom fuel ⟨entry.payloadOffset, next⟩ entry.payloadOffset (depth + 1)
            else ⟨[], some .ok⟩
          Walk.andThen ⟨[⟨entry, addr, range⟩], some .ok⟩
            (nested.andThen (walkFrom fuel range next depth))
    else ⟨[], some .ok⟩

def walkRange (fuel : ℕ) (range : Range) (depth : UInt32) : Walk :=
  walkFrom read isContainer fuel range range.start depth

def tlvWalk (fuel : ℕ) (start len : UInt32) : Walk :=
  walkRange read isContainer fuel ⟨start, start + len⟩ 0

end

/-- A read that always succeeds, of a memory that holds these bytes. -/
def reading (memory : ℕ → UInt8) : TlvReadFn := fun offset n =>
  some ⟨(List.range n).map fun i => memory (offset.toNat + i), by
    rw [List.length_map, List.length_range]⟩

end BekenCam.Tlv
