import BekenCam.Crc32
import BekenCam.CrcSerial
import BekenCam.XmodemTurns

/-!
# The checksum tables

Both tables of the utils library hold the eight shifts of each byte, so the byte steps they drive
are the bit serial registers of their polynomials.
-/
namespace BekenCam.Crc32

/-- CRC-32, one bit at a time. -/
def crc32Serial (buf : List UInt8) : BitVec 32 :=
  Crc.serialLow 0xEDB88320#32 0xFFFFFFFF#32 ((buf.map UInt8.toBitVec).flatMap Crc.bitsLow) ^^^
    0xFFFFFFFF#32

/-- CRC-16 with the polynomial `0x1021`, one bit at a time. -/
def crc16Serial (buf : List UInt8) : BitVec 16 :=
  Crc.serial 0x1021#16 0#16 ((buf.map UInt8.toBitVec).flatMap Crc.bitsHigh)

theorem crc32Table_eq (i : BitVec 8) :
    (crc32Table.getD i.toNat 0).toBitVec = Crc.shiftsLow 0xEDB88320#32 8 (i.setWidth 32) := by
  have hall : ∀ i : BitVec 8, (crc32Table.getD i.toNat 0).toBitVec =
      Crc.shiftsLow 0xEDB88320#32 8 (i.setWidth 32) := by decide +kernel
  exact hall i

theorem crc32Step_eq (crc : UInt32) (b : UInt8) : (crc32Step crc b).toBitVec =
    Crc.serialLow 0xEDB88320#32 crc.toBitVec (Crc.bitsLow b.toBitVec) := by
  have hindex : ((crc ^^^ b.toUInt32) &&& 0xFF).toNat =
      (crc.toBitVec.setWidth 8 ^^^ b.toBitVec).toNat := by
    have hmask : ∀ n : ℕ, n &&& 255 = n % 256 := fun n => Nat.and_two_pow_sub_one_eq_mod n 8
    have hxor : ∀ m n : ℕ, (m ^^^ n) % 256 = (m % 256) ^^^ (n % 256) := fun m n =>
      Nat.xor_mod_two_pow (n := 8)
    simp [hmask, hxor]
  rw [← Crc.table_eq_serialLow crc32Table_eq (by decide), ← hindex, crc32Step]
  rfl

theorem crc32Update_eq (crc : UInt32) (buf : List UInt8) : (crc32Update crc buf).toBitVec =
    Crc.serialLow 0xEDB88320#32 crc.toBitVec
      ((buf.map UInt8.toBitVec).flatMap Crc.bitsLow) := by
  induction buf generalizing crc with
  | nil => rfl
  | cons b buf ih =>
    rw [List.map_cons, List.flatMap_cons, Crc.serialLow, List.foldl_append, crc32Update,
      List.foldl_cons]
    have hstep : (crc32Step crc b).toBitVec =
        (Crc.bitsLow b.toBitVec).foldl (Crc.bitStepLow 0xEDB88320#32) crc.toBitVec :=
      crc32Step_eq crc b
    rw [← hstep]
    exact ih _

theorem crc32Update_pieces (crc : UInt32) (pieces : List (List UInt8)) :
    pieces.foldl crc32Update crc = crc32Update crc pieces.flatten := by
  induction pieces generalizing crc with
  | nil => rfl
  | cons piece pieces ih =>
    rw [List.foldl_cons, ih, List.flatten_cons, crc32Update, crc32Update, crc32Update,
      List.foldl_append]

/-- Both checksums are those of their polynomials, and CRC-32 may be taken in pieces. -/
theorem checksums_serial :
    (∀ buf, (crc32 buf).toBitVec = crc32Serial buf) ∧
    (∀ pieces : List (List UInt8),
      crc32Final (pieces.foldl crc32Update crc32Init) = crc32 pieces.flatten) ∧
    ∀ buf, (Xmodem.crc16 buf).toBitVec = crc16Serial buf := by
  refine ⟨fun buf => ?_, fun pieces => ?_, fun buf => ?_⟩
  · have hupdate := crc32Update_eq crc32Init buf
    show (crc32Update crc32Init buf).toBitVec ^^^ 0xFFFFFFFF#32 = _
    rw [hupdate]
    rfl
  · rw [crc32Update_pieces]
    rfl
  · rw [Xmodem.crc16_eq]
    exact Crc.checksum_eq_serial (by decide) _ _ _

end BekenCam.Crc32
