import BekenCam.BkloaderBackup
import BekenCam.BkloaderImage

/-!
# The command that the host types

The image is followed in natural numbers, and the shell counts in words. Within the address bits of
the controller no sum wraps around: the device's shell answers the host's line with what the host's
side of the model expects.
-/
namespace BekenCam.Bkloader

open Nor Flash Crc32 Console
open FlashShell (number sourceAddrs)
open Http (ascii)

/-- `step_flash_write`'s line. -/
def writeText (bufAddr flashAddr size : ℕ) : List UInt8 :=
  ascii "flash_write 0x" ++ hex08 bufAddr ++ ascii " 0x" ++ hex08 flashAddr ++ ascii " " ++
    decimal size ++ ascii " 0x" ++ hex08 ((bufAddr + flashAddr + size) % 2 ^ 32)

/-- The shell's device, its memory by address. -/
def ofShell (d : FlashShell.Device) : Device := ⟨d.chip, fun a => d.ram (.ofNat a)⟩

/-- What the host makes of a result of the shell. -/
def answer (d : FlashShell.Device) :
    Except FlashShell.Complaint FlashShell.Written → Option (UInt32 × Device)
  | .ok w => some (w.crc, { ofShell d with chip := w.chip })
  | .error _ => none

/-! ## The checks -/

theorem validChecksum_words (a b n s : UInt32) :
    FlashShell.validChecksum a b n s = validChecksum a.toNat b.toNat n.toNat s.toNat := by
  rw [Bool.eq_iff_iff, FlashShell.validChecksum, validChecksum, decide_eq_true_iff,
    decide_eq_true_iff, ← UInt32.toNat_inj, UInt32.toNat_add, UInt32.toNat_add, Nat.mod_add_mod]

theorem validRam_words (a : UInt32) : FlashShell.validRam a = validRam a.toNat := by
  rw [Bool.eq_iff_iff, FlashShell.validRam_iff, validRam, decide_eq_true_iff]

theorem ramBytes_words (d : FlashShell.Device) (a n : UInt32) :
    (sourceAddrs a n).map d.ram = (ofShell d).ramBytes a.toNat n.toNat := by
  rw [sourceAddrs, Device.ramBytes, List.map_map]
  refine List.map_congr_left fun i _ => ?_
  simp only [Function.comp_apply, ofShell, UInt32.ofNat_add, UInt32.ofNat_toNat]

/-! ## The loops -/

theorem eraseLoop_words (chip : Chip) (first lastSector : UInt32)
    (hlast : lastSector.toNat < 2 ^ 24) :
    ∃ fuel e, whileLoop (fun e => e.s ≤ lastSector) FlashShell.eraseRound fuel ⟨first, chip⟩ =
      some e ∧ e.chip = eraseSectors chip first.toNat lastSector.toNat := by
  obtain ⟨fuel, e, hloop, hinv, hguard⟩ := whileLoop_total (fun e => e.s ≤ lastSector)
    FlashShell.eraseRound
    (fun e => eraseSectors e.chip e.s.toNat lastSector.toNat =
      eraseSectors chip first.toNat lastSector.toNat)
    (fun e => 2 ^ 32 - e.s.toNat) (s := ⟨first, chip⟩) rfl (fun e hinv hguard => by
      rw [decide_eq_true_iff, UInt32.le_iff_toNat_le] at hguard
      have hround := FlashShell.toNat_eraseRound e
      rw [Nat.mod_eq_of_lt (by omega)] at hround
      rw [eraseSectors, if_pos hguard] at hinv
      rw [hround]
      exact ⟨hinv, by omega⟩)
  rw [decide_eq_false_iff_not, UInt32.le_iff_toNat_le] at hguard
  rw [eraseSectors, if_neg hguard] at hinv
  exact ⟨fuel, e, hloop, hinv⟩

/-- A round takes up the bytes of its chunk. -/
theorem crcRound_words (c : Chip) {addr size : UInt32} {s : UInt32 × UInt32}
    (hbus : addr.toNat + size.toNat ≤ 2 ^ 24) (hguard : s.1.toNat < size.toNat) :
    (FlashShell.crcRound c addr size s).1.toNat = s.1.toNat + 256 ∧
      (FlashShell.crcRound c addr size s).2 =
        crc32Update s.2 (c.read (addr.toNat + s.1.toNat) (min 256 (size.toNat - s.1.toNat))) := by
  have hchunk : FlashShell.chunk.toNat = 256 := rfl
  have hrest : (size - s.1).toNat = size.toNat - s.1.toNat :=
    UInt32.toNat_sub_of_le _ _ (UInt32.le_iff_toNat_le.mpr hguard.le)
  have hlen : (if size - s.1 > FlashShell.chunk then FlashShell.chunk else size - s.1).toNat =
      min 256 (size.toNat - s.1.toNat) := by
    split_ifs with hlong
    · rw [gt_iff_lt, UInt32.lt_iff_toNat_lt] at hlong
      omega
    · rw [gt_iff_lt, UInt32.lt_iff_toNat_lt] at hlong
      omega
  have haddr : (addr + s.1).toNat = addr.toNat + s.1.toNat := by
    rw [UInt32.toNat_add, Nat.mod_eq_of_lt (by omega)]
  constructor
  · rw [FlashShell.crcRound, UInt32.toNat_add, hchunk, Nat.mod_eq_of_lt (by omega)]
  · rw [FlashShell.crcRound]
    dsimp only
    rw [hlen, haddr, flashRead_eq (by omega)]

/-- Before each round the checksum is that of the bytes in front of the offset. -/
theorem flashCrc32_words (c : Chip) {addr size : UInt32}
    (hbus : addr.toNat + size.toNat ≤ 2 ^ 24) :
    ∃ fuel, FlashShell.flashCrc32 fuel c addr size = some (flashCrc32 c addr.toNat size.toNat) := by
  obtain ⟨fuel, s, hloop, hinv, hguard⟩ := whileLoop_total (fun s => s.1 < size)
    (FlashShell.crcRound c addr size)
    (fun s : UInt32 × UInt32 =>
      s.2 = crc32Update crc32Init (c.read addr.toNat (min s.1.toNat size.toNat)))
    (fun s => 2 ^ 32 - s.1.toNat) (s := (0, crc32Init))
    (by rw [UInt32.toNat_zero, Nat.zero_min]; rfl) (fun s hinv hguard => by
      rw [decide_eq_true_iff, UInt32.lt_iff_toNat_lt] at hguard
      obtain ⟨hoffset, hcrc⟩ := crcRound_words c hbus hguard
      have hmin : min (s.1.toNat + 256) size.toNat =
        s.1.toNat + min 256 (size.toNat - s.1.toNat) := by omega
      rw [Nat.min_eq_left hguard.le] at hinv
      refine ⟨?_, by omega⟩
      rw [hoffset, hmin, Chip.read_add, hcrc, hinv]
      exact (List.foldl_append ..).symm)
  rw [decide_eq_false_iff_not, UInt32.lt_iff_toNat_lt, not_lt] at hguard
  rw [Nat.min_eq_right hguard] at hinv
  exact ⟨fuel, by rw [FlashShell.flashCrc32, hloop, flashCrc32_eq c hbus, crc32, ← hinv]; rfl⟩

/-! ## The command -/

section Write

variable {d : FlashShell.Device} {argv : List (List UInt8)}

/-- Accepted is what both sides accept. -/
theorem commandFlashWrite_accepted (h : FlashShell.Accepted argv)
    (hbus : (number argv 2).toNat + (number argv 3).toNat ≤ 2 ^ 24) :
    ∃ fuel w, FlashShell.commandFlashWrite fuel d argv = some (.ok w) ∧
      some (w.crc, { ofShell d with chip := w.chip }) =
        commandFlashWrite (ofShell d) (number argv 1).toNat (number argv 2).toNat
          (number argv 3).toNat (number argv 4).toNat := by
  obtain ⟨-, hchecksum, hram, hsize⟩ := id h
  have hlastByte : (number argv 2 + number argv 3 - 1).toNat =
      (number argv 2).toNat + (number argv 3).toNat - 1 :=
    FlashShell.toNat_lastByte hsize (by omega)
  have hlast := FlashShell.toNat_sector (number argv 2 + number argv 3 - 1)
  rw [hlastByte] at hlast
  obtain ⟨fuel, e, hloop, hchip⟩ := eraseLoop_words d.chip
    (number argv 2 / FlashShell.sectorSize * FlashShell.sectorSize)
    ((number argv 2 + number argv 3 - 1) / FlashShell.sectorSize * FlashShell.sectorSize)
    (by omega)
  obtain ⟨fuel', hcrc⟩ := flashCrc32_words (flashWrite e.chip (number argv 2).toNat
    ((sourceAddrs (number argv 1) (number argv 3)).map d.ram)) hbus
  refine ⟨max fuel fuel', _, (FlashShell.commandFlashWrite_eq_ok h).mpr ⟨e, _,
    whileLoop_of_le (le_max_left ..) hloop, FlashShell.flashCrc32_of_le (le_max_right ..) hcrc,
    rfl⟩, ?_⟩
  have hnonzero : (number argv 3).toNat ≠ 0 := (FlashShell.toNat_pos_of_ne hsize).ne'
  rw [validChecksum_words] at hchecksum
  rw [validRam_words] at hram
  rw [commandFlashWrite, if_neg (by simp [hchecksum]), if_neg (by simp [hram]), if_neg hnonzero,
    hchip, hlast, FlashShell.toNat_sector, ramBytes_words]
  rfl

/-- Within the address bits, the shell's command is the one that the image was followed with. -/
theorem commandFlashWrite_words (d : FlashShell.Device) (hargc : argv.length = 5)
    (hbus : (number argv 2).toNat + (number argv 3).toNat ≤ 2 ^ 24) :
    ∃ fuel, (FlashShell.commandFlashWrite fuel d argv).map (answer d) =
      some (commandFlashWrite (ofShell d) (number argv 1).toNat (number argv 2).toNat
        (number argv 3).toNat (number argv 4).toNat) := by
  by_cases haccepted : FlashShell.Accepted argv
  · obtain ⟨fuel, w, hrun, hw⟩ := commandFlashWrite_accepted (d := d) haccepted hbus
    exact ⟨fuel, by rw [hrun, ← hw]; rfl⟩
  · -- the complaints are the same, and need no round of a loop
    have hzero : (number argv 3).toNat = 0 ↔ number argv 3 = 0 := by
      rw [← UInt32.toNat_inj, UInt32.toNat_zero]
    refine ⟨0, ?_⟩
    unfold FlashShell.commandFlashWrite commandFlashWrite
    rw [if_neg (not_not.mpr hargc)]
    dsimp only
    rw [← validChecksum_words, ← validRam_words]
    simp only [hzero]
    split_ifs with hchecksum hram hsize
    · rfl
    · rfl
    · rfl
    · exact absurd ⟨hargc, by simpa using hchecksum, by simpa using hram, hsize⟩ haccepted

end Write

/-! ## The line -/

theorem plain_write : Plain (ascii "flash_write") := by
  constructor <;> decide

theorem splitArgs_writeText (bufAddr flashAddr size : ℕ) :
    splitArgs (writeText bufAddr flashAddr size) =
      [ascii "flash_write", ascii "0x" ++ hex08 bufAddr, ascii "0x" ++ hex08 flashAddr,
        decimal size, ascii "0x" ++ hex08 ((bufAddr + flashAddr + size) % 2 ^ 32)] := by
  have htext : writeText bufAddr flashAddr size =
      [Console.blank].intercalate [ascii "flash_write", ascii "0x" ++ hex08 bufAddr,
        ascii "0x" ++ hex08 flashAddr, decimal size,
        ascii "0x" ++ hex08 ((bufAddr + flashAddr + size) % 2 ^ 32)] := by
    have hcommand : ascii "flash_write 0x" = ascii "flash_write" ++ Console.blank :: ascii "0x" :=
      rfl
    have hstart : ascii " 0x" = Console.blank :: ascii "0x" := rfl
    have hblank : ascii " " = [Console.blank] := rfl
    simp [writeText, hcommand, hstart, hblank, List.intercalate]
  rw [htext]
  refine splitArgs_plain ?_ (by simp)
  simp only [List.forall_mem_cons]
  exact ⟨plain_write, plain_hex _, plain_hex _, plain_decimal _, plain_hex _,
    fun w hw => absurd hw List.not_mem_nil⟩

/-- The host's line makes the shell do what the host counts on. -/
theorem stepFlashWrite_line (d : FlashShell.Device) {bufAddr flashAddr size : ℕ}
    (hbuf : bufAddr < 2 ^ 32) (hbus : flashAddr + size ≤ 2 ^ 24) :
    ∃ fuel, (FlashShell.commandFlashWrite fuel d (splitArgs (writeText bufAddr flashAddr size))).map
      (answer d) = some (stepFlashWrite (ofShell d) bufAddr flashAddr size) := by
  obtain ⟨argv, hargv⟩ : ∃ argv, argv = splitArgs (writeText bufAddr flashAddr size) := ⟨_, rfl⟩
  rw [← hargv]
  rw [splitArgs_writeText] at hargv
  have hnumber : (number argv 1).toNat = bufAddr ∧ (number argv 2).toNat = flashAddr ∧
      (number argv 3).toNat = size ∧
        (number argv 4).toNat = (bufAddr + flashAddr + size) % 2 ^ 32 := by
    rw [hargv]
    refine ⟨?_, ?_, ?_, ?_⟩
    · exact (congrArg UInt32.toNat (number_hex bufAddr)).trans
        (UInt32.toNat_ofNat_of_lt' hbuf)
    · exact (congrArg UInt32.toNat (number_hex flashAddr)).trans
        (UInt32.toNat_ofNat_of_lt' (by rw [UInt32.size]; omega))
    · exact (congrArg UInt32.toNat (number_decimal size)).trans
        (UInt32.toNat_ofNat_of_lt' (by rw [UInt32.size]; omega))
    · exact (congrArg UInt32.toNat (number_hex _)).trans
        (UInt32.toNat_ofNat_of_lt' (Nat.mod_lt _ (by decide)))
  obtain ⟨hbuf', hflash, hsize, hchecksum⟩ := hnumber
  have hargc : argv.length = 5 := by rw [hargv]; rfl
  have hcommand := commandFlashWrite_words d hargc (by rw [hflash, hsize]; exact hbus)
  rw [hbuf', hflash, hsize, hchecksum] at hcommand
  exact hcommand

end BekenCam.Bkloader
