import BekenCam.Crc32
import BekenCam.FlashDriver
import BekenCam.HttpRequest
import BekenCam.TakeInt
import BekenCam.WhileLoop

/-!
# The flash commands of the shell

Addresses and sizes are words, and so are the counters of the loops. A command has a result when its
loops get enough rounds.
-/
namespace BekenCam.FlashShell

open Nor Flash Crc32 ShellParser
open Http (ascii)

structure Device where
  chip : Chip
  ram : UInt32 → UInt8

inductive Complaint
  | usage
  | checksum
  | ramAddr
  | size
  deriving DecidableEq

def chunk : UInt32 := 256
def sectorSize : UInt32 := 4096

def validRam (addr : UInt32) : Bool :=
  (0x00400000 ≤ addr ∧ addr < 0x00400000 + 0x00040000) ∨
    (0x00900000 ≤ addr ∧ addr < 0x00900000 + 0x00040000)

def validChecksum (addr1 addr2 size checksum : UInt32) : Bool := addr1 + addr2 + size = checksum

/-- An argument, as a word. -/
def number (argv : List (List UInt8)) (i : ℕ) : UInt32 :=
  (okOr (takeInt (argv.getD i [])) 0).toUInt32

/-- A round of the loop of `flash_crc32`, with the offset and the checksum. -/
def crcRound (c : Chip) (flashAddr size : UInt32) (s : UInt32 × UInt32) : UInt32 × UInt32 :=
  let n := size - s.1
  let n := if n > chunk then chunk else n
  (s.1 + chunk, crc32Update s.2 (flashRead c (flashAddr + s.1).toNat n.toNat))

def flashCrc32 (fuel : ℕ) (c : Chip) (flashAddr size : UInt32) : Option UInt32 :=
  (whileLoop (fun s => s.1 < size) (crcRound c flashAddr size) fuel (0, crc32Init)).map fun s =>
    crc32Final s.2

def commandFlashCrc32 (fuel : ℕ) (d : Device) (argv : List (List UInt8)) :
    Option (Except Complaint UInt32) :=
  if argv.length ≠ 3 then some (.error .usage)
  else
    let addr := number argv 1
    let size := number argv 2
    if size = 0 then some (.error .size)
    else (flashCrc32 fuel d.chip addr size).map .ok

structure EraseState where
  s : UInt32
  chip : Chip

def eraseRound (e : EraseState) : EraseState :=
  { s := e.s + sectorSize, chip := flashEraseSector e.chip e.s.toNat }

/-- What the command did: the addresses it read at, what became of the chip and what it printed. -/
structure Written where
  sources : List UInt32
  chip : Chip
  crc : UInt32

/-- The addresses `flash_write` reads at. -/
def sourceAddrs (fromAddr size : UInt32) : List UInt32 :=
  (List.range size.toNat).map fun i => fromAddr + UInt32.ofNat i

def commandFlashWrite (fuel : ℕ) (d : Device) (argv : List (List UInt8)) :
    Option (Except Complaint Written) :=
  if argv.length ≠ 5 then some (.error .usage)
  else
    let fromAddr := number argv 1
    let toAddr := number argv 2
    let size := number argv 3
    if !validChecksum fromAddr toAddr size (number argv 4) then some (.error .checksum)
    else if !validRam fromAddr then some (.error .ramAddr)
    else if size = 0 then some (.error .size)
    else
      let firstSector := toAddr / sectorSize * sectorSize
      let lastSector := (toAddr + size - 1) / sectorSize * sectorSize
      match whileLoop (fun e => e.s ≤ lastSector) eraseRound fuel ⟨firstSector, d.chip⟩ with
      | none => none
      | some e =>
        let sources := sourceAddrs fromAddr size
        let chip := flashWrite e.chip toAddr.toNat (sources.map d.ram)
        (flashCrc32 fuel chip toAddr size).map fun crc => .ok ⟨sources, chip, crc⟩

/-- The checks of `command_flash_write` pass. -/
def Accepted (argv : List (List UInt8)) : Prop :=
  argv.length = 5 ∧
    validChecksum (number argv 1) (number argv 2) (number argv 3) (number argv 4) = true ∧
    validRam (number argv 1) = true ∧ number argv 3 ≠ 0

instance (argv : List (List UInt8)) : Decidable (Accepted argv) :=
  inferInstanceAs (Decidable (_ ∧ _))

/-- The sectors with a byte between `start` and `stop`, and no others, are erased. -/
def ErasesExactly (ops : List Op) (start stop : ℕ) : Prop :=
  ∀ lo hi, Op.erase lo hi ∈ ops ↔
    4096 ∣ lo ∧ hi = lo + 4096 ∧ ∃ a, start ≤ a ∧ a < stop ∧ lo ≤ a ∧ a < hi

/-- The command ends, the chip erases the sectors with a byte of the range and no others, and
nothing is read outside the windows. -/
def WriteBounded (d : Device) (argv : List (List UInt8)) : Prop :=
  ∃ fuel w ops, commandFlashWrite fuel d argv = some (.ok w) ∧
    w.chip.journal = d.chip.journal ++ ops ∧
    ErasesExactly ops (number argv 2).toNat ((number argv 2).toNat + (number argv 3).toNat) ∧
    ∀ a ∈ w.sources, validRam a = true

/-- The end of the window an address is in. -/
def windowEnd (addr : UInt32) : ℕ := if addr < 0x00900000 then 0x00440000 else 0x00940000

/-! ## The loops -/

/-- The offset is a multiple of the chunk, and there is none from the size on when the size is
above the last. -/
theorem flashCrc32_terminates (c : Chip) (flashAddr size : UInt32) :
    (∃ fuel, (flashCrc32 fuel c flashAddr size).isSome) ↔ size.toNat ≤ 2 ^ 32 - 256 := by
  have hround (s : UInt32 × UInt32) :
      (crcRound c flashAddr size s).1.toNat = (s.1.toNat + 256) % 2 ^ 32 := by
    rw [crcRound, UInt32.toNat_add]
    rfl
  simp only [flashCrc32, Option.isSome_map]
  constructor
  · rintro ⟨fuel, hsome⟩
    by_contra hlarge
    have hloop := whileLoop_diverges (fun s => s.1 < size) (crcRound c flashAddr size)
      (fun s : UInt32 × UInt32 => s.1.toNat % 256 = 0) (s := (0, crc32Init)) rfl
      (fun s hs => by
        have hlt := s.1.toNat_lt
        rw [hround, decide_eq_true_iff, UInt32.lt_iff_toNat_lt]
        omega) fuel
    rw [hloop] at hsome
    cases hsome
  · intro hsmall
    obtain ⟨fuel, r, hloop, -⟩ := whileLoop_total (fun s => s.1 < size) (crcRound c flashAddr size)
      (fun s : UInt32 × UInt32 => s.1.toNat % 256 = 0 ∧ s.1.toNat ≤ 2 ^ 32 - 256)
      (fun s => 2 ^ 32 - s.1.toNat) (s := (0, crc32Init)) (by decide) (fun s hs hguard => by
        rw [decide_eq_true_iff, UInt32.lt_iff_toNat_lt] at hguard
        rw [hround]
        omega)
    exact ⟨fuel, by rw [hloop]; rfl⟩

theorem flashCrc32_of_le {c : Chip} {flashAddr size crc : UInt32} {fuel more : ℕ}
    (hle : fuel ≤ more) (h : flashCrc32 fuel c flashAddr size = some crc) :
    flashCrc32 more c flashAddr size = some crc := by
  obtain ⟨r, hloop, hr⟩ := Option.map_eq_some_iff.mp h
  exact Option.map_eq_some_iff.mpr ⟨r, whileLoop_of_le hle hloop, hr⟩

section Erase

theorem toNat_eraseRound (e : EraseState) :
    (eraseRound e).s.toNat = (e.s.toNat + 4096) % 2 ^ 32 := by
  rw [eraseRound, UInt32.toNat_add]
  rfl

theorem eraseRound_journal (e : EraseState) : (eraseRound e).chip.journal = e.chip.journal ++
    [.erase (bus (e.s.toNat / 4096 * 4096)) (bus (e.s.toNat / 4096 * 4096) + 4096)] := rfl

/-- Up to the last sector of all, the counter never passes it. -/
theorem eraseLoop_diverges (lastSector : UInt32) {e : EraseState} (he : e.s.toNat % 4096 = 0)
    (hlast : 2 ^ 32 - 4096 ≤ lastSector.toNat) (fuel : ℕ) :
    whileLoop (fun e => e.s ≤ lastSector) eraseRound fuel e = none := by
  refine whileLoop_diverges _ _ (fun e : EraseState => e.s.toNat % 4096 = 0) he
    (fun e he => ?_) fuel
  have hlt := e.s.toNat_lt
  rw [toNat_eraseRound, decide_eq_true_iff, UInt32.le_iff_toNat_le]
  omega

/-- Whatever the counter does, the controller erases where its address bits reach. -/
theorem eraseLoop_inside {lastSector : UInt32} {fuel : ℕ} {e r : EraseState}
    (h : whileLoop (fun e => e.s ≤ lastSector) eraseRound fuel e = some r) :
    ∃ ops, r.chip.journal = e.chip.journal ++ ops ∧ ∀ op ∈ ops, op.lo < 2 ^ 24 := by
  refine whileLoop_inv (fun r : EraseState => ∃ ops, r.chip.journal = e.chip.journal ++ ops ∧
    ∀ op ∈ ops, op.lo < 2 ^ 24) ⟨[], (List.append_nil _).symm, nofun⟩ (fun r hr _ => ?_) h
  obtain ⟨ops, hjournal, hinside⟩ := hr
  refine ⟨_, (eraseRound_journal r).trans (by rw [hjournal, List.append_assoc]),
    List.forall_mem_append.mpr ⟨hinside, fun op hop => ?_⟩⟩
  rw [List.mem_singleton.mp hop]
  exact Nat.mod_lt _ (by decide)

/-- The sectors before the counter are erased. -/
structure ErasedFrom (chip : Chip) (first lastSector : UInt32) (e : EraseState) : Prop where
  aligned : e.s.toNat % 4096 = 0
  first_le : first.toNat ≤ e.s.toNat
  le_last : e.s.toNat ≤ lastSector.toNat + 4096
  sectors : ∃ ops, e.chip.journal = chip.journal ++ ops ∧ ∀ lo hi, Op.erase lo hi ∈ ops ↔
    4096 ∣ lo ∧ hi = lo + 4096 ∧ first.toNat ≤ lo ∧ lo < e.s.toNat

theorem ErasedFrom.round {chip : Chip} {first lastSector : UInt32} {e : EraseState}
    (h : ErasedFrom chip first lastSector e) (haligned : lastSector.toNat % 4096 = 0)
    (hlast : lastSector.toNat < 2 ^ 24) (hguard : e.s.toNat ≤ lastSector.toNat) :
    ErasedFrom chip first lastSector (eraseRound e) := by
  have hs := toNat_eraseRound e
  have haligned' := h.aligned
  have hfirst := h.first_le
  obtain ⟨ops, hjournal, hsectors⟩ := h.sectors
  rw [Nat.mod_eq_of_lt (by omega)] at hs
  have hbus : bus (e.s.toNat / 4096 * 4096) = e.s.toNat := by
    rw [bus_of_lt (by omega)]
    omega
  refine ⟨by omega, by omega, by omega, ops ++ [.erase e.s.toNat (e.s.toNat + 4096)], ?_,
    fun lo hi => ?_⟩
  · rw [eraseRound_journal, hbus, hjournal, List.append_assoc]
  · rw [List.mem_append, List.mem_singleton, hsectors, Op.erase.injEq, hs]
    omega

/-- Where the address bits reach, the sectors from the first to the last are erased. -/
theorem eraseLoop_total {first lastSector : UInt32} (chip : Chip) (hfirst : first.toNat % 4096 = 0)
    (haligned : lastSector.toNat % 4096 = 0) (hlast : lastSector.toNat < 2 ^ 24)
    (hle : first.toNat ≤ lastSector.toNat) :
    ∃ fuel e ops, whileLoop (fun e => e.s ≤ lastSector) eraseRound fuel ⟨first, chip⟩ = some e ∧
      e.chip.journal = chip.journal ++ ops ∧ ∀ lo hi, Op.erase lo hi ∈ ops ↔
        4096 ∣ lo ∧ hi = lo + 4096 ∧ first.toNat ≤ lo ∧ lo ≤ lastSector.toNat := by
  have hstart : ErasedFrom chip first lastSector ⟨first, chip⟩ := by
    refine ⟨hfirst, le_rfl, by dsimp only; omega, [], (List.append_nil _).symm,
      fun lo hi => ⟨nofun, fun h => ?_⟩⟩
    dsimp only at h
    omega
  obtain ⟨fuel, e, hloop, he, hguard⟩ := whileLoop_total (fun e => e.s ≤ lastSector) eraseRound
    (ErasedFrom chip first lastSector) (fun e => 2 ^ 32 - e.s.toNat) hstart (fun e he hguard => by
      rw [decide_eq_true_iff, UInt32.le_iff_toNat_le] at hguard
      have hs := toNat_eraseRound e
      exact ⟨he.round haligned hlast hguard, by omega⟩)
  obtain ⟨ops, hjournal, hsectors⟩ := he.sectors
  refine ⟨fuel, e, ops, hloop, hjournal, fun lo hi => ?_⟩
  have haligned' := he.aligned
  have hend := he.le_last
  rw [decide_eq_false_iff_not, UInt32.le_iff_toNat_le] at hguard
  rw [hsectors]
  omega

end Erase

/-! ## The commands -/

section Write

variable {d : Device} {argv : List (List UInt8)}

theorem commandFlashWrite_eq_ok (h : Accepted argv) {fuel : ℕ} {w : Written} :
    commandFlashWrite fuel d argv = some (.ok w) ↔
      ∃ e crc,
        whileLoop (fun e =>
            e.s ≤ (number argv 2 + number argv 3 - 1) / sectorSize * sectorSize) eraseRound fuel
          ⟨number argv 2 / sectorSize * sectorSize, d.chip⟩ = some e ∧
        flashCrc32 fuel (flashWrite e.chip (number argv 2).toNat
          ((sourceAddrs (number argv 1) (number argv 3)).map d.ram)) (number argv 2)
          (number argv 3) = some crc ∧
        w = ⟨sourceAddrs (number argv 1) (number argv 3),
          flashWrite e.chip (number argv 2).toNat
            ((sourceAddrs (number argv 1) (number argv 3)).map d.ram), crc⟩ := by
  obtain ⟨hargc, hchecksum, hram, hsize⟩ := h
  unfold commandFlashWrite
  simp only [hargc, ne_eq, not_true_eq_false, if_false, hchecksum, hram, hsize, Bool.not_true,
    Bool.false_eq_true]
  cases whileLoop (fun e => e.s ≤ (number argv 2 + number argv 3 - 1) / sectorSize * sectorSize)
      eraseRound fuel ⟨number argv 2 / sectorSize * sectorSize, d.chip⟩ with
  | none => exact ⟨nofun, fun ⟨_, _, he, _⟩ => nomatch he⟩
  | some e =>
    simp only [Option.map_eq_some_iff, Except.ok.injEq, Option.some.injEq]
    constructor
    · rintro ⟨crc, hcrc, rfl⟩
      exact ⟨e, crc, rfl, hcrc, rfl⟩
    · rintro ⟨_, crc, rfl, hcrc, rfl⟩
      exact ⟨crc, hcrc, rfl⟩

theorem toNat_sector (addr : UInt32) :
    (addr / sectorSize * sectorSize).toNat = addr.toNat / 4096 * 4096 := by
  have hlt := addr.toNat_lt
  have hsize : sectorSize.toNat = 4096 := rfl
  rw [UInt32.toNat_mul, UInt32.toNat_div, hsize]
  exact Nat.mod_eq_of_lt (by omega)

theorem toNat_pos_of_ne {size : UInt32} (h : size ≠ 0) : 0 < size.toNat :=
  Nat.pos_of_ne_zero fun hzero => h (UInt32.toNat.inj hzero)

theorem toNat_lastByte {addr size : UInt32} (hsize : size ≠ 0)
    (hend : addr.toNat + size.toNat ≤ 2 ^ 32) :
    (addr + size - 1).toNat = addr.toNat + size.toNat - 1 := by
  have hpos := toNat_pos_of_ne hsize
  have hlt := addr.toNat_lt
  have hone : (1 : UInt32).toNat = 1 := rfl
  rw [UInt32.toNat_sub, UInt32.toNat_add, hone]
  omega

theorem validRam_iff {addr : UInt32} : validRam addr = true ↔
    (0x00400000 ≤ addr.toNat ∧ addr.toNat < 0x00440000) ∨
      (0x00900000 ≤ addr.toNat ∧ addr.toNat < 0x00940000) := by
  unfold validRam
  rw [decide_eq_true_iff]
  rfl

theorem toNat_add_ofNat {a : UInt32} {i : ℕ} (h : a.toNat + i < 2 ^ 32) :
    (a + UInt32.ofNat i).toNat = a.toNat + i := by
  rw [UInt32.toNat_add, UInt32.toNat_ofNat_of_lt' (show i < UInt32.size by
    rw [UInt32.size]
    omega)]
  exact Nat.mod_eq_of_lt h

theorem windowEnd_cases (addr : UInt32) :
    addr.toNat < 0x00900000 ∧ windowEnd addr = 0x00440000 ∨
      0x00900000 ≤ addr.toNat ∧ windowEnd addr = 0x00940000 := by
  unfold windowEnd
  have hlt : addr < 0x00900000 ↔ addr.toNat < 0x00900000 := UInt32.lt_iff_toNat_lt
  by_cases h : addr < 0x00900000
  · exact .inl ⟨hlt.mp h, if_pos h⟩
  · exact .inr ⟨not_lt.mp (hlt.not.mp h), if_neg h⟩

/-- A range that begins in a window stays in the windows when it ends in its own. -/
theorem sources_valid_iff {fromAddr size : UInt32} (h : validRam fromAddr = true) :
    (∀ a ∈ sourceAddrs fromAddr size, validRam a = true) ↔
      fromAddr.toNat + size.toNat ≤ windowEnd fromAddr := by
  have hfrom := validRam_iff.mp h
  have hwindow := windowEnd_cases fromAddr
  unfold sourceAddrs
  rw [List.forall_mem_map]
  constructor
  · intro hall
    by_contra hlong
    -- the byte at the end of the window
    have hbyte := hall (windowEnd fromAddr - fromAddr.toNat) (by
      rw [List.mem_range]
      omega)
    rw [validRam_iff, toNat_add_ofNat (by omega)] at hbyte
    omega
  · intro hend i hi
    rw [List.mem_range] at hi
    rw [validRam_iff, toNat_add_ofNat (by omega)]
    omega

theorem writeBounded_iff (h : Accepted argv) : WriteBounded d argv ↔
    (number argv 1).toNat + (number argv 3).toNat ≤ windowEnd (number argv 1) ∧
      (number argv 2).toNat + (number argv 3).toNat ≤ 2 ^ 24 := by
  have hsize := h.2.2.2
  have hpos := toNat_pos_of_ne hsize
  have hto := (number argv 2).toNat_lt
  constructor
  · rintro ⟨fuel, w, ops, hrun, hjournal, hsectors, hsources⟩
    obtain ⟨e, crc, hloop, -, rfl⟩ := (commandFlashWrite_eq_ok h).mp hrun
    refine ⟨(sources_valid_iff h.2.2.1).mp hsources, ?_⟩
    by_contra hlong
    -- the sector of the last byte is out of reach
    obtain ⟨erases, herases, hinside⟩ := eraseLoop_inside hloop
    obtain ⟨programs, hprograms, hnone⟩ := flashWrite_journal e.chip (number argv 2).toNat
      ((sourceAddrs (number argv 1) (number argv 3)).map d.ram)
    have hops : ops = erases ++ programs := by
      dsimp only at hjournal
      rw [hprograms, herases, List.append_assoc] at hjournal
      exact (List.append_cancel_left hjournal).symm
    have hlast := (hsectors
      (((number argv 2).toNat + (number argv 3).toNat - 1) / 4096 * 4096) _).mpr
      ⟨Nat.dvd_mul_left .., rfl, (number argv 2).toNat + (number argv 3).toNat - 1,
        by omega, by omega, by omega, by omega⟩
    rw [hops, List.mem_append] at hlast
    rcases hlast with hlast | hlast
    · have hlow := hinside _ hlast
      rw [Op.lo] at hlow
      omega
    · obtain ⟨lo, hi, hprogram⟩ := hnone _ hlast
      cases hprogram
  · rintro ⟨hwindow, hend⟩
    have hlast := toNat_sector (number argv 2 + number argv 3 - 1)
    have hfirst := toNat_sector (number argv 2)
    rw [toNat_lastByte hsize (by omega)] at hlast
    obtain ⟨fuel, e, erases, hloop, herases, hsectors⟩ := eraseLoop_total d.chip
      (show (number argv 2 / sectorSize * sectorSize).toNat % 4096 = 0 by omega)
      (show ((number argv 2 + number argv 3 - 1) / sectorSize * sectorSize).toNat % 4096 = 0 by
        omega) (by omega) (by omega)
    obtain ⟨programs, hprograms, hnone⟩ := flashWrite_journal e.chip (number argv 2).toNat
      ((sourceAddrs (number argv 1) (number argv 3)).map d.ram)
    have hwindow' := windowEnd_cases (number argv 1)
    obtain ⟨fuel', hcrc⟩ := (flashCrc32_terminates (flashWrite e.chip (number argv 2).toNat
      ((sourceAddrs (number argv 1) (number argv 3)).map d.ram)) (number argv 2)
      (number argv 3)).mpr (by omega)
    obtain ⟨crc, hcrc⟩ := Option.isSome_iff_exists.mp hcrc
    refine ⟨max fuel fuel', _, erases ++ programs, (commandFlashWrite_eq_ok h).mpr ⟨e, crc,
      whileLoop_of_le (le_max_left ..) hloop, flashCrc32_of_le (le_max_right ..) hcrc, rfl⟩,
      ?_, fun lo hi => ?_, (sources_valid_iff h.2.2.1).mpr hwindow⟩
    · dsimp only
      rw [hprograms, herases, List.append_assoc]
    have honly : Op.erase lo hi ∈ erases ++ programs ↔ Op.erase lo hi ∈ erases := by
      rw [List.mem_append]
      refine or_iff_left fun hop => ?_
      obtain ⟨lo', hi', hprogram⟩ := hnone _ hop
      cases hprogram
    rw [honly, hsectors, hfirst, hlast]
    constructor
    · rintro ⟨hdvd, rfl, hge, hle⟩
      refine ⟨hdvd, rfl, ?_⟩
      rcases Nat.lt_or_ge (number argv 2).toNat lo with hlt | hle'
      · exact ⟨lo, by omega, by omega, by omega, by omega⟩
      · exact ⟨(number argv 2).toNat, by omega, by omega, by omega, by omega⟩
    · rintro ⟨hdvd, rfl, a, hge, hlt, hlo, hhi⟩
      exact ⟨hdvd, rfl, by omega, by omega⟩

/-- A range that ends in the last sector of all keeps the command erasing. -/
theorem commandFlashWrite_diverges (h : Accepted argv)
    (hlow : 2 ^ 32 - 4096 < (number argv 2).toNat + (number argv 3).toNat)
    (hhigh : (number argv 2).toNat + (number argv 3).toNat ≤ 2 ^ 32) (fuel : ℕ) :
    commandFlashWrite fuel d argv = none := by
  obtain ⟨hargc, hchecksum, hram, hsize⟩ := h
  have hlast := toNat_sector (number argv 2 + number argv 3 - 1)
  rw [toNat_lastByte hsize hhigh] at hlast
  have hnone := eraseLoop_diverges ((number argv 2 + number argv 3 - 1) / sectorSize * sectorSize)
    (e := ⟨number argv 2 / sectorSize * sectorSize, d.chip⟩)
    (by rw [toNat_sector]; omega) (by omega) fuel
  unfold commandFlashWrite
  simp only [hargc, ne_eq, not_true_eq_false, if_false, hchecksum, hram, hsize, Bool.not_true,
    Bool.false_eq_true, hnone]

end Write

theorem commandFlashCrc32_terminates (d : Device) {argv : List (List UInt8)}
    (hargc : argv.length = 3) (hsize : number argv 2 ≠ 0) :
    (∃ fuel, (commandFlashCrc32 fuel d argv).isSome) ↔ (number argv 2).toNat ≤ 2 ^ 32 - 256 := by
  rw [← flashCrc32_terminates d.chip (number argv 1)]
  unfold commandFlashCrc32
  simp only [hargc, ne_eq, not_true_eq_false, if_false, hsize, Option.isSome_map]

/-- `command_flash_write` keeps its bounds when the source ends in the window it begins in and the
destination within the address bits of the controller; `command_flash_crc32` ends when the offset
can reach the size. -/
theorem commands_bounded_iff (d : Device) :
    (∀ argv, Accepted argv → (WriteBounded d argv ↔
      (number argv 1).toNat + (number argv 3).toNat ≤ windowEnd (number argv 1) ∧
        (number argv 2).toNat + (number argv 3).toNat ≤ 2 ^ 24)) ∧
    ∀ argv : List (List UInt8), argv.length = 3 → number argv 2 ≠ 0 →
      ((∃ fuel, (commandFlashCrc32 fuel d argv).isSome) ↔
        (number argv 2).toNat ≤ 2 ^ 32 - 256) :=
  ⟨fun _ h => writeBounded_iff h, fun _ => commandFlashCrc32_terminates d⟩

/-- The arguments of a write of one sector. -/
def sectorWrite : List (List UInt8) :=
  [ascii "flash_write", ascii "0x400000", ascii "0x132000", ascii "4096", ascii "0x533000"]

theorem commands_bounded_sector (d : Device) : WriteBounded d sectorWrite :=
  ((commands_bounded_iff d).1 sectorWrite (by decide +kernel)).mpr (by decide +kernel)

/-- The arguments of a write of two bytes, from the last of a window. -/
def straddlingWrite : List (List UInt8) :=
  [ascii "flash_write", ascii "0x43ffff", ascii "0x132000", ascii "2", ascii "0x572001"]

/-- The second byte is read outside the windows. -/
theorem write_not_bounded :
    ¬((∀ d argv, Accepted argv → WriteBounded d argv) ∧
      ∀ (d : Device) (argv : List (List UInt8)), argv.length = 3 → number argv 2 ≠ 0 →
        ∃ fuel, (commandFlashCrc32 fuel d argv).isSome) := by
  rintro ⟨hwrite, -⟩
  have haccepted : Accepted straddlingWrite := by decide +kernel
  have hbounded := hwrite ⟨⟨fun _ => 0xFF, []⟩, fun _ => 0⟩ straddlingWrite haccepted
  exact absurd ((writeBounded_iff haccepted).mp hbounded) (by decide +kernel)

end BekenCam.FlashShell
