import BekenCam.NorChip

/-!
# The flash driver

The controller moves blocks of 32 bytes and takes 24 address bits. A block that is written in part
is read first and written whole.
-/
namespace BekenCam.Flash

open Nor

def flashReadBlockSize : ℕ := 32
def flashSectorSize : ℕ := 4096

/-- The address on the bus. -/
def bus (addr : ℕ) : ℕ := addr % 2 ^ 24

def flashEraseSector (c : Chip) (addr : ℕ) : Chip :=
  c.erase (bus (addr / flashSectorSize * flashSectorSize)) flashSectorSize

def writeBlock (c : Chip) (alignedAddr : ℕ) (words : List UInt8) : Chip :=
  c.program (bus alignedAddr) words

def flashRead (c : Chip) (addr count : ℕ) : List UInt8 :=
  if count = 0 then []
  else
    let alignedAddr := addr / flashReadBlockSize * flashReadBlockSize
    let blockOffset := addr - alignedAddr
    let available := flashReadBlockSize - blockOffset
    let n := min available count
    slice (c.read (bus alignedAddr) flashReadBlockSize) blockOffset n ++
      flashRead c (addr + n) (count - n)
termination_by count
decreasing_by
  simp only [flashReadBlockSize]
  omega

def flashWrite (c : Chip) (addr : ℕ) (src : List UInt8) : Chip :=
  if src.length = 0 then c
  else
    let alignedAddr := addr / flashReadBlockSize * flashReadBlockSize
    let blockOffset := addr - alignedAddr
    let available := flashReadBlockSize - blockOffset
    let n := min available src.length
    -- A whole block covers whatever the buffer held.
    let block :=
      if blockOffset ≠ 0 ∨ n < flashReadBlockSize then
        writeAt (flashRead c alignedAddr flashReadBlockSize) blockOffset (src.take n)
      else src.take n
    flashWrite (writeBlock c alignedAddr block) (addr + n) (src.drop n)
termination_by src.length
decreasing_by
  simp only [flashReadBlockSize, List.length_drop]
  omega

/-! ## What they do -/

theorem bus_of_lt {addr : ℕ} (h : addr < 2 ^ 24) : bus addr = addr := Nat.mod_eq_of_lt h

theorem flashRead_eq {c : Chip} {addr count : ℕ} (h : addr + count ≤ 2 ^ 24) :
    flashRead c addr count = c.read addr count := by
  induction count using Nat.strong_induction_on generalizing addr with
  | _ count ih =>
    unfold flashRead
    by_cases hzero : count = 0
    · rw [if_pos hzero, hzero]
      rfl
    rw [if_neg hzero]
    dsimp only [flashReadBlockSize]
    obtain ⟨n, hn⟩ : ∃ n, n = min (32 - (addr - addr / 32 * 32)) count := ⟨_, rfl⟩
    have hle : n ≤ count := by omega
    have hsplit := c.read_add addr n (count - n)
    rw [← hn, ih (count - n) (by omega) (by omega), bus_of_lt (by omega),
      Chip.slice_read c _ (by omega)]
    rw [Nat.add_sub_cancel' hle] at hsplit
    rw [hsplit]
    congr 2
    omega

section Write

variable (c : Chip) (addr : ℕ) (src : List UInt8)

/-- The block a step of `flash_write` puts down. -/
def mergedBlock : List UInt8 :=
  let alignedAddr := addr / flashReadBlockSize * flashReadBlockSize
  let blockOffset := addr - alignedAddr
  let n := min (flashReadBlockSize - blockOffset) src.length
  if blockOffset ≠ 0 ∨ n < flashReadBlockSize then
    writeAt (flashRead c alignedAddr flashReadBlockSize) blockOffset (src.take n)
  else src.take n

/-- The bytes a step of `flash_write` takes. -/
def stepSize : ℕ :=
  min (flashReadBlockSize - (addr - addr / flashReadBlockSize * flashReadBlockSize)) src.length

theorem mergedBlock_eq : mergedBlock c addr src =
    if addr - addr / 32 * 32 ≠ 0 ∨ stepSize addr src < 32 then
      writeAt (flashRead c (addr / 32 * 32) 32) (addr - addr / 32 * 32)
        (src.take (stepSize addr src))
    else src.take (stepSize addr src) := rfl

theorem stepSize_eq : stepSize addr src = min (32 - (addr - addr / 32 * 32)) src.length := rfl

theorem flashWrite_step (hpos : src.length ≠ 0) : flashWrite c addr src =
    flashWrite (writeBlock c (addr / flashReadBlockSize * flashReadBlockSize)
      (mergedBlock c addr src)) (addr + stepSize addr src) (src.drop (stepSize addr src)) := by
  rw [flashWrite, if_neg hpos]
  rfl

variable {c addr src}

/-- The new bytes, and the old ones around them. -/
theorem getD_mergedBlock (hbus : addr / 32 * 32 + 32 ≤ 2 ^ 24) {i : ℕ} (hi : i < 32) :
    (mergedBlock c addr src).getD i 0 =
      if addr ≤ addr / 32 * 32 + i ∧ addr / 32 * 32 + i < addr + stepSize addr src then
        src.getD (addr / 32 * 32 + i - addr) 0
      else c.cells (addr / 32 * 32 + i) := by
  have hstep := stepSize_eq addr src
  have htake : (src.take (stepSize addr src)).length = stepSize addr src := by
    rw [List.length_take]
    omega
  have hget {k : ℕ} (hk : k < stepSize addr src) :
      (src.take (stepSize addr src)).getD k 0 = src.getD k 0 := by
    simp only [List.getD_eq_getElem?_getD, List.getElem?_take, if_pos hk]
  rw [mergedBlock_eq]
  by_cases hpart : addr - addr / 32 * 32 ≠ 0 ∨ stepSize addr src < 32
  · have hlen : (c.read (addr / 32 * 32) 32).length = 32 := Chip.length_read ..
    rw [if_pos hpart, flashRead_eq hbus, getD_writeAt (by omega), htake]
    by_cases hin : addr ≤ addr / 32 * 32 + i ∧ addr / 32 * 32 + i < addr + stepSize addr src
    · have hoff : addr / 32 * 32 + i - addr = i - (addr - addr / 32 * 32) := by omega
      rw [if_pos hin, if_pos (by omega), hget (by omega), hoff]
    · rw [if_neg hin, if_neg (by omega), Chip.getD_read c _ hi]
  · have hoff : addr / 32 * 32 + i - addr = i := by omega
    rw [if_neg hpart, if_pos (by omega), hget (by omega), hoff]

theorem length_mergedBlock (hbus : addr / 32 * 32 + 32 ≤ 2 ^ 24) :
    (mergedBlock c addr src).length = 32 := by
  have hstep := stepSize_eq addr src
  rw [mergedBlock_eq]
  split_ifs with hpart
  · have hlen : (c.read (addr / 32 * 32) 32).length = 32 := Chip.length_read ..
    rw [flashRead_eq hbus, length_writeAt_of_le, hlen]
    rw [List.length_take]
    omega
  · rw [List.length_take]
    omega

/-- A step clears bits of its range and leaves the rest of its block as it is. -/
theorem writeBlock_cells (hbus : addr / 32 * 32 + 32 ≤ 2 ^ 24) (a : ℕ) :
    (writeBlock c (addr / 32 * 32) (mergedBlock c addr src)).cells a =
      if addr ≤ a ∧ a < addr + stepSize addr src then c.cells a &&& src.getD (a - addr) 0
      else c.cells a := by
  have hstep := stepSize_eq addr src
  unfold writeBlock Chip.program
  dsimp only
  rw [bus_of_lt (by omega), length_mergedBlock hbus]
  by_cases hin : addr / 32 * 32 ≤ a ∧ a < addr / 32 * 32 + 32
  · obtain ⟨i, rfl⟩ := Nat.exists_eq_add_of_le hin.1
    rw [if_pos hin, Nat.add_sub_cancel_left, getD_mergedBlock hbus (by omega)]
    split_ifs with hnew
    · rfl
    · exact UInt8.and_self
  · rw [if_neg hin, if_neg (by omega)]

/-- `flash_write` clears the bits of its range that the source has clear. -/
theorem flashWrite_cells (h : addr + src.length ≤ 2 ^ 24) (a : ℕ) :
    (flashWrite c addr src).cells a =
      if addr ≤ a ∧ a < addr + src.length then c.cells a &&& src.getD (a - addr) 0
      else c.cells a := by
  induction hn : src.length using Nat.strong_induction_on generalizing c addr src with
  | _ n ih =>
    subst hn
    by_cases hzero : src.length = 0
    · rw [flashWrite, if_pos hzero, if_neg (by omega)]
    have hstep := stepSize_eq addr src
    have hbus : addr / 32 * 32 + 32 ≤ 2 ^ 24 := by omega
    have hdrop : (src.drop (stepSize addr src)).length = src.length - stepSize addr src :=
      List.length_drop ..
    have hwhole := flashWrite_step c addr src hzero
    have hrest := @ih (src.drop (stepSize addr src)).length (by omega)
      (writeBlock c (addr / 32 * 32) (mergedBlock c addr src)) (addr + stepSize addr src)
      (src.drop (stepSize addr src)) (by omega) rfl
    rw [hwhole, show flashReadBlockSize = 32 from rfl, hrest, hdrop, writeBlock_cells hbus]
    by_cases hlate : addr + stepSize addr src ≤ a ∧
        a < addr + stepSize addr src + (src.length - stepSize addr src)
    · have hoff : stepSize addr src + (a - (addr + stepSize addr src)) = a - addr := by omega
      rw [if_pos hlate, if_neg (by omega), if_pos (by omega)]
      simp only [List.getD_eq_getElem?_getD, List.getElem?_drop, hoff]
    · rw [if_neg hlate]
      by_cases hnew : addr ≤ a ∧ a < addr + stepSize addr src
      · rw [if_pos hnew, if_pos (by omega)]
      · rw [if_neg hnew, if_neg (by omega)]

/-- `flash_write` programs and erases nothing, wherever it writes. -/
theorem flashWrite_journal (c : Chip) (addr : ℕ) (src : List UInt8) :
    ∃ ops, (flashWrite c addr src).journal = c.journal ++ ops ∧
      ∀ op ∈ ops, ∃ l h, op = .program l h := by
  induction hn : src.length using Nat.strong_induction_on generalizing c addr src with
  | _ n ih =>
    subst hn
    by_cases hzero : src.length = 0
    · rw [flashWrite, if_pos hzero]
      exact ⟨[], (List.append_nil _).symm, nofun⟩
    have hstep := stepSize_eq addr src
    have hdrop : (src.drop (stepSize addr src)).length = src.length - stepSize addr src :=
      List.length_drop ..
    obtain ⟨ops, hjournal, hprograms⟩ := ih (src.drop (stepSize addr src)).length (by omega)
      (writeBlock c (addr / flashReadBlockSize * flashReadBlockSize) (mergedBlock c addr src))
      (addr + stepSize addr src) (src.drop (stepSize addr src)) rfl
    rw [flashWrite_step c addr src hzero, hjournal]
    refine ⟨_ :: ops, List.append_assoc c.journal [_] ops, ?_⟩
    rw [List.forall_mem_cons]
    exact ⟨⟨_, _, rfl⟩, hprograms⟩

/-- `flash_write` works on the blocks of its range. -/
theorem flashWrite_changes (c : Chip) {lo hi : ℕ} (hlo : 32 ∣ lo) (hhi : 32 ∣ hi) (hbus : hi ≤ 2 ^ 24)
    (hfrom : lo ≤ addr) (hto : addr + src.length ≤ hi) :
    ∃ ops, Chip.Changes c (flashWrite c addr src) lo hi ops ∧
      ∀ op ∈ ops, ∃ l h, op = .program l h := by
  induction hn : src.length using Nat.strong_induction_on generalizing c addr src with
  | _ n ih =>
    subst hn
    by_cases hzero : src.length = 0
    · rw [flashWrite, if_pos hzero]
      exact ⟨[], .refl c lo hi, nofun⟩
    have hstep := stepSize_eq addr src
    have hblock : addr / 32 * 32 + 32 ≤ 2 ^ 24 ∧ lo ≤ addr / 32 * 32 ∧ addr / 32 * 32 + 32 ≤ hi := by
      omega
    obtain ⟨hbus', hlo', hhi'⟩ := hblock
    have hdrop : (src.drop (stepSize addr src)).length = src.length - stepSize addr src :=
      List.length_drop ..
    have hwhole := flashWrite_step c addr src hzero
    obtain ⟨ops, hchanges, hprograms⟩ := @ih (src.drop (stepSize addr src)).length (by omega)
      (addr + stepSize addr src) (src.drop (stepSize addr src))
      (writeBlock c (addr / 32 * 32) (mergedBlock c addr src)) (by omega) (by omega) rfl
    have hfirst : c.Changes (writeBlock c (addr / 32 * 32) (mergedBlock c addr src))
        (addr / 32 * 32) (addr / 32 * 32 + 32)
        [.program (addr / 32 * 32) (addr / 32 * 32 + 32)] := by
      have hprogram := Chip.changes_program c (addr / 32 * 32) (mergedBlock c addr src)
      rw [length_mergedBlock hbus'] at hprogram
      rwa [writeBlock, bus_of_lt (by omega)]
    rw [hwhole]
    refine ⟨_, (hfirst.mono hlo' hhi').trans hchanges, ?_⟩
    rw [List.forall_mem_append]
    exact ⟨fun op hop => ⟨_, _, List.mem_singleton.mp hop⟩, hprograms⟩

/-- `flash_write` onto erased cells, between two block boundaries. -/
theorem flashWrite_spec {lo hi : ℕ} (hlo : 32 ∣ lo) (hhi : 32 ∣ hi) (hbus : hi ≤ 2 ^ 24)
    (hfrom : lo ≤ addr) (hto : addr + src.length ≤ hi)
    (hblank : ∀ a, addr ≤ a → a < addr + src.length → c.cells a = 0xFF) :
    ∃ ops, Chip.Changes c (flashWrite c addr src) lo hi ops ∧
      (∀ op ∈ ops, ∃ l h, op = .program l h) ∧
      ∀ a, (flashWrite c addr src).cells a =
        if addr ≤ a ∧ a < addr + src.length then src.getD (a - addr) 0 else c.cells a := by
  obtain ⟨ops, hchanges, hprograms⟩ := flashWrite_changes c hlo hhi hbus hfrom hto
  have hones (b : UInt8) : 0xFF &&& b = b := UInt8.neg_one_and
  refine ⟨ops, hchanges, hprograms, fun a => ?_⟩
  rw [flashWrite_cells (by omega)]
  split_ifs with hin
  · rw [hblank a hin.1 hin.2, hones]
  · rfl

end Write

/-- Within a device that the address bits reach, `flash_read` gives the bytes of the range and
`flash_write` the old bytes under the new ones, with every other byte as it was. -/
theorem driver_ranges {size : ℕ} (hsize : size ≤ 2 ^ 24) (c : Chip) (addr : ℕ) :
    (∀ count, addr + count ≤ size →
      flashRead c addr count = (List.range count).map fun i => c.cells (addr + i)) ∧
    ∀ src : List UInt8, addr + src.length ≤ size → ∀ a,
      (flashWrite c addr src).cells a =
        if addr ≤ a ∧ a < addr + src.length then c.cells a &&& src.getD (a - addr) 0
        else c.cells a :=
  ⟨fun _ hcount => flashRead_eq (hcount.trans hsize),
    fun _ hsrc => flashWrite_cells (hsrc.trans hsize)⟩

/-- Two blocks, the first from its middle. -/
theorem driver_ranges_two :
    let c : Chip := { cells := fun a => if a < 32 then 0xF0 else 0x0F, journal := [] }
    let c' := flashWrite c 31 [0x3C, 0x3C]
    flashRead c 31 2 = [0xF0, 0x0F] ∧ c'.cells 31 = 0x30 ∧ c'.cells 32 = 0x0C ∧
      c'.cells 30 = 0xF0 ∧ c'.cells 33 = 0x0F := by
  intro c c'
  obtain ⟨hread, hwrite⟩ := driver_ranges (le_refl (2 ^ 24)) c 31
  refine ⟨hread 2 (by decide), ?_, ?_, ?_, ?_⟩
  all_goals exact (hwrite [0x3C, 0x3C] (by decide) _).trans (by decide)

end BekenCam.Flash
