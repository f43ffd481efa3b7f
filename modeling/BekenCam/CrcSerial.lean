import BekenCam.CrcRegister

/-!
# Checksums bit by bit

The definition a checksum is specified by: a register takes the bits of a message one by one, and
folds the polynomial in whenever the bit that leaves it differs from the bit that comes. A message
byte gives its bits highest first, or, to a reflected register, lowest first. Taking a byte at once
is eight such steps.
-/
namespace BekenCam.Crc

variable {w : ℕ}

/-! ## Highest bit first -/

/-- One bit of the message into a register that shifts up. -/
def bitStep (poly crc : BitVec w) (bit : Bool) : BitVec w :=
  if (crc.msb ^^ bit) = true then (crc <<< 1) ^^^ poly else crc <<< 1

def serial (poly crc : BitVec w) (bits : List Bool) : BitVec w := bits.foldl (bitStep poly) crc

/-- The bits of a byte, highest first. -/
def bitsHigh (b : BitVec 8) : List Bool := (List.range 8).map b.getMsbD

theorem shifts_succ (poly x : BitVec w) (n : ℕ) :
    shifts poly (n + 1) x = shifts poly n (shift poly x) := by
  induction n with
  | zero => rfl
  | succ n ih =>
    rw [shifts, ih]
    rfl

/-- The bit at the top of `x` comes in while the rest of `x` moves up. -/
theorem shift_xor_top (poly crc x : BitVec w) :
    shift poly (crc ^^^ x) = bitStep poly crc x.msb ^^^ (x <<< 1) := by
  rw [shift_xor, shift, shift, bitStep]
  cases crc.msb <;> cases x.msb <;> simp only [Bool.xor_true, Bool.xor_false, Bool.not_true,
    Bool.not_false, if_true, Bool.false_eq_true, if_false]
  · ac_rfl
  · calc crc <<< 1 ^^^ poly ^^^ (x <<< 1 ^^^ poly)
        = crc <<< 1 ^^^ x <<< 1 ^^^ (poly ^^^ poly) := by ac_rfl
      _ = crc <<< 1 ^^^ x <<< 1 := by simp

theorem shifts_xor_top (poly crc x : BitVec w) (n : ℕ) :
    shifts poly n (crc ^^^ x) = serial poly crc ((List.range n).map x.getMsbD) ^^^ (x <<< n) := by
  induction n generalizing crc x with
  | zero => simp [shifts, serial]
  | succ n ih =>
    have htail : (List.range n).map (x <<< 1).getMsbD = (List.range n).map (x.getMsbD ∘ Nat.succ) := by
      refine List.map_congr_left fun i _ => ?_
      simp [BitVec.getMsbD_shiftLeft]
    rw [shifts_succ, shift_xor_top, ih, htail, List.range_succ_eq_map, List.map_cons, List.map_map,
      ← BitVec.shiftLeft_add, Nat.add_comm 1 n]
    rfl

theorem feed_eq_serial (hw : 8 ≤ w) (poly crc : BitVec w) (b : BitVec 8) :
    feed poly crc b = serial poly crc (bitsHigh b) := by
  have hbits : (List.range 8).map (b.setWidth w <<< (w - 8)).getMsbD = bitsHigh b := by
    refine List.map_congr_left fun i hi => ?_
    have hlt := List.mem_range.mp hi
    have hindex : w - 1 - i - (w - 8) = 8 - 1 - i := by omega
    rw [BitVec.getMsbD_eq_getLsbD, BitVec.getMsbD_eq_getLsbD, BitVec.getLsbD_shiftLeft, hindex,
      BitVec.getLsbD_setWidth]
    simp [hlt, show i < w by omega, show w - 1 - i < w by omega, show 7 - i < w by omega,
      show w - 8 ≤ w - 1 - i by omega]
  have hgone : (b.setWidth w <<< (w - 8)) <<< 8 = 0#w := by
    rw [← BitVec.shiftLeft_add]
    exact BitVec.shiftLeft_eq_zero (by omega)
  rw [feed, shifts_xor_top, hbits, hgone, BitVec.xor_zero]

/-- The checksum of a message is that of its bits. -/
theorem checksum_eq_serial (hw : 8 ≤ w) (poly crc : BitVec w) (bytes : List (BitVec 8)) :
    checksum poly crc bytes = serial poly crc (bytes.flatMap bitsHigh) := by
  induction bytes generalizing crc with
  | nil => rfl
  | cons b bytes ih =>
    rw [List.flatMap_cons, serial, List.foldl_append, checksum, List.foldl_cons,
      feed_eq_serial hw]
    exact ih _

/-! ## Lowest bit first -/

/-- One bit of the message into a register that shifts down. -/
def bitStepLow (poly crc : BitVec w) (bit : Bool) : BitVec w :=
  if (crc.getLsbD 0 ^^ bit) = true then (crc >>> 1) ^^^ poly else crc >>> 1

def serialLow (poly crc : BitVec w) (bits : List Bool) : BitVec w :=
  bits.foldl (bitStepLow poly) crc

/-- The bits of a byte, lowest first. -/
def bitsLow (b : BitVec 8) : List Bool := (List.range 8).map b.getLsbD

/-- One shift of a reflected register. -/
def shiftLow (poly x : BitVec w) : BitVec w :=
  if x.getLsbD 0 = true then (x >>> 1) ^^^ poly else x >>> 1

def shiftsLow (poly : BitVec w) : ℕ → BitVec w → BitVec w
  | 0, x => x
  | n + 1, x => shiftsLow poly n (shiftLow poly x)

theorem shiftLow_xor (poly crc x : BitVec w) :
    shiftLow poly (crc ^^^ x) = bitStepLow poly crc (x.getLsbD 0) ^^^ (x >>> 1) := by
  rw [shiftLow, bitStepLow, BitVec.getLsbD_xor, BitVec.ushiftRight_xor_distrib]
  split_ifs
  · ac_rfl
  · rfl

/-- The bits at the bottom of `x` come in while the rest of `x` moves down. -/
theorem shiftsLow_xor (poly crc x : BitVec w) (n : ℕ) : shiftsLow poly n (crc ^^^ x) =
    serialLow poly crc ((List.range n).map x.getLsbD) ^^^ (x >>> n) := by
  induction n generalizing crc x with
  | zero => simp [shiftsLow, serialLow]
  | succ n ih =>
    have htail : (List.range n).map (x >>> 1).getLsbD = (List.range n).map (x.getLsbD ∘ Nat.succ) := by
      refine List.map_congr_left fun i _ => ?_
      simp [BitVec.getLsbD_ushiftRight, Nat.add_comm 1 i]
    rw [shiftsLow, shiftLow_xor, ih, htail, List.range_succ_eq_map, List.map_cons, List.map_map,
      ← BitVec.shiftRight_add, Nat.add_comm 1 n]
    rfl

/-- Bits that do not come out yet only move down. -/
theorem shiftsLow_xor_high (poly crc : BitVec w) {x : BitVec w} {n : ℕ}
    (hx : ∀ i < n, x.getLsbD i = false) :
    shiftsLow poly n (crc ^^^ x) = shiftsLow poly n crc ^^^ (x >>> n) := by
  have hbits : (List.range n).map x.getLsbD = (List.range n).map (0#w).getLsbD := by
    refine List.map_congr_left fun i hi => ?_
    rw [hx i (List.mem_range.mp hi), BitVec.getLsbD_zero]
  have hzero := shiftsLow_xor poly crc 0#w n
  rw [BitVec.xor_zero, BitVec.zero_ushiftRight, BitVec.xor_zero] at hzero
  rw [shiftsLow_xor, hbits, hzero]

/-- A register as its bottom byte and the rest. -/
theorem bottom_xor_rest (x : BitVec w) :
    x = (x.setWidth 8).setWidth w ^^^ ((x >>> 8) <<< 8) := by
  ext i hi
  simp only [BitVec.getElem_xor, BitVec.getElem_setWidth, BitVec.getLsbD_setWidth,
    BitVec.getElem_shiftLeft, BitVec.getElem_ushiftRight]
  by_cases h : i < 8
  · simp [h, BitVec.getLsbD_eq_getElem hi]
  · simp [h, show 8 + (i - 8) = i by omega, BitVec.getLsbD_eq_getElem hi]

/-- A table of the eight shifts of each byte computes eight steps of a reflected register. -/
theorem table_eq_serialLow {poly : BitVec w} {table : BitVec 8 → BitVec w}
    (htable : ∀ i, table i = shiftsLow poly 8 (i.setWidth w)) (hw : 8 ≤ w) (crc : BitVec w)
    (b : BitVec 8) :
    (crc >>> 8) ^^^ table (crc.setWidth 8 ^^^ b) = serialLow poly crc (bitsLow b) := by
  have hgone : b.setWidth w >>> 8 = 0#w := by
    ext i hi
    simp [BitVec.getElem_ushiftRight]
  have hbits : (List.range 8).map (b.setWidth w).getLsbD = bitsLow b := by
    refine List.map_congr_left fun i hi => ?_
    have hlt := List.mem_range.mp hi
    simp [show i < w by omega]
  have hbottom : (crc ^^^ b.setWidth w).setWidth 8 = crc.setWidth 8 ^^^ b := by
    rw [BitVec.setWidth_xor, BitVec.setWidth_setWidth_of_le b hw, BitVec.setWidth_eq]
  have hrest : (((crc ^^^ b.setWidth w) >>> 8) <<< 8) >>> 8 = crc >>> 8 := by
    rw [BitVec.ushiftRight_xor_distrib, hgone, BitVec.xor_zero]
    ext i hi
    simp only [BitVec.getElem_ushiftRight, BitVec.getLsbD_shiftLeft, BitVec.getLsbD_ushiftRight]
    by_cases h : 8 + i < w
    · simp [h]
    · simp [h, BitVec.getLsbD_of_ge crc (8 + i) (by omega)]
  have hlow : ∀ i < 8, (((crc ^^^ b.setWidth w) >>> 8) <<< 8).getLsbD i = false := by
    intro i hi
    simp [BitVec.getLsbD_shiftLeft, hi]
  have hsteps := shiftsLow_xor poly crc (b.setWidth w) 8
  rw [hgone, hbits, BitVec.xor_zero] at hsteps
  rw [← hsteps, bottom_xor_rest (crc ^^^ b.setWidth w), shiftsLow_xor_high _ _ hlow, hrest,
    hbottom, ← htable, BitVec.xor_comm]

end BekenCam.Crc
