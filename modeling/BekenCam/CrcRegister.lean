import Mathlib.Tactic

/-!
# Cyclic redundancy registers

A register shifts its content out at the top, one bit at a time, and folds a
polynomial in whenever the bit that leaves is set. Shifting is linear in exclusive
or, so eight shifts are one look in a table and a shift by eight.
-/
namespace BekenCam.Crc

variable {w : ℕ}

/-- One shift of a register with the polynomial `poly`. -/
def shift (poly x : BitVec w) : BitVec w :=
  if x.msb then (x <<< 1) ^^^ poly else x <<< 1

def shifts (poly : BitVec w) : ℕ → BitVec w → BitVec w
  | 0, x => x
  | n + 1, x => shift poly (shifts poly n x)

/-- Take one byte in, its highest bit first. -/
def feed (poly crc : BitVec w) (b : BitVec 8) : BitVec w :=
  shifts poly 8 (crc ^^^ (b.setWidth w <<< (w - 8)))

/-- The checksum of some bytes from the register content `crc`. -/
def checksum (poly crc : BitVec w) (bytes : List (BitVec 8)) : BitVec w :=
  bytes.foldl (feed poly) crc

theorem shift_xor (poly x y : BitVec w) :
    shift poly (x ^^^ y) = shift poly x ^^^ shift poly y := by
  simp only [shift, BitVec.msb_xor, BitVec.shiftLeft_xor_distrib]
  cases x.msb <;> cases y.msb <;> simp only [Bool.xor_true, Bool.xor_false, Bool.not_true,
    Bool.not_false, if_true, Bool.false_eq_true, if_false]
  · ac_rfl
  · ac_rfl
  · have hcancel : poly ^^^ poly = 0#w := BitVec.xor_self
    calc x <<< 1 ^^^ y <<< 1 = x <<< 1 ^^^ y <<< 1 ^^^ (poly ^^^ poly) := by simp
      _ = x <<< 1 ^^^ poly ^^^ (y <<< 1 ^^^ poly) := by ac_rfl

theorem shifts_xor (poly x y : BitVec w) (n : ℕ) :
    shifts poly n (x ^^^ y) = shifts poly n x ^^^ shifts poly n y := by
  induction n with
  | zero => rfl
  | succ n ih => simp only [shifts, ih, shift_xor]

/-- While no set bit leaves, the polynomial stays out. -/
theorem shifts_eq_shiftLeft (poly : BitVec w) {x : BitVec w} {n : ℕ}
    (hx : x.toNat * 2 ^ n < 2 ^ w) : shifts poly n x = x <<< n := by
  induction n with
  | zero => simp [shifts]
  | succ n ih =>
    have hlt : x.toNat * 2 ^ n * 2 < 2 ^ w := by rwa [Nat.mul_assoc, ← Nat.pow_succ]
    have hn : (x <<< n).toNat = x.toNat * 2 ^ n := by
      rw [BitVec.toNat_shiftLeft, Nat.shiftLeft_eq, Nat.mod_eq_of_lt (by omega)]
    have hmsb : (x <<< n).msb = false := by
      rw [BitVec.msb_eq_false_iff_two_mul_lt, hn]
      omega
    rw [shifts, ih (by omega), shift, hmsb, if_neg Bool.false_ne_true, BitVec.shiftLeft_add]

/-- A register as its top byte and the rest. -/
theorem top_xor_rest (hw : 8 ≤ w) (x : BitVec w) :
    x = ((x >>> (w - 8)) <<< (w - 8)) ^^^ ((x <<< 8) >>> 8) := by
  ext i hi
  simp only [BitVec.getElem_xor, BitVec.getElem_shiftLeft, BitVec.getElem_ushiftRight,
    BitVec.getLsbD_shiftLeft]
  by_cases h : i < w - 8
  · simp [h, show 8 + i < w by omega, BitVec.getLsbD_eq_getElem hi]
  · simp [h, show ¬8 + i < w by omega, show w - 8 + (i - (w - 8)) = i by omega,
      BitVec.getLsbD_eq_getElem hi]

/-- Eight shifts push the top byte through and move the rest up. -/
theorem shifts_eight (hw : 8 ≤ w) (poly x : BitVec w) :
    shifts poly 8 x = shifts poly 8 ((x >>> (w - 8)) <<< (w - 8)) ^^^ (x <<< 8) := by
  have hrest : shifts poly 8 ((x <<< 8) >>> 8) = x <<< 8 := by
    have hlt : ((x <<< 8) >>> 8).toNat * 2 ^ 8 < 2 ^ w := by
      have hx := (x <<< 8).isLt
      rw [BitVec.toNat_ushiftRight, Nat.shiftRight_eq_div_pow]
      omega
    rw [shifts_eq_shiftLeft poly hlt]
    ext i hi
    simp only [BitVec.getElem_shiftLeft, BitVec.getElem_ushiftRight, BitVec.getLsbD_shiftLeft]
    by_cases h : i < 8
    · simp [h]
    · simp [h, show 8 + (i - 8) = i by omega, hi,
        BitVec.getLsbD_eq_getElem (show i - 8 < w by omega)]
  conv_lhs => rw [top_xor_rest hw x]
  rw [shifts_xor, hrest]

/-- A table that holds the eight shifts of each top byte computes the register's step. -/
theorem feed_eq_table (hw : 8 ≤ w) {poly : BitVec w} {table : BitVec 8 → BitVec w}
    (htable : ∀ i, table i = shifts poly 8 (i.setWidth w <<< (w - 8))) (crc : BitVec w)
    (b : BitVec 8) :
    feed poly crc b = (crc <<< 8) ^^^ table ((crc >>> (w - 8)).setWidth 8 ^^^ b) := by
  have hmoved : (crc ^^^ (b.setWidth w <<< (w - 8))) <<< 8 = crc <<< 8 := by
    have hgone : (b.setWidth w <<< (w - 8)) <<< 8 = 0#w := by
      rw [← BitVec.shiftLeft_add]
      exact BitVec.shiftLeft_eq_zero (by omega)
    rw [BitVec.shiftLeft_xor_distrib, hgone, BitVec.xor_zero]
  have htop : (crc ^^^ (b.setWidth w <<< (w - 8))) >>> (w - 8) =
      ((crc >>> (w - 8)).setWidth 8 ^^^ b).setWidth w := by
    ext i hi
    simp only [BitVec.getElem_ushiftRight, BitVec.getLsbD_xor, BitVec.getLsbD_shiftLeft,
      BitVec.getElem_setWidth, BitVec.getLsbD_setWidth, BitVec.getLsbD_ushiftRight]
    by_cases h : i < 8
    · simp [h, hi, show w - 8 + i < w by omega]
    · simp [h, show ¬w - 8 + i < w by omega, BitVec.getLsbD_of_ge crc (w - 8 + i) (by omega),
        BitVec.getLsbD_of_ge b i (by omega)]
  rw [feed, shifts_eight hw, hmoved, htop, htable, BitVec.xor_comm]

end BekenCam.Crc
