import BekenCam.CrcRegister

/-!
# What a checksum finds

A polynomial with its lowest bit set makes every shift invertible. So registers that differ stay
different, a checksum of 16 bits that is appended leaves nothing, and a change within two bytes in a
row shows.
-/
namespace BekenCam.Crc

variable {w : ℕ}

theorem shift_eq_zero {poly : BitVec w} (hpoly : poly.getLsbD 0 = true) {x : BitVec w}
    (h : shift poly x = 0#w) : x = 0#w := by
  rw [shift] at h
  split_ifs at h with hmsb
  · have hbit := congrArg (BitVec.getLsbD · 0) h
    simp [hpoly] at hbit
  · apply BitVec.eq_of_toNat_eq
    have htop : x.toNat * 2 < 2 ^ w := by
      have hfalse : x.msb = false := by simpa using hmsb
      rw [BitVec.msb_eq_false_iff_two_mul_lt] at hfalse
      omega
    have hzero := congrArg BitVec.toNat h
    rw [BitVec.toNat_shiftLeft, Nat.shiftLeft_eq, pow_one, Nat.mod_eq_of_lt htop,
      BitVec.toNat_ofNat, Nat.zero_mod] at hzero
    rw [BitVec.toNat_ofNat, Nat.zero_mod]
    omega

theorem shift_injective {poly : BitVec w} (hpoly : poly.getLsbD 0 = true) :
    Function.Injective (shift poly) := by
  intro x y h
  have hzero : shift poly (x ^^^ y) = 0#w := by rw [shift_xor, h, BitVec.xor_self]
  have hxor := shift_eq_zero hpoly hzero
  exact (BitVec.xor_left_inj y).mp (hxor.trans BitVec.xor_self.symm)

theorem shifts_injective {poly : BitVec w} (hpoly : poly.getLsbD 0 = true) (n : ℕ) :
    Function.Injective (shifts poly n) := by
  induction n with
  | zero => exact fun _ _ h => h
  | succ n ih => exact (shift_injective hpoly).comp ih

theorem shifts_zero (poly : BitVec w) (n : ℕ) : shifts poly n 0#w = 0#w := by
  rw [shifts_eq_shiftLeft poly (by simp)]
  simp

theorem shifts_add (poly x : BitVec w) (m n : ℕ) :
    shifts poly m (shifts poly n x) = shifts poly (m + n) x := by
  induction m with
  | zero => rw [Nat.zero_add]; rfl
  | succ m ih => rw [shifts, ih, Nat.succ_add]; rfl

/-- The same bytes do not bring two registers together. -/
theorem checksum_injective {poly : BitVec w} (hpoly : poly.getLsbD 0 = true)
    (bytes : List (BitVec 8)) : Function.Injective fun crc => checksum poly crc bytes := by
  induction bytes with
  | nil => exact fun _ _ h => h
  | cons b bytes ih =>
    exact ih.comp ((shifts_injective hpoly 8).comp fun _ _ => (BitVec.xor_left_inj _).mp)

theorem checksum_append (poly crc : BitVec w) (l l' : List (BitVec 8)) :
    checksum poly crc (l ++ l') = checksum poly (checksum poly crc l) l' := List.foldl_append

/-! ## Sixteen bits -/

/-- Two bytes go in like one register. -/
theorem feed_feed (poly crc : BitVec 16) (a b : BitVec 8) :
    feed poly (feed poly crc a) b = shifts poly 16 (crc ^^^ (a ++ b)) := by
  have hlow : b.setWidth 16 <<< 8 = shifts poly 8 (b.setWidth 16) := by
    rw [shifts_eq_shiftLeft]
    have hb := b.isLt
    rw [BitVec.toNat_setWidth, Nat.mod_eq_of_lt (by omega)]
    omega
  have happend : a ++ b = a.setWidth 16 <<< 8 ^^^ b.setWidth 16 := by
    rw [BitVec.append_def]
    ext i hi
    simp only [BitVec.shiftLeftZeroExtend_eq, BitVec.getElem_or, BitVec.getElem_xor,
      BitVec.getElem_shiftLeft, BitVec.getElem_setWidth]
    by_cases h : i < 8
    · simp [h]
    · simp [h, BitVec.getLsbD_of_ge b i (by omega)]
  show shifts poly 8 (shifts poly 8 (crc ^^^ a.setWidth 16 <<< 8) ^^^ b.setWidth 16 <<< 8) = _
  rw [hlow, ← shifts_xor, shifts_add, happend, BitVec.xor_assoc]

/-- A checksum of 16 bits behind what it is of leaves nothing, and nothing else does. -/
theorem checksum_residue {poly : BitVec 16} (hpoly : poly.getLsbD 0 = true) (crc : BitVec 16)
    (bytes : List (BitVec 8)) (a b : BitVec 8) :
    checksum poly crc (bytes ++ [a, b]) = 0#16 ↔ checksum poly crc bytes = a ++ b := by
  have htwo : checksum poly crc (bytes ++ [a, b]) =
      shifts poly 16 (checksum poly crc bytes ^^^ (a ++ b)) := by
    rw [checksum_append]
    exact feed_feed ..
  rw [htwo]
  constructor
  · intro h
    have hxor := shifts_injective hpoly 16 (h.trans (shifts_zero poly 16).symm)
    exact (BitVec.xor_left_inj (a ++ b)).mp (hxor.trans BitVec.xor_self.symm)
  · intro h
    rw [h, BitVec.xor_self, shifts_zero]

/-- Two bytes in a row that are not both the same make another checksum. -/
theorem checksum_burst {poly : BitVec 16} (hpoly : poly.getLsbD 0 = true) (crc : BitVec 16)
    (front back : List (BitVec 8)) {a b a' b' : BitVec 8}
    (h : checksum poly crc (front ++ a :: b :: back) =
      checksum poly crc (front ++ a' :: b' :: back)) : a = a' ∧ b = b' := by
  have hfed : feed poly (feed poly (checksum poly crc front) a) b =
      feed poly (feed poly (checksum poly crc front) a') b' := by
    refine checksum_injective hpoly back ?_
    rw [checksum_append, checksum_append] at h
    exact h
  rw [feed_feed, feed_feed] at hfed
  have hword : a ++ b = a' ++ b' :=
    (BitVec.xor_right_inj _).mp (shifts_injective hpoly 16 hfed)
  have hhigh : ∀ x y : BitVec 8, (x ++ y).extractLsb' 8 8 = x := fun x y => by
    rw [BitVec.extractLsb'_append_eq_left]
  have hlow : ∀ x y : BitVec 8, (x ++ y).extractLsb' 0 8 = y := fun x y => by
    rw [BitVec.extractLsb'_append_eq_right]
  refine ⟨?_, ?_⟩
  · rw [← hhigh a b, hword, hhigh]
  · rw [← hlow a b, hword, hlow]

end BekenCam.Crc
