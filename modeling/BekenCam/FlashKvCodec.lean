import BekenCam.ByteOrder
import BekenCam.FlashKvModel

/-!
# Record layout of the flash store

The little-endian codecs invert each other, and the buffer operations of
`encode_record` produce the fields of a record one after the other.
-/
namespace BekenCam.FlashKv

theorem readU16le_toNat (a b : UInt8) (l : List UInt8) :
    (readU16le (a :: b :: l)).toNat = a.toNat + 256 * b.toNat := by
  have ha := a.toNat_lt
  have hb := b.toNat_lt
  have h8 : (8 : UInt16).toNat % 16 = 8 := rfl
  simp only [readU16le, List.getD_cons_zero, List.getD_cons_succ, UInt16.toNat_or,
    UInt8.toNat_toUInt16, UInt16.toNat_shiftLeft, h8]
  rw [Nat.mod_eq_of_lt (by rw [Nat.shiftLeft_eq]; omega), Nat.or_comm,
    ← Nat.shiftLeft_add_eq_or_of_lt (by omega), Nat.shiftLeft_eq]
  omega

theorem readU16le_writeU16le (v : UInt16) (l : List UInt8) :
    readU16le (writeU16le v ++ l) = v := by
  have hv := v.toNat_lt
  have h8 : ∀ n : ℕ, n &&& 255 = n % 256 := fun n => Nat.and_two_pow_sub_one_eq_mod n 8
  apply UInt16.toNat_inj.mp
  rw [writeU16le, List.cons_append, List.cons_append, readU16le_toNat]
  simp [h8, Nat.shiftRight_eq_div_pow]
  omega

theorem readU32le_toNat (a b c d : UInt8) (l : List UInt8) :
    (readU32le (a :: b :: c :: d :: l)).toNat =
      a.toNat + 256 * b.toNat + 65536 * c.toNat + 16777216 * d.toNat := by
  have hturned : readU32le (a :: b :: c :: d :: l) =
      (d.toUInt32 <<< 24) ||| (c.toUInt32 <<< 16) ||| (b.toUInt32 <<< 8) ||| a.toUInt32 := by
    simp only [readU32le, List.getD_cons_zero, List.getD_cons_succ]
    rw [UInt32.or_comm _ (d.toUInt32 <<< 24), UInt32.or_comm _ (c.toUInt32 <<< 16),
      UInt32.or_comm a.toUInt32, UInt32.or_assoc, UInt32.or_assoc]
  rw [hturned, toNat_shifted]
  omega

theorem readU32le_writeU32le (v : UInt32) (l : List UInt8) :
    readU32le (writeU32le v ++ l) = v := by
  have hv := v.toNat_lt
  have h8 : ∀ n : ℕ, n &&& 255 = n % 256 := fun n => Nat.and_two_pow_sub_one_eq_mod n 8
  have h16 : ∀ n : ℕ, n &&& 65535 = n % 65536 := fun n => Nat.and_two_pow_sub_one_eq_mod n 16
  apply UInt32.toNat_inj.mp
  simp only [writeU32le, writeU16le, List.cons_append, List.nil_append]
  rw [readU32le_toNat]
  simp [h8, h16, Nat.shiftRight_eq_div_pow]
  omega

/-- Two bytes are what their number encodes to. -/
theorem writeU16le_readU16le (a b : UInt8) (l : List UInt8) :
    writeU16le (readU16le (a :: b :: l)) = [a, b] := by
  have ha := a.toNat_lt
  have hb := b.toNat_lt
  have h8 : ∀ n : ℕ, n &&& 255 = n % 256 := fun n => Nat.and_two_pow_sub_one_eq_mod n 8
  simp only [writeU16le, List.cons.injEq, and_true]
  constructor
  · apply UInt8.toNat_inj.mp
    simp only [UInt16.toNat_toUInt8, UInt16.toNat_and, UInt16.reduceToNat, readU16le_toNat, h8]
    omega
  · apply UInt8.toNat_inj.mp
    simp only [UInt16.toNat_toUInt8, UInt16.toNat_shiftRight, UInt16.reduceToNat,
      readU16le_toNat, Nat.shiftRight_eq_div_pow, Nat.reduceMod, Nat.reducePow]
    omega

theorem writeU32le_readU32le (a b c d : UInt8) (l : List UInt8) :
    writeU32le (readU32le (a :: b :: c :: d :: l)) = [a, b, c, d] := by
  have ha := a.toNat_lt
  have hb := b.toNat_lt
  have hc := c.toNat_lt
  have hd := d.toNat_lt
  have h16 : ∀ n : ℕ, n &&& 65535 = n % 65536 := fun n => Nat.and_two_pow_sub_one_eq_mod n 16
  have hn := readU32le_toNat a b c d l
  have hlow : (readU32le (a :: b :: c :: d :: l) &&& 0xFFFF).toUInt16 = readU16le [a, b] := by
    apply UInt16.toNat_inj.mp
    simp only [readU16le_toNat, UInt32.toNat_toUInt16, UInt32.toNat_and, hn, UInt32.reduceToNat, h16]
    omega
  have hhigh : (readU32le (a :: b :: c :: d :: l) >>> 16).toUInt16 = readU16le [c, d] := by
    apply UInt16.toNat_inj.mp
    simp only [readU16le_toNat, UInt32.toNat_toUInt16, UInt32.toNat_shiftRight, hn,
      Nat.shiftRight_eq_div_pow, UInt32.reduceToNat, Nat.reduceMod, Nat.reducePow]
    omega
  rw [writeU32le, hlow, hhigh, writeU16le_readU16le, writeU16le_readU16le]
  rfl

@[simp] theorem length_writeU16le (v : UInt16) : (writeU16le v).length = 2 := rfl
@[simp] theorem length_writeU32le (v : UInt32) : (writeU32le v).length = 4 := rfl
@[simp] theorem length_encodeHeader : encodeHeader.length = 8 := rfl

theorem le_align4 (n : ℕ) : n ≤ align4 n := by simp only [align4]; omega

theorem recordSize_eq (len : ℕ) : recordSize len = align4 len + 8 := by
  simp only [recordSize, recordHeadSize, recordCrcSize]; omega

theorem recordSize_le {len : ℕ} (h : len ≤ 256) : recordSize len ≤ 264 := by
  simp only [recordSize_eq, align4]; omega

/-- The four bytes in front of a value. -/
def recordHead (key : UInt16) (len : ℕ) : List UInt8 :=
  writeU16le key ++ writeU16le (UInt16.ofNat len)

@[simp] theorem length_recordHead (key : UInt16) (len : ℕ) : (recordHead key len).length = 4 := rfl

theorem readU16le_recordHead (key : UInt16) (len : ℕ) (l : List UInt8) :
    readU16le (recordHead key len ++ l) = key := by
  rw [recordHead, List.append_assoc, readU16le_writeU16le]

theorem readU16le_recordHead_drop (key : UInt16) (len : ℕ) (l : List UInt8) :
    readU16le ((recordHead key len ++ l).drop 2) = UInt16.ofNat len :=
  readU16le_writeU16le (UInt16.ofNat len) l

/-- A head is determined by the key and the length read from it. -/
theorem recordHead_eq_of_length {head : List UInt8} (h : head.length = 4) :
    recordHead (readU16le head) (readU16le (head.drop 2)).toNat = head := by
  match head, h with
  | [a, b, c, d], _ =>
    simp only [recordHead, List.drop_succ_cons, List.drop_zero, UInt16.ofNat_toNat,
      writeU16le_readU16le, List.cons_append, List.nil_append]

/-- The record field by field. -/
theorem encodeRecord_eq (key : UInt16) (value : List UInt8) :
    encodeRecord key value = recordHead key value.length ++ (value ++
      (List.replicate (align4 value.length - value.length) 0 ++
        writeU32le (recordCrc (recordHead key value.length) value))) := by
  have hlen := le_align4 value.length
  set pad := List.replicate (align4 value.length - value.length) (0 : UInt8) with hpad
  have hzero : List.replicate (recordSize value.length) (0 : UInt8) =
      [] ++ ([0, 0] ++ ([0, 0] ++ (List.replicate value.length 0 ++ (pad ++ [0, 0, 0, 0])))) := by
    have hs : recordSize value.length =
        2 + (2 + (value.length + ((align4 value.length - value.length) + 4))) := by
      rw [recordSize_eq]; omega
    rw [hs, List.replicate_add, List.replicate_add, List.replicate_add, List.replicate_add]
    rfl
  have h1 := writeAt_append_left [] [0, 0] (writeU16le key) rfl
    ([0, 0] ++ (List.replicate value.length 0 ++ (pad ++ [0, 0, 0, 0])))
  have h2 := writeAt_append_left (writeU16le key) [0, 0] (writeU16le (UInt16.ofNat value.length)) rfl
    (List.replicate value.length 0 ++ (pad ++ [0, 0, 0, 0]))
  have h3 := writeAt_append_left (recordHead key value.length) (List.replicate value.length 0) value
    (by simp) (pad ++ [0, 0, 0, 0])
  have h4 := writeAt_append_left (recordHead key value.length ++ (value ++ pad)) [0, 0, 0, 0]
    (writeU32le (recordCrc (recordHead key value.length) value)) rfl []
  have hoff : (recordHead key value.length ++ (value ++ pad)).length =
      recordSize value.length - recordCrcSize := by
    simp [recordSize_eq, hpad]; omega
  have hhead := slice_append_self (recordHead key value.length) (value ++ (pad ++ [0, 0, 0, 0]))
  have hvalue := slice_middle (recordHead key value.length) value (pad ++ [0, 0, 0, 0])
  simp only [length_recordHead, length_writeU16le, List.length_nil] at h1 h2 h3 hhead hvalue
  simp only [encodeRecord, hzero, recordHeadSize, h1]
  simp only [List.nil_append, h2]
  rw [← List.append_assoc (writeU16le key), ← recordHead, h3, hhead, hvalue, ← hoff]
  simpa using h4

@[simp] theorem length_encodeRecord (key : UInt16) (value : List UInt8) :
    (encodeRecord key value).length = recordSize value.length := by
  have hlen := le_align4 value.length
  simp [encodeRecord_eq, recordSize_eq]
  omega

end BekenCam.FlashKv
