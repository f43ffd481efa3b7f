import BekenCam.CircularWindow
import BekenCam.StepRuns
import Mathlib.Data.BitVec

/-!
# The ring buffer

A byte FIFO with free-running cursors: `in` and `out` are never wrapped, only the index into
the storage is masked. The cursors are `size_t`, here words of any width `w`, and the capacity
is a power of two, so that a cursor may overflow without the buffer noticing.
-/
namespace BekenCam

/-- The buffer with what `RINGBUF_DECLARE` asserts of it. -/
structure Ringbuf (w : ℕ) where
  data : List UInt8
  mask : BitVec w
  inCursor : BitVec w
  outCursor : BitVec w
  size : data.length = mask.toNat + 1
  power : ∃ k < w, mask.toNat + 1 = 2 ^ k

namespace Ringbuf

variable {w : ℕ}

def count (rb : Ringbuf w) : BitVec w := rb.inCursor - rb.outCursor

def capacity (rb : Ringbuf w) : BitVec w := rb.mask + 1

def isEmpty (rb : Ringbuf w) : Bool := rb.inCursor == rb.outCursor

def isFull (rb : Ringbuf w) : Bool := rb.mask < rb.count

/-- `data[in & mask] = byte`. -/
def store (rb : Ringbuf w) (byte : UInt8) : Ringbuf w :=
  { rb with
    data := rb.data.set (rb.inCursor &&& rb.mask).toNat byte
    size := by rw [List.length_set, rb.size] }

/-- `in = in + 1`. -/
def publishIn (rb : Ringbuf w) : Ringbuf w := { rb with inCursor := rb.inCursor + 1 }

/-- `data[out & mask]`. -/
def load (rb : Ringbuf w) : UInt8 := rb.data.getD (rb.outCursor &&& rb.mask).toNat default

/-- `out = out + 1`. -/
def publishOut (rb : Ringbuf w) : Ringbuf w := { rb with outCursor := rb.outCursor + 1 }

def putByte (rb : Ringbuf w) (byte : UInt8) : Bool × Ringbuf w :=
  if rb.isFull then (false, rb) else (true, (rb.store byte).publishIn)

def getByte (rb : Ringbuf w) : Option UInt8 × Ringbuf w :=
  if rb.isEmpty then (none, rb) else (some rb.load, rb.publishOut)

/-! ## The bytes in the buffer -/

/-- The bytes that were put and not yet taken out, oldest first. -/
def unread (rb : Ringbuf w) : List UInt8 := window rb.data rb.outCursor.toNat rb.count.toNat

variable (rb : Ringbuf w)

@[simp] theorem length_unread : rb.unread.length = rb.count.toNat := by simp [unread]

theorem size_dvd : rb.data.length ∣ 2 ^ w := by
  obtain ⟨k, hk, hmask⟩ := rb.power
  rw [rb.size, hmask]
  exact pow_dvd_pow 2 hk.le

theorem size_lt : rb.data.length < 2 ^ w := by
  obtain ⟨k, hk, hmask⟩ := rb.power
  rw [rb.size, hmask]
  exact Nat.pow_lt_pow_right (by omega) hk

theorem toNat_capacity : rb.capacity.toNat = rb.data.length := by
  have hlt := rb.size_lt
  have hw : (1 : BitVec w).toNat = 1 := by
    obtain ⟨k, hk, -⟩ := rb.power
    have h : 1 < 2 ^ w := Nat.one_lt_two_pow (by omega)
    simp [Nat.mod_eq_of_lt h]
  rw [rb.size] at hlt ⊢
  rw [capacity, BitVec.toNat_add, hw, Nat.mod_eq_of_lt hlt]

/-- Masking is the remainder modulo the capacity. -/
theorem toNat_and_mask (c : BitVec w) : (c &&& rb.mask).toNat = c.toNat % rb.data.length := by
  obtain ⟨k, -, hmask⟩ := rb.power
  have h : rb.mask.toNat = 2 ^ k - 1 := by omega
  rw [BitVec.toNat_and, h, Nat.and_two_pow_sub_one_eq_mod, rb.size, hmask]

/-- The write cursor is `count` positions behind the read cursor, whether or not it wrapped. -/
theorem inCursor_mod : rb.inCursor.toNat % rb.data.length =
    (rb.outCursor.toNat + rb.count.toNat) % rb.data.length := by
  have h : rb.inCursor = rb.outCursor + rb.count := by
    rw [count, add_comm, sub_add_cancel]
  conv_lhs => rw [h, BitVec.toNat_add]
  exact Nat.mod_mod_of_dvd _ rb.size_dvd

theorem isEmpty_iff : rb.isEmpty = true ↔ rb.count.toNat = 0 := by
  have hsub : rb.inCursor = rb.outCursor ↔ rb.count = 0 := sub_eq_zero.symm
  rw [isEmpty, beq_iff_eq, hsub, ← BitVec.toNat_inj]
  simp

theorem isFull_iff : rb.isFull = true ↔ rb.data.length ≤ rb.count.toNat := by
  rw [isFull, decide_eq_true_iff, BitVec.lt_def, rb.size]
  omega

@[simp] theorem store_count (byte : UInt8) : (rb.store byte).count = rb.count := rfl

@[simp] theorem length_store (byte : UInt8) : (rb.store byte).data.length = rb.data.length :=
  List.length_set ..

@[simp] theorem publishIn_data : rb.publishIn.data = rb.data := rfl

@[simp] theorem publishOut_data : rb.publishOut.data = rb.data := rfl

variable {rb}

theorem toNat_one (h : rb.count.toNat < rb.data.length) : (1 : BitVec w).toNat = 1 := by
  have hlt := rb.size_lt
  have h2 : 1 < 2 ^ w := by omega
  simp [Nat.mod_eq_of_lt h2]

theorem publishIn_count (h : rb.count.toNat < rb.data.length) :
    rb.publishIn.count.toNat = rb.count.toNat + 1 := by
  have hlt := rb.size_lt
  have hcount : rb.publishIn.count = rb.count + 1 := by
    simp only [count, publishIn]
    exact add_sub_right_comm _ _ _
  rw [hcount, BitVec.toNat_add, toNat_one h, Nat.mod_eq_of_lt (by omega)]

theorem publishOut_count (h : 0 < rb.count.toNat) :
    rb.publishOut.count.toNat = rb.count.toNat - 1 := by
  have hlt := rb.count.isLt
  have hone : (1 : BitVec w).toNat = 1 := by
    have h2 : 1 < 2 ^ w := by omega
    simp [Nat.mod_eq_of_lt h2]
  have hcount : rb.publishOut.count = rb.count - 1 := by
    simp only [count, publishOut]
    exact sub_add_eq_sub_sub _ _ _
  rw [hcount, BitVec.toNat_sub_of_le, hone]
  rw [BitVec.le_def, hone]
  omega

/-- A store while there is room leaves the unread bytes alone. -/
theorem unread_store (byte : UInt8) (h : rb.count.toNat < rb.data.length) :
    (rb.store byte).unread = rb.unread := by
  have hindex : (rb.store byte).data =
      rb.data.set ((rb.outCursor.toNat + rb.count.toNat) % rb.data.length) byte := by
    rw [← rb.inCursor_mod, ← rb.toNat_and_mask]
    rfl
  rw [unread, hindex]
  exact window_set byte h

/-- Publishing makes the stored byte the last unread one. -/
theorem unread_publishIn (h : rb.count.toNat < rb.data.length) :
    rb.publishIn.unread =
      rb.unread ++ [rb.data.getD (rb.inCursor &&& rb.mask).toNat default] := by
  rw [unread, publishIn_count h, toNat_and_mask, inCursor_mod]
  exact window_succ _ _ _

theorem getD_store (byte : UInt8) :
    (rb.store byte).data.getD (rb.inCursor &&& rb.mask).toNat default = byte := by
  have hpos : 0 < rb.data.length := by
    rw [rb.size]
    omega
  have hlt : (rb.inCursor &&& rb.mask).toNat < rb.data.length := by
    rw [toNat_and_mask]
    exact Nat.mod_lt _ hpos
  rw [store, List.getD_eq_getElem?_getD, List.getElem?_set_self hlt, Option.getD_some]

/-- The load finds the oldest unread byte, and publishing takes it out. -/
theorem unread_eq_load_cons (h : 0 < rb.count.toNat) :
    rb.unread = rb.load :: rb.publishOut.unread := by
  obtain ⟨n, hn⟩ : ∃ n, rb.count.toNat = n + 1 := ⟨rb.count.toNat - 1, by omega⟩
  have hrest : rb.publishOut.unread = window rb.data (rb.outCursor.toNat + 1) n := by
    have hone : (1 : BitVec w).toNat = 1 := by
      have hlt := rb.count.isLt
      have h2 : 1 < 2 ^ w := by omega
      simp [Nat.mod_eq_of_lt h2]
    have hout : rb.publishOut.outCursor.toNat % rb.data.length =
        (rb.outCursor.toNat + 1) % rb.data.length := by
      simp only [publishOut]
      rw [BitVec.toNat_add, hone]
      exact Nat.mod_mod_of_dvd _ rb.size_dvd
    rw [unread, publishOut_count h, hn, publishOut_data]
    exact window_congr _ hout
  rw [hrest, unread, hn, window_eq_cons, load, toNat_and_mask]

theorem putByte_full (byte : UInt8) (h : rb.isFull = true) : rb.putByte byte = (false, rb) := by
  rw [putByte, if_pos h]

/-- A put into a buffer with room. -/
theorem putByte_spec (byte : UInt8) (h : rb.isFull = false) :
    (rb.putByte byte).1 = true ∧ (rb.putByte byte).2.unread = rb.unread ++ [byte] := by
  have hroom : rb.count.toNat < rb.data.length := by
    have hnot : ¬rb.data.length ≤ rb.count.toNat := by
      rw [← isFull_iff]
      simp [h]
    omega
  have hput : rb.putByte byte = (true, (rb.store byte).publishIn) := by
    rw [putByte, if_neg (by simp [h])]
  rw [hput]
  refine ⟨rfl, ?_⟩
  have hstored : (rb.store byte).count.toNat < (rb.store byte).data.length := by simpa using hroom
  have hlast := unread_publishIn hstored
  rw [hlast, unread_store byte hroom]
  congr 2
  exact getD_store byte

theorem isEmpty_iff_unread : rb.isEmpty = true ↔ rb.unread = [] := by
  rw [isEmpty_iff, ← List.length_eq_zero_iff, length_unread]

/-- A get from a buffer that holds something. -/
theorem getByte_spec (h : rb.isEmpty = false) :
    ∃ byte rb', rb.getByte = (some byte, rb') ∧ rb.unread = byte :: rb'.unread := by
  have hsome : 0 < rb.count.toNat := by
    have hnot : ¬rb.count.toNat = 0 := by
      rw [← isEmpty_iff]
      simp [h]
    omega
  refine ⟨rb.load, rb.publishOut, ?_, unread_eq_load_cons hsome⟩
  rw [getByte, if_neg (by simp [h])]

theorem getByte_empty (h : rb.isEmpty = true) : rb.getByte = (none, rb) := by
  rw [getByte, if_pos h]

@[simp] theorem isEmpty_reset (rb : Ringbuf w) (cursor : BitVec w) :
    ({ rb with inCursor := cursor, outCursor := cursor } : Ringbuf w).isEmpty = true := by
  simp [isEmpty]

end Ringbuf
end BekenCam
