import Mathlib.Data.List.GetD
import Mathlib.Tactic

/-!
# Buffers as lists

A memory area is the list of its cells. `slice` is a read of `n` cells, `writeAt`
is a copy into the area, and `program` is a NOR flash program: it clears bits and
never sets one. A copy that runs past the end of the area makes the list longer,
so an area that keeps its length was never written outside its bounds.
-/
namespace BekenCam

section Slices

variable {α : Type*}

def slice (l : List α) (off n : ℕ) : List α := (l.drop off).take n

def writeAt (l : List α) (off : ℕ) (src : List α) : List α :=
  l.take off ++ src ++ l.drop (off + src.length)

@[simp] theorem length_slice (l : List α) (off n : ℕ) :
    (slice l off n).length = min n (l.length - off) := by simp [slice]

theorem length_slice_of_le {l : List α} {off n : ℕ} (h : off + n ≤ l.length) :
    (slice l off n).length = n := by
  rw [length_slice]
  omega

/-- What is left of an area is the next read and what is left behind it. -/
theorem drop_eq_slice_append (l : List α) (off n : ℕ) :
    l.drop off = slice l off n ++ l.drop (off + n) := by
  rw [slice, ← List.drop_drop, List.take_append_drop]

/-- Reads of equal areas up to `stop` agree below `stop`. -/
theorem slice_congr {l l' : List α} {stop off n : ℕ} (h : l.take stop = l'.take stop)
    (hn : off + n ≤ stop) : slice l off n = slice l' off n := by
  have hs : ∀ m : List α, slice m off n = slice (m.take stop) off n := by
    intro m
    simp only [slice, List.drop_take, List.take_take]
    congr 1
    omega
  rw [hs l, hs l', h]

theorem slice_append_left {a b : List α} {off n : ℕ} (h : off + n ≤ a.length) :
    slice (a ++ b) off n = slice a off n := by
  have hp : (a ++ b).take a.length = a.take a.length := by simp
  exact slice_congr hp h

theorem slice_append_right {a b : List α} (off n : ℕ) :
    slice (a ++ b) (a.length + off) n = slice b off n := by
  rw [slice, ← List.drop_drop, List.drop_left, slice]

@[simp] theorem slice_append_self (a b : List α) : slice (a ++ b) 0 a.length = a := by
  simp [slice]

/-- A read that starts where `a` ends and is as long as `b`. -/
theorem slice_middle (a b c : List α) : slice (a ++ (b ++ c)) a.length b.length = b := by
  have h := slice_append_right (a := a) (b := b ++ c) 0 b.length
  simpa using h

@[simp] theorem length_writeAt_of_le {l src : List α} {off : ℕ}
    (h : off + src.length ≤ l.length) : (writeAt l off src).length = l.length := by
  simp only [writeAt, List.length_append, List.length_take, List.length_drop]
  omega

theorem writeAt_front (l src : List α) : writeAt l 0 src = src ++ l.drop src.length := by
  rw [writeAt, List.take_zero, List.nil_append, Nat.zero_add]

theorem writeAt_append_left (a b src : List α) (h : src.length = b.length) (c : List α) :
    writeAt (a ++ (b ++ c)) a.length src = a ++ (src ++ c) := by
  simp [writeAt, List.drop_append, h]

theorem take_writeAt {l src : List α} {off : ℕ} (h : off ≤ l.length) :
    (writeAt l off src).take off = l.take off := by
  rw [writeAt, List.append_assoc, List.take_append_of_le_length (by simp [h])]
  simp

theorem getD_writeAt {l src : List α} {off : ℕ} (h : off + src.length ≤ l.length) (i : ℕ) (d : α) :
    (writeAt l off src).getD i d =
      if off ≤ i ∧ i < off + src.length then src.getD (i - off) d else l.getD i d := by
  have htake : (l.take off).length = off := by
    rw [List.length_take]
    omega
  rw [writeAt, List.append_assoc]
  rcases Nat.lt_or_ge i off with hlt | hge
  · rw [if_neg (by omega), List.getD_append _ _ _ _ (by omega)]
    simp only [List.getD_eq_getElem?_getD, List.getElem?_take, if_pos hlt]
  rw [List.getD_append_right _ _ _ _ (by omega), htake]
  rcases Nat.lt_or_ge i (off + src.length) with hin | hout
  · rw [if_pos ⟨hge, hin⟩, List.getD_append _ _ _ _ (by omega)]
  · rw [if_neg (by omega), List.getD_append_right _ _ _ _ (by omega)]
    simp only [List.getD_eq_getElem?_getD, List.getElem?_drop]
    congr 2
    omega

/-- What is behind a copy stays. -/
theorem drop_writeAt {l src : List α} {off n : ℕ} (h : off + src.length ≤ n)
    (hn : n ≤ l.length) : (writeAt l off src).drop n = l.drop n := by
  have hlen : (l.take off ++ src).length = off + src.length := by
    rw [List.length_append, List.length_take]
    omega
  obtain ⟨k, rfl⟩ := Nat.exists_eq_add_of_le h
  rw [writeAt, ← hlen, ← List.drop_drop, List.drop_left, List.drop_drop, hlen]

theorem slice_writeAt {l src : List α} {off : ℕ} (h : off ≤ l.length) :
    slice (writeAt l off src) off src.length = src := by
  have hlen : (l.take off).length = off := by simp [h]
  have hs := slice_middle (l.take off) src (l.drop (off + src.length))
  rw [hlen] at hs
  simpa [writeAt] using hs

/-- Writing back what was there before undoes a copy. -/
theorem writeAt_restore {l src : List α} {off n : ℕ} (hsrc : src.length = n)
    (h : off + n ≤ l.length) : writeAt (writeAt l off src) off (slice l off n) = l := by
  have hlen : (l.take off).length = off := by
    rw [List.length_take]
    omega
  have hold : (slice l off n).length = src.length := by rw [length_slice_of_le h, hsrc]
  have hw : writeAt l off src = l.take off ++ (src ++ l.drop (off + n)) := by
    rw [writeAt, hsrc, List.append_assoc]
  have hback := writeAt_append_left (l.take off) src (slice l off n) hold (l.drop (off + n))
  rw [hlen, ← hw] at hback
  rw [hback, ← drop_eq_slice_append, List.take_append_drop]

/-- Two copies, the second right behind the first. -/
theorem writeAt_writeAt {l a b : List α} {off : ℕ} (h : off ≤ l.length) :
    writeAt (writeAt l off a) (off + a.length) b = writeAt l off (a ++ b) := by
  have hm : (l.take off ++ a).length = off + a.length := by simp [h]
  have hfirst : writeAt l off a = (l.take off ++ a) ++ l.drop (off + a.length) := rfl
  rw [hfirst, writeAt, List.take_left' hm, ← List.drop_drop, List.drop_left' hm, List.drop_drop,
    writeAt, List.length_append, List.append_assoc (l.take off), Nat.add_assoc]

end Slices

/-! ## Arrays of a fixed size -/

/-- A byte array whose size is part of its type. -/
abbrev Octets (n : ℕ) := { l : List UInt8 // l.length = n }

namespace Octets

variable {n : ℕ}

def zero (n : ℕ) : Octets n := ⟨List.replicate n 0, List.length_replicate⟩

/-- The `len` bytes from `off` on. -/
def part (a : Octets n) (off len : ℕ) (h : off + len ≤ n) : Octets len :=
  ⟨slice a.val off len, length_slice_of_le (by rw [a.property]; exact h)⟩

end Octets

/-! ## NOR memory -/

/-- Programming ANDs the new bytes into the old ones. -/
def program (mem : List UInt8) (off : ℕ) (src : List UInt8) : List UInt8 :=
  mem.take off ++ List.zipWith (· &&& ·) (mem.drop off) src ++ mem.drop (off + src.length)

/-- The content of an erased area. -/
def blank (n : ℕ) : List UInt8 := List.replicate n 0xFF

@[simp] theorem length_blank (n : ℕ) : (blank n).length = n := by simp [blank]

@[simp] theorem length_program (mem : List UInt8) (off : ℕ) (src : List UInt8) :
    (program mem off src).length = mem.length := by
  simp only [program, List.length_append, List.length_take, List.length_zipWith,
    List.length_drop]
  omega

theorem zipWith_and_blank (src : List UInt8) :
    List.zipWith (· &&& ·) (blank src.length) src = src := by
  induction src with
  | nil => rfl
  | cons b src ih =>
    have hb : (0xFF : UInt8) &&& b = b := by
      have h : (-1 : UInt8) &&& b = b := UInt8.neg_one_and
      exact h
    simp only [blank, List.length_cons, List.replicate_succ, List.zipWith_cons_cons] at ih ⊢
    rw [hb, ih]

/-- On an erased area a program stores the bytes as they are. -/
theorem program_blank (a src c : List UInt8) :
    program (a ++ (blank src.length ++ c)) a.length src = a ++ (src ++ c) := by
  have hz : List.zipWith (· &&& ·) (blank src.length ++ c) src = src := by
    have hl : (blank src.length).length = src.length := length_blank _
    have h := @List.zipWith_append _ _ _ (fun x y : UInt8 => x &&& y) _ c _ [] hl
    rwa [List.append_nil, zipWith_and_blank, List.zipWith_nil_right, List.append_nil] at h
  simp [program, List.drop_append, hz]

theorem blank_add (m n : ℕ) : blank (m + n) = blank m ++ blank n := by
  rw [blank, List.replicate_add, blank, blank]

end BekenCam
