import BekenCam.ByteBuffer

/-!
# The line editor

The line is a string in a buffer of fixed size, and the cursor an offset into it. An edit in the
middle moves the tail of the line.
-/
namespace BekenCam.Console

def inputBufferSize : ℕ := 2048

structure Input where
  sentinel1 : UInt32
  buffer : List UInt8
  sentinel2 : UInt32
  size : ℕ
  error : Bool
  cursor : ℕ
  deriving DecidableEq

/-- `memmove` within the buffer. -/
def memmove (buffer : List UInt8) (dst src n : ℕ) : List UInt8 :=
  writeAt buffer dst (slice buffer src n)

namespace Input

def fresh : Input where
  sentinel1 := 0xDEADBEEF
  buffer := List.replicate inputBufferSize 0
  sentinel2 := 0xF00DCAFE
  size := 0
  error := false
  cursor := 0

def reset (_ : Input) : Input := fresh

def checkIntegrity (i : Input) : Bool := i.sentinel1 = 0xDEADBEEF ∧ i.sentinel2 = 0xF00DCAFE

def put (i : Input) (c : UInt8) : Input :=
  if i.size ≥ inputBufferSize - 1 then { i with error := true }
  else
    let buffer :=
      if i.cursor < i.size then memmove i.buffer (i.cursor + 1) i.cursor (i.size - i.cursor)
      else i.buffer
    let i := { i with
      buffer := (buffer.set i.cursor c).set (i.size + 1) 0
      size := i.size + 1
      cursor := i.cursor + 1 }
    if i.checkIntegrity then i else { i with error := true }

def set (i : Input) (s : List UInt8) : Input := s.foldl put i.reset

def isEmpty (i : Input) : Bool := i.buffer.getD 0 0 = 0

def removeLeft (i : Input) : Bool × Input :=
  if i.cursor ≤ 0 then (false, i)
  else
    let buffer := memmove i.buffer (i.cursor - 1) i.cursor (i.size - i.cursor)
    (true, { i with
      buffer := buffer.set (i.size - 1) 0
      size := i.size - 1
      cursor := i.cursor - 1 })

def removeRight (i : Input) : Bool × Input :=
  if i.cursor ≥ i.size then (false, i)
  else
    let buffer := memmove i.buffer i.cursor (i.cursor + 1) (i.size - i.cursor - 1)
    (true, { i with buffer := buffer.set (i.size - 1) 0, size := i.size - 1 })

def cursorLeft (i : Input) : Bool × Input :=
  if i.cursor > 0 then (true, { i with cursor := i.cursor - 1 }) else (false, i)

def cursorRight (i : Input) : Bool × Input :=
  if i.cursor < i.size then (true, { i with cursor := i.cursor + 1 }) else (false, i)

def getOffset (i : Input) : ℕ := i.cursor

def setOffset (i : Input) (offset : ℕ) : Input := { i with cursor := offset }

/-! ## The line around the cursor -/

/-- The buffer holds the line and its end, with the cursor between the two parts. -/
structure Holds (i : Input) (left right : List UInt8) : Prop where
  length : i.buffer.length = inputBufferSize
  text : ∃ rest, i.buffer = left ++ (right ++ 0 :: rest)
  size : i.size = left.length + right.length
  cursor : i.cursor = left.length
  intact : i.checkIntegrity = true

theorem holds_fresh : fresh.Holds [] [] where
  length := List.length_replicate
  text := ⟨List.replicate (inputBufferSize - 1) 0, rfl⟩
  size := rfl
  cursor := rfl
  intact := rfl

theorem set_middle (a b : List UInt8) (x c : UInt8) : (a ++ x :: b).set a.length c = a ++ c :: b := by
  simp

/-- The tail of the line moves on by one. -/
theorem memmove_up (left : List UInt8) {right rest : List UInt8} {r : UInt8} :
    ∃ x, (if left.length < left.length + right.length then
        memmove (left ++ (right ++ 0 :: r :: rest)) (left.length + 1) left.length right.length
      else left ++ (right ++ 0 :: r :: rest)) = left ++ x :: (right ++ r :: rest) := by
  cases right with
  | nil => exact ⟨0, by simp⟩
  | cons a right =>
    refine ⟨a, ?_⟩
    have hmore : left.length < left.length + (a :: right).length := by
      rw [List.length_cons]
      omega
    have hsplit : left ++ ((a :: right) ++ 0 :: r :: rest) =
        (left ++ [a]) ++ ((right ++ [0]) ++ r :: rest) := by simp
    have hlen : left.length + 1 = (left ++ [a]).length := by simp
    rw [if_pos hmore, memmove, slice_middle, hsplit, hlen,
      writeAt_append_left _ _ _ (by simp)]
    simp

/-- The tail of the line moves back over a character. -/
theorem memmove_down (left right rest : List UInt8) (c : UInt8) :
    ∃ x, memmove (left ++ (c :: right ++ 0 :: rest)) left.length (left.length + 1) right.length =
      left ++ (right ++ x :: 0 :: rest) := by
  have hsplit : left ++ (c :: right ++ 0 :: rest) = (left ++ [c]) ++ (right ++ 0 :: rest) := by simp
  have hlen : left.length + 1 = (left ++ [c]).length := by simp
  have hread : slice (left ++ (c :: right ++ 0 :: rest)) (left.length + 1) right.length = right := by
    rw [hsplit, hlen, slice_middle]
  rw [memmove, hread]
  obtain ⟨front, x, hfront, hx⟩ : ∃ front x, front.length = right.length ∧
      c :: right = front ++ [x] := by
    refine ⟨(c :: right).dropLast, (c :: right).getLast (List.cons_ne_nil _ _), by simp, ?_⟩
    exact (List.dropLast_append_getLast _).symm
  have hbuffer : left ++ (c :: right ++ 0 :: rest) = left ++ (front ++ (x :: 0 :: rest)) := by
    rw [hx]
    simp
  exact ⟨x, by rw [hbuffer, writeAt_append_left _ _ _ hfront.symm]⟩

theorem close_gap (left right rest : List UInt8) (c : UInt8) :
    (memmove (left ++ (c :: right ++ 0 :: rest)) left.length (left.length + 1) right.length).set
      (left.length + right.length) 0 = left ++ (right ++ 0 :: 0 :: rest) := by
  obtain ⟨x, hmoved⟩ := memmove_down left right rest c
  have hindex : left.length + right.length = (left ++ right).length := by simp
  rw [hmoved, ← List.append_assoc, hindex, set_middle, List.append_assoc]

namespace Holds

variable {i : Input} {left right : List UInt8}

theorem size_lt (h : i.Holds left right) : left.length + right.length < inputBufferSize := by
  obtain ⟨rest, htext⟩ := h.text
  have hlen := congrArg List.length htext
  rw [h.length, List.length_append, List.length_append, List.length_cons] at hlen
  omega

/-- A character goes in at the cursor, and the tail moves on. -/
theorem put (h : i.Holds left right) (hroom : left.length + right.length < inputBufferSize - 1)
    (c : UInt8) : (i.put c).Holds (left ++ [c]) right ∧ (i.put c).error = i.error := by
  obtain ⟨rest, htext⟩ := h.text
  have hlen := h.length
  have hnotFull : ¬i.size ≥ inputBufferSize - 1 := by rw [h.size]; omega
  obtain ⟨r, rest, rfl⟩ : ∃ r rest', rest = r :: rest' := by
    refine List.exists_cons_of_ne_nil fun hnil => ?_
    rw [hnil] at htext
    rw [htext, List.length_append, List.length_append, List.length_singleton] at hlen
    omega
  obtain ⟨x, hmoved⟩ := @memmove_up left right rest r
  have hcount : i.size - i.cursor = right.length := by rw [h.size, h.cursor]; omega
  have hbuffer : ((if i.cursor < i.size then
      memmove i.buffer (i.cursor + 1) i.cursor (i.size - i.cursor) else i.buffer).set i.cursor c).set
        (i.size + 1) 0 = left ++ [c] ++ (right ++ 0 :: rest) := by
    rw [hcount, h.size, h.cursor, htext, hmoved, set_middle]
    have hindex : left.length + right.length + 1 = (left ++ c :: right).length := by simp; omega
    have hsplit : left ++ c :: (right ++ r :: rest) = (left ++ c :: right) ++ r :: rest := by simp
    rw [hindex, hsplit, set_middle]
    simp
  have hintact := h.intact
  unfold Input.checkIntegrity at hintact
  unfold Input.put
  simp only [if_neg hnotFull, hbuffer, Input.checkIntegrity, hintact, if_true]
  refine ⟨⟨?_, ⟨rest, rfl⟩, ?_, ?_, hintact⟩, trivial⟩
  · rw [htext] at hlen
    simp only [List.length_append, List.length_cons, List.length_nil] at hlen ⊢
    omega
  · dsimp only
    rw [List.length_append, List.length_singleton, h.size]
    omega
  · dsimp only
    rw [List.length_append, List.length_singleton, h.cursor]

theorem put_full (h : i.Holds left right)
    (hfull : left.length + right.length = inputBufferSize - 1) (c : UInt8) :
    i.put c = { i with error := true } := by
  unfold Input.put
  rw [if_pos (by rw [h.size]; omega)]

theorem removeLeft {c : UInt8} (h : i.Holds (left ++ [c]) right) :
    i.removeLeft.1 = true ∧ i.removeLeft.2.Holds left right ∧
      i.removeLeft.2.error = i.error := by
  obtain ⟨rest, htext⟩ := h.text
  have hlen := h.length
  have hcursor : i.cursor = left.length + 1 := by rw [h.cursor, List.length_append]; rfl
  have hsize : i.size = left.length + 1 + right.length := by rw [h.size, List.length_append]; rfl
  have hbuffer := close_gap left right rest c
  have hline : left ++ [c] ++ (right ++ 0 :: rest) = left ++ (c :: right ++ 0 :: rest) := by simp
  have hcount : i.size - i.cursor = right.length := by omega
  have hprev : i.cursor - 1 = left.length := by omega
  have hlast : i.size - 1 = left.length + right.length := by omega
  unfold Input.removeLeft
  rw [if_neg (show ¬i.cursor ≤ 0 by omega), hcount, hprev, hlast, hcursor, htext, hline]
  dsimp only
  rw [hbuffer]
  refine ⟨rfl, ⟨?_, ⟨0 :: rest, rfl⟩, rfl, rfl, h.intact⟩, rfl⟩
  rw [htext] at hlen
  simp only [List.length_append, List.length_cons, List.length_nil] at hlen ⊢
  omega

theorem removeRight {c : UInt8} (h : i.Holds left (c :: right)) :
    i.removeRight.1 = true ∧ i.removeRight.2.Holds left right ∧
      i.removeRight.2.error = i.error := by
  obtain ⟨rest, htext⟩ := h.text
  have hlen := h.length
  have hcursor := h.cursor
  have hsize : i.size = left.length + (right.length + 1) := h.size
  have hbuffer := close_gap left right rest c
  have hcount : i.size - i.cursor - 1 = right.length := by omega
  have hlast : i.size - 1 = left.length + right.length := by omega
  unfold Input.removeRight
  rw [if_neg (show ¬i.cursor ≥ i.size by omega), hcount, hlast, hcursor, htext]
  dsimp only
  rw [hbuffer]
  refine ⟨rfl, ⟨?_, ⟨0 :: rest, rfl⟩, rfl, rfl, h.intact⟩, rfl⟩
  rw [htext] at hlen
  simp only [List.length_append, List.length_cons] at hlen ⊢
  omega

theorem removeLeft_start (h : i.Holds [] right) : i.removeLeft = (false, i) := by
  have hcursor : i.cursor = 0 := h.cursor
  exact if_pos (by omega)

theorem removeRight_end (h : i.Holds left []) : i.removeRight = (false, i) := by
  have hcursor := h.cursor
  have hsize : i.size = left.length + 0 := h.size
  unfold Input.removeRight
  rw [if_pos (show i.cursor ≥ i.size by omega)]

theorem cursorLeft {c : UInt8} (h : i.Holds (left ++ [c]) right) :
    i.cursorLeft = (true, { i with cursor := i.cursor - 1 }) ∧
      Holds { i with cursor := i.cursor - 1 } left (c :: right) := by
  obtain ⟨rest, htext⟩ := h.text
  have hcursor : i.cursor = left.length + 1 := by rw [h.cursor, List.length_append]; rfl
  have hsize := h.size
  rw [List.length_append, List.length_singleton] at hsize
  refine ⟨if_pos (by omega), h.length, ⟨rest, by rw [htext]; simp⟩, ?_, ?_, h.intact⟩
  · dsimp only
    rw [List.length_cons]
    omega
  · dsimp only
    omega

theorem cursorLeft_start (h : i.Holds [] right) : i.cursorLeft = (false, i) := by
  have hcursor : i.cursor = 0 := h.cursor
  exact if_neg (by omega)

theorem cursorRight {c : UInt8} (h : i.Holds left (c :: right)) :
    i.cursorRight = (true, { i with cursor := i.cursor + 1 }) ∧
      Holds { i with cursor := i.cursor + 1 } (left ++ [c]) right := by
  obtain ⟨rest, htext⟩ := h.text
  have hcursor := h.cursor
  have hsize : i.size = left.length + (right.length + 1) := h.size
  refine ⟨if_pos (by omega), h.length, ⟨rest, by rw [htext]; simp⟩, ?_, ?_, h.intact⟩
  · dsimp only
    rw [List.length_append, List.length_singleton]
    omega
  · dsimp only
    rw [List.length_append, List.length_singleton]
    omega

theorem cursorRight_end (h : i.Holds left []) : i.cursorRight = (false, i) := by
  have hcursor := h.cursor
  have hsize : i.size = left.length + 0 := h.size
  exact if_neg (by omega)

theorem setOffset_start (h : i.Holds left right) : (i.setOffset 0).Holds [] (left ++ right) := by
  obtain ⟨rest, htext⟩ := h.text
  have hsize := h.size
  refine ⟨h.length, ⟨rest, by rw [setOffset, htext]; simp⟩, ?_, rfl, h.intact⟩
  rw [List.length_append, List.length_nil, Nat.zero_add]
  exact hsize

theorem setOffset_end (h : i.Holds left right) :
    (i.setOffset i.size).Holds (left ++ right) [] := by
  obtain ⟨rest, htext⟩ := h.text
  refine ⟨h.length, ⟨rest, by rw [setOffset, htext]; simp⟩, ?_, ?_, h.intact⟩
  · rw [List.length_append]
    exact h.size
  · rw [List.length_append]
    exact h.size

/-- Characters go in one after another as long as there is room. -/
theorem foldl_put (h : i.Holds left right) (s : List UInt8) :
    (s.foldl Input.put i).Holds
      (left ++ s.take (inputBufferSize - 1 - left.length - right.length)) right := by
  induction s generalizing i left with
  | nil => rwa [List.take_nil, List.append_nil]
  | cons c s ih =>
    have hsize := h.size_lt
    rw [List.foldl_cons]
    by_cases hroom : left.length + right.length < inputBufferSize - 1
    · have hrest := ih (h.put hroom c).1
      obtain ⟨n, hn⟩ : ∃ n, inputBufferSize - 1 - left.length - right.length = n + 1 :=
        ⟨inputBufferSize - 1 - left.length - right.length - 1, by omega⟩
      have hless : inputBufferSize - 1 - (left ++ [c]).length - right.length = n := by
        rw [List.length_append, List.length_singleton]
        omega
      rw [hless, List.append_assoc] at hrest
      rwa [hn, List.take_succ_cons]
    · have hfull : left.length + right.length = inputBufferSize - 1 := by omega
      have hnone : inputBufferSize - 1 - left.length - right.length = 0 := by omega
      have hrest := @ih { i with error := true } left ⟨h.length, h.text, h.size, h.cursor, h.intact⟩
      rw [hnone, List.take_zero] at hrest
      rwa [h.put_full hfull, hnone, List.take_zero]

/-- A string raises the error flag exactly when it does not fit. -/
theorem foldl_put_overrun (h : i.Holds left right) (s : List UInt8) :
    (s.foldl Input.put i).error =
      (i.error || decide (inputBufferSize - 1 < left.length + s.length + right.length)) := by
  induction s generalizing i left with
  | nil =>
    have hsize := h.size_lt
    have hfits : ¬inputBufferSize - 1 < left.length + 0 + right.length := by omega
    rw [List.foldl_nil, List.length_nil, decide_eq_false hfits, Bool.or_false]
  | cons c s ih =>
    have hsize := h.size_lt
    rw [List.foldl_cons, List.length_cons]
    by_cases hroom : left.length + right.length < inputBufferSize - 1
    · obtain ⟨hnext, herror⟩ := h.put hroom c
      have hcount : left.length + 1 + s.length + right.length =
          left.length + (s.length + 1) + right.length := by omega
      rw [ih hnext, herror, List.length_append, List.length_singleton, hcount]
    · have hover : inputBufferSize - 1 < left.length + (s.length + 1) + right.length := by omega
      have hfull : left.length + right.length = inputBufferSize - 1 := by omega
      have hrest := @ih { i with error := true } left ⟨h.length, h.text, h.size, h.cursor, h.intact⟩
      rw [h.put_full hfull, hrest, Bool.true_or, decide_eq_true hover, Bool.or_true]

theorem foldl_put_error (h : i.Holds left right) {s : List UInt8}
    (hroom : left.length + s.length + right.length ≤ inputBufferSize - 1) :
    (s.foldl Input.put i).error = i.error := by
  rw [h.foldl_put_overrun, decide_eq_false (by omega), Bool.or_false]

/-- A buffer holds one line. -/
theorem unique {left' right' : List UInt8} (h : i.Holds left right) (h' : i.Holds left' right') :
    left = left' ∧ right = right' := by
  obtain ⟨rest, htext⟩ := h.text
  obtain ⟨rest', htext'⟩ := h'.text
  have hleft : left.length = left'.length := h.cursor.symm.trans h'.cursor
  have hright : right.length = right'.length := by
    have hsize := h.size.symm.trans h'.size
    omega
  rw [htext] at htext'
  obtain ⟨hl, hrest⟩ := List.append_inj htext' hleft
  exact ⟨hl, (List.append_inj hrest hright).1⟩

end Holds

end Input

end BekenCam.Console
