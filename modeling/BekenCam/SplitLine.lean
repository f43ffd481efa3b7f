import Mathlib.Tactic

/-!
# A line with a cursor

What an editor of one line is for: two strings, one on each side of the cursor, that together never
grow beyond the capacity. A character that finds no room is dropped, and the line remembers that.
-/
namespace BekenCam

inductive Edit (α : Type*)
  | put (c : α)
  | removeLeft
  | removeRight
  | cursorLeft
  | cursorRight
  | home
  | toEnd
  | set (s : List α)
  | reset
  deriving DecidableEq

structure SplitLine (α : Type*) (capacity : ℕ) where
  left : List α
  right : List α
  overrun : Bool
  fits : left.length + right.length ≤ capacity
  deriving DecidableEq

namespace SplitLine

variable {α : Type*} {capacity : ℕ}

def empty : SplitLine α capacity where
  left := []
  right := []
  overrun := false
  fits := Nat.zero_le _

variable (l : SplitLine α capacity)

def length : ℕ := l.left.length + l.right.length

/-- A character in front of the cursor. -/
def put (c : α) : SplitLine α capacity :=
  if hroom : l.length < capacity then
    { l with
      left := l.left ++ [c]
      fits := by
        rw [length] at hroom
        rw [List.length_append, List.length_singleton]
        omega }
  else { l with overrun := true }

/-- As much of the string as the line can hold, with the cursor behind it. -/
def set (s : List α) : SplitLine α capacity where
  left := s.take capacity
  right := []
  overrun := capacity < s.length
  fits := by
    rw [List.length_take, List.length_nil]
    omega

def removeLeft : SplitLine α capacity :=
  { l with
    left := l.left.dropLast
    fits := by
      have hfits := l.fits
      rw [List.length_dropLast]
      omega }

def removeRight : SplitLine α capacity :=
  { l with
    right := l.right.tail
    fits := by
      have hfits := l.fits
      rw [List.length_tail]
      omega }

/-- The cursor goes over the last character on its left. -/
def cursorLeft : SplitLine α capacity :=
  { l with
    left := l.left.dropLast
    right := l.left.getLast?.toList ++ l.right
    fits := by
      have hfits := l.fits
      rcases List.eq_nil_or_concat' l.left with hleft | ⟨front, c, hleft⟩
      · simpa [hleft] using hfits
      · rw [hleft, List.length_append, List.length_singleton] at hfits
        rw [hleft, List.dropLast_concat, List.getLast?_concat, Option.toList_some,
          List.length_append, List.length_singleton]
        omega }

/-- The cursor goes over the first character on its right. -/
def cursorRight : SplitLine α capacity :=
  { l with
    left := l.left ++ l.right.head?.toList
    right := l.right.tail
    fits := by
      have hfits := l.fits
      cases hright : l.right with
      | nil => simpa [hright] using hfits
      | cons c right =>
        rw [hright, List.length_cons] at hfits
        rw [List.head?_cons, Option.toList_some, List.tail_cons, List.length_append,
          List.length_singleton]
        omega }

def home : SplitLine α capacity :=
  { l with
    left := []
    right := l.left ++ l.right
    fits := by
      rw [List.length_nil, Nat.zero_add, List.length_append]
      exact l.fits }

def toEnd : SplitLine α capacity :=
  { l with
    left := l.left ++ l.right
    right := []
    fits := by
      rw [List.length_nil, Nat.add_zero, List.length_append]
      exact l.fits }

@[simp] theorem removeLeft_left : l.removeLeft.left = l.left.dropLast := rfl

@[simp] theorem removeLeft_right : l.removeLeft.right = l.right := rfl

@[simp] theorem removeRight_left : l.removeRight.left = l.left := rfl

@[simp] theorem removeRight_right : l.removeRight.right = l.right.tail := rfl

@[simp] theorem cursorLeft_left : l.cursorLeft.left = l.left.dropLast := rfl

@[simp] theorem cursorLeft_right : l.cursorLeft.right = l.left.getLast?.toList ++ l.right := rfl

@[simp] theorem cursorRight_left : l.cursorRight.left = l.left ++ l.right.head?.toList := rfl

@[simp] theorem cursorRight_right : l.cursorRight.right = l.right.tail := rfl

/-- The line after an edit, and whether there was something to remove or to go over. -/
def edit : Edit α → Bool × SplitLine α capacity
  | .put c => (true, l.put c)
  | .removeLeft => (!l.left.isEmpty, l.removeLeft)
  | .removeRight => (!l.right.isEmpty, l.removeRight)
  | .cursorLeft => (!l.left.isEmpty, l.cursorLeft)
  | .cursorRight => (!l.right.isEmpty, l.cursorRight)
  | .home => (true, l.home)
  | .toEnd => (true, l.toEnd)
  | .set s => (true, SplitLine.set s)
  | .reset => (true, empty)

end SplitLine

end BekenCam
