import BekenCam.ShellInput
import BekenCam.SplitLine

/-!
# The line in the buffer

Buffer, size and cursor stand for the two strings around the cursor. Every edit of the buffer is the
edit of that line, whatever was edited before.
-/
namespace BekenCam.Console

namespace Input

/-- What the edit returns, and the input after it. Home and End set the offset. -/
def edit (i : Input) : Edit UInt8 → Bool × Input
  | .put c => (true, i.put c)
  | .removeLeft => i.removeLeft
  | .removeRight => i.removeRight
  | .cursorLeft => i.cursorLeft
  | .cursorRight => i.cursorRight
  | .home => (true, i.setOffset 0)
  | .toEnd => (true, i.setOffset i.size)
  | .set s => (true, i.set s)
  | .reset => (true, i.reset)

/-- The input is the line `l` in a buffer. -/
structure Refines (i : Input) (l : SplitLine UInt8 (inputBufferSize - 1)) : Prop where
  holds : i.Holds l.left l.right
  error : i.error = l.overrun

theorem refines_empty : fresh.Refines SplitLine.empty := ⟨holds_fresh, rfl⟩

namespace Refines

variable {i : Input} {l : SplitLine UInt8 (inputBufferSize - 1)}

theorem put (h : i.Refines l) (c : UInt8) : (i.put c).Refines (l.put c) := by
  unfold SplitLine.put
  split_ifs with hroom
  · obtain ⟨hholds, herror⟩ := h.holds.put hroom c
    exact ⟨hholds, herror.trans h.error⟩
  · have hsize := h.holds.size_lt
    have hfull : l.left.length + l.right.length = inputBufferSize - 1 := by
      rw [SplitLine.length] at hroom
      omega
    rw [h.holds.put_full hfull]
    have hholds := h.holds
    exact ⟨⟨hholds.length, hholds.text, hholds.size, hholds.cursor, hholds.intact⟩, rfl⟩

/-- A string takes the place of the line, as far as it fits. -/
theorem set (i : Input) (s : List UInt8) : (i.set s).Refines (SplitLine.set s) := by
  have hholds := holds_fresh.foldl_put s
  have herror := holds_fresh.foldl_put_overrun s
  rw [List.nil_append] at hholds
  rw [List.length_nil, Nat.zero_add, Nat.add_zero] at herror
  exact ⟨hholds, herror.trans (Bool.false_or _)⟩

theorem home (h : i.Refines l) : (i.setOffset 0).Refines l.home :=
  ⟨h.holds.setOffset_start, h.error⟩

theorem toEnd (h : i.Refines l) : (i.setOffset i.size).Refines l.toEnd :=
  ⟨h.holds.setOffset_end, h.error⟩

/-! ### Edits that need a character on one side

On a blank side the buffer stays as it is, and so does the line. -/

theorem removeLeft (h : i.Refines l) :
    i.removeLeft.1 = !l.left.isEmpty ∧ i.removeLeft.2.Refines l.removeLeft := by
  have hholds := h.holds
  rcases List.eq_nil_or_concat' l.left with hleft | ⟨front, c, hleft⟩
  · rw [hleft] at hholds
    rw [hholds.removeLeft_start]
    refine ⟨by rw [hleft]; rfl, ?_, h.error⟩
    rw [SplitLine.removeLeft_left, hleft, List.dropLast_nil]
    exact hholds
  · rw [hleft] at hholds
    obtain ⟨hdone, hnext, herror⟩ := hholds.removeLeft
    refine ⟨by simp [hdone, hleft], ?_, herror.trans h.error⟩
    rw [SplitLine.removeLeft_left, hleft, List.dropLast_concat]
    exact hnext

theorem removeRight (h : i.Refines l) :
    i.removeRight.1 = !l.right.isEmpty ∧ i.removeRight.2.Refines l.removeRight := by
  have hholds := h.holds
  rcases hright : l.right with _ | ⟨c, right⟩
  · rw [hright] at hholds
    rw [hholds.removeRight_end]
    refine ⟨rfl, ?_, h.error⟩
    rw [SplitLine.removeRight_right, hright]
    exact hholds
  · rw [hright] at hholds
    obtain ⟨hdone, hnext, herror⟩ := hholds.removeRight
    refine ⟨hdone, ?_, herror.trans h.error⟩
    rw [SplitLine.removeRight_right, hright]
    exact hnext

theorem cursorLeft (h : i.Refines l) :
    i.cursorLeft.1 = !l.left.isEmpty ∧ i.cursorLeft.2.Refines l.cursorLeft := by
  have hholds := h.holds
  rcases List.eq_nil_or_concat' l.left with hleft | ⟨front, c, hleft⟩
  · rw [hleft] at hholds
    rw [hholds.cursorLeft_start]
    refine ⟨by rw [hleft]; rfl, ?_, h.error⟩
    rw [SplitLine.cursorLeft_left, SplitLine.cursorLeft_right, hleft]
    exact hholds
  · rw [hleft] at hholds
    obtain ⟨hmoved, hnext⟩ := hholds.cursorLeft
    rw [hmoved]
    refine ⟨by simp [hleft], ?_, h.error⟩
    rw [SplitLine.cursorLeft_left, SplitLine.cursorLeft_right, hleft, List.dropLast_concat,
      List.getLast?_concat]
    exact hnext

theorem cursorRight (h : i.Refines l) :
    i.cursorRight.1 = !l.right.isEmpty ∧ i.cursorRight.2.Refines l.cursorRight := by
  have hholds := h.holds
  rcases hright : l.right with _ | ⟨c, right⟩
  · rw [hright] at hholds
    rw [hholds.cursorRight_end]
    refine ⟨rfl, ?_, h.error⟩
    rw [SplitLine.cursorRight_left, SplitLine.cursorRight_right, hright, List.head?_nil,
      Option.toList_none, List.append_nil]
    exact hholds
  · rw [hright] at hholds
    obtain ⟨hmoved, hnext⟩ := hholds.cursorRight
    rw [hmoved]
    refine ⟨rfl, ?_, h.error⟩
    rw [SplitLine.cursorRight_left, SplitLine.cursorRight_right, hright]
    exact hnext

/-- One edit of the buffer is that edit of the line. -/
theorem edit (h : i.Refines l) (e : Edit UInt8) :
    (i.edit e).1 = (l.edit e).1 ∧ (i.edit e).2.Refines (l.edit e).2 := by
  cases e with
  | put c => exact ⟨rfl, h.put c⟩
  | removeLeft => exact h.removeLeft
  | removeRight => exact h.removeRight
  | cursorLeft => exact h.cursorLeft
  | cursorRight => exact h.cursorRight
  | home => exact ⟨rfl, h.home⟩
  | toEnd => exact ⟨rfl, h.toEnd⟩
  | set s => exact ⟨rfl, set i s⟩
  | reset => exact ⟨rfl, refines_empty⟩

/-- A run of edits on the buffer is that run on the line. -/
theorem edits (h : i.Refines l) (es : List (Edit UInt8)) :
    (es.foldl (fun i e => (i.edit e).2) i).Refines (es.foldl (fun l e => (l.edit e).2) l) :=
  List.foldl_rel h fun e _ _ _ hnext => (hnext.edit e).2

end Refines

end Input

/-- After any edits the buffer holds the line they make and its end, the next edit does to it what
it does to the line, and a full line takes no character. -/
theorem editor_refines (es : List (Edit UInt8)) :
    let i := es.foldl (fun i e => (i.edit e).2) Input.fresh
    let l : SplitLine UInt8 2047 := es.foldl (fun l e => (l.edit e).2) SplitLine.empty
    (i.buffer.length = 2048 ∧ ∃ rest, i.buffer = l.left ++ l.right ++ 0 :: rest) ∧
      (i.getOffset = l.left.length ∧ i.size = l.left.length + l.right.length) ∧
      (i.getOffset ≤ i.size ∧ i.size ≤ 2047) ∧ i.error = l.overrun ∧
      (∀ e, (i.edit e).1 = (l.edit e).1 ∧ (i.edit e).2.Refines (l.edit e).2) ∧
      (i.size = 2047 → ∀ c, i.put c = { i with error := true }) := by
  intro i l
  have h : i.Refines l := Input.refines_empty.edits es
  obtain ⟨rest, htext⟩ := h.holds.text
  have hoffset : i.getOffset = l.left.length := h.holds.cursor
  have hsize := h.holds.size
  have hfits := l.fits
  refine ⟨⟨h.holds.length, rest, ?_⟩, ⟨hoffset, hsize⟩, ⟨?_, ?_⟩, h.error, h.edit, ?_⟩
  · rw [htext, List.append_assoc]
  · omega
  · omega
  · intro hfull c
    exact h.holds.put_full (hsize.symm.trans hfull) c

end BekenCam.Console
