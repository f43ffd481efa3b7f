import Mathlib.Data.List.GetD
import Mathlib.Data.Nat.Digits.Lemmas
import Mathlib.Logic.Function.Basic

/-!
# A terminal

The line that the cursor is on, with no limit to its width. A character is written where the cursor
is, and a few controls move the cursor or blank the line.
-/
namespace BekenCam

inductive Terminal.Mode
  | ground
  | escaped
  | number (n : ℕ)
  deriving DecidableEq

structure Terminal where
  mode : Terminal.Mode
  line : ℕ → UInt8
  col : ℕ

namespace Terminal

/-- A text on a blank line. -/
def screen (text : List UInt8) : ℕ → UInt8 := fun i => text.getD i 0x20

def Printable (c : UInt8) : Prop := 0x20 ≤ c ∧ c ≤ 0x7E

instance (c : UInt8) : Decidable (Printable c) := inferInstanceAs (Decidable (_ ∧ _))

/-- The control that ends a sequence. A move by none is one by one. -/
def control (t : Terminal) (n : ℕ) (c : UInt8) : Terminal :=
  if c = 0x43 then { t with mode := .ground, col := t.col + max 1 n }
  else if c = 0x44 then { t with mode := .ground, col := t.col - max 1 n }
  else if c = 0x4B ∧ n = 2 then { t with mode := .ground, line := screen [] }
  else { t with mode := .ground }

def feed (t : Terminal) (c : UInt8) : Terminal :=
  match t.mode with
  | .ground =>
    if c = 0x1B then { t with mode := .escaped }
    else if c = 0x0D then { t with col := 0 }
    else if c = 0x0A then { t with line := screen [] }
    else if c = 0x08 then { t with col := t.col - 1 }
    else if Printable c then { t with line := Function.update t.line t.col c, col := t.col + 1 }
    else t
  | .escaped => { t with mode := if c = 0x5B then .number 0 else .ground }
  | .number n =>
    if 0x30 ≤ c ∧ c ≤ 0x39 then { t with mode := .number (10 * n + (c - 0x30).toNat) }
    else if 0x20 ≤ c ∧ c ≤ 0x3F then t
    else t.control n c

def write (t : Terminal) (s : List UInt8) : Terminal := s.foldl feed t

/-- The line shows the text, and the cursor is in the column. -/
def display (text : List UInt8) (col : ℕ) : Terminal := ⟨.ground, screen text, col⟩

@[simp] theorem write_nil (t : Terminal) : t.write [] = t := rfl

@[simp] theorem write_cons (t : Terminal) (c : UInt8) (s : List UInt8) :
    t.write (c :: s) = (t.feed c).write s := rfl

theorem write_append (t : Terminal) (s s' : List UInt8) :
    t.write (s ++ s') = (t.write s).write s' :=
  List.foldl_append

/-! ## Texts on a line -/

theorem screen_append_blanks (a : List UInt8) {b : List UInt8} (h : ∀ c ∈ b, c = 0x20) :
    screen (a ++ b) = screen a := by
  funext i
  unfold screen
  by_cases hi : i < a.length
  · rw [List.getD_append _ _ _ _ hi]
  · rw [List.getD_append_right _ _ _ _ (not_lt.mp hi), List.getD_eq_default a _ (not_lt.mp hi)]
    by_cases hb : i - a.length < b.length
    · rw [List.getD_eq_getElem _ _ hb]
      exact h _ (List.getElem_mem hb)
    · exact List.getD_eq_default _ _ (not_lt.mp hb)

theorem update_screen (a b : List UInt8) (c : UInt8) :
    Function.update (screen (a ++ b)) a.length c = screen (a ++ c :: b.tail) := by
  funext i
  unfold screen
  by_cases hi : i = a.length
  · rw [hi, Function.update_self, List.getD_append_right _ _ _ _ le_rfl, Nat.sub_self]
    rfl
  · rw [Function.update_of_ne hi]
    by_cases hlt : i < a.length
    · rw [List.getD_append _ _ _ _ hlt, List.getD_append _ _ _ _ hlt]
    · have hle : a.length ≤ i := not_lt.mp hlt
      obtain ⟨k, hk⟩ : ∃ k, i - a.length = k + 1 := ⟨i - a.length - 1, by omega⟩
      rw [List.getD_append_right _ _ _ _ hle, List.getD_append_right _ _ _ _ hle, hk,
        List.getD_cons_succ]
      cases b <;> rfl

/-! ## What is written -/

theorem feed_printable {c : UInt8} (h : Printable c) (line : ℕ → UInt8) (col : ℕ) :
    feed ⟨.ground, line, col⟩ c = ⟨.ground, Function.update line col c, col + 1⟩ := by
  obtain ⟨hlow, hhigh⟩ := h
  have hescape : c ≠ 0x1B := by rintro rfl; exact absurd hlow (by decide)
  have hreturn : c ≠ 0x0D := by rintro rfl; exact absurd hlow (by decide)
  have hfeed : c ≠ 0x0A := by rintro rfl; exact absurd hlow (by decide)
  have hback : c ≠ 0x08 := by rintro rfl; exact absurd hlow (by decide)
  unfold feed
  dsimp only
  rw [if_neg hescape, if_neg hreturn, if_neg hfeed, if_neg hback, if_pos ⟨hlow, hhigh⟩]

/-- A text covers what was there. -/
theorem write_printable (a b : List UInt8) {s : List UInt8} (h : ∀ c ∈ s, Printable c) :
    (display (a ++ b) a.length).write s =
      display (a ++ s ++ b.drop s.length) (a.length + s.length) := by
  induction s generalizing a b with
  | nil => simp [write]
  | cons c s ih =>
    rw [List.forall_mem_cons] at h
    have hnext := ih (a ++ [c]) b.tail h.2
    rw [List.length_append, List.length_singleton] at hnext
    rw [write_cons, display, feed_printable h.1, update_screen, List.append_cons]
    rw [display] at hnext
    rw [hnext, List.length_cons, List.append_assoc a, List.singleton_append, List.drop_tail,
      Nat.add_right_comm, Nat.add_assoc]

/-- The lines of a text scroll by. -/
theorem write_scroll {s : List UInt8} (h : ∀ c ∈ s, Printable c ∨ c = 0x0D ∨ c = 0x0A)
    (line : ℕ → UInt8) (col : ℕ) :
    ∃ line' col', (⟨.ground, line, col⟩ : Terminal).write s = ⟨.ground, line', col'⟩ := by
  induction s generalizing line col with
  | nil => exact ⟨line, col, rfl⟩
  | cons c s ih =>
    rw [List.forall_mem_cons] at h
    rw [write_cons]
    obtain hc | rfl | rfl := h.1
    · rw [feed_printable hc]
      exact ih h.2 _ _
    · exact ih h.2 line 0
    · exact ih h.2 (screen []) col

theorem write_newline (line : ℕ → UInt8) (col : ℕ) :
    (⟨.ground, line, col⟩ : Terminal).write [0x0D, 0x0A] = display [] 0 := rfl

/-! ## Numbers -/

/-- The digits of a number, the first one in front. -/
def decimal (digits : List ℕ) : List UInt8 := digits.reverse.map fun d => 0x30 + UInt8.ofNat d

theorem feed_digit {d : ℕ} (hd : d < 10) (n : ℕ) (line : ℕ → UInt8) (col : ℕ) :
    feed ⟨.number n, line, col⟩ (0x30 + UInt8.ofNat d) = ⟨.number (10 * n + d), line, col⟩ := by
  have hdigit : ∀ d < 10, (0x30 ≤ (0x30 + UInt8.ofNat d) ∧ (0x30 + UInt8.ofNat d) ≤ 0x39) ∧
      (0x30 + UInt8.ofNat d - 0x30).toNat = d := by decide
  unfold feed
  dsimp only
  rw [if_pos (hdigit d hd).1, (hdigit d hd).2]

theorem write_decimal {digits : List ℕ} (h : ∀ d ∈ digits, d < 10) (line : ℕ → UInt8) (col : ℕ) :
    (⟨.number 0, line, col⟩ : Terminal).write (decimal digits) =
      ⟨.number (Nat.ofDigits 10 digits), line, col⟩ := by
  induction digits with
  | nil => rfl
  | cons d digits ih =>
    rw [List.forall_mem_cons] at h
    rw [decimal, List.reverse_cons, List.map_append, write_append, ← decimal, ih h.2,
      List.map_singleton, write_cons, feed_digit h.1, write_nil, Nat.ofDigits_cons, Nat.add_comm]

end Terminal

end BekenCam
