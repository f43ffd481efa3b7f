import Mathlib.Tactic

/-!
# Windows on circular storage

Positions run on without end; the cell of a position is its remainder modulo the size of the
storage. A window is the content of `n` positions in a row, and `n` is at most the size.
-/
namespace BekenCam

variable {α : Type*} [Inhabited α]

/-- The content of the positions `o, o + 1, …, o + n - 1`. -/
def window (data : List α) (o n : ℕ) : List α :=
  (List.range n).map fun i => data.getD ((o + i) % data.length) default

@[simp] theorem length_window (data : List α) (o n : ℕ) : (window data o n).length = n := by
  simp [window]

@[simp] theorem window_zero (data : List α) (o : ℕ) : window data o 0 = [] := rfl

/-- One more position at the end. -/
theorem window_succ (data : List α) (o n : ℕ) :
    window data o (n + 1) = window data o n ++ [data.getD ((o + n) % data.length) default] := by
  simp [window, List.range_succ]

/-- The first position of a window. -/
theorem window_eq_cons (data : List α) (o n : ℕ) :
    window data o (n + 1) = data.getD (o % data.length) default :: window data (o + 1) n := by
  rw [window, List.range_succ_eq_map, List.map_cons, List.map_map, Nat.add_zero, window]
  congr 1
  apply List.map_congr_left
  intro i _
  simp only [Function.comp_apply, Nat.succ_eq_add_one]
  rw [show o + (i + 1) = o + 1 + i by omega]

/-- Positions that share their cells have the same content. -/
theorem window_congr {data : List α} {o o' : ℕ} (n : ℕ)
    (h : o % data.length = o' % data.length) : window data o n = window data o' n := by
  apply List.map_congr_left
  intro i _
  rw [Nat.add_mod, h, ← Nat.add_mod]

/-- Two positions less than the size apart lie in different cells. -/
theorem mod_ne_of_lt {o i j size : ℕ} (hij : i < j) (hj : j < i + size) :
    (o + i) % size ≠ (o + j) % size := by
  intro h
  have hdvd : size ∣ o + j - (o + i) := (Nat.modEq_iff_dvd' (by omega)).mp h
  have hle := Nat.le_of_dvd (by omega) hdvd
  omega

/-- Writing the cell behind a window that leaves room does not touch the window. -/
theorem window_set {data : List α} {o n : ℕ} (x : α) (hn : n < data.length) :
    window (data.set ((o + n) % data.length) x) o n = window data o n := by
  simp only [window, List.length_set]
  apply List.map_congr_left
  intro i hi
  have hlt : n < i + data.length := by omega
  have hne := mod_ne_of_lt (o := o) (List.mem_range.mp hi) hlt
  simp [List.getD_eq_getElem?_getD, hne.symm]

end BekenCam
