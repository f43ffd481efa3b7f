import BekenCam.ByteBuffer

/-!
# A NOR chip

A byte for each address, and a journal of the areas that were erased and programmed. Erasing sets
every bit of an area and programming only clears bits.
-/
namespace BekenCam.Nor

/-- The areas from `lo` up to `hi`. -/
inductive Op
  | erase (lo hi : ℕ)
  | program (lo hi : ℕ)
  deriving DecidableEq

def Op.lo : Op → ℕ
  | erase lo _ => lo
  | program lo _ => lo

def Op.hi : Op → ℕ
  | erase _ hi => hi
  | program _ hi => hi

structure Chip where
  cells : ℕ → UInt8
  journal : List Op

namespace Chip

def erase (c : Chip) (lo n : ℕ) : Chip where
  cells a := if lo ≤ a ∧ a < lo + n then 0xFF else c.cells a
  journal := c.journal ++ [.erase lo (lo + n)]

def program (c : Chip) (lo : ℕ) (bytes : List UInt8) : Chip where
  cells a :=
    if lo ≤ a ∧ a < lo + bytes.length then c.cells a &&& bytes.getD (a - lo) 0 else c.cells a
  journal := c.journal ++ [.program lo (lo + bytes.length)]

def read (c : Chip) (addr n : ℕ) : List UInt8 := (List.range n).map fun i => c.cells (addr + i)

variable {c c₁ c' : Chip} {lo hi : ℕ} {ops more : List Op}

theorem cells_erase (c : Chip) (lo n a : ℕ) :
    (c.erase lo n).cells a = if lo ≤ a ∧ a < lo + n then 0xFF else c.cells a := rfl

@[simp] theorem length_read (c : Chip) (addr n : ℕ) : (c.read addr n).length = n := by
  rw [read, List.length_map, List.length_range]

theorem getD_read (c : Chip) (addr : ℕ) {n i : ℕ} (h : i < n) (d : UInt8) :
    (c.read addr n).getD i d = c.cells (addr + i) := by
  rw [read, List.getD_eq_getElem _ _ (by rw [List.length_map, List.length_range]; exact h)]
  simp

theorem read_add (c : Chip) (addr m n : ℕ) :
    c.read addr (m + n) = c.read addr m ++ c.read (addr + m) n := by
  simp only [read, List.range_add, List.map_append, List.map_map, Function.comp_def, Nat.add_assoc]

theorem slice_read (c : Chip) (addr : ℕ) {off m n : ℕ} (h : off + m ≤ n) :
    slice (c.read addr n) off m = c.read (addr + off) m := by
  obtain ⟨k, rfl⟩ := Nat.exists_eq_add_of_le h
  have hoff := length_read c addr off
  have hm := length_read c (addr + off) m
  rw [Nat.add_assoc, read_add, read_add, slice, List.drop_left' hoff, List.take_left' hm]

/-- What is read from these addresses is this. -/
theorem read_eq_iff {addr : ℕ} {bytes : List UInt8} :
    c.read addr bytes.length = bytes ↔ ∀ i < bytes.length, c.cells (addr + i) = bytes.getD i 0 := by
  constructor
  · intro h i hi
    rw [← getD_read c addr hi 0, h]
  · intro h
    refine List.ext_getElem (length_read ..) fun i hi hi' => ?_
    rw [← List.getD_eq_getElem _ 0, ← List.getD_eq_getElem _ 0, getD_read c addr hi', h i hi']

/-! ## Areas -/

/-- From `c` to `c'` the chip took these operations, all of them between `lo` and `hi`. -/
structure Changes (c c' : Chip) (lo hi : ℕ) (ops : List Op) : Prop where
  journal : c'.journal = c.journal ++ ops
  inside : ∀ op ∈ ops, lo ≤ op.lo ∧ op.hi ≤ hi
  frame : ∀ a, a < lo ∨ hi ≤ a → c'.cells a = c.cells a

theorem Changes.refl (c : Chip) (lo hi : ℕ) : Changes c c lo hi [] where
  journal := (List.append_nil _).symm
  inside := nofun
  frame _ _ := rfl

theorem Changes.trans (h : Changes c c₁ lo hi ops) (h' : Changes c₁ c' lo hi more) :
    Changes c c' lo hi (ops ++ more) where
  journal := by rw [h'.journal, h.journal, List.append_assoc]
  inside := List.forall_mem_append.mpr ⟨h.inside, h'.inside⟩
  frame a ha := (h'.frame a ha).trans (h.frame a ha)

theorem Changes.mono {lo' hi' : ℕ} (h : Changes c c' lo hi ops) (hlo : lo' ≤ lo) (hhi : hi ≤ hi') :
    Changes c c' lo' hi' ops where
  journal := h.journal
  inside op hop := ⟨hlo.trans (h.inside op hop).1, (h.inside op hop).2.trans hhi⟩
  frame a ha := h.frame a (ha.imp (fun hlt => hlt.trans_le hlo) fun hge => hhi.trans hge)

theorem changes_erase (c : Chip) (lo n : ℕ) :
    Changes c (c.erase lo n) lo (lo + n) [.erase lo (lo + n)] where
  journal := rfl
  inside op hop := by
    obtain rfl := List.mem_singleton.mp hop
    exact ⟨le_rfl, le_rfl⟩
  frame a ha := if_neg (by omega)

theorem changes_program (c : Chip) (lo : ℕ) (bytes : List UInt8) :
    Changes c (c.program lo bytes) lo (lo + bytes.length) [.program lo (lo + bytes.length)] where
  journal := rfl
  inside op hop := by
    obtain rfl := List.mem_singleton.mp hop
    exact ⟨le_rfl, le_rfl⟩
  frame a ha := if_neg (by omega)

end Chip

/-- An erase behind a program leaves its area alone. -/
def Op.Spares : Op → Op → Prop
  | program lo hi, erase lo' hi' => hi ≤ lo' ∨ hi' ≤ lo
  | _, _ => True

theorem Op.spares_of_le {op op' : Op} (h : op.hi ≤ op'.lo) : op.Spares op' := by
  cases op with
  | erase lo hi => trivial
  | program lo hi =>
    cases op' with
    | erase lo' hi' => exact .inl h
    | program lo' hi' => trivial

end BekenCam.Nor
