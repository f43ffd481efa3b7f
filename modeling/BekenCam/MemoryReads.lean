import BekenCam.ByteBuffer
import BekenCam.CommandProgram

/-!
# Programs that read memory

The commands are the addresses that are read, the answers the bytes there. `Sees mem ok p a` says of
a reading program what it computes over a memory and that it looks at no address outside `ok`.
-/
namespace BekenCam

/-- A computation that looks at bytes of memory, one at a time. -/
abbrev Reads (α : Type) := Prog ℕ (fun _ => UInt8) α

/-- Memory answers with its bytes. -/
def memory (mem : ℕ → UInt8) : Handler ℕ (fun _ => UInt8) Unit := fun i s => (mem i, s)

def look (i : ℕ) : Reads UInt8 := Prog.command i

/-- The `n` bytes from `base` on. -/
def bytesAt (mem : ℕ → UInt8) (base n : ℕ) : List UInt8 :=
  (List.range n).map fun i => mem (base + i)

/-- What `memcpy` takes. -/
def lookBytes (base : ℕ) : ℕ → Reads (List UInt8)
  | 0 => pure []
  | n + 1 => do
    let front ← lookBytes base n
    let last ← look (base + n)
    return front ++ [last]

/-- Whether the word stands at `base`; the first byte that differs ends the look. -/
def lookSame (base : ℕ) : List UInt8 → Reads Bool
  | [] => pure true
  | b :: word => do
    if (← look base) = b then lookSame (base + 1) word else return false

/-- A memory of which only the first bytes matter. -/
def bytesMemory (bytes : List UInt8) (i : ℕ) : UInt8 := bytes.getD i 0

/-- `p[0] | p[1] << 8`. -/
def lookLe16 (base : ℕ) : Reads ℕ := do
  let low ← look base
  let high ← look (base + 1)
  return low.toNat ||| high.toNat <<< 8

/-- Two bytes as a number, the less significant one first. -/
def le16 (bytes : List UInt8) (off : ℕ) : ℕ :=
  (bytes.getD off 0).toNat + 256 * (bytes.getD (off + 1) 0).toNat

/-- What the program computes over this memory. -/
def valueOf {α : Type} (mem : ℕ → UInt8) (p : Reads α) : α := (p.run (memory mem) ()).1

structure Sees {α : Type} (mem : ℕ → UInt8) (ok : ℕ → Prop) (p : Reads α) (a : α) : Prop where
  value : valueOf mem p = a
  inside : ∀ i ∈ p.calls (memory mem) (), ok i

section Sees

variable {α β : Type} {mem : ℕ → UInt8} {ok ok' : ℕ → Prop} {p : Reads α} {f : α → Reads β}
  {a : α} {b : β} {base n : ℕ}

theorem sees_pure (a : α) : Sees mem ok (pure a) a := ⟨rfl, by simp⟩

theorem Sees.bind (hp : Sees mem ok p a) (hf : Sees mem ok (f a) b) : Sees mem ok (p >>= f) b := by
  refine ⟨?_, fun i hi => ?_⟩
  · have hfront : (p.run (memory mem) ()).1 = a := hp.value
    rw [valueOf, Prog.run_bind, hfront]
    exact hf.value
  · have hfront : (p.run (memory mem) ()).1 = a := hp.value
    rw [Prog.calls_bind, hfront, List.mem_append] at hi
    exact hi.elim (hp.inside i) (hf.inside i)

theorem Sees.mono (h : Sees mem ok p a) (hok : ∀ i, ok i → ok' i) : Sees mem ok' p a :=
  ⟨h.value, fun i hi => hok i (h.inside i hi)⟩

theorem Sees.unique {a' : α} (h : Sees mem ok p a) (h' : Sees mem ok' p a') : a = a' :=
  h.value.symm.trans h'.value

theorem sees_look {i : ℕ} (hi : ok i) : Sees mem ok (look i) (mem i) :=
  ⟨rfl, fun j hj => by simpa [look, Prog.command] using List.mem_singleton.mp hj ▸ hi⟩

theorem sees_look_bind {i : ℕ} {f : UInt8 → Reads β} (hi : ok i) (hf : Sees mem ok (f (mem i)) b) :
    Sees mem ok (look i >>= f) b :=
  (sees_look hi).bind hf

@[simp] theorem length_bytesAt (mem : ℕ → UInt8) (base n : ℕ) : (bytesAt mem base n).length = n := by
  simp [bytesAt]

@[simp] theorem getElem_bytesAt {i : ℕ} (hi : i < (bytesAt mem base n).length) :
    (bytesAt mem base n)[i] = mem (base + i) := by
  simp [bytesAt]

theorem bytesAt_succ (mem : ℕ → UInt8) (base n : ℕ) :
    bytesAt mem base (n + 1) = bytesAt mem base n ++ [mem (base + n)] := by
  simp [bytesAt, List.range_succ]

theorem bytesAt_cons (mem : ℕ → UInt8) (base n : ℕ) :
    bytesAt mem base (n + 1) = mem base :: bytesAt mem (base + 1) n := by
  refine List.ext_getElem (by simp) fun i _ _ => ?_
  cases i with
  | zero => simp
  | succ i => simp [Nat.add_comm 1, Nat.add_assoc]

theorem sees_lookBytes (hok : ∀ i < n, ok (base + i)) :
    Sees mem ok (lookBytes base n) (bytesAt mem base n) := by
  induction n with
  | zero => exact sees_pure _
  | succ n ih =>
    rw [bytesAt_succ]
    refine (ih fun i hi => hok i (Nat.lt_succ_of_lt hi)).bind ?_
    exact sees_look_bind (hok n (Nat.lt_succ_self n)) (sees_pure _)

theorem sees_lookSame {word : List UInt8} (hok : ∀ i < word.length, ok (base + i)) :
    Sees mem ok (lookSame base word) (decide (bytesAt mem base word.length = word)) := by
  induction word generalizing base with
  | nil => exact sees_pure _
  | cons b word ih =>
    refine sees_look_bind (hok 0 (by simp)) ?_
    rw [List.length_cons, bytesAt_cons]
    split
    · next hsame =>
      have hok' : ∀ i < word.length, ok (base + 1 + i) := by
        intro i hi
        have hnext := hok (i + 1) (by simpa using hi)
        rwa [Nat.add_comm i, ← Nat.add_assoc] at hnext
      simpa [hsame] using ih hok'
    · next hother =>
      have hfalse : Sees mem ok (pure false) false := sees_pure false
      simpa [hother] using hfalse

theorem bytesAt_bytesMemory (bytes : List UInt8) :
    bytesAt (bytesMemory bytes) 0 bytes.length = bytes := by
  refine List.ext_getElem (by simp) fun i _ hi => ?_
  rw [getElem_bytesAt, Nat.zero_add, bytesMemory, List.getD_eq_getElem _ _ hi]

theorem getD_bytesAt {i : ℕ} (hi : i < n) : (bytesAt mem base n).getD i 0 = mem (base + i) := by
  rw [List.getD_eq_getElem _ _ (by simpa using hi), getElem_bytesAt]

theorem slice_bytesAt {off len : ℕ} (h : off + len ≤ n) :
    slice (bytesAt mem base n) off len = bytesAt mem (base + off) len := by
  refine List.ext_getElem (by simp [slice]; omega) fun i _ _ => ?_
  simp [slice, Nat.add_assoc]

theorem take_bytesAt {k : ℕ} (h : k ≤ n) : (bytesAt mem base n).take k = bytesAt mem base k := by
  refine List.ext_getElem (by simpa using h) fun i _ _ => ?_
  simp

theorem drop_bytesAt (off : ℕ) :
    (bytesAt mem base n).drop off = bytesAt mem (base + off) (n - off) := by
  refine List.ext_getElem (by simp) fun i _ _ => ?_
  simp [Nat.add_assoc]

theorem shift_or (low high : UInt8) :
    low.toNat ||| high.toNat <<< 8 = low.toNat + 256 * high.toNat := by
  rw [Nat.or_comm, ← Nat.shiftLeft_add_eq_or_of_lt (by simpa using low.toNat_lt), Nat.shiftLeft_eq]
  ring

theorem sees_lookLe16 {off : ℕ} (hoff : off + 2 ≤ n) (hok : ∀ i < n, ok (base + i)) :
    Sees mem ok (lookLe16 (base + off)) (le16 (bytesAt mem base n) off) := by
  refine sees_look_bind (hok off (by omega)) (sees_look_bind (hok (off + 1) (by omega)) ?_)
  rw [le16, getD_bytesAt (by omega), getD_bytesAt (by omega), shift_or]
  exact sees_pure _

end Sees

end BekenCam
