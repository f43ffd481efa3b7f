import BekenCam.ByteBuffer
import BekenCam.HashStandards

/-!
# Hashes of Merkle and Damgård

A compression function takes a chaining value and one block. The message is padded with the bit 1,
zeros and its length in bits, cut in blocks, and folded. A program that sees the message in pieces
holds the chaining value of the whole blocks and the bytes behind them.
-/
namespace BekenCam.BlockHash

open Standard (octets)

/-- The message cut in blocks; a rest that is no whole block is left out. -/
def blocks (size : ℕ) (message : List UInt8) : List (List UInt8) :=
  (List.range (message.length / size)).map fun i => slice message (size * i) size

/-- The bit 1, as few zeros as make the last block whole, and the length in bits. -/
def pad (size lengthSize : ℕ) (message : List UInt8) : List UInt8 :=
  message ++ 0x80 :: List.replicate ((size - (message.length + 1 + lengthSize) % size) % size) 0 ++
    octets lengthSize (8 * message.length)

section Blocks

variable {size : ℕ}

theorem blocks_nil (size : ℕ) : blocks size [] = [] := by simp [blocks]

theorem blocks_append {block : List UInt8} (hsize : 0 < size) (h : block.length = size)
    (message : List UInt8) : blocks size (block ++ message) = block :: blocks size message := by
  have hcount : (block ++ message).length / size = message.length / size + 1 := by
    rw [List.length_append, h, Nat.add_div_left _ hsize]
  rw [blocks, hcount, List.range_succ_eq_map, List.map_cons, List.map_map]
  congr 1
  · rw [Nat.mul_zero, ← h, slice_append_self]
  · refine List.map_congr_left fun i _ => ?_
    have hskip := slice_append_right (a := block) (b := message) (size * i) size
    rw [h] at hskip
    rw [Function.comp_apply, Nat.mul_succ, Nat.add_comm, hskip]

theorem blocks_flatten {bs : List (List UInt8)} (hsize : 0 < size)
    (h : ∀ b ∈ bs, b.length = size) : blocks size bs.flatten = bs := by
  induction bs with
  | nil => exact blocks_nil size
  | cons b bs ih =>
    rw [List.flatten_cons, blocks_append hsize (h b List.mem_cons_self),
      ih fun b' hb' => h b' (List.mem_cons_of_mem b hb')]

theorem flatten_blocks (message : List UInt8) (h : message.length % size = 0) :
    (blocks size message).flatten = message := by
  have hprefix : ∀ n, ((List.range n).map fun i => slice message (size * i) size).flatten =
      message.take (size * n) := by
    intro n
    induction n with
    | zero => simp
    | succ n ih =>
      rw [List.range_succ, List.map_append, List.flatten_append, ih, List.map_singleton,
        List.flatten_singleton, Nat.mul_succ, List.take_add]
      rfl
  rw [blocks, hprefix, Nat.mul_div_cancel' (Nat.dvd_of_mod_eq_zero h), List.take_length]

theorem length_of_mem_blocks {message block : List UInt8} (h : block ∈ blocks size message) :
    block.length = size := by
  obtain ⟨i, hi, rfl⟩ := List.mem_map.mp h
  refine length_slice_of_le ?_
  have hlast := Nat.mul_le_mul_left size (List.mem_range.mp hi)
  have hwhole := Nat.mul_div_le message.length size
  rw [Nat.mul_succ] at hlast
  omega

theorem length_flatten_blocks {bs : List (List UInt8)} (h : ∀ b ∈ bs, b.length = size) :
    bs.flatten.length = size * bs.length := by
  rw [List.length_flatten, List.map_congr_left h]
  simp [Nat.mul_comm]

end Blocks

section Hash

variable {State : Type*} (size lengthSize : ℕ) (compress : State → List UInt8 → State)
  (initial : State)

/-- The chaining value of the padded message. -/
def hash (message : List UInt8) : State :=
  (blocks size (pad size lengthSize message)).foldl compress initial

/-- What a program holds that was given `message` in some pieces. -/
structure Absorbed (message : List UInt8) (s : State) (buffered : List UInt8) : Prop where
  short : buffered.length < size
  parts : ∃ bs : List (List UInt8), (∀ b ∈ bs, b.length = size) ∧
    message = bs.flatten ++ buffered ∧ s = bs.foldl compress initial

variable {size lengthSize compress initial}

theorem Absorbed.start (h : 0 < size) : Absorbed size compress initial [] initial [] :=
  ⟨h, [], nofun, rfl, rfl⟩

variable {message buffered : List UInt8} {s : State}

/-- A piece that leaves room in the buffer. -/
theorem Absorbed.fill (h : Absorbed size compress initial message s buffered) (piece : List UInt8)
    (hp : buffered.length + piece.length < size) :
    Absorbed size compress initial (message ++ piece) s (buffered ++ piece) := by
  obtain ⟨bs, hbs, hmessage, hs⟩ := h.parts
  refine ⟨by rwa [List.length_append], bs, hbs, ?_, hs⟩
  rw [hmessage, List.append_assoc]

/-- A piece that makes the block whole. -/
theorem Absorbed.whole (h : Absorbed size compress initial message s buffered) (piece : List UInt8)
    (hp : buffered.length + piece.length = size) :
    Absorbed size compress initial (message ++ piece) (compress s (buffered ++ piece)) [] := by
  obtain ⟨bs, hbs, hmessage, hs⟩ := h.parts
  refine ⟨Nat.zero_lt_of_lt h.short, bs ++ [buffered ++ piece], ?_, ?_, ?_⟩
  · intro b hb
    rcases List.mem_append.mp hb with hb | hb
    · exact hbs b hb
    · rw [List.mem_singleton.mp hb, List.length_append, hp]
  · rw [hmessage, List.flatten_append, List.flatten_singleton, List.append_nil, List.append_assoc]
  · rw [List.foldl_append, ← hs]
    rfl

theorem Absorbed.length_buffered (h : Absorbed size compress initial message s buffered) :
    buffered.length = message.length % size := by
  obtain ⟨bs, hbs, hmessage, -⟩ := h.parts
  rw [hmessage, List.length_append, length_flatten_blocks hbs, Nat.mul_add_mod,
    Nat.mod_eq_of_lt h.short]

/-- The hash is the chaining value once the padding has gone through the buffer. -/
theorem Absorbed.hash_eq (h : Absorbed size compress initial (pad size lengthSize message) s []) :
    hash size lengthSize compress initial message = s := by
  obtain ⟨bs, hbs, hmessage, hs⟩ := h.parts
  rw [hash, hmessage, List.append_nil, blocks_flatten h.short hbs, hs]

/-- The bytes of the padding when the length fits behind what is buffered. -/
theorem Absorbed.hash_one (h : Absorbed size compress initial message s buffered) (lengthSize : ℕ)
    (hfit : buffered.length + 1 + lengthSize ≤ size) :
    hash size lengthSize compress initial message =
      compress s (buffered ++ (0x80 :: List.replicate (size - lengthSize - (buffered.length + 1)) 0 ++
        octets lengthSize (8 * message.length))) := by
  have hzeros : (size - (message.length + 1 + lengthSize) % size) % size =
      size - lengthSize - (buffered.length + 1) := by
    have hmod : (message.length + 1 + lengthSize) % size =
        (buffered.length + 1 + lengthSize) % size := by
      rw [h.length_buffered, Nat.add_assoc, Nat.add_assoc, Nat.mod_add_mod]
    rw [hmod]
    rcases Nat.lt_or_ge (buffered.length + 1 + lengthSize) size with hlt | hge
    · rw [Nat.mod_eq_of_lt hlt, Nat.mod_eq_of_lt (by omega)]
      omega
    · obtain heq : buffered.length + 1 + lengthSize = size := by omega
      rw [heq, Nat.mod_self, Nat.sub_zero, Nat.mod_self]
      omega
  refine Absorbed.hash_eq ?_
  rw [pad, hzeros, List.append_assoc]
  refine h.whole _ ?_
  rw [List.length_append, List.length_cons, List.length_replicate, Standard.length_octets]
  omega

/-- The bytes of the padding when the length needs a block of its own. -/
theorem Absorbed.hash_two (h : Absorbed size compress initial message s buffered) (lengthSize : ℕ)
    (hover : size < buffered.length + 1 + lengthSize) (hlength : lengthSize ≤ size) :
    hash size lengthSize compress initial message =
      compress (compress s (buffered ++ 0x80 :: List.replicate (size - (buffered.length + 1)) 0))
        (List.replicate (size - lengthSize) 0 ++ octets lengthSize (8 * message.length)) := by
  have hshort := h.short
  have hzeros : (size - (message.length + 1 + lengthSize) % size) % size =
      size - (buffered.length + 1) + (size - lengthSize) := by
    have hmod : (message.length + 1 + lengthSize) % size =
        (buffered.length + 1 + lengthSize) % size := by
      rw [h.length_buffered, Nat.add_assoc, Nat.add_assoc, Nat.mod_add_mod]
    rw [hmod, Nat.mod_eq_sub_mod (Nat.le_of_lt hover)]
    rcases Nat.lt_or_ge (buffered.length + 1 + lengthSize - size) size with hlt | hge
    · rw [Nat.mod_eq_of_lt hlt, Nat.mod_eq_of_lt (by omega)]
      omega
    · obtain heq : buffered.length + 1 + lengthSize - size = size := by omega
      rw [heq, Nat.mod_self, Nat.sub_zero, Nat.mod_self]
      omega
  have hfirst := h.whole (0x80 :: List.replicate (size - (buffered.length + 1)) 0) (by
    rw [List.length_cons, List.length_replicate]
    omega)
  have hlast := hfirst.whole (List.replicate (size - lengthSize) 0 ++
    octets lengthSize (8 * message.length)) (by
    rw [List.length_append, List.length_replicate, Standard.length_octets, List.length_nil]
    omega)
  refine Absorbed.hash_eq ?_
  rw [pad, hzeros, List.replicate_add]
  simpa only [List.append_assoc, List.cons_append, List.nil_append] using hlast

end Hash

/-! ## SHA-1 is one of them -/

theorem pad_sha1 (message : List UInt8) : Standard.pad message = pad 64 8 message := by
  have hzeros : (119 - message.length % 64) % 64 = (64 - (message.length + 1 + 8) % 64) % 64 := by
    omega
  rw [Standard.pad, pad, hzeros]

theorem hash_sha1 (message : List UInt8) :
    (Standard.blocks (Standard.pad message)).foldl Standard.compress Standard.initial =
      hash 64 8 Standard.compress Standard.initial message := by
  have hwhole : ∀ n (m : List UInt8), m.length = 64 * n → Standard.blocks m = blocks 64 m := by
    intro n
    induction n with
    | zero =>
      intro m hm
      rw [List.length_eq_zero_iff.mp hm, blocks_nil, Standard.blocks, if_pos rfl]
    | succ n ih =>
      intro m hm
      have htake : (m.take 64).length = 64 := by
        rw [List.length_take]
        omega
      rw [← List.take_append_drop 64 m, Standard.blocks_append htake,
        blocks_append (by decide) htake, ih _ (by rw [List.length_drop]; omega)]
  have hlen := Standard.length_pad message
  rw [hash, ← pad_sha1, hwhole ((Standard.pad message).length / 64) _ (by omega)]

end BekenCam.BlockHash
