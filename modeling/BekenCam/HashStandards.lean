import BekenCam.ByteOrder

/-!
# Hash functions as the standards define them

SHA-1 after FIPS 180, HMAC after RFC 2104, PBKDF2 after RFC 2898 and the PRF of 802.11. A message is
a list of bytes that is there as a whole; nothing is said about how it comes.
-/
namespace BekenCam.Standard

/-- `v` as `n` bytes, the most significant one first. -/
def octets (n v : ℕ) : List UInt8 :=
  (List.range n).reverse.map fun i => UInt8.ofNat (v / 256 ^ i)

/-! ## SHA-1 -/

def rotl (n : UInt32) (x : UInt32) : UInt32 := (x <<< n) ||| (x >>> (32 - n))

def ch (x y z : UInt32) : UInt32 := (x &&& y) ^^^ (~~~x &&& z)

def parity (x y z : UInt32) : UInt32 := x ^^^ y ^^^ z

def maj (x y z : UInt32) : UInt32 := (x &&& y) ^^^ (x &&& z) ^^^ (y &&& z)

def function (t : ℕ) : UInt32 → UInt32 → UInt32 → UInt32 :=
  if t < 20 then ch else if t < 40 then parity else if t < 60 then maj else parity

def constant (t : ℕ) : UInt32 :=
  if t < 20 then 0x5A827999
  else if t < 40 then 0x6ED9EBA1
  else if t < 60 then 0x8F1BBCDC
  else 0xCA62C1D6

/-- Word `t` of a block. -/
def word (block : List UInt8) (t : ℕ) : UInt32 :=
  UInt32.ofNat (beValue ((block.drop (4 * t)).take 4))

/-- The message schedule. -/
def schedule (block : List UInt8) (t : ℕ) : UInt32 :=
  if t < 16 then word block t
  else
    rotl 1 (schedule block (t - 3) ^^^ schedule block (t - 8) ^^^ schedule block (t - 14) ^^^
      schedule block (t - 16))
termination_by t

structure Words where
  a : UInt32
  b : UInt32
  c : UInt32
  d : UInt32
  e : UInt32

def round (block : List UInt8) (s : Words) (t : ℕ) : Words :=
  ⟨rotl 5 s.a + function t s.b s.c s.d + s.e + constant t + schedule block t, s.a, rotl 30 s.b, s.c,
    s.d⟩

def compress (h : Words) (block : List UInt8) : Words :=
  let s := (List.range 80).foldl (round block) h
  ⟨s.a + h.a, s.b + h.b, s.c + h.c, s.d + h.d, s.e + h.e⟩

def initial : Words := ⟨0x67452301, 0xEFCDAB89, 0x98BADCFE, 0x10325476, 0xC3D2E1F0⟩

/-- The bit 1, as few zeros as make the last block whole, and the length in bits. -/
def pad (message : List UInt8) : List UInt8 :=
  message ++ 0x80 :: List.replicate ((119 - message.length % 64) % 64) 0 ++
    octets 8 (8 * message.length)

def blocks (message : List UInt8) : List (List UInt8) :=
  if message = [] then [] else message.take 64 :: blocks (message.drop 64)
termination_by message.length
decreasing_by
  have hpos := List.length_pos_iff.mpr ‹¬message = []›
  rw [List.length_drop]
  omega

def sha1 (message : List UInt8) : List UInt8 :=
  let h := (blocks (pad message)).foldl compress initial
  octets 4 h.a.toNat ++ octets 4 h.b.toNat ++ octets 4 h.c.toNat ++ octets 4 h.d.toNat ++
    octets 4 h.e.toNat

/-! ## What is built on a hash -/

def xorBytes (a b : List UInt8) : List UInt8 := List.zipWith (· ^^^ ·) a b

/-- `blockSize` is in bytes. -/
def hmac (hash : List UInt8 → List UInt8) (blockSize : ℕ) (key text : List UInt8) : List UInt8 :=
  let key := if key.length > blockSize then hash key else key
  let key := key ++ List.replicate (blockSize - key.length) 0
  hash (key.map (· ^^^ 0x5c) ++ hash (key.map (· ^^^ 0x36) ++ text))

def hmacSha1 : List UInt8 → List UInt8 → List UInt8 := hmac sha1 64

section Pbkdf2

variable (prf : List UInt8 → List UInt8 → List UInt8) (password salt : List UInt8)

/-- `U` of a block, counted from 0. -/
def pbkdf2U (block : ℕ) : ℕ → List UInt8
  | 0 => prf password (salt ++ octets 4 block)
  | j + 1 => prf password (pbkdf2U block j)

/-- The sum of all `U`. -/
def pbkdf2T (iterations block : ℕ) : List UInt8 :=
  (List.range' 1 (iterations - 1)).foldl (fun t j => xorBytes t (pbkdf2U prf password salt block j))
    (pbkdf2U prf password salt block 0)

/-- `hLen` is the length of what `prf` gives. -/
def pbkdf2 (hLen iterations dkLen : ℕ) : List UInt8 :=
  ((List.range ((dkLen + hLen - 1) / hLen)).flatMap fun i =>
    pbkdf2T prf password salt iterations (i + 1)).take dkLen

end Pbkdf2

/-- The PRF of 802.11; the number of a hash is one byte. -/
def ieeePrf (key label data : List UInt8) (len : ℕ) : List UInt8 :=
  ((List.range ((8 * len + 159) / 160 + 1)).flatMap fun i =>
    hmacSha1 key (label ++ 0 :: data ++ [UInt8.ofNat i])).take len

/-! ## Blocks -/

theorem blocks_append {block : List UInt8} (h : block.length = 64) (message : List UInt8) :
    blocks (block ++ message) = block :: blocks message := by
  have hne : block ++ message ≠ [] := by
    rintro heq
    rw [List.append_eq_nil_iff] at heq
    rw [heq.1] at h
    cases h
  rw [blocks, if_neg hne, List.take_left' h, List.drop_left' h]

theorem blocks_flatten {bs : List (List UInt8)} (h : ∀ b ∈ bs, b.length = 64) :
    blocks bs.flatten = bs := by
  induction bs with
  | nil => rw [List.flatten_nil, blocks, if_pos rfl]
  | cons b bs ih =>
    rw [List.flatten_cons, blocks_append (h b List.mem_cons_self),
      ih fun b' hb' => h b' (List.mem_cons_of_mem b hb')]

@[simp] theorem length_octets (n v : ℕ) : (octets n v).length = n := by simp [octets]

theorem length_pad (message : List UInt8) : (pad message).length % 64 = 0 := by
  rw [pad, List.length_append, List.length_append, List.length_cons, List.length_replicate,
    length_octets]
  omega

end BekenCam.Standard
