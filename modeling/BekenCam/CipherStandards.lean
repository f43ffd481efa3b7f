import BekenCam.HashStandards
import Mathlib.Logic.Function.Iterate

/-!
# AES-128 and the key wrap as the standards define them

The cipher after FIPS 197, with the S-box as its table and a block as the state of four rows, column
by column. The key wrap after RFC 3394, with its registers in their places.
-/
namespace BekenCam.Standard

/-! ## Bytes -/

/-- A row for each value of the upper four bits. -/
def sBoxTable : List UInt8 :=
  [0x63, 0x7c, 0x77, 0x7b, 0xf2, 0x6b, 0x6f, 0xc5, 0x30, 0x01, 0x67, 0x2b, 0xfe, 0xd7, 0xab, 0x76,
   0xca, 0x82, 0xc9, 0x7d, 0xfa, 0x59, 0x47, 0xf0, 0xad, 0xd4, 0xa2, 0xaf, 0x9c, 0xa4, 0x72, 0xc0,
   0xb7, 0xfd, 0x93, 0x26, 0x36, 0x3f, 0xf7, 0xcc, 0x34, 0xa5, 0xe5, 0xf1, 0x71, 0xd8, 0x31, 0x15,
   0x04, 0xc7, 0x23, 0xc3, 0x18, 0x96, 0x05, 0x9a, 0x07, 0x12, 0x80, 0xe2, 0xeb, 0x27, 0xb2, 0x75,
   0x09, 0x83, 0x2c, 0x1a, 0x1b, 0x6e, 0x5a, 0xa0, 0x52, 0x3b, 0xd6, 0xb3, 0x29, 0xe3, 0x2f, 0x84,
   0x53, 0xd1, 0x00, 0xed, 0x20, 0xfc, 0xb1, 0x5b, 0x6a, 0xcb, 0xbe, 0x39, 0x4a, 0x4c, 0x58, 0xcf,
   0xd0, 0xef, 0xaa, 0xfb, 0x43, 0x4d, 0x33, 0x85, 0x45, 0xf9, 0x02, 0x7f, 0x50, 0x3c, 0x9f, 0xa8,
   0x51, 0xa3, 0x40, 0x8f, 0x92, 0x9d, 0x38, 0xf5, 0xbc, 0xb6, 0xda, 0x21, 0x10, 0xff, 0xf3, 0xd2,
   0xcd, 0x0c, 0x13, 0xec, 0x5f, 0x97, 0x44, 0x17, 0xc4, 0xa7, 0x7e, 0x3d, 0x64, 0x5d, 0x19, 0x73,
   0x60, 0x81, 0x4f, 0xdc, 0x22, 0x2a, 0x90, 0x88, 0x46, 0xee, 0xb8, 0x14, 0xde, 0x5e, 0x0b, 0xdb,
   0xe0, 0x32, 0x3a, 0x0a, 0x49, 0x06, 0x24, 0x5c, 0xc2, 0xd3, 0xac, 0x62, 0x91, 0x95, 0xe4, 0x79,
   0xe7, 0xc8, 0x37, 0x6d, 0x8d, 0xd5, 0x4e, 0xa9, 0x6c, 0x56, 0xf4, 0xea, 0x65, 0x7a, 0xae, 0x08,
   0xba, 0x78, 0x25, 0x2e, 0x1c, 0xa6, 0xb4, 0xc6, 0xe8, 0xdd, 0x74, 0x1f, 0x4b, 0xbd, 0x8b, 0x8a,
   0x70, 0x3e, 0xb5, 0x66, 0x48, 0x03, 0xf6, 0x0e, 0x61, 0x35, 0x57, 0xb9, 0x86, 0xc1, 0x1d, 0x9e,
   0xe1, 0xf8, 0x98, 0x11, 0x69, 0xd9, 0x8e, 0x94, 0x9b, 0x1e, 0x87, 0xe9, 0xce, 0x55, 0x28, 0xdf,
   0x8c, 0xa1, 0x89, 0x0d, 0xbf, 0xe6, 0x42, 0x68, 0x41, 0x99, 0x2d, 0x0f, 0xb0, 0x54, 0xbb, 0x16]

def sBox (a : UInt8) : UInt8 := sBoxTable.getD a.toNat 0

/-- Twice a byte, in the field. -/
def timesTwo (a : UInt8) : UInt8 := if a < 0x80 then a <<< 1 else (a <<< 1) ^^^ 0x1b

def timesThree (a : UInt8) : UInt8 := timesTwo a ^^^ a

/-! ## The state -/

/-- Row `r` of column `c`. -/
def cell (s : List UInt8) (r c : ℕ) : UInt8 := s.getD (4 * c + r) 0

def state (f : ℕ → ℕ → UInt8) : List UInt8 := (List.range 16).map fun k => f (k % 4) (k / 4)

def subBytes (s : List UInt8) : List UInt8 := state fun r c => sBox (cell s r c)

def shiftRows (s : List UInt8) : List UInt8 := state fun r c => cell s r ((c + r) % 4)

def mixColumns (s : List UInt8) : List UInt8 :=
  state fun r c => timesTwo (cell s r c) ^^^ timesThree (cell s ((r + 1) % 4) c) ^^^
    cell s ((r + 2) % 4) c ^^^ cell s ((r + 3) % 4) c

/-- A column gets a word of the key schedule. -/
def addRoundKey (w : ℕ → ℕ → UInt8) (s : List UInt8) (round : ℕ) : List UInt8 :=
  state fun r c => cell s r c ^^^ w (4 * round + c) r

/-! ## The cipher -/

def rcon (i : ℕ) : UInt8 := timesTwo^[i - 1] 1

/-- Word `i` of the key schedule, byte by byte. -/
def keySchedule (key : List UInt8) (i r : ℕ) : UInt8 :=
  if i < 4 then key.getD (4 * i + r) 0
  else
    keySchedule key (i - 4) r ^^^
      if i % 4 = 0 then
        sBox (keySchedule key (i - 1) ((r + 1) % 4)) ^^^ (if r = 0 then rcon (i / 4) else 0)
      else keySchedule key (i - 1) r
termination_by i

theorem keySchedule_next (key : List UInt8) (i r : ℕ) : keySchedule key (4 + i) r =
    keySchedule key i r ^^^
      if (4 + i) % 4 = 0 then
        sBox (keySchedule key (3 + i) ((r + 1) % 4)) ^^^ (if r = 0 then rcon ((4 + i) / 4) else 0)
      else keySchedule key (3 + i) r := by
  have hprevious : 4 + i - 1 = 3 + i := by omega
  rw [keySchedule, if_neg (by omega), Nat.add_sub_cancel_left, hprevious]

def cipher (w : ℕ → ℕ → UInt8) (input : List UInt8) : List UInt8 :=
  let s := (List.range' 1 9).foldl
    (fun s round => addRoundKey w (mixColumns (shiftRows (subBytes s))) round)
    (addRoundKey w input 0)
  addRoundKey w (shiftRows (subBytes s)) 10

def aes128 (key input : List UInt8) : List UInt8 := cipher (keySchedule key) input

/-! ## The key wrap -/

/-- The integrity check and the blocks, which are counted from 1. -/
structure Registers where
  a : List UInt8
  r : ℕ → List UInt8

def wrapBlock (kek : List UInt8) (n j : ℕ) (s : Registers) (i : ℕ) : Registers :=
  let b := aes128 kek (s.a ++ s.r i)
  ⟨xorBytes (b.take 8) (octets 8 (n * j + i)), Function.update s.r i (b.drop 8)⟩

def aesKeyWrap (kek plain : List UInt8) : List UInt8 :=
  let n := plain.length / 8
  let start : Registers := ⟨List.replicate 8 0xA6, fun i => (plain.drop (8 * (i - 1))).take 8⟩
  let s := (List.range 6).foldl (fun s j => (List.range' 1 n).foldl (wrapBlock kek n j) s) start
  s.a ++ (List.range' 1 n).flatMap s.r

end BekenCam.Standard
