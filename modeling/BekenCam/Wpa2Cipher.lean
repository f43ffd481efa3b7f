import BekenCam.CipherStandards
import BekenCam.Wpa2Aes

/-!
# The cipher is the one of the standard

The tables that `init_tables` computes are those of the standard, and each step of a round is the
standard's on the same sixteen bytes. The supplicant's key wrap counts its turns in two bytes, which
is enough for every wrapped key that a frame can carry.
-/
namespace BekenCam.Wpa2

/-! ## Bytes -/

theorem sBox_eq : sBox = Standard.sBoxTable := by decide +kernel

theorem timesTwo_eq (a : UInt8) : Standard.timesTwo a = xtime a := by
  rw [Standard.timesTwo, xtime, shiftRight_seven_eq]
  split_ifs
  · rw [UInt8.zero_mul, UInt8.xor_zero]
  · rw [UInt8.one_mul]

/-! ## The steps of a round -/

theorem cell_toList (s : Block) {r c : ℕ} (hr : r < 4) (hc : c < 4) :
    Standard.cell s.toList r c = cell s c r := by
  have hlt : 4 * c + r < 16 := by omega
  rw [Standard.cell, cell_eq s hlt (by omega), List.getD_eq_getElem _ _ (by simpa using hlt),
    Vector.getElem_toList]

/-- A state and a block that agree in every row and column. -/
theorem state_eq {f : ℕ → ℕ → UInt8} {s : Block} (h : ∀ r < 4, ∀ c < 4, f r c = cell s c r) :
    Standard.state f = s.toList := by
  refine List.ext_getElem (by simp [Standard.state]) fun k hk hk' => ?_
  have hlt : k < 16 := by simpa using hk'
  rw [Vector.getElem_toList, ← cell_eq s hlt (show 4 * (k / 4 % 4) + k % 4 % 4 = k by omega),
    ← h (k % 4) (by omega) (k / 4) (by omega)]
  simp [Standard.state]

theorem subBytes_eq (s : Block) : Standard.subBytes s.toList = (subBytes sBox s).toList := by
  refine state_eq fun r hr c hc => ?_
  rw [cell_toList s hr hc, Standard.sBox, ← sBox_eq, subBytes, cell_ofFn]
  rfl

theorem shiftRows_eq (s : Block) : Standard.shiftRows s.toList = (shiftRows s).toList := by
  refine state_eq fun r hr c hc => ?_
  have hrow : (4 * (c % 4) + r % 4) % 4 = r := by omega
  have hcol : (4 * (c % 4) + r % 4) / 4 = c := by omega
  rw [cell_toList s hr (Nat.mod_lt _ (by decide)), shiftRows, cell_ofFn]
  simp only [hrow, hcol, cell, Nat.mod_mod]

theorem mixColumns_eq (s : Block) : Standard.mixColumns s.toList = (mixColumns s).toList := by
  refine state_eq fun r hr c hc => ?_
  have hcell (q : ℕ) : Standard.cell s.toList ((r + q) % 4) c = cell s c (r + q) := by
    rw [cell_toList s (Nat.mod_lt _ (by decide)) hc]
    exact cell_congr s c (Nat.mod_mod _ _)
  rw [hcell, hcell, hcell, cell_toList s hr hc, cell_mixColumns, mixByte, ← columnSum_eq s c r,
    Standard.timesThree, timesTwo_eq, timesTwo_eq, xtime_xor]
  -- the byte itself drops out of the column's sum
  simp only [UInt8.xor_assoc, xor_cancel_left]
  ac_rfl

section Keys

variable {w : ℕ → ℕ → UInt8} {rk : List UInt8}

theorem addKey_eq (round : ℕ) (hw : ∀ i < 44, ∀ r < 4, rk.getD (4 * i + r) 0 = w i r)
    (hround : round ≤ 10) (s : Block) :
    Standard.addRoundKey w s.toList round = (addKey rk round s).toList := by
  refine state_eq fun r hr c hc => ?_
  have hindex : 16 * round + (4 * (c % 4) + r % 4) = 4 * (4 * round + c) + r := by omega
  rw [cell_toList s hr hc, ← hw _ (by omega) _ hr, addKey, cell_ofFn]
  simp only [hindex]
  rfl

theorem cipher_eq (hw : ∀ i < 44, ∀ r < 4, rk.getD (4 * i + r) 0 = w i r) (s : Block) :
    Standard.cipher w s.toList = (encryptBlock rk s).toList := by
  have hrounds : (List.range' 1 9).foldl
      (fun s round => Standard.addRoundKey w
        (Standard.mixColumns (Standard.shiftRows (Standard.subBytes s))) round)
      (Standard.addRoundKey w s.toList 0) =
        ((List.range' 1 9).foldl (encryptRound rk) (addKey rk 0 s)).toList := by
    refine List.foldl_rel (r := fun l (t : Block) => l = t.toList)
      (addKey_eq 0 hw (by decide) s) fun round hround l t hl => ?_
    have hle : round ≤ 10 := by
      rw [List.mem_range'_1] at hround
      omega
    rw [hl, subBytes_eq, shiftRows_eq, mixColumns_eq, addKey_eq round hw hle, encryptRound]
  rw [Standard.cipher, hrounds, subBytes_eq, shiftRows_eq, addKey_eq 10 hw le_rfl, encryptBlock]

end Keys

/-! ## The key schedule -/

/-- A turn of the loop of `expand`. -/
def expandStep (rk : List UInt8 × UInt8) (j : ℕ) : List UInt8 × UInt8 :=
  let i := 16 + 4 * j
  let t := fun n => rk.1.getD (i - 4 + n) 0
  let u :=
    if i % 16 = 0 then
      fun n => sBox.getD (t ((n + 1) % 4)).toNat 0 ^^^ (if n = 0 then rk.2 else 0)
    else t
  (rk.1 ++ (List.range 4).map fun n => rk.1.getD (i + n - 16) 0 ^^^ u n,
    if i % 16 = 0 then xtime rk.2 else rk.2)

theorem expand_eq (key : List UInt8) :
    expand key = ((List.range 40).foldl expandStep (key, 1)).1 := by
  unfold expand
  congr 2
  funext rk j
  unfold expandStep
  dsimp only
  split_ifs <;> rfl

/-- The words that are there are those of the standard. -/
structure Scheduled (key : List UInt8) (j : ℕ) (rk : List UInt8 × UInt8) : Prop where
  length : rk.1.length = 16 + 4 * j
  words : ∀ i < 4 + j, ∀ r < 4, rk.1.getD (4 * i + r) 0 = Standard.keySchedule key i r
  rcon : rk.2 = Standard.timesTwo^[(j + 3) / 4] 1

theorem Scheduled.start {key : List UInt8} (hkey : key.length = 16) : Scheduled key 0 (key, 1) where
  length := hkey
  words i hi r _ := by
    rw [Standard.keySchedule, if_pos hi]
  rcon := rfl

theorem Scheduled.step {key : List UInt8} {j : ℕ} {rk : List UInt8 × UInt8}
    (h : Scheduled key j rk) : Scheduled key (j + 1) (expandStep rk j) := by
  have hlength := h.length
  have hmultiple : (16 + 4 * j) % 16 = 0 ↔ (4 + j) % 4 = 0 := by omega
  have hnew (r : ℕ) (hr : r < 4) : (expandStep rk j).1.getD (4 * (4 + j) + r) 0 =
      Standard.keySchedule key (4 + j) r := by
    have hindex : 4 * (4 + j) + r - rk.1.length = r := by omega
    have hbefore : 16 + 4 * j + r - 16 = 4 * j + r := by omega
    have hlast (q : ℕ) : 16 + 4 * j - 4 + q = 4 * (3 + j) + q := by omega
    rw [expandStep, List.getD_append_right _ _ _ _ (by omega), hindex,
      List.getD_eq_getElem _ _ (by simpa using hr), List.getElem_map, List.getElem_range]
    simp only [hbefore, hlast, hmultiple]
    rw [h.words j (by omega) r hr, Standard.keySchedule_next]
    by_cases hround : (4 + j) % 4 = 0
    · have hrcon : (j + 3) / 4 = (4 + j) / 4 - 1 := by omega
      rw [if_pos hround, if_pos hround, h.words (3 + j) (by omega) _ (Nat.mod_lt _ (by decide)),
        sBox_eq, h.rcon, hrcon]
      rfl
    · rw [if_neg hround, if_neg hround, h.words (3 + j) (by omega) r hr]
  refine ⟨?_, fun i hi r hr => ?_, ?_⟩
  · rw [expandStep, List.length_append, List.length_map, List.length_range, hlength]
    ring
  · rcases Nat.lt_or_ge i (4 + j) with hold | hlast
    · rw [expandStep, List.getD_append _ _ _ _ (by omega)]
      exact h.words i hold r hr
    · obtain rfl : i = 4 + j := by omega
      exact hnew r hr
  · rw [expandStep]
    dsimp only
    rw [h.rcon]
    split_ifs with hround
    · have hnext : (j + 1 + 3) / 4 = (j + 3) / 4 + 1 := by omega
      rw [← timesTwo_eq, hnext, Function.iterate_succ_apply']
    · have hsame : (j + 1 + 3) / 4 = (j + 3) / 4 := by omega
      rw [hsame]

theorem words_expand {key : List UInt8} (hkey : key.length = 16) :
    ∀ i < 44, ∀ r < 4, (expand key).getD (4 * i + r) 0 = Standard.keySchedule key i r := by
  have hloop (j : ℕ) : Scheduled key j ((List.range j).foldl expandStep (key, 1)) := by
    induction j with
    | zero => exact .start hkey
    | succ j ih =>
      rw [List.range_succ, List.foldl_append]
      exact ih.step
  rw [expand_eq]
  exact (hloop 40).words

theorem aes128Encrypt_eq {key input : List UInt8} (hkey : key.length = 16)
    (hinput : input.length = 16) : aes128Encrypt key input = Standard.aes128 key input := by
  rw [aes128Encrypt, ← cipher_eq (words_expand hkey), toList_toBlock hinput, Standard.aes128]

/-! ## The key wrap -/

/-- A counter of two bytes. -/
theorem xorCounter_eq {a : List UInt8} (ha : a.length = 8) {t : ℕ} (ht : t < 2 ^ 16) :
    Standard.xorBytes a (Standard.octets 8 t) = xorCounter a t := by
  refine List.ext_getElem (by simp [Standard.xorBytes, xorCounter, ha]) fun k hk hk' => ?_
  have hlt : k < 8 := by rwa [length_xorCounter, ha] at hk'
  have hin : k < (Standard.octets 8 t).length := by rwa [Standard.length_octets]
  have hbyte : (Standard.octets 8 t)[k] = UInt8.ofNat (t / 256 ^ (7 - k)) := by
    simp [Standard.octets]
  simp only [Standard.xorBytes, List.getElem_zipWith, hbyte]
  rcases (by omega : k = 7 ∨ k = 6 ∨ k < 6) with rfl | rfl | hlow
  · simp [xorCounter, ha]
  · simp [xorCounter, ha]
  · have hpow : 256 ^ 2 ≤ 256 ^ (7 - k) := Nat.pow_le_pow_right (by decide) (by omega)
    have hzero : t / 256 ^ (7 - k) = 0 := Nat.div_eq_of_lt (ht.trans_le hpow)
    simp [xorCounter, hzero, show 6 ≠ k by omega, show 7 ≠ k by omega]

/-- The buffer holds the registers. -/
structure Held (n : ℕ) (s : List UInt8 × List UInt8) (q : Standard.Registers) : Prop where
  shape : WrapShape n s
  check : q.a = s.1
  blocks : ∀ i, 1 ≤ i → i ≤ n → q.r i = slice s.2 (8 * (i - 1)) 8

theorem Held.step {kek : List UInt8} (hkek : kek.length = 16) {n j i : ℕ}
    {s : List UInt8 × List UInt8} {q : Standard.Registers} (h : Held n s q) (hi : 1 ≤ i ∧ i ≤ n)
    (hturn : n * j + i < 2 ^ 16) :
    Held n (wrapStep kek n s (j, i)) (Standard.wrapBlock kek n j q i) := by
  obtain ⟨ha, hr⟩ := id h.shape
  have hpiece : (slice s.2 (8 * (i - 1)) 8).length = 8 := length_slice_of_le (by omega)
  obtain ⟨b, hb⟩ : ∃ b, b = aes128Encrypt kek (s.1 ++ slice s.2 (8 * (i - 1)) 8) := ⟨_, rfl⟩
  have hcipher : Standard.aes128 kek (q.a ++ q.r i) = b := by
    rw [hb, h.check, h.blocks i hi.1 hi.2,
      aes128Encrypt_eq hkek (by rw [List.length_append, ha, hpiece])]
  have hlen : (b.drop 8).length = 8 := by rw [List.length_drop, hb, length_aes128Encrypt]
  have hshape : WrapShape n (wrapStep kek n s (j, i)) := wrapStep_shape h.shape hi
  have hstep : wrapStep kek n s (j, i) =
      (xorCounter (b.take 8) (n * j + i), writeAt s.2 (8 * (i - 1)) (b.drop 8)) := by
    rw [hb]
    rfl
  rw [hstep] at hshape ⊢
  rw [Standard.wrapBlock, hcipher]
  refine ⟨hshape, xorCounter_eq (by simp [hb]) hturn, fun k hk hkn => ?_⟩
  dsimp only
  rcases Nat.lt_trichotomy k i with hlt | rfl | hgt
  · rw [Function.update_of_ne (by omega), h.blocks k hk hkn]
    exact slice_congr (take_writeAt (by omega)).symm (by omega)
  · rw [Function.update_self]
    have hread : slice (writeAt s.2 (8 * (k - 1)) (b.drop 8)) (8 * (k - 1)) (b.drop 8).length =
        b.drop 8 := slice_writeAt (by omega)
    rwa [hlen, eq_comm] at hread
  · rw [Function.update_of_ne (by omega), h.blocks k hk hkn, slice, slice,
      drop_writeAt (by omega) (by omega)]

/-- The first `n` blocks of a buffer. -/
theorem flatMap_slices (l : List UInt8) (n : ℕ) :
    (List.range' 1 n).flatMap (fun i => slice l (8 * (i - 1)) 8) = l.take (8 * n) := by
  induction n with
  | zero => rfl
  | succ n ih =>
    rw [List.range'_1_concat, List.flatMap_append, ih, List.flatMap_singleton,
      Nat.add_sub_cancel_left, Nat.mul_succ, List.take_add, slice]

/-- As long as the counter does not need a third byte. -/
theorem aesKeyWrap_eq {kek plain : List UInt8} (hkek : kek.length = 16)
    (hsize : plain.length % 8 = 0) (hshort : plain.length / 8 * 6 < 2 ^ 16) :
    aesKeyWrap kek plain = Standard.aesKeyWrap kek plain := by
  obtain ⟨n, hn⟩ : ∃ n, n = plain.length / 8 := ⟨_, rfl⟩
  have hstart : Held n (kIv, plain)
      ⟨List.replicate 8 0xA6, fun i => (plain.drop (8 * (i - 1))).take 8⟩ :=
    ⟨hn ▸ wrapShape_start hsize, rfl, fun _ _ _ => rfl⟩
  have hloops := List.foldl_rel (l := List.range 6) (r := Held n)
    (f := fun s j => (List.range' 1 n).foldl (fun s i => wrapStep kek n s (j, i)) s)
    (g := fun q j => (List.range' 1 n).foldl (Standard.wrapBlock kek n j) q) hstart
    fun j hj s q h => List.foldl_rel h fun i hi s q h => by
      rw [List.mem_range] at hj
      rw [List.mem_range'_1] at hi
      have hrounds : n * j ≤ n * 5 := Nat.mul_le_mul_left n (by omega)
      exact h.step hkek (by omega) (by omega)
  have hturns : (wrapTurns n).foldl (wrapStep kek n) (kIv, plain) = (List.range 6).foldl
      (fun s j => (List.range' 1 n).foldl (fun s i => wrapStep kek n s (j, i)) s) (kIv, plain) := by
    rw [wrapTurns, List.foldl_flatMap]
    simp only [List.foldl_map]
  rw [aesKeyWrap, Standard.aesKeyWrap, ← hn, hturns, hloops.check]
  congr 1
  obtain ⟨-, hbuffer⟩ := hloops.shape
  rw [← List.take_of_length_le hbuffer.le, ← flatMap_slices]
  refine List.flatMap_congr fun i hi => ?_
  rw [List.mem_range'_1] at hi
  exact (hloops.blocks i hi.1 (by omega)).symm

end BekenCam.Wpa2
