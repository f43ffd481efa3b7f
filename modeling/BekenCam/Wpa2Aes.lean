import BekenCam.ByteBuffer

/-!
# AES-128 and the key wrap

The software AES of the supplicant and the RFC 3394 key wrap. Every step of a block
decryption undoes the matching step of the encryption, and the same holds of the two key
wrap loops.
-/
namespace BekenCam.Wpa2

/-! ## The tables -/

def rotl8 (x n : UInt8) : UInt8 := (x <<< n) ||| (x >>> (8 - n))

def xtime (x : UInt8) : UInt8 := (x <<< 1) ^^^ ((x >>> 7) * 0x1b)

/-- The loop of `init_tables`: `p` walks through the powers of 3 and `q` through their
inverses until `p` is 1 again, which takes 255 turns. -/
def sBoxLoop : ℕ → UInt8 → UInt8 → List UInt8 → List UInt8
  | 0, _, _, table => table
  | n + 1, p, q, table =>
    let p := p ^^^ (p <<< 1) ^^^ (if p &&& 0x80 ≠ 0 then 0x1b else 0)
    let q := q ^^^ (q <<< 1)
    let q := q ^^^ (q <<< 2)
    let q := q ^^^ (q <<< 4)
    let q := if q &&& 0x80 ≠ 0 then q ^^^ 0x09 else q
    let table := table.set p.toNat
      (q ^^^ rotl8 q 1 ^^^ rotl8 q 2 ^^^ rotl8 q 3 ^^^ rotl8 q 4 ^^^ 0x63)
    if p = 1 then table else sBoxLoop n p q table

def sBox : List UInt8 := (sBoxLoop 255 1 1 (List.replicate 256 0)).set 0 0x63

def sInv : List UInt8 :=
  (List.range 256).foldl (fun t i => t.set (sBox.getD i 0).toNat (UInt8.ofNat i))
    (List.replicate 256 0)

/-! ## Blocks -/

abbrev Block := Vector UInt8 16

/-- The round keys, 176 bytes. -/
def expand (key : List UInt8) : List UInt8 :=
  ((List.range 40).foldl (fun (rk, rcon) j =>
    let i := 16 + 4 * j
    let t := fun n => rk.getD (i - 4 + n) 0
    let (u, rcon) :=
      if i % 16 = 0 then
        (fun n => sBox.getD (t ((n + 1) % 4)).toNat 0 ^^^ (if n = 0 then rcon else 0), xtime rcon)
      else (t, rcon)
    (rk ++ (List.range 4).map fun n => rk.getD (i + n - 16) 0 ^^^ u n, rcon))
    (key, (1 : UInt8))).1

def addKey (rk : List UInt8) (r : ℕ) (s : Block) : Block :=
  Vector.ofFn fun i => s[i] ^^^ rk.getD (16 * r + i) 0

def subBytes (box : List UInt8) (s : Block) : Block :=
  Vector.ofFn fun i => box.getD s[i].toNat 0

/-- Row `r` of column `c`: the state is column-major. -/
def cell (s : Block) (c r : ℕ) : UInt8 := s.get ⟨4 * (c % 4) + r % 4, by omega⟩

def shiftRows (s : Block) : Block :=
  Vector.ofFn fun k => cell s (k / 4 + k % 4) (k % 4)

/-- `t[4 * ((c + r) % 4) + r] = s[4 * c + r]`, read at the target. -/
def invShiftRows (s : Block) : Block :=
  Vector.ofFn fun k => cell s (k / 4 + 4 - k % 4) (k % 4)

def mixColumns (s : Block) : Block :=
  Vector.ofFn fun k =>
    let a := cell s (k / 4)
    let t := a 0 ^^^ a 1 ^^^ a 2 ^^^ a 3
    let r := k.val % 4
    a r ^^^ (t ^^^ xtime (a r ^^^ a (r + 1)))

def invMixColumns (s : Block) : Block :=
  mixColumns (Vector.ofFn fun k =>
    let a := cell s (k / 4)
    let u := xtime (xtime (a 0 ^^^ a 2))
    let v := xtime (xtime (a 1 ^^^ a 3))
    let r := k.val % 4
    a r ^^^ (if r % 2 = 0 then u else v))

def encryptRound (rk : List UInt8) (s : Block) (r : ℕ) : Block :=
  addKey rk r (mixColumns (shiftRows (subBytes sBox s)))

def decryptRound (rk : List UInt8) (s : Block) (r : ℕ) : Block :=
  invMixColumns (addKey rk r (subBytes sInv (invShiftRows s)))

def encryptBlock (rk : List UInt8) (s : Block) : Block :=
  let s := (List.range' 1 9).foldl (encryptRound rk) (addKey rk 0 s)
  addKey rk 10 (shiftRows (subBytes sBox s))

def decryptBlock (rk : List UInt8) (s : Block) : Block :=
  let s := (List.range' 1 9).reverse.foldl (decryptRound rk) (addKey rk 10 s)
  addKey rk 0 (subBytes sInv (invShiftRows s))

def toBlock (l : List UInt8) : Block := Vector.ofFn fun i => l.getD i 0

def aes128Encrypt (key input : List UInt8) : List UInt8 :=
  (encryptBlock (expand key) (toBlock input)).toList

def aes128Decrypt (key input : List UInt8) : List UInt8 :=
  (decryptBlock (expand key) (toBlock input)).toList

/-! ## The key wrap -/

def kIv : List UInt8 := List.replicate 8 0xA6

/-- `a[7] ^= t; a[6] ^= t >> 8`. -/
def xorCounter (a : List UInt8) (t : ℕ) : List UInt8 :=
  (a.set 7 (a.getD 7 0 ^^^ UInt8.ofNat t)).set 6 (a.getD 6 0 ^^^ UInt8.ofNat (t / 256))

/-- One turn of the inner loop of `wpa2_aes_key_wrap`. The second component is the
buffer behind the first eight bytes of `out`. -/
def wrapStep (kek : List UInt8) (n : ℕ) (s : List UInt8 × List UInt8) (ji : ℕ × ℕ) :
    List UInt8 × List UInt8 :=
  let b := aes128Encrypt kek (s.1 ++ slice s.2 (8 * (ji.2 - 1)) 8)
  (xorCounter (b.take 8) (n * ji.1 + ji.2), writeAt s.2 (8 * (ji.2 - 1)) (b.drop 8))

/-- The turns of the two nested loops, as pairs of `j` and `i`. -/
def wrapTurns (n : ℕ) : List (ℕ × ℕ) :=
  (List.range 6).flatMap fun j => (List.range' 1 n).map fun i => (j, i)

def aesKeyWrap (kek plain : List UInt8) : List UInt8 :=
  let n := plain.length / 8
  let s := (wrapTurns n).foldl (wrapStep kek n) (kIv, plain)
  s.1 ++ s.2

def unwrapStep (kek : List UInt8) (n : ℕ) (s : List UInt8 × List UInt8) (ji : ℕ × ℕ) :
    List UInt8 × List UInt8 :=
  let b := aes128Decrypt kek
    (xorCounter s.1 (n * ji.1 + ji.2) ++ slice s.2 (8 * (ji.2 - 1)) 8)
  (b.take 8, writeAt s.2 (8 * (ji.2 - 1)) (b.drop 8))

/-- The same turns with both loops running downwards. -/
def unwrapTurns (n : ℕ) : List (ℕ × ℕ) :=
  (List.range 6).reverse.flatMap fun j => (List.range' 1 n).reverse.map fun i => (j, i)

/-- The plain text, unless the length is wrong or the integrity check fails. -/
def aesKeyUnwrap (kek input : List UInt8) : Option (List UInt8) :=
  if input.length < 24 ∨ input.length % 8 ≠ 0 then none
  else
    let n := input.length / 8 - 1
    let s := (unwrapTurns n).foldl (unwrapStep kek n) (input.take 8, input.drop 8)
    if s.1 = kIv then some s.2 else none

/-! ## The S-box is invertible -/

/-- No value occurs twice; the bits of `seen` are the values met so far. -/
def distinctFrom : List UInt8 → ℕ → Bool
  | [], _ => true
  | v :: l, seen => !seen.testBit v.toNat && distinctFrom l (seen ||| 1 <<< v.toNat)

theorem nodup_of_distinctFrom (l : List UInt8) (seen : ℕ) (h : distinctFrom l seen = true) :
    l.Nodup ∧ ∀ v ∈ l, seen.testBit v.toNat = false := by
  induction l generalizing seen with
  | nil => simp
  | cons v l ih =>
    simp only [distinctFrom, Bool.and_eq_true, Bool.not_eq_true'] at h
    obtain ⟨hnodup, hunseen⟩ := ih _ h.2
    have hv : v ∉ l := fun hmem => by simpa using hunseen v hmem
    refine ⟨List.nodup_cons.mpr ⟨hv, hnodup⟩, fun w hw => ?_⟩
    rcases List.mem_cons.mp hw with rfl | hw
    · exact h.1
    · have hbit := hunseen w hw
      rw [Nat.testBit_or, Bool.or_eq_false_iff] at hbit
      exact hbit.1

theorem length_sBoxLoop (n : ℕ) (p q : UInt8) (table : List UInt8) :
    (sBoxLoop n p q table).length = table.length := by
  induction n generalizing p q table with
  | zero => rfl
  | succ n ih =>
    simp only [sBoxLoop]
    split_ifs <;> simp [ih]

theorem length_sBox : sBox.length = 256 := by
  rw [sBox, List.length_set, length_sBoxLoop, List.length_replicate]

theorem sBox_nodup : sBox.Nodup :=
  (nodup_of_distinctFrom sBox 0 (by decide +kernel)).1

theorem sBox_inj {i j : ℕ} (hi : i < 256) (hj : j < 256)
    (h : (sBox.getD i 0).toNat = (sBox.getD j 0).toNat) : i = j := by
  rw [← length_sBox] at hi hj
  rw [UInt8.toNat_inj, List.getD_eq_getElem?_getD, List.getD_eq_getElem?_getD,
    List.getElem?_eq_getElem hi, List.getElem?_eq_getElem hj] at h
  exact (sBox_nodup.getElem_inj_iff).mp h

theorem length_foldl_set {f : ℕ → ℕ} {g : ℕ → UInt8} (l : List ℕ) (t : List UInt8) :
    (l.foldl (fun t i => t.set (f i) (g i)) t).length = t.length := by
  induction l generalizing t with
  | nil => rfl
  | cons i l ih => rw [List.foldl_cons, ih, List.length_set]

/-- Entries stored at distinct places stay where they are. -/
theorem getD_foldl_set {f : ℕ → ℕ} {g : ℕ → UInt8} (l : List ℕ) (t : List UInt8)
    (hinj : ∀ i ∈ l, ∀ j ∈ l, f i = f j → i = j) (hlt : ∀ i ∈ l, f i < t.length) {j : ℕ}
    (hj : j ∈ l) : (l.foldl (fun t i => t.set (f i) (g i)) t).getD (f j) 0 = g j := by
  induction l using List.reverseRecOn with
  | nil => simp at hj
  | append_singleton l i ih =>
    have hlen := length_foldl_set (f := f) (g := g) l t
    rw [List.foldl_append, List.foldl_cons, List.foldl_nil]
    by_cases hij : i = j
    · subst hij
      have hi : f i < t.length := hlt i (by simp)
      simp [List.getD_eq_getElem?_getD, hlen, hi]
    · have hne : f i ≠ f j := fun h => hij (hinj i (by simp) j hj h)
      have hjl : j ∈ l := by
        rcases List.mem_append.mp hj with h | h
        · exact h
        · exact absurd (List.mem_singleton.mp h).symm hij
      rw [List.getD_eq_getElem?_getD, List.getElem?_set_ne hne, ← List.getD_eq_getElem?_getD]
      exact ih (fun a ha b hb => hinj a (by simp [ha]) b (by simp [hb]))
        (fun a ha => hlt a (by simp [ha])) hjl

theorem sInv_sBox (x : UInt8) : sInv.getD (sBox.getD x.toNat 0).toNat 0 = x := by
  have h := getD_foldl_set (f := fun i => (sBox.getD i 0).toNat) (g := UInt8.ofNat)
    (List.range 256) (List.replicate 256 0)
    (fun i hi j hj => sBox_inj (List.mem_range.mp hi) (List.mem_range.mp hj))
    (fun i _ => by rw [List.length_replicate]; exact (sBox.getD i 0).toNat_lt)
    (List.mem_range.mpr x.toNat_lt)
  rw [sInv, h, UInt8.ofNat_toNat]

/-! ## Each step of a round is undone -/

theorem xor_undone (a b : UInt8) : (a ^^^ b) ^^^ b = a := by
  rw [UInt8.xor_assoc, UInt8.xor_self, UInt8.xor_zero]

theorem addKey_addKey (rk : List UInt8) (r : ℕ) (s : Block) : addKey rk r (addKey rk r s) = s := by
  apply Vector.ext
  intro k hk
  simp only [addKey, Vector.getElem_ofFn, Fin.getElem_fin, xor_undone]

theorem getElem_subBytes (box : List UInt8) (s : Block) {k : ℕ} (hk : k < 16) :
    (subBytes box s)[k] = box.getD s[k].toNat 0 :=
  Vector.getElem_ofFn _

theorem subBytes_inverse (s : Block) : subBytes sInv (subBytes sBox s) = s := by
  apply Vector.ext
  intro k hk
  rw [getElem_subBytes, getElem_subBytes, sInv_sBox]

theorem cell_ofFn (f : Fin 16 → UInt8) (c r : ℕ) :
    cell (Vector.ofFn f) c r = f ⟨4 * (c % 4) + r % 4, by omega⟩ :=
  Vector.getElem_ofFn _

theorem cell_eq (s : Block) {c r k : ℕ} (hk : k < 16) (h : 4 * (c % 4) + r % 4 = k) :
    cell s c r = s[k] := by
  subst h
  rfl

theorem invShiftRows_shiftRows (s : Block) : invShiftRows (shiftRows s) = s := by
  apply Vector.ext
  intro k hk
  rw [invShiftRows, Vector.getElem_ofFn, shiftRows, cell_ofFn]
  apply cell_eq
  dsimp only
  interval_cases k <;> rfl

/-- The highest bit. -/
theorem shiftRight_seven_eq (x : UInt8) : x >>> 7 = if x < 0x80 then 0 else 1 := by
  have hx := x.toNat_lt
  have hlow : x < 0x80 ↔ x.toNat < 128 := UInt8.lt_iff_toNat_lt
  have hval : (x >>> 7).toNat = x.toNat / 128 := by
    rw [UInt8.toNat_shiftRight]
    simp [Nat.shiftRight_eq_div_pow]
  rw [← UInt8.toNat_inj, hval]
  split_ifs with h
  · exact Nat.div_eq_of_lt (hlow.mp h)
  · have hhigh : ¬x.toNat < 128 := mt hlow.mpr h
    change x.toNat / 128 = 1
    omega

theorem shiftRight_seven (x : UInt8) : x >>> 7 = 0 ∨ x >>> 7 = 1 := by
  rw [shiftRight_seven_eq]
  split_ifs
  · exact .inl rfl
  · exact .inr rfl

/-- Doubling in the field is linear. -/
theorem xtime_xor (x y : UInt8) : xtime (x ^^^ y) = xtime x ^^^ xtime y := by
  have hcarry : ((x ^^^ y) >>> 7) * (0x1b : UInt8) =
      ((x >>> 7) * (0x1b : UInt8)) ^^^ ((y >>> 7) * (0x1b : UInt8)) := by
    rw [UInt8.shiftRight_xor]
    rcases shiftRight_seven x with hx | hx <;> rcases shiftRight_seven y with hy | hy <;>
      rw [hx, hy] <;> rfl
  rw [xtime, hcarry, UInt8.shiftLeft_xor, xtime, xtime]
  ac_rfl

theorem xor_cancel_left (x y : UInt8) : x ^^^ (x ^^^ y) = y := by
  rw [← UInt8.xor_assoc, UInt8.xor_self, UInt8.zero_xor]

theorem xor_left_comm (x y z : UInt8) : x ^^^ (y ^^^ z) = y ^^^ (x ^^^ z) := by
  ac_rfl

/-- A mixed byte, from the column's sum, the byte itself and the one below it. -/
def mixByte (t x y : UInt8) : UInt8 := x ^^^ (t ^^^ xtime (x ^^^ y))

section MixColumn

variable (t a b c d : UInt8)

theorem mixByte_next : mixByte t a b ^^^ mixByte t b c = a ^^^ b ^^^ xtime (a ^^^ c) := by
  simp only [mixByte, xtime_xor, UInt8.xor_assoc, xor_left_comm, xor_cancel_left]

theorem mixByte_opposite :
    mixByte t a b ^^^ mixByte t c d = a ^^^ c ^^^ xtime (a ^^^ b ^^^ c ^^^ d) := by
  simp only [mixByte, xtime_xor, UInt8.xor_assoc, xor_left_comm, xor_cancel_left]

/-- What is added to every second byte drops out of the column's sum. -/
theorem mixByte_sum (u v : UInt8) :
    (mixByte t a b ^^^ u) ^^^ (mixByte t b c ^^^ v) ^^^ (mixByte t c d ^^^ u) ^^^
      (mixByte t d a ^^^ v) = a ^^^ b ^^^ c ^^^ d := by
  calc (mixByte t a b ^^^ u) ^^^ (mixByte t b c ^^^ v) ^^^ (mixByte t c d ^^^ u) ^^^
        (mixByte t d a ^^^ v)
      = (mixByte t a b ^^^ mixByte t c d) ^^^ (mixByte t b c ^^^ mixByte t d a) := by
        simp only [UInt8.xor_assoc, UInt8.xor_comm, xor_left_comm, xor_cancel_left]
    _ = a ^^^ b ^^^ c ^^^ d := by
        rw [mixByte_opposite, mixByte_opposite]
        simp only [xtime_xor, UInt8.xor_assoc, UInt8.xor_comm, xor_left_comm, UInt8.xor_self,
          UInt8.xor_zero]

/-- Mixing a corrected column gives the byte that was mixed. -/
theorem mixByte_unmix (ht : a ^^^ b ^^^ c ^^^ d = t) :
    mixByte t (mixByte t a b ^^^ xtime (xtime (mixByte t a b ^^^ mixByte t c d)))
      (mixByte t b c ^^^ xtime (xtime (mixByte t b c ^^^ mixByte t d a))) = a := by
  set u := xtime (xtime (mixByte t a b ^^^ mixByte t c d)) with hu
  set v := xtime (xtime (mixByte t b c ^^^ mixByte t d a)) with hv
  have hbd : b ^^^ c ^^^ d ^^^ a = t := by
    rw [← ht]
    ac_rfl
  rw [mixByte_opposite, ht] at hu
  rw [mixByte_opposite, hbd] at hv
  have huv : u ^^^ v = xtime (xtime t) := by
    have hsum : (a ^^^ c) ^^^ (b ^^^ d) = t := by
      rw [← ht]
      ac_rfl
    rw [hu, hv, ← xtime_xor, ← xtime_xor, ← hsum]
    congr 2
    simp only [UInt8.xor_assoc, UInt8.xor_comm, xor_left_comm, UInt8.xor_self, UInt8.xor_zero]
  have hpair : (mixByte t a b ^^^ u) ^^^ (mixByte t b c ^^^ v) =
      a ^^^ b ^^^ xtime (a ^^^ c) ^^^ xtime (xtime t) := by
    rw [← huv, ← mixByte_next t a b c]
    ac_rfl
  calc mixByte t (mixByte t a b ^^^ u) (mixByte t b c ^^^ v)
      = (mixByte t a b ^^^ u) ^^^
          (t ^^^ xtime (a ^^^ b ^^^ xtime (a ^^^ c) ^^^ xtime (xtime t))) := by
        rw [← hpair, mixByte]
    _ = a := by
        rw [hu, mixByte]
        simp only [xtime_xor, UInt8.xor_assoc, UInt8.xor_comm, xor_left_comm, xor_cancel_left,
          UInt8.xor_self, UInt8.xor_zero]

end MixColumn

/-- Rows are counted modulo 4. -/
theorem cell_congr (s : Block) (c : ℕ) {r q : ℕ} (h : r % 4 = q % 4) : cell s c r = cell s c q := by
  simp only [cell, h]

theorem block_ext {s t : Block} (h : ∀ c r, cell s c r = cell t c r) : s = t := by
  apply Vector.ext
  intro k hk
  have hcell := h (k / 4) (k % 4)
  rwa [cell_eq s hk (by omega), cell_eq t hk (by omega)] at hcell

/-- A block given column by column. -/
theorem cell_ofFn_column (f : (ℕ → UInt8) → ℕ → UInt8) (s : Block) (c r : ℕ) :
    cell (Vector.ofFn fun k => f (cell s (k / 4)) (k % 4)) c r = f (cell s c) (r % 4) := by
  have hcol : (4 * (c % 4) + r % 4) / 4 = c % 4 := by omega
  have hrow : (4 * (c % 4) + r % 4) % 4 = r % 4 := by omega
  have hcell : cell s (c % 4) = cell s c := by
    funext q
    simp only [cell, Nat.mod_mod]
  rw [cell_ofFn]
  simp only [hcol, hrow, hcell]

def columnSum (s : Block) (c : ℕ) : UInt8 := cell s c 0 ^^^ cell s c 1 ^^^ cell s c 2 ^^^ cell s c 3

theorem columnSum_eq (s : Block) (c r : ℕ) :
    cell s c r ^^^ cell s c (r + 1) ^^^ cell s c (r + 2) ^^^ cell s c (r + 3) = columnSum s c := by
  have hr : r % 4 < 4 := Nat.mod_lt _ (by decide)
  rw [cell_congr s c (r := r) (q := r % 4) (by omega),
    cell_congr s c (r := r + 1) (q := r % 4 + 1) (by omega),
    cell_congr s c (r := r + 2) (q := r % 4 + 2) (by omega),
    cell_congr s c (r := r + 3) (q := r % 4 + 3) (by omega)]
  unfold columnSum
  -- the row the sum starts from only rotates its terms
  generalize r % 4 = q at hr
  interval_cases q
  · rfl
  · change cell s c 1 ^^^ cell s c 2 ^^^ cell s c 3 ^^^ cell s c 0 = _
    ac_rfl
  · change cell s c 2 ^^^ cell s c 3 ^^^ cell s c 0 ^^^ cell s c 1 = _
    ac_rfl
  · change cell s c 3 ^^^ cell s c 0 ^^^ cell s c 1 ^^^ cell s c 2 = _
    ac_rfl

theorem cell_mixColumns (s : Block) (c r : ℕ) :
    cell (mixColumns s) c r = mixByte (columnSum s c) (cell s c r) (cell s c (r + 1)) := by
  have h := cell_ofFn_column
    (fun a r => mixByte (a 0 ^^^ a 1 ^^^ a 2 ^^^ a 3) (a r) (a (r + 1))) s c r
  rw [cell_congr s c (r := r % 4) (q := r) (by omega),
    cell_congr s c (r := r % 4 + 1) (q := r + 1) (by omega)] at h
  exact h

/-- What `invMixColumns` does to a block before it mixes. -/
def correctColumns (s : Block) : Block :=
  Vector.ofFn fun k =>
    let a := cell s (k / 4)
    a (k % 4) ^^^ (if (k % 4 : ℕ) % 2 = 0 then xtime (xtime (a 0 ^^^ a 2))
      else xtime (xtime (a 1 ^^^ a 3)))

theorem invMixColumns_eq (s : Block) : invMixColumns s = mixColumns (correctColumns s) := rfl

theorem cell_correctColumns_row (s : Block) (c r : ℕ) :
    cell (correctColumns s) c r = cell s c (r % 4) ^^^
      (if r % 4 % 2 = 0 then xtime (xtime (cell s c 0 ^^^ cell s c 2))
        else xtime (xtime (cell s c 1 ^^^ cell s c 3))) :=
  cell_ofFn_column
    (fun a r => a r ^^^ (if r % 2 = 0 then xtime (xtime (a 0 ^^^ a 2))
      else xtime (xtime (a 1 ^^^ a 3)))) s c r

/-- Each byte is corrected by itself and the byte two rows below. -/
theorem cell_correctColumns (s : Block) (c r : ℕ) :
    cell (correctColumns s) c r =
      cell s c r ^^^ xtime (xtime (cell s c r ^^^ cell s c (r + 2))) := by
  have hr : r % 4 < 4 := Nat.mod_lt _ (by decide)
  rw [cell_correctColumns_row, cell_congr s c (r := r) (q := r % 4) (by omega),
    cell_congr s c (r := r + 2) (q := r % 4 + 2) (by omega)]
  generalize r % 4 = q at hr
  interval_cases q
  · rfl
  · rfl
  · change _ = cell s c 2 ^^^ xtime (xtime (cell s c 2 ^^^ cell s c 0))
    rw [UInt8.xor_comm (cell s c 2) (cell s c 0)]
    rfl
  · change _ = cell s c 3 ^^^ xtime (xtime (cell s c 3 ^^^ cell s c 1))
    rw [UInt8.xor_comm (cell s c 3) (cell s c 1)]
    rfl

theorem cell_correctColumns_mixColumns (s : Block) (c r : ℕ) :
    cell (correctColumns (mixColumns s)) c r =
      mixByte (columnSum s c) (cell s c r) (cell s c (r + 1)) ^^^
        xtime (xtime (mixByte (columnSum s c) (cell s c r) (cell s c (r + 1)) ^^^
          mixByte (columnSum s c) (cell s c (r + 2)) (cell s c (r + 3)))) := by
  rw [cell_correctColumns, cell_mixColumns, cell_mixColumns]

theorem columnSum_correctColumns_mixColumns (s : Block) (c : ℕ) :
    columnSum (correctColumns (mixColumns s)) c = columnSum s c := by
  have h := mixByte_sum (columnSum s c) (cell s c 0) (cell s c 1) (cell s c 2) (cell s c 3)
    (xtime (xtime (cell (mixColumns s) c 0 ^^^ cell (mixColumns s) c 2)))
    (xtime (xtime (cell (mixColumns s) c 1 ^^^ cell (mixColumns s) c 3)))
  have hlast : cell (mixColumns s) c 3 = mixByte (columnSum s c) (cell s c 3) (cell s c 0) :=
    cell_mixColumns s c 3
  rw [← hlast, ← cell_mixColumns s c 0, ← cell_mixColumns s c 1, ← cell_mixColumns s c 2] at h
  rw [columnSum, cell_correctColumns_row, cell_correctColumns_row, cell_correctColumns_row,
    cell_correctColumns_row]
  exact h

theorem invMixColumns_mixColumns (s : Block) : invMixColumns (mixColumns s) = s := by
  apply block_ext
  intro c r
  have hwrap : cell s c (r + 1 + 3) = cell s c r := cell_congr s c (by omega)
  rw [invMixColumns_eq, cell_mixColumns, columnSum_correctColumns_mixColumns,
    cell_correctColumns_mixColumns, cell_correctColumns_mixColumns, hwrap]
  exact mixByte_unmix _ _ _ _ _ (columnSum_eq s c r)

/-! ## Blocks and wrapped keys are recovered -/

/-- A fold is undone by the fold of the inverse steps in the opposite order, seen through `T`. -/
theorem foldl_reverse_foldl {σ τ ι : Type*} {f : σ → ι → σ} {g : τ → ι → τ} (T : σ → τ)
    {P : σ → Prop} {Q : ι → Prop} (hP : ∀ s i, P s → Q i → P (f s i))
    (hg : ∀ s i, P s → Q i → g (T (f s i)) i = T s) (l : List ι) (hQ : ∀ i ∈ l, Q i) (s : σ)
    (hs : P s) : l.reverse.foldl g (T (l.foldl f s)) = T s := by
  induction l generalizing s with
  | nil => rfl
  | cons i l ih =>
    have hi : Q i := hQ i (by simp)
    rw [List.foldl_cons, List.reverse_cons, List.foldl_append,
      ih (fun j hj => hQ j (by simp [hj])) (f s i) (hP s i hs hi)]
    exact hg s i hs hi

/-- One round of the decryption, seen behind the shift that the next round starts with. -/
theorem decryptRound_encryptRound (rk : List UInt8) (s : Block) (r : ℕ) :
    decryptRound rk (shiftRows (subBytes sBox (encryptRound rk s r))) r =
      shiftRows (subBytes sBox s) := by
  rw [decryptRound, invShiftRows_shiftRows, subBytes_inverse, encryptRound, addKey_addKey,
    invMixColumns_mixColumns]

theorem decryptBlock_encryptBlock (rk : List UInt8) (s : Block) :
    decryptBlock rk (encryptBlock rk s) = s := by
  have hrounds := foldl_reverse_foldl (fun s => shiftRows (subBytes sBox s))
    (P := fun _ => True) (Q := fun _ => True) (fun _ _ _ _ => trivial)
    (fun s r _ _ => decryptRound_encryptRound rk s r) (List.range' 1 9) (fun _ _ => trivial)
    (addKey rk 0 s) trivial
  simp only [decryptBlock, encryptBlock, addKey_addKey]
  rw [hrounds, invShiftRows_shiftRows, subBytes_inverse, addKey_addKey]

theorem toBlock_toList (s : Block) : toBlock s.toList = s := by
  apply Vector.ext
  intro k hk
  simp [toBlock]

theorem toList_toBlock {l : List UInt8} (h : l.length = 16) : (toBlock l).toList = l := by
  apply List.ext_getElem
  · simp [h]
  · intro k hk hk'
    simp [toBlock, hk']

@[simp] theorem length_aes128Encrypt (key input : List UInt8) :
    (aes128Encrypt key input).length = 16 := Vector.length_toList

@[simp] theorem length_aes128Decrypt (key input : List UInt8) :
    (aes128Decrypt key input).length = 16 := Vector.length_toList

theorem aes128Decrypt_aes128Encrypt (key : List UInt8) {input : List UInt8}
    (h : input.length = 16) : aes128Decrypt key (aes128Encrypt key input) = input := by
  rw [aes128Decrypt, aes128Encrypt, toBlock_toList, decryptBlock_encryptBlock, toList_toBlock h]

theorem length_xorCounter (a : List UInt8) (t : ℕ) : (xorCounter a t).length = a.length := by
  simp [xorCounter]

theorem xorCounter_xorCounter {a : List UInt8} (h : a.length = 8) (t : ℕ) :
    xorCounter (xorCounter a t) t = a := by
  apply List.ext_getElem
  · simp [xorCounter]
  · intro k hk hk'
    rcases (by omega : k = 7 ∨ k = 6 ∨ k < 6) with rfl | rfl | hlow
    · simp only [xorCounter, List.getD_eq_getElem?_getD, h, Nat.lt_add_one, getElem?_pos,
        Option.getD_some, Nat.reduceLT, List.length_set, ne_eq, Nat.reduceEqDiff,
        not_false_eq_true, List.getElem_set_ne, List.getElem_set_self, xor_undone]
    · simp only [xorCounter, List.getD_eq_getElem?_getD, h, Nat.lt_add_one, getElem?_pos,
        Option.getD_some, Nat.reduceLT, List.length_set, ne_eq, Nat.reduceEqDiff,
        not_false_eq_true, List.getElem_set_ne, List.getElem_set_self, xor_undone]
    · simp [xorCounter, show 6 ≠ k by omega, show 7 ≠ k by omega]

/-- What a turn keeps: the size of the two parts. -/
def WrapShape (n : ℕ) (s : List UInt8 × List UInt8) : Prop :=
  s.1.length = 8 ∧ s.2.length = 8 * n

theorem wrapStep_shape {kek : List UInt8} {n : ℕ} {s : List UInt8 × List UInt8} {ji : ℕ × ℕ}
    (hs : WrapShape n s) (hi : 1 ≤ ji.2 ∧ ji.2 ≤ n) : WrapShape n (wrapStep kek n s ji) := by
  have hend : 8 * (ji.2 - 1) + 8 ≤ 8 * n := by omega
  constructor
  · simp [wrapStep, length_xorCounter]
  · rw [wrapStep, length_writeAt_of_le (by simp [hs.2, hend]), hs.2]

theorem unwrapStep_wrapStep {kek : List UInt8} {n : ℕ} {s : List UInt8 × List UInt8} {ji : ℕ × ℕ}
    (hs : WrapShape n s) (hi : 1 ≤ ji.2 ∧ ji.2 ≤ n) :
    unwrapStep kek n (wrapStep kek n s ji) ji = s := by
  obtain ⟨a, r⟩ := s
  obtain ⟨j, i⟩ := ji
  obtain ⟨ha, hr⟩ := hs
  dsimp only at ha hr hi
  have hend : 8 * (i - 1) + 8 ≤ r.length := by omega
  have hpiece : (slice r (8 * (i - 1)) 8).length = 8 := length_slice_of_le hend
  set b := aes128Encrypt kek (a ++ slice r (8 * (i - 1)) 8) with hb
  have hblen : b.length = 16 := length_aes128Encrypt _ _
  have hdrop : (b.drop 8).length = 8 := by rw [List.length_drop, hblen]
  have hback : slice (writeAt r (8 * (i - 1)) (b.drop 8)) (8 * (i - 1)) 8 = b.drop 8 := by
    have h : slice (writeAt r (8 * (i - 1)) (b.drop 8)) (8 * (i - 1)) (b.drop 8).length =
        b.drop 8 := slice_writeAt (by omega)
    rwa [hdrop] at h
  have hplain : aes128Decrypt kek b = a ++ slice r (8 * (i - 1)) 8 :=
    aes128Decrypt_aes128Encrypt kek (by rw [List.length_append, ha, hpiece])
  simp only [wrapStep, unwrapStep, ← hb, hback]
  rw [xorCounter_xorCounter (by rw [List.length_take, hblen]; rfl), List.take_append_drop, hplain,
    List.take_left' ha, List.drop_left' ha, writeAt_restore hdrop hend]

theorem reverse_wrapTurns (n : ℕ) : (wrapTurns n).reverse = unwrapTurns n := by
  rw [wrapTurns, List.reverse_flatMap, unwrapTurns]
  congr 1
  funext j
  rw [Function.comp_apply, List.map_reverse]

theorem mem_wrapTurns {n : ℕ} {ji : ℕ × ℕ} (h : ji ∈ wrapTurns n) : 1 ≤ ji.2 ∧ ji.2 ≤ n := by
  simp only [wrapTurns, List.mem_flatMap, List.mem_map, List.mem_range'_1] at h
  obtain ⟨j, -, i, hi, rfl⟩ := h
  dsimp only
  omega

theorem foldl_wrapStep_shape {kek : List UInt8} {n : ℕ} (turns : List (ℕ × ℕ))
    (hturns : ∀ ji ∈ turns, 1 ≤ ji.2 ∧ ji.2 ≤ n) (s : List UInt8 × List UInt8)
    (hs : WrapShape n s) : WrapShape n (turns.foldl (wrapStep kek n) s) := by
  induction turns generalizing s with
  | nil => exact hs
  | cons ji turns ih =>
    rw [List.foldl_cons]
    exact ih (fun ji' h => hturns ji' (by simp [h])) _ (wrapStep_shape hs (hturns ji (by simp)))

section RoundTrip

variable (kek : List UInt8) {plain : List UInt8} (hsize : plain.length % 8 = 0)

include hsize

theorem wrapShape_start : WrapShape (plain.length / 8) (kIv, plain) :=
  ⟨rfl, by dsimp only; omega⟩

theorem aesKeyWrap_shape : WrapShape (plain.length / 8)
    ((wrapTurns (plain.length / 8)).foldl (wrapStep kek (plain.length / 8)) (kIv, plain)) :=
  foldl_wrapStep_shape _ (fun _ => mem_wrapTurns) _ (wrapShape_start hsize)

theorem length_aesKeyWrap : (aesKeyWrap kek plain).length = plain.length + 8 := by
  obtain ⟨h8, hrest⟩ := aesKeyWrap_shape kek hsize
  rw [aesKeyWrap, List.length_append, h8, hrest]
  omega

/-- Unwrapping under the key that wrapped gives the plain text back. -/
theorem aesKeyUnwrap_aesKeyWrap (hmin : 16 ≤ plain.length) :
    aesKeyUnwrap kek (aesKeyWrap kek plain) = some plain := by
  have hlen := length_aesKeyWrap kek hsize
  have hn : (aesKeyWrap kek plain).length / 8 - 1 = plain.length / 8 := by omega
  have h8 := (aesKeyWrap_shape kek hsize).1
  have hparts : ((aesKeyWrap kek plain).take 8, (aesKeyWrap kek plain).drop 8) =
      (wrapTurns (plain.length / 8)).foldl (wrapStep kek (plain.length / 8)) (kIv, plain) := by
    rw [aesKeyWrap, List.take_left' h8, List.drop_left' h8]
  have hloop := foldl_reverse_foldl (f := wrapStep kek (plain.length / 8))
    (g := unwrapStep kek (plain.length / 8)) id (P := WrapShape (plain.length / 8))
    (fun s ji => wrapStep_shape) (fun s ji => unwrapStep_wrapStep) (wrapTurns (plain.length / 8))
    (fun _ => mem_wrapTurns) (kIv, plain) (wrapShape_start hsize)
  rw [reverse_wrapTurns, id_eq, id_eq, ← hparts] at hloop
  rw [aesKeyUnwrap, if_neg (by omega)]
  simp only [hn, hloop, if_true]

end RoundTrip

end BekenCam.Wpa2
