import BekenCam.ByteBuffer

/-!
# SHA-1 and HMAC-SHA1

The streaming hash of the supplicant. Its block buffer is filled piece by piece, and
how a message is cut into pieces does not matter.
-/
namespace BekenCam.Wpa2

/-! ## The compression function -/

def rol (x n : UInt32) : UInt32 := (x <<< n) ||| (x >>> (32 - n))

/-- The five chaining words. -/
structure Sha1Words where
  h0 : UInt32
  h1 : UInt32
  h2 : UInt32
  h3 : UInt32
  h4 : UInt32
  deriving DecidableEq, Repr

/-- The big-endian word at `p`. -/
def be32 (p : List UInt8) : UInt32 :=
  ((p.getD 0 0).toUInt32 <<< 24) ||| ((p.getD 1 0).toUInt32 <<< 16) |||
    ((p.getD 2 0).toUInt32 <<< 8) ||| (p.getD 3 0).toUInt32

/-- The message schedule `w`. -/
def sha1Schedule (b : List UInt8) : List UInt32 :=
  (List.range' 16 64).foldl
    (fun w i => w ++ [rol (w.getD (i - 3) 0 ^^^ w.getD (i - 8) 0 ^^^ w.getD (i - 14) 0 ^^^
      w.getD (i - 16) 0) 1])
    ((List.range 16).map fun i => be32 (b.drop (4 * i)))

/-- One round; the words are `a`, `bb`, `c`, `d` and `e` of the source. -/
def sha1Round (w : List UInt32) (s : Sha1Words) (i : ℕ) : Sha1Words :=
  let (f, k) :=
    if i < 20 then ((s.h1 &&& s.h2) ||| (~~~s.h1 &&& s.h3), (0x5A827999 : UInt32))
    else if i < 40 then (s.h1 ^^^ s.h2 ^^^ s.h3, 0x6ED9EBA1)
    else if i < 60 then ((s.h1 &&& s.h2) ||| (s.h1 &&& s.h3) ||| (s.h2 &&& s.h3), 0x8F1BBCDC)
    else (s.h1 ^^^ s.h2 ^^^ s.h3, 0xCA62C1D6)
  ⟨rol s.h0 5 + f + s.h4 + k + w.getD i 0, s.h0, rol s.h1 30, s.h2, s.h3⟩

def compress (h : Sha1Words) (b : List UInt8) : Sha1Words :=
  let s := (List.range 80).foldl (sha1Round (sha1Schedule b)) h
  ⟨h.h0 + s.h0, h.h1 + s.h1, h.h2 + s.h2, h.h3 + s.h3, h.h4 + s.h4⟩

/-! ## The streaming hash -/

structure Sha1 where
  h : Sha1Words
  total : UInt64
  block : List UInt8
  used : ℕ
  block_size : block.length = 64
  used_lt : used < 64

/-- What the block buffer holds at first is never read. -/
def sha1Init : Sha1 :=
  ⟨⟨0x67452301, 0xEFCDAB89, 0x98BADCFE, 0x10325476, 0xC3D2E1F0⟩, 0, List.replicate 64 0, 0, rfl,
    by decide⟩

/-- One turn of the loop of `wpa2_sha1_update`: copy a piece that fits into the block,
and compress the block when it is full. -/
def Sha1.fill (s : Sha1) (piece : List UInt8) (hp : s.used + piece.length ≤ 64) : Sha1 :=
  let block := writeAt s.block s.used piece
  have hb : block.length = 64 := by
    rw [length_writeAt_of_le (by rw [s.block_size]; exact hp), s.block_size]
  if hfull : s.used + piece.length = 64 then
    ⟨compress s.h block, s.total, block, 0, hb, by decide⟩
  else
    ⟨s.h, s.total, block, s.used + piece.length, hb, by omega⟩

theorem Sha1.take_fits (s : Sha1) (p : List UInt8) :
    s.used + (p.take (min (64 - s.used) p.length)).length ≤ 64 := by
  have hused := s.used_lt
  rw [List.length_take]
  omega

def Sha1.absorb (s : Sha1) (p : List UInt8) : Sha1 :=
  if p = [] then s
  else
    let n := min (64 - s.used) p.length
    (s.fill (p.take n) (s.take_fits p)).absorb (p.drop n)
termination_by p.length
decreasing_by
  have hpos := List.length_pos_iff.mpr ‹¬p = []›
  have hused := s.used_lt
  simp only [List.length_drop]
  omega

def sha1Update (s : Sha1) (data : List UInt8) : Sha1 :=
  { s with total := s.total + UInt64.ofNat data.length }.absorb data

/-- The loop that pads with zeros up to the length field; 64 turns are enough. -/
def sha1PadZeros : ℕ → Sha1 → Sha1
  | 0, s => s
  | n + 1, s => if s.used = 56 then s else sha1PadZeros n (sha1Update s [0])

def be64Bytes (v : UInt64) : List UInt8 :=
  [(v >>> 56).toUInt8, (v >>> 48).toUInt8, (v >>> 40).toUInt8, (v >>> 32).toUInt8,
    (v >>> 24).toUInt8, (v >>> 16).toUInt8, (v >>> 8).toUInt8, v.toUInt8]

def be32Bytes (v : UInt32) : List UInt8 :=
  [(v >>> 24).toUInt8, (v >>> 16).toUInt8, (v >>> 8).toUInt8, v.toUInt8]

def sha1Final (s : Sha1) : List UInt8 :=
  let bits := s.total * 8
  let s := sha1PadZeros 64 (sha1Update s [0x80])
  let h := (sha1Update s (be64Bytes bits)).h
  be32Bytes h.h0 ++ be32Bytes h.h1 ++ be32Bytes h.h2 ++ be32Bytes h.h3 ++ be32Bytes h.h4

def sha1 (data : List UInt8) : List UInt8 := sha1Final (sha1Update sha1Init data)

/-! ## HMAC -/

structure HmacSha1 where
  inner : Sha1
  outer : Sha1

def hmacSha1Begin (key : List UInt8) : HmacSha1 :=
  let k := writeAt (List.replicate 64 0) 0 (if key.length > 64 then sha1 key else key)
  ⟨sha1Update sha1Init (k.map (· ^^^ 0x36)), sha1Update sha1Init (k.map (· ^^^ 0x5c))⟩

def hmacSha1Update (h : HmacSha1) (data : List UInt8) : HmacSha1 :=
  { h with inner := sha1Update h.inner data }

def hmacSha1Final (h : HmacSha1) : List UInt8 :=
  sha1Final (sha1Update h.outer (sha1Final h.inner))

def hmacSha1 (key data : List UInt8) : List UInt8 :=
  hmacSha1Final (hmacSha1Update (hmacSha1Begin key) data)

@[simp] theorem length_sha1Final (s : Sha1) : (sha1Final s).length = 20 := rfl

@[simp] theorem length_hmacSha1Final (h : HmacSha1) : (hmacSha1Final h).length = 20 := rfl

/-! ## The pieces do not matter -/

@[ext] theorem Sha1.ext' {s t : Sha1} (hh : s.h = t.h) (ht : s.total = t.total)
    (hb : s.block = t.block) (hu : s.used = t.used) : s = t := by
  cases s; cases t; simp_all

theorem Sha1.absorb_nil (s : Sha1) : s.absorb [] = s := by
  rw [absorb.eq_def, if_pos rfl]

theorem Sha1.fill_congr {s : Sha1} {a b : List UInt8} (h : a = b)
    (ha : s.used + a.length ≤ 64) : s.fill a ha = s.fill b (h ▸ ha) := by
  subst h
  rfl

/-- One turn of the loop, for a piece named by its content. -/
theorem Sha1.absorb_piece (s : Sha1) {a b : List UInt8} (ha : a ≠ [])
    (hlen : a.length = min (64 - s.used) (a ++ b).length) (hfit : s.used + a.length ≤ 64) :
    s.absorb (a ++ b) = (s.fill a hfit).absorb b := by
  have htake : (a ++ b).take (min (64 - s.used) (a ++ b).length) = a := by
    rw [← hlen, List.take_left]
  have hdrop : (a ++ b).drop (min (64 - s.used) (a ++ b).length) = b := by
    rw [← hlen, List.drop_left]
  rw [absorb.eq_def, if_neg (by simp [ha])]
  simp only [fill_congr htake, hdrop]

/-- Two pieces that fit into the block one after the other. -/
theorem Sha1.fill_fill {s : Sha1} {a b : List UInt8} (ha : s.used + a.length < 64)
    (hab : s.used + (a ++ b).length ≤ 64) :
    (s.fill a ha.le).used = s.used + a.length ∧
      ∀ hb, (s.fill a ha.le).fill b hb = s.fill (a ++ b) hab := by
  have hfirst : s.fill a ha.le = ⟨s.h, s.total, writeAt s.block s.used a, s.used + a.length,
      by rw [length_writeAt_of_le (by rw [s.block_size]; exact ha.le), s.block_size], ha⟩ := by
    rw [fill, dif_neg (by omega)]
  have hsize := s.block_size
  have hused := s.used_lt
  rw [List.length_append] at hab
  have hblock : writeAt (writeAt s.block s.used a) (s.used + a.length) b =
      writeAt s.block s.used (a ++ b) := writeAt_writeAt (by omega)
  rw [hfirst]
  refine ⟨rfl, fun hb => ?_⟩
  rw [fill, fill]
  by_cases hfull : s.used + a.length + b.length = 64
  · rw [dif_pos hfull, dif_pos (by rw [List.length_append]; omega)]
    apply Sha1.ext' <;> simp [hblock]
  · rw [dif_neg hfull, dif_neg (by rw [List.length_append]; omega)]
    apply Sha1.ext' <;> simp [hblock, Nat.add_assoc]

/-- Feeding two messages in turn is feeding one behind the other. -/
theorem Sha1.absorb_append (s : Sha1) (a b : List UInt8) :
    s.absorb (a ++ b) = (s.absorb a).absorb b := by
  by_cases ha : a = []
  · rw [ha, List.nil_append, absorb_nil]
  by_cases hb : b = []
  · rw [hb, List.append_nil, absorb_nil]
  have hused := s.used_lt
  have hapos := List.length_pos_iff.mpr ha
  have hbpos := List.length_pos_iff.mpr hb
  rcases Nat.lt_or_ge a.length (64 - s.used) with hshort | hlong
  · -- the first message stays inside the block, the second one goes on from there
    set n := min (64 - (s.used + a.length)) b.length with hn
    have hcut : b = b.take n ++ b.drop n := (List.take_append_drop n b).symm
    have htake : (b.take n).length = n := by
      rw [List.length_take]
      omega
    have hfit : s.used + a.length < 64 := by omega
    obtain ⟨hu, hfill⟩ := fill_fill (s := s) (a := a) (b := b.take n) hfit
      (by rw [List.length_append]; omega)
    have hone : s.absorb a = s.fill a hfit.le := by
      have h := absorb_piece s (b := []) ha (by rw [List.append_nil]; omega) hfit.le
      rw [List.append_nil, absorb_nil] at h
      exact h
    have hnext : (s.fill a hfit.le).absorb b =
        ((s.fill a hfit.le).fill (b.take n) (by rw [hu]; omega)).absorb (b.drop n) := by
      conv_lhs => rw [hcut]
      apply absorb_piece
      · rw [← List.length_pos_iff]
        omega
      · rw [List.take_append_drop, hu]
        omega
    have hboth : s.absorb (a ++ b) =
        (s.fill (a ++ b.take n) (by rw [List.length_append]; omega)).absorb (b.drop n) := by
      conv_lhs => rw [hcut, ← List.append_assoc]
      apply absorb_piece s (by simp [ha])
      rw [List.append_assoc, List.take_append_drop, List.length_append, List.length_append]
      omega
    rw [hone, hnext, hfill, hboth]
  · -- the block is full before the first message ends
    set n := 64 - s.used with hn
    have hcut : a = a.take n ++ a.drop n := (List.take_append_drop n a).symm
    have htake : (a.take n).length = n := by
      rw [List.length_take]
      omega
    have hne : a.take n ≠ [] := by
      rw [← List.length_pos_iff]
      omega
    have hfirst : s.absorb a = (s.fill (a.take n) (by omega)).absorb (a.drop n) := by
      conv_lhs => rw [hcut]
      apply absorb_piece s hne
      rw [List.take_append_drop]
      omega
    have hboth : s.absorb (a ++ b) = (s.fill (a.take n) (by omega)).absorb (a.drop n ++ b) := by
      conv_lhs => rw [hcut, List.append_assoc]
      apply absorb_piece s hne
      rw [← List.append_assoc, List.take_append_drop, List.length_append]
      omega
    rw [hfirst, hboth]
    exact absorb_append _ _ _
termination_by a.length
decreasing_by
  rw [List.length_drop]
  omega

theorem Sha1.fill_total (s : Sha1) (t : UInt64) (p : List UInt8) (hp : s.used + p.length ≤ 64) :
    { s with total := t }.fill p hp = { s.fill p hp with total := t } := by
  simp only [fill]
  split_ifs <;> rfl

/-- The counter is not looked at while bytes are fed. -/
theorem Sha1.absorb_total (s : Sha1) (t : UInt64) (p : List UInt8) :
    { s with total := t }.absorb p = { s.absorb p with total := t } := by
  by_cases hp : p = []
  · rw [hp, absorb_nil, absorb_nil]
  have hpos := List.length_pos_iff.mpr hp
  have hused := s.used_lt
  set n := min (64 - s.used) p.length with hn
  have htake : (p.take n).length = n := by
    rw [List.length_take]
    omega
  have hne : p.take n ≠ [] := by
    rw [← List.length_pos_iff]
    omega
  have hlen : (p.take n).length = min (64 - s.used) (p.take n ++ p.drop n).length := by
    rw [List.take_append_drop, htake]
  have h1 := absorb_piece s hne hlen (by omega)
  have h2 := absorb_piece { s with total := t } hne hlen (by simp only; omega)
  rw [List.take_append_drop] at h1 h2
  rw [h1, h2, fill_total]
  exact absorb_total _ _ _
termination_by p.length
decreasing_by
  rw [List.length_drop]
  omega

/-- How a message is cut into pieces does not matter. -/
theorem sha1Update_append (s : Sha1) (a b : List UInt8) :
    sha1Update s (a ++ b) = sha1Update (sha1Update s a) b := by
  have hlen : UInt64.ofNat (a ++ b).length = UInt64.ofNat a.length + UInt64.ofNat b.length := by
    rw [List.length_append, UInt64.ofNat_add]
  simp only [sha1Update, Sha1.absorb_append, Sha1.absorb_total, hlen, UInt64.add_assoc]

theorem used_sha1Update_one (s : Sha1) (b : UInt8) :
    (sha1Update s [b]).used = (s.used + 1) % 64 := by
  have hused := s.used_lt
  have hone := Sha1.absorb_piece s (a := [b]) (b := []) (by simp)
    (by simp only [List.append_nil, List.length_singleton]; omega)
    (by rw [List.length_singleton]; omega)
  rw [List.append_nil, Sha1.absorb_nil] at hone
  rw [sha1Update, Sha1.absorb_total, hone, Sha1.fill]
  split_ifs with hfull
  · rw [List.length_singleton] at hfull
    simp [hfull]
  · rw [List.length_singleton] at hfull
    simp only [List.length_singleton]
    omega

/-- The padding stops in front of the length field. -/
theorem sha1PadZeros_used (n : ℕ) (s : Sha1) (h : (120 - s.used) % 64 ≤ n) :
    (sha1PadZeros n s).used = 56 := by
  have hused := s.used_lt
  induction n generalizing s with
  | zero => rw [sha1PadZeros]; omega
  | succ n ih =>
    rw [sha1PadZeros]
    split_ifs with hend
    · exact hend
    · have hstep := used_sha1Update_one s 0
      apply ih _ _ (sha1Update s [0]).used_lt
      omega

theorem hmacSha1Update_append (h : HmacSha1) (a b : List UInt8) :
    hmacSha1Update h (a ++ b) = hmacSha1Update (hmacSha1Update h a) b := by
  rw [hmacSha1Update, sha1Update_append]
  rfl

end BekenCam.Wpa2
