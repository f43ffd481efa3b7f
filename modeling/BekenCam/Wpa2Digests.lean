import BekenCam.HashStandards
import BekenCam.Wpa2Kdf

/-!
# The hashes are those of the standards

A hash that has been fed a message holds the chaining value of its whole blocks and, in front of the
block buffer, the bytes behind them. So the pieces the message came in leave no trace, the padding
fills the last block, and what is built on the hash follows.
-/
namespace BekenCam.Wpa2

open Standard (octets)

/-! ## One block -/

def Sha1Words.words (h : Sha1Words) : Standard.Words := ⟨h.h0, h.h1, h.h2, h.h3, h.h4⟩

theorem rol_eq (x n : UInt32) : rol x n = Standard.rotl n x := rfl

/-- Two terms that have no bit in common add up. -/
theorem ch_eq (x y z : UInt32) : (x &&& y) ||| (~~~x &&& z) = Standard.ch x y z := by
  rw [Standard.ch, ← UInt32.toBitVec_inj]
  apply BitVec.eq_of_getLsbD_eq
  intro i hi
  simp only [UInt32.toBitVec_or, UInt32.toBitVec_and, UInt32.toBitVec_not, UInt32.toBitVec_xor,
    BitVec.getLsbD_or, BitVec.getLsbD_and, BitVec.getLsbD_xor, BitVec.getLsbD_not]
  cases x.toBitVec.getLsbD i <;> cases y.toBitVec.getLsbD i <;> cases z.toBitVec.getLsbD i <;>
    simp [hi]

theorem maj_eq (x y z : UInt32) :
    (x &&& y) ||| (x &&& z) ||| (y &&& z) = Standard.maj x y z := by
  rw [Standard.maj, ← UInt32.toBitVec_inj]
  apply BitVec.eq_of_getLsbD_eq
  intro i hi
  simp only [UInt32.toBitVec_or, UInt32.toBitVec_and, UInt32.toBitVec_xor,
    BitVec.getLsbD_or, BitVec.getLsbD_and, BitVec.getLsbD_xor]
  cases x.toBitVec.getLsbD i <;> cases y.toBitVec.getLsbD i <;> cases z.toBitVec.getLsbD i <;> rfl

theorem sha1Round_eq (w : List UInt32) (block : List UInt8) (s : Sha1Words) {t : ℕ}
    (hw : w.getD t 0 = Standard.schedule block t) :
    (sha1Round w s t).words = Standard.round block s.words t := by
  simp only [sha1Round, Standard.round, Sha1Words.words, ← hw, Standard.function,
    Standard.constant, ← rol_eq]
  split_ifs
  · rw [ch_eq]
  · rfl
  · rw [maj_eq]
  · rfl

theorem be32_eq {block : List UInt8} (h : block.length = 64) {t : ℕ} (ht : t < 16) :
    be32 (block.drop (4 * t)) = Standard.word block t := by
  have hlen : 4 ≤ (block.drop (4 * t)).length := by
    rw [List.length_drop]
    omega
  rw [Standard.word]
  match hrest : block.drop (4 * t), hlen with
  | a :: b :: c :: d :: rest, _ =>
    have hvalue : beValue [a, b, c, d] =
        16777216 * a.toNat + 65536 * b.toNat + 256 * c.toNat + d.toNat := by
      simp only [beValue, List.length_cons, List.length_nil]
      ring
    have hshifted : (be32 (a :: b :: c :: d :: rest)).toNat = beValue [a, b, c, d] := by
      rw [hvalue]
      exact toNat_shifted a b c d
    change _ = UInt32.ofNat (beValue [a, b, c, d])
    rw [← hshifted, UInt32.ofNat_toNat]

theorem sha1Schedule_eq {block : List UInt8} (h : block.length = 64) :
    sha1Schedule block = (List.range 80).map (Standard.schedule block) := by
  have hfirst : ((List.range 16).map fun i => be32 (block.drop (4 * i))) =
      (List.range 16).map (Standard.schedule block) := by
    refine List.map_congr_left fun t ht => ?_
    rw [List.mem_range] at ht
    rw [be32_eq h ht, Standard.schedule, if_pos ht]
  have hnext : ∀ n, (List.range' 16 n).foldl
      (fun w i => w ++ [rol (w.getD (i - 3) 0 ^^^ w.getD (i - 8) 0 ^^^ w.getD (i - 14) 0 ^^^
        w.getD (i - 16) 0) 1]) ((List.range 16).map (Standard.schedule block)) =
      (List.range (16 + n)).map (Standard.schedule block) := by
    intro n
    induction n with
    | zero => rfl
    | succ n ih =>
      have hget : ∀ k, k < 16 + n →
          ((List.range (16 + n)).map (Standard.schedule block)).getD k 0 =
            Standard.schedule block k := by
        intro k hk
        rw [List.getD_eq_getElem?_getD, List.getElem?_map, List.getElem?_range hk]
        rfl
      rw [List.range'_concat, List.foldl_append, ih, Nat.one_mul, ← Nat.add_assoc,
        List.range_succ, List.map_append, List.foldl_cons, List.foldl_nil,
        hget _ (by omega), hget _ (by omega), hget _ (by omega), hget _ (by omega),
        List.map_singleton, Standard.schedule.eq_def block (16 + n), if_neg (by omega)]
      rfl
  rw [sha1Schedule, hfirst]
  exact hnext 64

theorem foldl_sha1Round {block : List UInt8} (h : block.length = 64) (ts : List ℕ)
    (hts : ∀ t ∈ ts, t < 80) (s : Sha1Words) :
    (ts.foldl (sha1Round (sha1Schedule block)) s).words =
      ts.foldl (Standard.round block) s.words := by
  induction ts generalizing s with
  | nil => rfl
  | cons t ts ih =>
    have ht := hts t List.mem_cons_self
    have hw : (sha1Schedule block).getD t 0 = Standard.schedule block t := by
      rw [sha1Schedule_eq h, List.getD_eq_getElem?_getD, List.getElem?_map, List.getElem?_range ht]
      rfl
    rw [List.foldl_cons, List.foldl_cons, ih fun t' ht' => hts t' (List.mem_cons_of_mem t ht'),
      sha1Round_eq _ block s hw]

theorem compress_eq (h : Sha1Words) {block : List UInt8} (hblock : block.length = 64) :
    (compress h block).words = Standard.compress h.words block := by
  have hrounds := foldl_sha1Round hblock (List.range 80) (fun _ => List.mem_range.mp) h
  unfold compress Standard.compress
  rw [← hrounds]
  simp only [Sha1Words.words, UInt32.add_comm h.h0, UInt32.add_comm h.h1, UInt32.add_comm h.h2,
    UInt32.add_comm h.h3, UInt32.add_comm h.h4]

/-! ## The stream -/

/-- The chaining value of whole blocks, and what is in the block buffer behind them. -/
def Sha1.Parts (s : Sha1) (message : List UInt8) : Prop :=
  ∃ bs : List (List UInt8), (∀ b ∈ bs, b.length = 64) ∧
    message = bs.flatten ++ s.block.take s.used ∧
      s.h.words = bs.foldl Standard.compress Standard.initial

/-- The hash has been fed these bytes. -/
structure Sha1.Fed (s : Sha1) (message : List UInt8) : Prop where
  total : s.total = UInt64.ofNat message.length
  parts : s.Parts message

theorem fed_init : sha1Init.Fed [] := ⟨rfl, [], nofun, rfl, rfl⟩

namespace Sha1

theorem Parts.used {s : Sha1} {message : List UInt8} (h : s.Parts message) :
    s.used = message.length % 64 := by
  obtain ⟨bs, hbs, hmessage, -⟩ := h
  have hwhole : bs.flatten.length = 64 * bs.length := by
    rw [List.length_flatten, List.map_congr_left hbs]
    simp [Nat.mul_comm]
  have hused := s.used_lt
  have hsize := s.block_size
  have hlen := congrArg List.length hmessage
  rw [List.length_append, hwhole, List.length_take] at hlen
  omega

/-- One turn of the loop. -/
theorem Parts.fill {s : Sha1} {message piece : List UInt8} (h : s.Parts message)
    (hp : s.used + piece.length ≤ 64) : (s.fill piece hp).Parts (message ++ piece) := by
  obtain ⟨bs, hbs, hmessage, hh⟩ := h
  have hsize := s.block_size
  have hused := s.used_lt
  have hfront : (s.block.take s.used ++ piece).length = s.used + piece.length := by
    rw [List.length_append, List.length_take]
    omega
  have htake : (writeAt s.block s.used piece).take (s.used + piece.length) =
      s.block.take s.used ++ piece := by
    rw [writeAt, ← hfront, List.take_left]
  have hlen : (writeAt s.block s.used piece).length = 64 := by
    rw [length_writeAt_of_le (by omega), hsize]
  rw [Sha1.fill]
  split_ifs with hfull
  · have hblock : writeAt s.block s.used piece = s.block.take s.used ++ piece := by
      rw [← htake, List.take_of_length_le (by omega)]
    refine ⟨bs ++ [writeAt s.block s.used piece], fun b hb => ?_, ?_, ?_⟩
    · rcases List.mem_append.mp hb with hb | hb
      · exact hbs b hb
      · rw [List.mem_singleton.mp hb, hlen]
    · rw [hmessage, List.flatten_append, List.take_zero, List.append_nil, List.flatten_singleton,
        hblock, List.append_assoc]
    · rw [List.foldl_append, ← hh]
      exact compress_eq s.h hlen
  · exact ⟨bs, hbs, by rw [htake, hmessage, List.append_assoc], hh⟩

theorem Parts.absorb {s : Sha1} {message : List UInt8} (h : s.Parts message) (p : List UInt8) :
    (s.absorb p).Parts (message ++ p) := by
  rw [absorb.eq_def]
  split_ifs with hp
  · rwa [hp, List.append_nil]
  · have hpos := List.length_pos_iff.mpr hp
    have hused := s.used_lt
    have hrest := (h.fill (s.take_fits p)).absorb (p.drop (min (64 - s.used) p.length))
    rwa [List.append_assoc, List.take_append_drop] at hrest
termination_by p.length
decreasing_by
  rw [List.length_drop]
  omega

end Sha1

theorem Sha1.Fed.update {s : Sha1} {message : List UInt8} (h : s.Fed message)
    (data : List UInt8) : (sha1Update s data).Fed (message ++ data) := by
  have hparts := h.parts.absorb data
  rw [sha1Update, Sha1.absorb_total]
  refine ⟨?_, hparts⟩
  rw [List.length_append, UInt64.ofNat_add, ← h.total]

theorem Sha1.Fed.updates {s : Sha1} {message : List UInt8} (h : s.Fed message)
    (pieces : List (List UInt8)) : (pieces.foldl sha1Update s).Fed (message ++ pieces.flatten) := by
  induction pieces generalizing s message with
  | nil => rwa [List.flatten_nil, List.append_nil]
  | cons piece pieces ih =>
    have hrest := ih (h.update piece)
    rwa [List.append_assoc] at hrest

/-! ## The padding -/

theorem sha1Update_nil (s : Sha1) : sha1Update s [] = s := by
  rw [sha1Update, Sha1.absorb_nil]
  exact Sha1.ext' rfl (UInt64.add_zero s.total) rfl rfl

/-- The loop writes the zeros that are missing in front of the length. -/
theorem sha1PadZeros_eq (n : ℕ) (s : Sha1) (h : (120 - s.used) % 64 ≤ n) :
    sha1PadZeros n s = sha1Update s (List.replicate ((120 - s.used) % 64) 0) := by
  have hused := s.used_lt
  induction n generalizing s with
  | zero =>
    have hnone : (120 - s.used) % 64 = 0 := Nat.le_zero.mp h
    rw [hnone, sha1PadZeros, List.replicate_zero, sha1Update_nil]
  | succ n ih =>
    rw [sha1PadZeros]
    split_ifs with hend
    · rw [hend, List.replicate_zero, sha1Update_nil]
    · have hstep := used_sha1Update_one s 0
      have hone : (120 - s.used) % 64 = (120 - (sha1Update s [0]).used) % 64 + 1 := by omega
      rw [ih _ (by omega) (sha1Update s [0]).used_lt, hone, List.replicate_succ]
      exact (sha1Update_append s [0] _).symm

/-- A byte of a word that is shifted down to it. -/
theorem toUInt8_shiftRight64 (n : ℕ) (i : ℕ) (h : i < 8) :
    (UInt64.ofNat n >>> UInt64.ofNat (8 * i)).toUInt8 = UInt8.ofNat (n / 256 ^ i) := by
  have hshift : (UInt64.ofNat (8 * i)).toNat % 64 = 8 * i := by
    rw [UInt64.toNat_ofNat']
    omega
  rw [← UInt8.toNat_inj, UInt64.toNat_toUInt8, UInt64.toNat_shiftRight, hshift,
    UInt64.toNat_ofNat', UInt8.toNat_ofNat', Nat.shiftRight_eq_div_pow]
  interval_cases i <;> omega

theorem toUInt8_shiftRight32 (v : UInt32) (i : ℕ) (h : i < 4) :
    (v >>> UInt32.ofNat (8 * i)).toUInt8 = UInt8.ofNat (v.toNat / 256 ^ i) := by
  have hshift : (UInt32.ofNat (8 * i)).toNat % 32 = 8 * i := by
    rw [UInt32.toNat_ofNat']
    omega
  rw [← UInt8.toNat_inj, UInt32.toNat_toUInt8, UInt32.toNat_shiftRight, hshift,
    UInt8.toNat_ofNat', Nat.shiftRight_eq_div_pow, Nat.pow_mul]

theorem be64Bytes_ofNat (n : ℕ) : be64Bytes (UInt64.ofNat n) = octets 8 n := by
  have hbytes : be64Bytes (UInt64.ofNat n) = (List.range 8).reverse.map fun i =>
      (UInt64.ofNat n >>> UInt64.ofNat (8 * i)).toUInt8 := by
    simp [be64Bytes, List.range_succ]
  rw [hbytes, octets]
  refine List.map_congr_left fun i hi => toUInt8_shiftRight64 n i ?_
  rwa [List.mem_reverse, List.mem_range] at hi

theorem be32Bytes_eq (v : UInt32) : be32Bytes v = octets 4 v.toNat := by
  have hbytes : be32Bytes v = (List.range 4).reverse.map fun i =>
      (v >>> UInt32.ofNat (8 * i)).toUInt8 := by
    simp [be32Bytes, List.range_succ]
  rw [hbytes, octets]
  refine List.map_congr_left fun i hi => toUInt8_shiftRight32 v i ?_
  rwa [List.mem_reverse, List.mem_range] at hi

theorem Sha1.Fed.final {s : Sha1} {message : List UInt8} (h : s.Fed message) :
    sha1Final s = Standard.sha1 message := by
  have hused := h.parts.used
  have hone := h.update [0x80]
  have hlen : (message ++ [0x80]).length = message.length + 1 := List.length_append
  have hzeros : (120 - (sha1Update s [0x80]).used) % 64 = (119 - message.length % 64) % 64 := by
    rw [hone.parts.used, hlen]
    omega
  have hpadded := (hone.update (List.replicate ((119 - message.length % 64) % 64) 0)).update
    (octets 8 (8 * message.length))
  have hbits : be64Bytes (s.total * 8) = octets 8 (8 * message.length) := by
    rw [h.total, ← be64Bytes_ofNat, Nat.mul_comm, UInt64.ofNat_mul]
    rfl
  have hwhole : message ++ [0x80] ++ List.replicate ((119 - message.length % 64) % 64) 0 ++
      octets 8 (8 * message.length) = Standard.pad message := by
    simp [Standard.pad]
  rw [hwhole] at hpadded
  obtain ⟨bs, hbs, hmessage, hh⟩ := hpadded.parts
  rw [hpadded.parts.used, Standard.length_pad, List.take_zero, List.append_nil] at hmessage
  rw [sha1Final, Standard.sha1, hmessage, Standard.blocks_flatten hbs, ← hh]
  simp only [hbits, sha1PadZeros_eq 64 _ (Nat.le_of_lt (Nat.mod_lt _ (by decide))), hzeros,
    be32Bytes_eq, Sha1Words.words]

theorem sha1_eq (data : List UInt8) : sha1 data = Standard.sha1 data :=
  (fed_init.update data).final

/-! ## HMAC -/

/-- The key, made as long as a block. -/
def hmacKey (key : List UInt8) : List UInt8 :=
  let key := if key.length > 64 then Standard.sha1 key else key
  key ++ List.replicate (64 - key.length) 0

theorem hmacSha1Begin_fed (key : List UInt8) :
    (hmacSha1Begin key).inner.Fed ((hmacKey key).map (· ^^^ 0x36)) ∧
      (hmacSha1Begin key).outer.Fed ((hmacKey key).map (· ^^^ 0x5c)) := by
  have hkey : writeAt (List.replicate 64 0) 0 (if key.length > 64 then sha1 key else key) =
      hmacKey key := by
    rw [writeAt_front, List.drop_replicate, hmacKey, sha1_eq]
  unfold hmacSha1Begin
  rw [hkey]
  exact ⟨fed_init.update _, fed_init.update _⟩

theorem foldl_hmacSha1Update (h : HmacSha1) (pieces : List (List UInt8)) :
    pieces.foldl hmacSha1Update h = ⟨pieces.foldl sha1Update h.inner, h.outer⟩ := by
  induction pieces generalizing h with
  | nil => rfl
  | cons piece pieces ih => exact ih (hmacSha1Update h piece)

/-- The pieces a message comes in leave no trace in its HMAC. -/
theorem hmacSha1Final_pieces (key : List UInt8) (pieces : List (List UInt8)) :
    hmacSha1Final (pieces.foldl hmacSha1Update (hmacSha1Begin key)) =
      Standard.hmacSha1 key pieces.flatten := by
  obtain ⟨hinner, houter⟩ := hmacSha1Begin_fed key
  rw [foldl_hmacSha1Update, hmacSha1Final, (hinner.updates pieces).final,
    (houter.update _).final]
  rfl

theorem hmacSha1Final_update (key data : List UInt8) :
    hmacSha1Final (hmacSha1Update (hmacSha1Begin key) data) = Standard.hmacSha1 key data := by
  have h := hmacSha1Final_pieces key [data]
  rwa [List.flatten_singleton] at h

/-! ## PBKDF2 and the PRF -/

theorem pbkdf2Rounds_eq (pass salt : List UInt8) (block n : ℕ) (k : ℕ) (t : List UInt8) :
    pbkdf2Rounds (hmacSha1Begin pass) (Standard.pbkdf2U Standard.hmacSha1 pass salt block k) t n =
      (List.range' (k + 1) n).foldl
        (fun t j => Standard.xorBytes t (Standard.pbkdf2U Standard.hmacSha1 pass salt block j)) t := by
  induction n generalizing k t with
  | zero => rfl
  | succ n ih =>
    have hnext : hmacSha1Final (hmacSha1Update (hmacSha1Begin pass)
        (Standard.pbkdf2U Standard.hmacSha1 pass salt block k)) =
        Standard.pbkdf2U Standard.hmacSha1 pass salt block (k + 1) := hmacSha1Final_update _ _
    rw [pbkdf2Rounds, List.range'_succ, List.foldl_cons]
    simp only [hnext]
    exact ih (k + 1) _

theorem length_pbkdf2Rounds (base : HmacSha1) (n : ℕ) {u t : List UInt8} (hu : u.length = 20)
    (ht : t.length = 20) : (pbkdf2Rounds base u t n).length = 20 := by
  induction n generalizing u t with
  | zero => exact ht
  | succ n ih =>
    have hlast := length_hmacSha1Final (hmacSha1Update base u)
    exact ih hlast (by rw [List.length_zipWith, ht, hlast, Nat.min_self])

/-- What the loop makes of one block. -/
def pbkdf2Block (base : HmacSha1) (salt : List UInt8) (iterations : ℕ) (block : UInt32) :
    List UInt8 :=
  let u := hmacSha1Final (hmacSha1Update base (salt ++ be32Bytes block))
  pbkdf2Rounds base u u (iterations - 1)

theorem pbkdf2Block_eq (pass salt : List UInt8) (iterations n : ℕ) :
    pbkdf2Block (hmacSha1Begin pass) salt iterations (UInt32.ofNat n) =
      Standard.pbkdf2T Standard.hmacSha1 pass salt iterations n := by
  have hoctets : octets 4 (UInt32.ofNat n).toNat = octets 4 n := by
    refine List.map_congr_left fun i hi => ?_
    rw [List.mem_reverse, List.mem_range] at hi
    rw [← UInt8.toNat_inj, UInt8.toNat_ofNat', UInt8.toNat_ofNat', UInt32.toNat_ofNat']
    interval_cases i <;> omega
  have hfirst : hmacSha1Final (hmacSha1Update (hmacSha1Begin pass)
      (salt ++ be32Bytes (UInt32.ofNat n))) =
      Standard.pbkdf2U Standard.hmacSha1 pass salt n 0 := by
    rw [hmacSha1Final_update, be32Bytes_eq, hoctets]
    rfl
  unfold pbkdf2Block
  rw [hfirst]
  exact pbkdf2Rounds_eq pass salt n (iterations - 1) 0 _

theorem pbkdf2Loop_eq (pass salt : List UInt8) (iterations outLen : ℕ) :
    pbkdf2Loop (hmacSha1Begin pass) salt iterations 1 outLen =
      Standard.pbkdf2 Standard.hmacSha1 pass salt 20 iterations outLen := by
  have hlen : ∀ block, (pbkdf2Block (hmacSha1Begin pass) salt iterations block).length = 20 :=
    fun _ => length_pbkdf2Rounds _ _ (length_hmacSha1Final _) (length_hmacSha1Final _)
  have hloop : ∀ block n, pbkdf2Loop (hmacSha1Begin pass) salt iterations block n =
      if n = 0 then [] else
        (pbkdf2Block (hmacSha1Begin pass) salt iterations block).take (min n 20) ++
          pbkdf2Loop (hmacSha1Begin pass) salt iterations (block + 1) (n - min n 20) :=
    fun block n => by rw [pbkdf2Loop, pbkdf2Block]
  have hnumber : ∀ i, (· + 1)^[i] (1 : UInt32) = UInt32.ofNat (i + 1) := by
    intro i
    induction i with
    | zero => rfl
    | succ i ih =>
      rw [Function.iterate_succ_apply', ih, UInt32.ofNat_add (i + 1)]
      rfl
  rw [hashLoop_eq_take hlen hloop ((outLen + 20 - 1) / 20) 1 outLen (by omega), Standard.pbkdf2]
  simp only [hnumber, pbkdf2Block_eq]

theorem prfLoop_eq (key label data : List UInt8) (outLen : ℕ) :
    prfLoop (hmacSha1Begin key) (label ++ 0 :: data) 0 outLen =
      Standard.ieeePrf key label data outLen := by
  rw [prfLoop_eq_take _ _ ((8 * outLen + 159) / 160 + 1) 0 outLen (by omega), Standard.ieeePrf]
  simp only [UInt8.zero_add, hmacSha1Final_update]

/-! ## The code computes what the standards define -/

/-- However a message is cut into pieces, and whatever the lengths are. -/
theorem wpa2_hashes_standard :
    (∀ pieces : List (List UInt8), sha1Final (pieces.foldl sha1Update sha1Init) =
      Standard.sha1 pieces.flatten) ∧
    (∀ (key : List UInt8) (pieces : List (List UInt8)),
      hmacSha1Final (pieces.foldl hmacSha1Update (hmacSha1Begin key)) =
        Standard.hmacSha1 key pieces.flatten) ∧
    (∀ (pass salt : List UInt8) (iterations outLen : ℕ), salt.length ≤ 32 → 0 < iterations →
      wpa2Pbkdf2Sha1 pass salt iterations outLen =
        some (Standard.pbkdf2 Standard.hmacSha1 pass salt 20 iterations outLen)) ∧
    ∀ (key label data : List UInt8) (outLen : ℕ), label.length + 1 + data.length + 1 ≤ 128 →
      wpa2Prf key label data outLen = some (Standard.ieeePrf key label data outLen) := by
  refine ⟨fun pieces => ?_, hmacSha1Final_pieces, fun pass salt iterations outLen hsalt hiter => ?_,
    fun key label data outLen hfits => ?_⟩
  · have hfed := fed_init.updates pieces
    rw [List.nil_append] at hfed
    exact hfed.final
  · rw [wpa2Pbkdf2Sha1, if_neg (by omega), pbkdf2Loop_eq]
  · rw [wpa2Prf, if_neg (by omega), prfLoop_eq]

/-- Two iterations, and a key that is cut in its second block. -/
theorem wpa2_hashes_standard_vector :
    wpa2Pbkdf2Sha1 [112, 97] [115] 2 25 =
        some (Standard.pbkdf2 Standard.hmacSha1 [112, 97] [115] 20 2 25) ∧
      wpa2Prf [1] [80] [2, 3] 48 = some (Standard.ieeePrf [1] [80] [2, 3] 48) :=
  ⟨wpa2_hashes_standard.2.2.1 [112, 97] [115] 2 25 (by decide) (by decide),
    wpa2_hashes_standard.2.2.2 [1] [80] [2, 3] 48 (by decide)⟩

end BekenCam.Wpa2
