import BekenCam.CrcDetection
import Mathlib.Data.Nat.Bitwise

/-!
# Images with a checksum to each line

`tools/crc` and `tools/uncrc`. The flash controller wants a checksum of 16 bits behind every 32 bytes
of an image.
-/
namespace BekenCam.CrcImage

/-! ## The tools -/

/-- One turn of the inner loop of `compute_crc16`. -/
def crc16Bit (crc : ℕ) : ℕ :=
  (if crc &&& 0x8000 ≠ 0 then (crc <<< 1) ^^^ 0x8005 else crc <<< 1) &&& 0xFFFF

def computeCrc16 (data : List UInt8) : ℕ :=
  data.foldl (fun crc byte => crc16Bit^[8] (crc ^^^ (byte.toNat <<< 8))) 0xFFFF

/-- `struct.pack('>H', crc)` -/
def packBe16 (crc : ℕ) : List UInt8 := [UInt8.ofNat (crc / 256), UInt8.ofNat crc]

/-- A block as it was read, with `0xFF` up to 32 bytes. -/
def padBlock (block : List UInt8) : List UInt8 := block ++ List.replicate (32 - block.length) 0xFF

/-- What `tools/crc` makes of a file. -/
def crc (data : List UInt8) : List UInt8 :=
  if data = [] then []
  else
    let block := padBlock (data.take 32)
    block ++ packBe16 (computeCrc16 block) ++ crc (data.drop 32)
termination_by data.length
decreasing_by
  have hpos := List.length_pos_iff.mpr ‹¬data = []›
  rw [List.length_drop]
  omega

def chunkSize : ℕ := 34
def dataSize : ℕ := 32

/-- What `tools/uncrc` makes of a file; a last chunk that is too short is skipped. -/
def uncrc (image : List UInt8) : List UInt8 :=
  if image.length < chunkSize then []
  else (image.take chunkSize).take dataSize ++ uncrc (image.drop chunkSize)
termination_by image.length
decreasing_by
  rw [List.length_drop, chunkSize] at *
  omega

/-! ## Lines -/

/-- The data of a line and their checksum. -/
def IntactLine (line : List UInt8) : Prop :=
  ∃ block : List UInt8, block.length = 32 ∧ line = block ++ packBe16 (computeCrc16 block)

/-- An image the flash controller accepts. -/
def Intact (image : List UInt8) : Prop :=
  ∃ lines : List (List UInt8), (∀ line ∈ lines, IntactLine line) ∧ image = lines.flatten

/-- The file with `0xFF` up to the next line. -/
def padFile (data : List UInt8) : List UInt8 :=
  data ++ List.replicate ((32 - data.length % 32) % 32) 0xFF

theorem IntactLine.length {line : List UInt8} (h : IntactLine line) : line.length = chunkSize := by
  obtain ⟨block, hblock, rfl⟩ := h
  rw [List.length_append, hblock]
  rfl

theorem length_padBlock {block : List UInt8} (h : block.length ≤ 32) :
    (padBlock block).length = 32 := by
  rw [padBlock, List.length_append, List.length_replicate]
  omega

theorem intact_nil : Intact [] := ⟨[], nofun, rfl⟩

theorem Intact.cons {line image : List UInt8} (hline : IntactLine line) (h : Intact image) :
    Intact (line ++ image) := by
  obtain ⟨lines, hlines, rfl⟩ := h
  refine ⟨line :: lines, fun l hl => ?_, rfl⟩
  rcases List.mem_cons.mp hl with rfl | hl
  · exact hline
  · exact hlines l hl

/-- An image is empty or starts with a line. -/
theorem Intact.uncons {image : List UInt8} (h : Intact image) (hne : image ≠ []) :
    ∃ line rest, IntactLine line ∧ Intact rest ∧ image = line ++ rest := by
  obtain ⟨lines, hlines, rfl⟩ := h
  cases lines with
  | nil => exact absurd rfl hne
  | cons line lines =>
    exact ⟨line, lines.flatten, hlines line List.mem_cons_self,
      ⟨lines, fun l hl => hlines l (List.mem_cons_of_mem line hl), rfl⟩, rfl⟩

theorem Intact.length {image : List UInt8} (h : Intact image) : image.length % chunkSize = 0 := by
  obtain ⟨lines, hlines, rfl⟩ := h
  rw [List.length_flatten, List.map_congr_left fun l hl => (hlines l hl).length, List.map_const',
    List.sum_replicate, smul_eq_mul, Nat.mul_mod_left]

/-! ## Round trips -/

theorem crc_intact (data : List UInt8) : Intact (crc data) := by
  rw [crc.eq_def]
  split_ifs with hdata
  · exact intact_nil
  · have hpos := List.length_pos_iff.mpr hdata
    have hlen : (data.take 32).length ≤ 32 := by
      rw [List.length_take]
      omega
    exact Intact.cons ⟨padBlock (data.take 32), length_padBlock hlen, rfl⟩ (crc_intact _)
termination_by data.length
decreasing_by
  rw [List.length_drop]
  omega

theorem uncrc_line {line : List UInt8} (h : IntactLine line) (rest : List UInt8) :
    uncrc (line ++ rest) = line.take 32 ++ uncrc rest := by
  have hlen := h.length
  have hlong : ¬(line ++ rest).length < chunkSize := by
    rw [List.length_append, hlen]
    omega
  rw [uncrc, if_neg hlong, List.take_left' hlen, List.drop_left' hlen]
  rfl

/-- What one tool wrapped the other unwraps, up to the padding. -/
theorem uncrc_crc (data : List UInt8) : uncrc (crc data) = padFile data := by
  rw [crc.eq_def]
  split_ifs with hdata
  · subst hdata
    rw [uncrc, if_pos (by decide)]
    rfl
  · have hpos := List.length_pos_iff.mpr hdata
    have hlen : (data.take 32).length ≤ 32 := by
      rw [List.length_take]
      omega
    have hblock := length_padBlock hlen
    have hrest := uncrc_crc (data.drop 32)
    have hline : (padBlock (data.take 32) ++ packBe16 (computeCrc16 (padBlock (data.take 32)))).take
        32 = padBlock (data.take 32) := List.take_left' hblock
    dsimp only
    rw [uncrc_line ⟨_, hblock, rfl⟩, hline, hrest, padBlock, padFile, padFile, List.length_drop,
      List.length_take]
    rcases Nat.lt_or_ge data.length 32 with hlt | hge
    · rw [List.drop_of_length_le (by omega), List.take_of_length_le (by omega), Nat.min_eq_right
        (by omega), Nat.mod_eq_of_lt hlt, Nat.mod_eq_of_lt (show 32 - data.length < 32 by omega),
        Nat.sub_eq_zero_of_le (show data.length ≤ 32 by omega)]
      simp
    · rw [Nat.min_eq_left hge, Nat.sub_self, List.replicate_zero, List.append_nil,
        ← List.append_assoc, List.take_append_drop, Nat.mod_eq_sub_mod hge]
termination_by data.length
decreasing_by
  rw [List.length_drop]
  omega

/-- Wrapping again what was unwrapped gives the image back. -/
theorem crc_uncrc {image : List UInt8} (h : Intact image) : crc (uncrc image) = image := by
  obtain ⟨lines, hlines, rfl⟩ := h
  induction lines with
  | nil => rw [List.flatten_nil, uncrc, if_pos (by decide), crc, if_pos rfl]
  | cons line lines ih =>
    have hline := hlines line List.mem_cons_self
    have hrest := ih fun l hl => hlines l (List.mem_cons_of_mem line hl)
    rw [List.flatten_cons, uncrc_line hline]
    obtain ⟨block, hblock, rfl⟩ := hline
    have hne : block ++ uncrc lines.flatten ≠ [] := by
      intro h
      rw [(List.append_eq_nil_iff.mp h).1] at hblock
      cases hblock
    have hpad : padBlock block = block := by
      rw [padBlock, hblock]
      exact List.append_nil block
    rw [List.take_left' hblock, crc, if_neg hne, List.take_left' hblock, List.drop_left' hblock,
      hrest]
    dsimp only
    rw [hpad]

/-- The tools are inverse to each other between padded files and intact images. -/
theorem crc_roundTrip :
    (∀ data, Intact (crc data) ∧ uncrc (crc data) = padFile data) ∧
      ∀ image, crc (uncrc image) = image ↔ Intact image := by
  refine ⟨fun data => ⟨crc_intact data, uncrc_crc data⟩, fun image => ⟨fun h => ?_, crc_uncrc⟩⟩
  rw [← h]
  exact crc_intact _

/-! ## The register -/

theorem crc16Bit_eq (x : BitVec 16) : crc16Bit x.toNat = (Crc.shift 0x8005#16 x).toNat := by
  have hmask : ∀ n : ℕ, n &&& 0xFFFF = n % 2 ^ 16 := fun n => Nat.and_two_pow_sub_one_eq_mod n 16
  have htop : x.toNat &&& 0x8000 ≠ 0 ↔ x.msb = true := by
    have hbit : x.msb = x.toNat.testBit 15 := BitVec.msb_eq_getLsbD_last x
    rw [show (0x8000 : ℕ) = 2 ^ 15 from rfl, Nat.and_two_pow, hbit]
    cases x.toNat.testBit 15 <;> simp
  rw [crc16Bit, Crc.shift, hmask]
  by_cases h : x.msb = true
  · rw [if_pos (htop.mpr h), if_pos h, BitVec.toNat_xor, BitVec.toNat_shiftLeft,
      Nat.xor_mod_two_pow]
    rfl
  · rw [if_neg (mt htop.mp h), if_neg h, BitVec.toNat_shiftLeft]

theorem crc16Bit_iterate (n : ℕ) (x : BitVec 16) :
    crc16Bit^[n] x.toNat = (Crc.shifts 0x8005#16 n x).toNat := by
  induction n with
  | zero => rfl
  | succ n ih => rw [Function.iterate_succ_apply', ih, crc16Bit_eq, Crc.shifts]

theorem computeCrc16_eq (data : List UInt8) :
    computeCrc16 data = (Crc.checksum 0x8005#16 0xFFFF#16 (data.map UInt8.toBitVec)).toNat := by
  have hfrom : ∀ (data : List UInt8) (x : BitVec 16),
      data.foldl (fun crc byte => crc16Bit^[8] (crc ^^^ (byte.toNat <<< 8))) x.toNat =
        (Crc.checksum 0x8005#16 x (data.map UInt8.toBitVec)).toNat := by
    intro data
    induction data with
    | nil => exact fun _ => rfl
    | cons byte data ih =>
      intro x
      have hbyte := byte.toNat_lt
      have hfed : (x ^^^ (byte.toBitVec.setWidth 16 <<< 8)).toNat = x.toNat ^^^ (byte.toNat <<< 8) := by
        rw [BitVec.toNat_xor, BitVec.toNat_shiftLeft, BitVec.toNat_setWidth, UInt8.toNat_toBitVec,
          Nat.mod_eq_of_lt (show byte.toNat < 2 ^ 16 by omega), Nat.shiftLeft_eq,
          Nat.mod_eq_of_lt (by omega)]
      rw [List.foldl_cons, ← hfed, crc16Bit_iterate, ih]
      rfl
  exact hfrom data 0xFFFF#16

theorem packBe16_eq (x : BitVec 16) : (packBe16 x.toNat).map UInt8.toBitVec =
    [x.extractLsb' 8 8, x.extractLsb' 0 8] := by
  simp only [packBe16, List.map_cons, List.map_nil, List.cons.injEq, and_true]
  refine ⟨?_, ?_⟩
  · apply BitVec.eq_of_toNat_eq
    simp [Nat.shiftRight_eq_div_pow]
  · apply BitVec.eq_of_toNat_eq
    simp

/-- The register a line leaves. -/
def lineRegister (line : List UInt8) : BitVec 16 :=
  Crc.checksum 0x8005#16 0xFFFF#16 (line.map UInt8.toBitVec)

theorem lineRegister_eq_zero {line : List UInt8} (h : IntactLine line) :
    lineRegister line = 0#16 := by
  obtain ⟨block, -, rfl⟩ := h
  rw [lineRegister, List.map_append, computeCrc16_eq, packBe16_eq, Crc.checksum_residue (by decide)]
  apply BitVec.eq_of_toNat_eq
  generalize Crc.checksum 0x8005#16 0xFFFF#16 (block.map UInt8.toBitVec) = x
  rw [show x.extractLsb' 8 8 ++ x.extractLsb' 0 8 = x by
    apply BitVec.eq_of_getLsbD_eq
    intro i hi
    simp only [BitVec.getLsbD_append, BitVec.getLsbD_extractLsb']
    by_cases h : i < 8
    · simp [h]
    · simp [h, show i - 8 < 8 by omega, show 8 + (i - 8) = i by omega]]

/-! ## Changed bytes -/

theorem intactLine_burst {front back : List UInt8} {a b a' b' : UInt8}
    (h : IntactLine (front ++ a :: b :: back)) (h' : IntactLine (front ++ a' :: b' :: back)) :
    a = a' ∧ b = b' := by
  have hsame := (lineRegister_eq_zero h).trans (lineRegister_eq_zero h').symm
  simp only [lineRegister, List.map_append, List.map_cons] at hsame
  obtain ⟨ha, hb⟩ := Crc.checksum_burst (by decide) _ _ _ hsame
  exact ⟨UInt8.toBitVec_inj.mp ha, UInt8.toBitVec_inj.mp hb⟩

theorem Intact.first {image : List UInt8} (h : Intact image) (hne : image ≠ []) :
    IntactLine (image.take chunkSize) ∧ Intact (image.drop chunkSize) := by
  obtain ⟨line, rest, hline, hrest, rfl⟩ := h.uncons hne
  rw [List.take_left' hline.length, List.drop_left' hline.length]
  exact ⟨hline, hrest⟩

/-- Two images that differ in two bytes in a row at most are not both intact. -/
theorem intact_eq_of_burst : ∀ (n : ℕ) (front back : List UInt8) {a b a' b' : UInt8},
    (front ++ a :: b :: back).length ≤ n → Intact (front ++ a :: b :: back) →
    Intact (front ++ a' :: b' :: back) → a = a' ∧ b = b' := by
  intro n
  induction n with
  | zero =>
    intro front back a b a' b' hn
    rw [List.length_append, List.length_cons] at hn
    omega
  | succ n ih =>
    intro front back a b a' b' hn h h'
    rw [List.length_append, List.length_cons, List.length_cons] at hn
    obtain ⟨hline, hrest⟩ := h.first (by simp)
    obtain ⟨hline', hrest'⟩ := h'.first (by simp)
    have htake : ∀ x y : UInt8, (front ++ x :: y :: back).take chunkSize =
        front.take chunkSize ++ (x :: y :: back).take (chunkSize - front.length) :=
      fun x y => List.take_append
    have hdrop : ∀ x y : UInt8, (front ++ x :: y :: back).drop chunkSize =
        front.drop chunkSize ++ (x :: y :: back).drop (chunkSize - front.length) :=
      fun x y => List.drop_append
    rw [htake] at hline hline'
    rw [hdrop] at hrest hrest'
    rcases Nat.lt_trichotomy front.length 33 with hlt | heq | hgt
    · -- Both bytes lie in the first line.
      have hfront : front.take chunkSize = front :=
        List.take_of_length_le (by rw [chunkSize]; omega)
      obtain ⟨k, hk⟩ : ∃ k, chunkSize - front.length = k + 2 :=
        ⟨chunkSize - front.length - 2, by rw [chunkSize]; omega⟩
      rw [hfront, hk, List.take_succ_cons, List.take_succ_cons] at hline hline'
      exact intactLine_burst hline hline'
    · -- The first one ends a line, the second one starts the next.
      have hfront : front.take chunkSize = front :=
        List.take_of_length_le (by rw [chunkSize]; omega)
      have hnone : front.drop chunkSize = [] :=
        List.drop_of_length_le (by rw [chunkSize]; omega)
      rw [hfront, heq] at hline hline'
      rw [hnone, heq] at hrest hrest'
      have ha : a = a' := by
        obtain ⟨body, z, rfl⟩ := (List.eq_nil_or_concat front).resolve_left (by
          rintro rfl
          cases heq)
        rw [List.concat_eq_append, List.append_assoc] at hline hline'
        exact (intactLine_burst hline hline').2
      have hback := hrest.length
      cases back with
      | nil => cases hback
      | cons c back =>
        have hrest₂ : Intact ([] ++ b :: c :: back) := hrest
        have hrest₂' : Intact ([] ++ b' :: c :: back) := hrest'
        rw [List.length_cons] at hn
        refine ⟨ha, (ih [] back ?_ hrest₂ hrest₂').1⟩
        rw [List.nil_append, List.length_cons, List.length_cons]
        omega
    · -- The first line has neither.
      have hzero : chunkSize - front.length = 0 := by
        rw [chunkSize]
        omega
      rw [hzero, List.drop_zero] at hrest hrest'
      refine ih _ back ?_ hrest hrest'
      rw [List.length_append, List.length_drop, List.length_cons, List.length_cons, chunkSize]
      omega

/-- A change within two bytes in a row is found, wherever it lies. -/
theorem burst_found {front back : List UInt8} {a b a' b' : UInt8}
    (h : Intact (front ++ a :: b :: back)) (hchanged : ¬(a = a' ∧ b = b')) :
    ¬Intact (front ++ a' :: b' :: back) :=
  fun h' => hchanged (intact_eq_of_burst _ front back le_rfl h h')

theorem burst_found_zeros : ¬Intact (List.replicate 10 0 ++ 0 :: 7 :: (List.replicate 20 0 ++
    packBe16 (computeCrc16 (List.replicate 32 0)))) := by
  have hzeros : Intact (List.replicate 10 0 ++ 0 :: 0 :: (List.replicate 20 0 ++
      packBe16 (computeCrc16 (List.replicate 32 0)))) :=
    ⟨[_], fun line hline => ⟨List.replicate 32 0, rfl, List.mem_singleton.mp hline⟩, rfl⟩
  exact burst_found hzeros (by decide)

end BekenCam.CrcImage
