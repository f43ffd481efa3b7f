import BekenCam.ShaDriver

/-!
# What the hash driver computes

As long as nobody else makes the engine work, a context and the chaining value in the engine together
hold the message so far. So the digest is that of the whole message, in whatever pieces it came and
whatever other contexts buffer meanwhile.
-/
namespace BekenCam.Security

open Standard (octets)

section

variable (h0 : ShaMode → List UInt32) (compress : ShaMode → List UInt32 → List UInt8 → List UInt32)

/-- INIT starts from the first chaining value of the mode, NEXT from the one the engine holds. -/
structure ShaEngine.Computes (engine : ShaEngine) : Prop where
  init : ∀ r, (engine.init r).chaining = compress r.mode (h0 r.mode) r.message
  next : ∀ r, (engine.next r).chaining = compress r.mode r.chaining r.message
  init_mode : ∀ r, (engine.init r).mode = r.mode
  next_mode : ∀ r, (engine.next r).mode = r.mode

/-- The digest as the standard defines it: the length field is an eighth of a block. -/
def shaDigest (mode : ShaMode) (message : List UInt8) : List UInt8 :=
  ((BlockHash.hash mode.blockSize (mode.blockSize / 8) (compress mode) (h0 mode) message).take
    (mode.digestBits / 32)).flatMap fun w => octets 4 w.toNat

/-- The chaining value of the whole blocks of the message. -/
def ShaContext.value (c : ShaContext) (regs : ShaRegs) : List UInt32 :=
  if c.firstBlock then h0 c.mode else regs.chaining

/-- The context and the engine hold the message. -/
structure ShaContext.Parts (c : ShaContext) (regs : ShaRegs) (message : List UInt8) : Prop where
  mode : regs.mode = c.mode
  absorbed : BlockHash.Absorbed c.blockSize (compress c.mode) (h0 c.mode) message (c.value h0 regs)
    (c.buffer.take c.bufferLen)

structure ShaContext.Fed (c : ShaContext) (regs : ShaRegs) (message : List UInt8) : Prop where
  total : c.total = UInt64.ofNat message.length
  parts : c.Parts h0 compress regs message

end

/-! ## Words -/

theorem lengthSizeOf_blockSize (mode : ShaMode) :
    lengthSizeOf mode.blockSize = mode.blockSize / 8 := by
  rcases blockSize_cases mode with h | h <;> rw [h] <;> rfl

theorem storeBe32_loadBe32 {p : List UInt8} (h : 4 ≤ p.length) :
    storeBe32 (loadBe32 p) = p.take 4 := by
  match p, h with
  | a :: b :: c :: d :: rest, _ =>
    have hvalue : (loadBe32 (a :: b :: c :: d :: rest)).toNat =
        16777216 * a.toNat + 65536 * b.toNat + 256 * c.toNat + d.toNat := toNat_shifted a b c d
    have ha := a.toNat_lt
    have hb := b.toNat_lt
    have hc := c.toNat_lt
    have hd := d.toNat_lt
    simp only [storeBe32, Wpa2.be32Bytes, List.take_succ_cons, List.take_zero, List.cons.injEq,
      and_true, ← UInt8.toNat_inj, UInt32.toNat_toUInt8, UInt32.toNat_shiftRight, hvalue,
      Nat.shiftRight_eq_div_pow]
    simp only [UInt32.reduceToNat, Nat.reduceMod, Nat.reducePow]
    refine ⟨?_, ?_, ?_, ?_⟩ <;> omega

/-- Words loaded from a buffer are its bytes. -/
theorem flatMap_blockWords {count : ℕ} {buffer : List UInt8} (h : count * 4 ≤ buffer.length) :
    (blockWords count buffer).flatMap storeBe32 = buffer.take (count * 4) := by
  induction count with
  | zero => simp [blockWords]
  | succ count ih =>
    have hlast : 4 ≤ (buffer.drop (count * 4)).length := by
      rw [List.length_drop]
      omega
    have hwords : blockWords (count + 1) buffer =
        blockWords count buffer ++ [loadBe32 (buffer.drop (count * 4))] := by
      rw [blockWords, List.range_succ, List.map_append]
      rfl
    rw [hwords, List.flatMap_append, ih (by omega), List.flatMap_singleton,
      storeBe32_loadBe32 hlast, Nat.succ_mul, List.take_add]

/-- The high bytes of a number that fits in the low ones. -/
theorem octets_add {n v : ℕ} (m : ℕ) (h : v < 256 ^ n) :
    octets (m + n) v = List.replicate m 0 ++ octets n v := by
  have hhigh : ∀ i ∈ (List.range m).reverse, UInt8.ofNat (v / 256 ^ (n + i)) = 0 := by
    intro i _
    rw [Nat.pow_add, ← Nat.div_div_eq_div_mul, Nat.div_eq_of_lt h, Nat.zero_div]
    rfl
  rw [octets, Nat.add_comm, List.range_add, List.reverse_append, List.map_append,
    ← List.map_reverse, List.map_map]
  congr 1
  rw [show List.replicate m (0 : UInt8) = (List.range m).reverse.map fun _ => 0 by simp]
  exact List.map_congr_left hhigh

theorem lengthBytes_eq (n : ℕ) : lengthBytes (UInt64.ofNat n) = octets 8 n := by
  rw [← Wpa2.be64Bytes_ofNat]
  simp [lengthBytes, Wpa2.be64Bytes, List.range_succ]

/-! ## One block -/

section Blocks

variable {h0 : ShaMode → List UInt32} {compress : ShaMode → List UInt32 → List UInt8 → List UInt32}
  {engine : ShaEngine} (he : engine.Computes h0 compress)
include he

theorem processBlock_mode (mode : ShaMode) (firstBlock : Bool) (buffer : List UInt8)
    (regs : ShaRegs) : (processBlock engine mode firstBlock buffer regs).mode = regs.mode := by
  rw [processBlock]
  split_ifs
  · rw [he.init_mode, ShaRegs.setBlock_mode]
  · rw [he.next_mode, ShaRegs.setBlock_mode]

theorem processBlock_chaining {mode : ShaMode} (firstBlock : Bool) {buffer : List UInt8}
    {regs : ShaRegs} (hmode : regs.mode = mode) (hbuffer : mode.blockSize ≤ buffer.length) :
    (processBlock engine mode firstBlock buffer regs).chaining =
      compress mode (if firstBlock then h0 mode else regs.chaining)
        (buffer.take mode.blockSize) := by
  have hwords := blockSize_words mode
  have hcount : mode.blockSize / 4 ≤ 32 := by
    have := blockSize_le mode
    simp only [shaBlockSizeLarge] at this
    omega
  have hmessage : ∀ h, (regs.setBlock (32 - mode.blockSize / 4)
      (blockWords (mode.blockSize / 4) buffer) h).message = buffer.take mode.blockSize := by
    intro h
    have hbase : (regs.block.take (32 - mode.blockSize / 4)).length = 32 - mode.blockSize / 4 := by
      rw [List.length_take, regs.block_size]
      omega
    have hend : 32 - mode.blockSize / 4 + mode.blockSize / 4 = 32 := by omega
    have hnothing : regs.block.drop 32 = [] := by
      rw [List.drop_eq_nil_iff, regs.block_size]
    simp only [ShaRegs.message, ShaRegs.setBlock, hmode]
    rw [writeAt, length_blockWords, List.append_assoc, List.drop_left' hbase, hend, hnothing,
      List.append_nil, flatMap_blockWords (by omega), hwords]
  rw [processBlock]
  split_ifs
  · rw [he.init, hmessage, ShaRegs.setBlock_mode, hmode]
  · rw [he.next, hmessage, ShaRegs.setBlock_mode, hmode, ShaRegs.setBlock_chaining]

namespace ShaContext

omit he in
theorem absorb_keeps (c : ShaContext) (regs : ShaRegs) (input : List UInt8) :
    (c.absorb engine regs input).1.total = c.total ∧
      (c.absorb engine regs input).1.mode = c.mode := by
  rw [ShaContext.absorb.eq_def]
  split_ifs with hinput
  · exact ⟨rfl, rfl⟩
  · have hpos := List.length_pos_iff.mpr hinput
    have hfits := c.fits
    have hfill : (c.fill engine regs (input.take (min input.length (c.blockSize - c.bufferLen)))
        (c.take_fits input)).1.total = c.total ∧ (c.fill engine regs (input.take
          (min input.length (c.blockSize - c.bufferLen))) (c.take_fits input)).1.mode = c.mode := by
      rw [ShaContext.fill]
      split_ifs <;> exact ⟨rfl, rfl⟩
    have hrest := absorb_keeps (c.fill engine regs (input.take
      (min input.length (c.blockSize - c.bufferLen))) (c.take_fits input)).1
      (c.fill engine regs (input.take (min input.length (c.blockSize - c.bufferLen)))
        (c.take_fits input)).2 (input.drop (min input.length (c.blockSize - c.bufferLen)))
    exact ⟨hrest.1.trans hfill.1, hrest.2.trans hfill.2⟩
termination_by input.length
decreasing_by
  rw [List.length_drop]
  omega

theorem Parts.fill {c : ShaContext} {regs : ShaRegs} {message piece : List UInt8}
    (h : c.Parts h0 compress regs message) (hp : c.bufferLen + piece.length ≤ c.blockSize) :
    (c.fill engine regs piece hp).1.Parts h0 compress (c.fill engine regs piece hp).2
      (message ++ piece) := by
  have hle := c.blockSize_le_buffer
  have hbuffered : (c.buffer.take c.bufferLen).length = c.bufferLen := by
    rw [List.length_take]
    omega
  have hfront : (writeAt c.buffer c.bufferLen piece).take (c.bufferLen + piece.length) =
      c.buffer.take c.bufferLen ++ piece := by
    rw [writeAt]
    exact List.take_left' (by rw [List.length_append, hbuffered])
  rw [ShaContext.fill]
  split_ifs with hfull
  · have hblock : c.mode.blockSize ≤ (writeAt c.buffer c.bufferLen piece).length := by
      rwa [length_writeAt_of_le (hp.trans hle), ← c.blockSize_eq]
    refine ⟨(processBlock_mode he _ _ _ _).trans h.mode, ?_⟩
    have hvalue := processBlock_chaining he c.firstBlock h.mode hblock
    rw [← c.blockSize_eq, ← hfull, hfront] at hvalue
    have hwhole := h.absorbed.whole piece (by rw [hbuffered, hfull])
    rw [ShaContext.value, ← hvalue] at hwhole
    exact hwhole
  · refine ⟨h.mode, ?_⟩
    have hmore := h.absorbed.fill piece (by rw [hbuffered]; omega)
    rw [← hfront] at hmore
    exact hmore

theorem Parts.absorb {c : ShaContext} {regs : ShaRegs} {message : List UInt8}
    (h : c.Parts h0 compress regs message) (input : List UInt8) :
    (c.absorb engine regs input).1.Parts h0 compress (c.absorb engine regs input).2
      (message ++ input) := by
  rw [ShaContext.absorb.eq_def]
  split_ifs with hinput
  · rwa [hinput, List.append_nil]
  · have hpos := List.length_pos_iff.mpr hinput
    have hfits := c.fits
    have hrest := (h.fill he (c.take_fits input)).absorb
      (input.drop (min input.length (c.blockSize - c.bufferLen)))
    rwa [List.append_assoc, List.take_append_drop] at hrest
termination_by input.length
decreasing_by
  rw [List.length_drop]
  omega

theorem Fed.update {c : ShaContext} {regs : ShaRegs} {message : List UInt8}
    (h : c.Fed h0 compress regs message) (input : List UInt8) :
    (shaUpdate engine c regs input).1.Fed h0 compress (shaUpdate engine c regs input).2
      (message ++ input) := by
  have hcounted : ({ c with total := c.total + UInt64.ofNat input.length } : ShaContext).Parts h0
      compress regs message := ⟨h.parts.mode, h.parts.absorbed⟩
  refine ⟨?_, hcounted.absorb he input⟩
  rw [shaUpdate, (absorb_keeps _ _ _).1, h.total, List.length_append, UInt64.ofNat_add]

omit he in
/-- A piece that leaves room in the buffer does not reach the engine. -/
theorem shaUpdate_quiet {c : ShaContext} {regs : ShaRegs} {input : List UInt8}
    (h : c.bufferLen + input.length < c.blockSize) : (shaUpdate engine c regs input).2 = regs := by
  rw [shaUpdate, ShaContext.absorb.eq_def]
  split_ifs with hinput
  · rfl
  · have hall : min input.length (c.blockSize - c.bufferLen) = input.length := by omega
    simp only [hall, List.take_length, List.drop_length]
    rw [ShaContext.absorb.eq_def, if_pos rfl, ShaContext.fill, dif_neg (by dsimp only; omega)]

/-! ## The end of the message -/

/-- The last block, once the length fits behind what is buffered. -/
theorem lastBlock_chaining {c : ShaContext} {regs : ShaRegs} {n : ℕ}
    (htotal : c.total = UInt64.ofNat n) (hn : n < 2 ^ 61) (firstBlock : Bool) {len : ℕ}
    {buffer : List UInt8} (hlen : len < c.blockSize) (hbuffer : buffer.length = shaBlockSizeLarge)
    (hmode : regs.mode = c.mode) (hfit : len + lengthSizeOf c.blockSize ≤ c.blockSize) :
    (c.lastBlock engine firstBlock len buffer regs hlen hbuffer).2.chaining =
      compress c.mode (if firstBlock then h0 c.mode else regs.chaining)
        (buffer.take len ++ (List.replicate (c.blockSize - lengthSizeOf c.blockSize - len) 0 ++
          octets (lengthSizeOf c.blockSize) (8 * n))) := by
  have hle := c.blockSize_le_buffer
  have height := c.eight_le_blockSize
  rw [c.buffer_size] at hle
  have hbits : lengthBytes (c.total * 8) = octets 8 (8 * n) := by
    rw [htotal, ← lengthBytes_eq, Nat.mul_comm, UInt64.ofNat_mul]
    rfl
  have hlength : List.replicate (lengthSizeOf c.blockSize - 8) 0 ++ octets 8 (8 * n) =
      octets (lengthSizeOf c.blockSize) (8 * n) := by
    rw [← octets_add _ (by omega), Nat.sub_add_cancel]
    rw [lengthSizeOf]
    split_ifs <;> decide
  have height' : 8 ≤ lengthSizeOf c.blockSize := by
    rw [lengthSizeOf]
    split_ifs <;> decide
  have hzero : (zeroRest buffer len c.blockSize).length = shaBlockSizeLarge := by
    rw [length_zeroRest (by omega), hbuffer]
  have hpadded : (writeAt (zeroRest buffer len c.blockSize) (c.blockSize - 8)
      (lengthBytes (c.total * 8))).take c.blockSize =
      buffer.take len ++ (List.replicate (c.blockSize - lengthSizeOf c.blockSize - len) 0 ++
        octets (lengthSizeOf c.blockSize) (8 * n)) := by
    have hfront : (zeroRest buffer len c.blockSize).take (c.blockSize - 8) =
        buffer.take len ++ List.replicate (c.blockSize - 8 - len) 0 := by
      have hbuf : (buffer.take len).length = len := by
        rw [List.length_take]
        omega
      rw [zeroRest, writeAt, List.append_assoc, List.take_append, hbuf,
        List.take_of_length_le (by rw [hbuf]; omega),
        List.take_append_of_le_length (by rw [List.length_replicate]; omega), List.take_replicate]
      congr 2
      omega
    have hsplit : (c.blockSize - 8 - len) =
        c.blockSize - lengthSizeOf c.blockSize - len + (lengthSizeOf c.blockSize - 8) := by omega
    rw [writeAt, List.take_left' (by
      rw [List.length_append, List.length_take, hzero, length_lengthBytes]
      omega), hfront, hbits, hsplit, List.replicate_add, ← hlength]
    simp only [List.append_assoc]
  have hblock : c.mode.blockSize ≤ (writeAt (zeroRest buffer len c.blockSize) (c.blockSize - 8)
      (lengthBytes (c.total * 8))).length := by
    rw [length_writeAt_of_le (by rw [length_lengthBytes]; omega), hzero]
    exact blockSize_le c.mode
  rw [ShaContext.lastBlock, ← hpadded]
  have hvalue := processBlock_chaining he firstBlock hmode hblock
  rwa [← c.blockSize_eq] at hvalue

/-- The padding goes through the buffer in one block or in two. -/
theorem Fed.hash {c : ShaContext} {regs : ShaRegs} {message : List UInt8}
    (h : c.Fed h0 compress regs message) (hn : message.length < 2 ^ 61) :
    (c.padAndProcess engine regs).2.chaining = BlockHash.hash c.mode.blockSize
      (c.mode.blockSize / 8) (compress c.mode) (h0 c.mode) message := by
  have hle := c.blockSize_le_buffer
  have hfits := c.fits
  have hbuffered : (c.buffer.take c.bufferLen).length = c.bufferLen := by
    rw [List.length_take]
    omega
  have hsmall : lengthSizeOf c.blockSize ≤ c.blockSize := by
    rw [c.blockSize_eq, lengthSizeOf_blockSize]
    omega
  have hmarked : c.marked.take (c.bufferLen + 1) = c.buffer.take c.bufferLen ++ [0x80] := by
    rw [marked, writeAt]
    exact List.take_left' (by rw [List.length_append, hbuffered]; rfl)
  rw [← lengthSizeOf_blockSize, ← c.blockSize_eq, ShaContext.padAndProcess]
  split_ifs with hflush
  · have hzeros : (zeroRest c.marked (c.bufferLen + 1) c.blockSize).take c.blockSize =
        c.buffer.take c.bufferLen ++
          0x80 :: List.replicate (c.blockSize - (c.bufferLen + 1)) 0 := by
      rw [zeroRest, writeAt, List.take_left' (by
        rw [List.length_append, hmarked, List.length_append, hbuffered, List.length_replicate,
          List.length_singleton]
        omega), hmarked, List.append_assoc, List.singleton_append]
    have hflushed : (zeroRest c.marked (c.bufferLen + 1) c.blockSize).length =
        shaBlockSizeLarge := by
      rw [length_zeroRest (by rw [c.length_marked, ← c.buffer_size]; omega), c.length_marked]
    have hblock : c.mode.blockSize ≤
        (zeroRest c.marked (c.bufferLen + 1) c.blockSize).length := by
      rw [hflushed]
      exact blockSize_le c.mode
    have hfirst := processBlock_chaining he c.firstBlock h.parts.mode hblock
    rw [← c.blockSize_eq, hzeros] at hfirst
    have hmode := (processBlock_mode he c.mode c.firstBlock
      (zeroRest c.marked (c.bufferLen + 1) c.blockSize) regs).trans h.parts.mode
    have hlast := lastBlock_chaining he h.total hn false (Nat.zero_lt_of_lt c.fits) hflushed hmode
      (by omega)
    have htwo := h.parts.absorbed.hash_two (lengthSizeOf c.blockSize)
      (by rw [hbuffered]; omega) hsmall
    rw [htwo, hbuffered, ShaContext.value, ← hfirst]
    exact hlast
  · have hlast := lastBlock_chaining he h.total hn c.firstBlock
      (show c.bufferLen + 1 < c.blockSize by
        rw [lengthSizeOf] at hflush; split_ifs at hflush <;> omega) c.length_marked h.parts.mode
      (by omega)
    have hone := h.parts.absorbed.hash_one (lengthSizeOf c.blockSize)
      (by rw [hbuffered]; omega)
    rw [hone, hbuffered, ShaContext.value]
    rw [hmarked] at hlast
    rwa [List.append_assoc, List.singleton_append, ← List.cons_append] at hlast

theorem padAndProcess_mode (c : ShaContext) (regs : ShaRegs) :
    (c.padAndProcess engine regs).2.mode = regs.mode := by
  rw [ShaContext.padAndProcess]
  split_ifs
  · exact (processBlock_mode he _ _ _ _).trans (processBlock_mode he _ _ _ _)
  · exact processBlock_mode he _ _ _ _

omit he in
theorem readDigest_eq {mode : ShaMode} {regs : ShaRegs} (hmode : regs.mode = mode) :
    readDigest mode regs =
      (regs.chaining.take (mode.digestBits / 32)).flatMap fun w => octets 4 w.toNat := by
  have hfit : 16 - mode.stateBits / 32 + mode.digestBits / 32 ≤ regs.digest.length := by
    rw [regs.digest_size]
    cases mode <;> decide
  rw [readDigest, ShaRegs.chaining, hmode]
  generalize 16 - mode.stateBits / 32 = base at hfit
  generalize mode.digestBits / 32 = n at hfit
  induction n with
  | zero => simp
  | succ n ih =>
    have hget : (regs.digest.drop base).take (n + 1) =
        (regs.digest.drop base).take n ++ [regs.digest.getD (base + n) 0] := by
      rw [List.take_add_one, List.getElem?_drop, List.getD_eq_getElem _ _ (by omega),
        List.getElem?_eq_getElem (by omega)]
      rfl
    rw [List.range_succ, List.flatMap_append, ih (by omega), hget, List.flatMap_append,
      List.flatMap_singleton, List.flatMap_singleton, storeBe32, Wpa2.be32Bytes_eq]

theorem Fed.finish {c : ShaContext} {regs : ShaRegs} {message : List UInt8}
    (h : c.Fed h0 compress regs message) (hn : message.length < 2 ^ 61) :
    shaFinish engine c regs = shaDigest h0 compress c.mode message := by
  rw [shaFinish, readDigest_eq ((padAndProcess_mode he c regs).trans h.parts.mode), h.hash he hn]
  rfl

omit he in
theorem fed_create (regs : ShaRegs) (mode : ShaMode) :
    (shaCreateContext mode).Fed h0 compress (regs.configure mode) [] :=
  ⟨rfl, rfl, BlockHash.Absorbed.start (blockSize_pos mode)⟩

end ShaContext

/-- The functions that do all in one call. -/
theorem shaOneshot_eq (mode : ShaMode) (regs : ShaRegs) {input : List UInt8}
    (hlen : input.length < 2 ^ 61) :
    shaOneshot engine mode regs input = shaDigest h0 compress mode input := by
  have hfed := (ShaContext.fed_create regs mode).update he input
  have hmode : (shaUpdate engine (shaCreateContext mode) (regs.configure mode) input).1.mode =
      mode := (ShaContext.absorb_keeps _ _ _).2
  have hdigest := hfed.finish he hlen
  rwa [hmode] at hdigest

end Blocks

/-! ## One engine for all contexts -/

/-- The bytes a call gives to the context `h`. -/
def ShaCall.fed (h : ℕ) : ShaCall → List UInt8
  | update h' input => if h' = h then input else []
  | _ => []

/-- The message of the context `h`. -/
def fedBytes (h : ℕ) (calls : List ShaCall) : List UInt8 := calls.flatMap (ShaCall.fed h)

namespace ShaSystem

/-- Nobody but `h` changes the mode or makes the engine take in a block. -/
def Undisturbed (h : ℕ) (s : ShaSystem) : ShaCall → Prop
  | .create _ mode => mode = s.regs.mode
  | .update h' input =>
    h' = h ∨ ∀ c, s.contexts h' = some c → c.bufferLen + input.length < c.blockSize
  | .finish _ => False
  | .destroy h' => h' ≠ h

/-- The context `h` has been given the message. -/
def Holds (h0 : ShaMode → List UInt32) (compress : ShaMode → List UInt32 → List UInt8 → List UInt32)
    (s : ShaSystem) (h : ℕ) (mode : ShaMode) (message : List UInt8) : Prop :=
  ∃ c, s.contexts h = some c ∧ c.mode = mode ∧ c.Fed h0 compress s.regs message

variable {h0 : ShaMode → List UInt32} {compress : ShaMode → List UInt32 → List UInt8 → List UInt32}
  {engine : ShaEngine} (he : engine.Computes h0 compress) {h : ℕ} {mode : ShaMode}
include he

theorem holds_step {s s' : ShaSystem} {message : List UInt8} {call : ShaCall}
    (hs : s.Holds h0 compress h mode message) (hquiet : s.Undisturbed h call)
    (hstep : s.step engine call = some s') :
    s'.Holds h0 compress h mode (message ++ call.fed h) := by
  obtain ⟨c, hc, hmode, hfed⟩ := hs
  cases call with
  | create h' m =>
    simp only [ShaSystem.step, Option.isNone_iff_eq_none] at hstep
    split_ifs at hstep with hnew
    obtain rfl := Option.some.inj hstep
    have hne : h ≠ h' := by
      rintro rfl
      rw [hc] at hnew
      cases hnew
    obtain rfl : m = s.regs.mode := hquiet
    rw [show message ++ (ShaCall.create h' s.regs.mode).fed h = message from List.append_nil _]
    exact ⟨c, (s.put_contexts_ne hne _).trans hc, hmode, hfed.total, hfed.parts.mode,
      hfed.parts.absorbed⟩
  | update h' input =>
    obtain ⟨c', hc', rfl⟩ := Option.map_eq_some_iff.mp hstep
    by_cases heq : h' = h
    · subst heq
      obtain rfl := Option.some.inj (hc.symm.trans hc')
      rw [ShaCall.fed, if_pos rfl]
      exact ⟨_, s.put_contexts _ _, (ShaContext.absorb_keeps _ _ _).2.trans hmode,
        hfed.update he input⟩
    · have hroom := (hquiet.resolve_left heq) c' hc'
      rw [ShaCall.fed, if_neg heq, List.append_nil]
      refine ⟨c, (s.put_contexts_ne (Ne.symm heq) _).trans hc, hmode, ?_⟩
      rw [put_regs, ShaContext.shaUpdate_quiet hroom]
      exact hfed
  | finish h' => exact hquiet.elim
  | destroy h' =>
    obtain ⟨c', -, rfl⟩ := Option.map_eq_some_iff.mp hstep
    rw [show message ++ (ShaCall.destroy h').fed h = message from List.append_nil _]
    exact ⟨c, (Function.update_of_ne (Ne.symm hquiet) ..).trans hc, hmode, hfed⟩

theorem holds_run {s s' : ShaSystem} {message : List UInt8} {calls : List ShaCall}
    (hs : s.Holds h0 compress h mode message)
    (hquiet : Within (step engine) (Undisturbed h) s calls)
    (hrun : runSteps (step engine) s calls = some s') :
    s'.Holds h0 compress h mode (message ++ fedBytes h calls) := by
  induction calls generalizing s message with
  | nil =>
    cases hrun
    rwa [fedBytes, List.flatMap_nil, List.append_nil]
  | cons call calls ih =>
    obtain ⟨s₁, hstep, hrest⟩ := runSteps_cons hrun
    have hafter := ih (holds_step he hs hquiet.1 hstep) (hquiet.2 s₁ hstep) hrest
    rwa [List.append_assoc] at hafter

/-- Pieces and other contexts leave no trace in a digest. -/
theorem finish_digest {s s₁ s' : ShaSystem} {calls : List ShaCall}
    (hcreate : s.step engine (.create h mode) = some s₁)
    (hquiet : Within (step engine) (Undisturbed h) s₁ calls)
    (hrun : runSteps (step engine) s₁ calls = some s')
    (hlen : (fedBytes h calls).length < 2 ^ 61) :
    ∃ c, s'.contexts h = some c ∧
      shaFinish engine c s'.regs = shaDigest h0 compress mode (fedBytes h calls) := by
  simp only [ShaSystem.step] at hcreate
  split_ifs at hcreate
  obtain rfl := Option.some.inj hcreate
  have hstart : (s.create h mode).Holds h0 compress h mode [] :=
    ⟨shaCreateContext mode, s.put_contexts _ _, rfl, ShaContext.fed_create s.regs mode⟩
  obtain ⟨c, hc, rfl, hfed⟩ := holds_run he hstart hquiet hrun
  exact ⟨c, hc, hfed.finish he hlen⟩

end ShaSystem

/-! ## SHA-1 -/

def wordList (w : Standard.Words) : List UInt32 := [w.a, w.b, w.c, w.d, w.e]

/-- What the engine computes in the mode of SHA-1 is SHA-1. -/
structure IsSha1 (h0 : ShaMode → List UInt32)
    (compress : ShaMode → List UInt32 → List UInt8 → List UInt32) : Prop where
  initial : h0 .sha1 = wordList Standard.initial
  compress : ∀ w block, compress .sha1 (wordList w) block = wordList (Standard.compress w block)

theorem shaDigest_sha1 {h0 : ShaMode → List UInt32}
    {compress : ShaMode → List UInt32 → List UInt8 → List UInt32} (h : IsSha1 h0 compress)
    (message : List UInt8) : shaDigest h0 compress .sha1 message = Standard.sha1 message := by
  have hhash : BlockHash.hash 64 8 (compress .sha1) (h0 .sha1) message =
      wordList (BlockHash.hash 64 8 Standard.compress Standard.initial message) := by
    rw [BlockHash.hash, BlockHash.hash, h.initial]
    exact List.foldl_hom wordList h.compress
  have hwords : ∀ w : Standard.Words, ((wordList w).take 5).flatMap (fun w => octets 4 w.toNat) =
      octets 4 w.a.toNat ++ octets 4 w.b.toNat ++ octets 4 w.c.toNat ++ octets 4 w.d.toNat ++
        octets 4 w.e.toNat := by
    intro w
    simp [wordList]
  rw [Standard.sha1, BlockHash.hash_sha1, ← hwords, ← hhash]
  rfl

/-- The engine and the software for Wi-Fi keys hash alike. -/
theorem shaOneshot_sha1 {h0 : ShaMode → List UInt32}
    {compress : ShaMode → List UInt32 → List UInt8 → List UInt32} {engine : ShaEngine}
    (he : engine.Computes h0 compress) (h : IsSha1 h0 compress) (regs : ShaRegs)
    {input : List UInt8} (hlen : input.length < 2 ^ 61) :
    shaOneshot engine .sha1 regs input = Wpa2.sha1 input := by
  rw [shaOneshot_eq he .sha1 regs hlen, shaDigest_sha1 h, Wpa2.sha1_eq]

/-- An engine that puts its chaining value at the end of the digest registers. -/
def ShaEngine.ofCompress (h0 : ShaMode → List UInt32)
    (compress : ShaMode → List UInt32 → List UInt8 → List UInt32)
    (hsize : ∀ mode s block, (compress mode s block).length = mode.stateBits / 32) : ShaEngine :=
  let place (r : ShaRegs) (s : List UInt32) : ShaRegs :=
    { r with
      digest := List.replicate (16 - r.mode.stateBits / 32) 0 ++ compress r.mode s r.message
      digest_size := by
        rw [List.length_append, List.length_replicate, hsize]
        cases r.mode <;> rfl }
  ⟨fun r => place r (h0 r.mode), fun r => place r r.chaining⟩

theorem computes_ofCompress {h0 : ShaMode → List UInt32}
    {compress : ShaMode → List UInt32 → List UInt8 → List UInt32}
    (hsize : ∀ mode s block, (compress mode s block).length = mode.stateBits / 32) :
    (ShaEngine.ofCompress h0 compress hsize).Computes h0 compress where
  init _ := List.drop_left' List.length_replicate
  next _ := List.drop_left' List.length_replicate
  init_mode _ := rfl
  next_mode _ := rfl

/-- SHA-1 in its mode; the other modes give zeros. -/
def onlySha1 (mode : ShaMode) (s : List UInt32) (block : List UInt8) : List UInt32 :=
  match mode with
  | .sha1 =>
    wordList (Standard.compress
      ⟨s.getD 0 0, s.getD 1 0, s.getD 2 0, s.getD 3 0, s.getD 4 0⟩ block)
  | other => List.replicate (other.stateBits / 32) 0

theorem length_onlySha1 (mode : ShaMode) (s : List UInt32) (block : List UInt8) :
    (onlySha1 mode s block).length = mode.stateBits / 32 := by
  cases mode <;> simp [onlySha1, wordList, ShaMode.stateBits]

def sha1Engine : ShaEngine := .ofCompress (fun _ => wordList Standard.initial) onlySha1 length_onlySha1

def shaPowerOn : ShaRegs where
  block := List.replicate 32 0
  digest := List.replicate 16 0
  enable := false
  mode := .sha1
  block_size := rfl
  digest_size := rfl

/-- `abc` in two pieces, while a second context buffers a byte and goes. -/
theorem finish_digest_abc : ∃ s₁ s' c,
    (ShaSystem.mk shaPowerOn fun _ => none).step sha1Engine (.create 0 .sha1) = some s₁ ∧
    runSteps (ShaSystem.step sha1Engine) s₁ [.create 1 .sha1, .update 0 [0x61], .update 1 [0x07],
      .update 0 [0x62, 0x63], .destroy 1] = some s' ∧ s'.contexts 0 = some c ∧
    shaFinish sha1Engine c s'.regs = Standard.sha1 [0x61, 0x62, 0x63] := by
  have hsha1 : IsSha1 (fun _ => wordList Standard.initial) onlySha1 := ⟨rfl, fun _ _ => rfl⟩
  have hcreate : (ShaSystem.mk shaPowerOn fun _ => none).step sha1Engine (.create 0 .sha1) =
    some ((ShaSystem.mk shaPowerOn fun _ => none).create 0 .sha1) := rfl
  have hquiet : Within (ShaSystem.step sha1Engine) (ShaSystem.Undisturbed 0)
      ((ShaSystem.mk shaPowerOn fun _ => none).create 0 .sha1) [.create 1 .sha1, .update 0 [0x61],
        .update 1 [0x07], .update 0 [0x62, 0x63], .destroy 1] := by
    refine .cons rfl rfl (.cons (Or.inl rfl) rfl (.cons (Or.inr fun c hc => ?_) rfl
      (.cons (Or.inl rfl) rfl (.cons ?_ rfl trivial))))
    · obtain rfl : shaCreateContext .sha1 = c := Option.some.inj hc
      decide
    · exact Nat.one_ne_zero
  obtain ⟨c, hc, hdigest⟩ := ShaSystem.finish_digest (computes_ofCompress length_onlySha1) hcreate
    hquiet rfl (by decide)
  exact ⟨_, _, c, hcreate, rfl, hc, hdigest.trans (shaDigest_sha1 hsha1 _)⟩

end BekenCam.Security
